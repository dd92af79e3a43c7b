/-
The ways to find the outermost operator of an expression.

Each stage looks for operators of one sort. It decides, narrows the text to a part of it that stands in its place, or leaves
the text to the next stage. `Stage.order` is the order in which they are tried.

`Decomposition.Within` bounds the operands by the length of the text; `Stage.within_runAll` says that whatever the stages
lead to is shorter.
-/
import MissionScript.Expression.Fault
import MissionScript.Function.Vocabulary

namespace MissionScript

/-- the outermost operator of a text and its operands -/
inductive Decomposition where
  | leaf (text : Text)
  | unary (op : UnaryOp) (operand : Text)
  | binary (op : BinaryOp) (left right : Text)
  | call (callee : Callee) (arguments : Text)
  deriving DecidableEq, Repr

namespace Decomposition

def hasOperator : Decomposition → Bool
  | .leaf _ => false
  | _ => true

/-- Operands are shorter than a text of length `n`, and arguments leave room for their parentheses. -/
def Within (n : Nat) : Decomposition → Prop
  | .leaf _ => True
  | .unary _ operand => operand.length < n
  | .binary _ left right => left.length < n ∧ right.length < n
  | .call _ arguments => arguments.length + 2 ≤ n

theorem Within.mono {m n : Nat} {d : Decomposition} (h : d.Within m) (hmn : m ≤ n) : d.Within n := by
  cases d with
  | leaf text => trivial
  | unary op operand => exact Nat.lt_of_lt_of_le h hmn
  | binary op left right => exact ⟨Nat.lt_of_lt_of_le h.1 hmn, Nat.lt_of_lt_of_le h.2 hmn⟩
  | call callee arguments => exact Nat.le_trans h hmn

end Decomposition

/-- what a stage makes of a text -/
inductive Step where
  | decide (found : Decomposition)
  /-- a part of the text stands for the whole -/
  | narrow (inner : Text)
  deriving DecidableEq, Repr

/-- Whatever the step leads to is shorter than a text of length `n`. -/
def Step.Within (n : Nat) : Step → Prop
  | .decide found => found.Within n
  | .narrow inner => inner.length < n

def argumentTexts (inside : Text) : List Text :=
  if Text.isVisible inside then (Cell.split ',' (cells inside)).map Text.trim else []

/-! ## Splits -/

/-- a sum or a difference; a sign before the right operand is folded into the operator -/
def additive (subtracts : Bool) (left right : Text) : Decomposition :=
  let op := fun subtracts => if subtracts then BinaryOp.subtract else BinaryOp.add
  match Text.trimStart right with
  | '+' :: rest => .binary (op subtracts) left rest
  | '-' :: rest => .binary (op !subtracts) left rest
  | _ => .binary (op subtracts) left right

def multiplicative (op : BinaryOp) (left right : Text) : Except ParseError (Option Step) :=
  if Text.isVisible left && Text.isVisible right then .ok (some (.decide (.binary op left right)))
  else .error (.missingOperand (.binary op))

/-- a transpose, behind which nothing may stand -/
def transposed (operand after : Text) : Except ParseError (Option Step) :=
  match after.find? fun c => !isBlank c with
  | none => .ok (some (.decide (.unary .transpose operand)))
  | some found => .error (.operatorAdjacency .transpose found)

def isSigned : Text → Bool
  | c :: _ => c == '+' || c == '-'
  | [] => false

/-! ## Stages -/

/-- a way to find the outermost operator -/
inductive Stage where
  /-- products and powers of a text with a group, calls, and a group that is the whole text -/
  | group
  | sum
  | product
  | power
  /-- a sign before everything -/
  | sign
  /-- a call of a function of one of the kinds -/
  | call (kinds : List FunctionKind)
  /-- a transpose or an inverse marker behind everything -/
  | marker
  deriving DecidableEq, Repr

namespace Stage

/-- why a call with so many arguments is refused -/
def arityFault (name : Text) (expected found : Nat) : ParseError :=
  if expected = 1 ∧ found = 0 then .missingOperand (.function name) else .functionArity name expected found

/-- `name(arguments)` as the whole text, when the name stands for a function of an admitted kind -/
def callForm (voc : Vocabulary) (admits : FunctionKind → Bool) (cs : List Cell) : Except ParseError (Option Step) :=
  match Cell.enclosed cs with
  | none => .ok none
  | some (head, inside) =>
    let name := Text.trim head
    match (voc.kind? name).filter admits with
    | none => .ok none
    | some kind =>
      let found := (argumentTexts inside).length
      match voc.arity? name with
      | some (.exact expected) =>
        if expected = found then .ok (some (.decide (.call ⟨name, kind⟩ inside)))
        else .error (arityFault name expected found)
      | _ => .ok (some (.decide (.call ⟨name, kind⟩ inside)))

def runGroup (voc : Vocabulary) (cs : List Cell) (lowest : Option Split) : Except ParseError (Option Step) :=
  if !cs.any (Cell.holds '(') then .ok none
  else
    match lowest with
    | some ⟨.plus, _, _⟩ | some ⟨.minus, _, _⟩ => .ok none
    | some ⟨.times, left, right⟩ => multiplicative .multiply left right
    | some ⟨.divide, left, right⟩ => multiplicative .divide left right
    | some ⟨.caret, left, right⟩ =>
      .ok (if isSigned (Cell.text cs) then none else some (.decide (.binary .power left right)))
    | some ⟨.quote, left, right⟩ => if isSigned (Cell.text cs) then .ok none else transposed left right
    | none =>
      match callForm voc (fun _ => true) cs with
      | .ok none =>
        match Cell.enclosed cs with
        | some ([], inside) => .ok (some (.narrow inside))
        | _ => .ok none
      | verdict => verdict

def runMarker (cs : List Cell) : Option Step :=
  cs.getLast?.bind fun last =>
    if last.role == .inverse 0 then some (.decide (.unary .inverse (Cell.text (cs.take (cs.length - 5)))))
    else if last.holds '\'' then some (.decide (.unary .transpose (Cell.text cs.dropLast)))
    else none

/-- what a stage makes of a text, given the operator the text would be split on -/
def run (voc : Vocabulary) (cs : List Cell) (lowest : Option Split) : Stage → Except ParseError (Option Step)
  | group => runGroup voc cs lowest
  | sum =>
    match lowest with
    | some ⟨.plus, left, right⟩ => .ok (some (.decide (additive false left right)))
    | some ⟨.minus, left, right⟩ => .ok (some (.decide (additive true left right)))
    | _ => .ok none
  | product =>
    match lowest with
    | some ⟨.times, left, right⟩ => multiplicative .multiply left right
    | some ⟨.divide, left, right⟩ => multiplicative .divide left right
    | _ => .ok none
  | power =>
    match lowest with
    | some ⟨.caret, left, right⟩ =>
      .ok (if isSigned (Cell.text cs) then none else some (.decide (.binary .power left right)))
    | _ => .ok none
  | sign =>
    match Cell.text cs with
    | '-' :: rest => .ok (some (.decide (.unary .negate rest)))
    | '+' :: rest => .ok (some (.narrow rest))
    | _ => .ok none
  | call kinds => callForm voc kinds.contains cs
  | marker => .ok (runMarker cs)

def order : List Stage :=
  [group, sum, product, power, sign, call [.scalar, .userDefined], call [.matrix], marker, call [.unitConversion]]

/-- what the first stage makes of a text that does not leave it to the next -/
def runAll (voc : Vocabulary) (cs : List Cell) (lowest : Option Split) :
    List Stage → Except ParseError (Option Step)
  | [] => .ok none
  | stage :: rest =>
    match stage.run voc cs lowest with
    | .ok none => runAll voc cs lowest rest
    | verdict => verdict

end Stage

/-! ## Operands are shorter -/

theorem within_additive (subtracts : Bool) (left right : Text) :
    (additive subtracts left right).Within (left.length + right.length + 1) := by
  have hright := Text.length_trimStart_le right
  unfold additive
  split
  · next rest heq => simp only [heq, List.length_cons] at hright; exact ⟨by omega, by omega⟩
  · next rest heq => simp only [heq, List.length_cons] at hright; exact ⟨by omega, by omega⟩
  · exact ⟨by omega, by omega⟩

theorem within_multiplicative {op : BinaryOp} {left right : Text} {step : Step}
    (h : multiplicative op left right = .ok (some step)) : step.Within (left.length + right.length + 1) := by
  unfold multiplicative at h
  split at h
  · obtain rfl : Step.decide (.binary op left right) = step := by simpa using h
    exact ⟨by omega, by omega⟩
  · simp at h

theorem within_transposed {operand after : Text} {step : Step} (h : transposed operand after = .ok (some step)) :
    step.Within (operand.length + after.length + 1) := by
  unfold transposed at h
  split at h
  · obtain rfl : Step.decide (.unary .transpose operand) = step := by simpa using h
    show operand.length < _
    omega
  · simp at h

namespace Stage

theorem within_callForm {voc : Vocabulary} {admits : FunctionKind → Bool} {cs : List Cell} {step : Step}
    (h : callForm voc admits cs = .ok (some step)) : step.Within cs.length := by
  unfold callForm at h
  split at h
  · simp at h
  · next head inside henc =>
    have hlen := Cell.length_enclosed henc
    have key : ∀ {callee : Callee}, Step.decide (.call callee inside) = step → step.Within cs.length := by
      rintro callee rfl
      show inside.length + 2 ≤ _
      omega
    simp only at h
    split at h
    · simp at h
    · split at h
      · split at h
        · exact key (by simpa using h)
        · simp at h
      · exact key (by simpa using h)

theorem within_runGroup {voc : Vocabulary} {cs : List Cell} {lowest : Option Split} {step : Step}
    (hlow : ∀ split, lowest = some split → split.left.length + split.right.length + 1 = cs.length)
    (h : runGroup voc cs lowest = .ok (some step)) : step.Within cs.length := by
  unfold runGroup at h
  split at h
  · simp at h
  · split at h
    · simp at h
    · simp at h
    · rw [← hlow _ rfl]; exact within_multiplicative h
    · rw [← hlow _ rfl]; exact within_multiplicative h
    · next left right =>
      have hlen := hlow _ rfl
      simp only at hlen
      split at h
      · simp at h
      · obtain rfl : Step.decide (.binary .power left right) = step := by simpa using h
        exact ⟨by omega, by omega⟩
    · split at h
      · simp at h
      · rw [← hlow _ rfl]; exact within_transposed h
    · split at h
      · split at h
        · next inside henc =>
          have hlen := Cell.length_enclosed henc
          obtain rfl : Step.narrow inside = step := by simpa using h
          show inside.length < _
          omega
        · simp at h
      · exact within_callForm h

theorem within_runMarker {cs : List Cell} {step : Step} (h : runMarker cs = some step) : step.Within cs.length := by
  obtain ⟨last, hlast, h⟩ := Option.bind_eq_some_iff.1 h
  have hpos : 0 < cs.length := List.length_pos_iff.2 fun hnil => by simp [hnil] at hlast
  split at h
  · obtain rfl := Option.some.inj h
    show (Cell.text (cs.take (cs.length - 5))).length < _
    simp only [Cell.length_text, List.length_take]
    omega
  · split at h
    · obtain rfl := Option.some.inj h
      show (Cell.text cs.dropLast).length < _
      simp only [Cell.length_text, List.length_dropLast]
      omega
    · simp at h

/-- Every stage leads to something shorter. -/
theorem within_run {voc : Vocabulary} {cs : List Cell} {lowest : Option Split} {stage : Stage} {step : Step}
    (hlow : ∀ split, lowest = some split → split.left.length + split.right.length + 1 = cs.length)
    (h : stage.run voc cs lowest = .ok (some step)) : step.Within cs.length := by
  cases stage with
  | group => exact within_runGroup hlow h
  | sum =>
    simp only [run] at h
    split at h
    · next left right =>
      obtain rfl : Step.decide (additive false left right) = step := by simpa using h
      rw [← hlow _ rfl]; exact within_additive _ _ _
    · next left right =>
      obtain rfl : Step.decide (additive true left right) = step := by simpa using h
      rw [← hlow _ rfl]; exact within_additive _ _ _
    · simp at h
  | product =>
    simp only [run] at h
    split at h
    · rw [← hlow _ rfl]; exact within_multiplicative h
    · rw [← hlow _ rfl]; exact within_multiplicative h
    · simp at h
  | power =>
    simp only [run] at h
    split at h
    · next left right =>
      have hlen := hlow _ rfl
      simp only at hlen
      split at h
      · simp at h
      · obtain rfl : Step.decide (.binary .power left right) = step := by simpa using h
        exact ⟨by omega, by omega⟩
    · simp at h
  | sign =>
    simp only [run] at h
    have hlen := Cell.length_text cs
    split at h
    · next rest heq =>
      obtain rfl : Step.decide (.unary .negate rest) = step := by simpa using h
      show rest.length < _
      simp only [heq, List.length_cons] at hlen
      omega
    · next rest heq =>
      obtain rfl : Step.narrow rest = step := by simpa using h
      show rest.length < _
      simp only [heq, List.length_cons] at hlen
      omega
    · simp at h
  | call kinds => exact within_callForm h
  | marker => exact within_runMarker (by simpa [run] using h)

theorem within_runAll {voc : Vocabulary} {cs : List Cell} {lowest : Option Split} {stages : List Stage} {step : Step}
    (hlow : ∀ split, lowest = some split → split.left.length + split.right.length + 1 = cs.length)
    (h : runAll voc cs lowest stages = .ok (some step)) : step.Within cs.length := by
  induction stages with
  | nil => simp [runAll] at h
  | cons stage rest ih =>
    unfold runAll at h
    split at h
    · exact ih h
    · exact within_run hlow h

end Stage

end MissionScript
