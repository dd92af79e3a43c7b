/-
One level of an expression: its outermost operator or call and the texts of the operands.

A text that is an operand as it stands is a leaf. In any other text the parentheses must balance, postfix operators must be
followed by something that may follow them, and no group may come directly after a group. Then the stages are tried, and a
text that no stage decides is a leaf as well.

`within_decompose` says that operands are shorter than the text, so that a recursion over operands ends.
-/
import MissionScript.Expression.Stage

namespace MissionScript

/-- true when the text is an operand as it stands -/
def isOperand (t : Text) : Bool :=
  t.isEmpty || Text.isNumeral t || Text.isQuoted t || Cell.isBracketLiteral (cells t)

/-- the faults of a text as a whole -/
def checkGroups (t : Text) : Except ParseError Unit :=
  if !Cell.balanced (cells t) then .error (.unbalancedParenthesis t)
  else
    match Cell.clash (cells t) with
    | some (operator, found) => .error (.operatorAdjacency operator found)
    | none => if Cell.juxtaposed (cells t) then .error (.missingOperator t) else .ok ()

def stepBy (stages : List Stage) (voc : Vocabulary) (t : Text) : Except ParseError Step :=
  if isOperand t then .ok (.decide (.leaf t))
  else do
    checkGroups t
    let step ← Stage.runAll voc (cells t) (Cell.lowest (cells t)) stages
    return step.getD (.decide (.leaf t))

theorem within_stepBy {stages : List Stage} {voc : Vocabulary} {t : Text} {step : Step}
    (h : stepBy stages voc t = .ok step) : step.Within t.length := by
  unfold stepBy at h
  split at h
  · obtain rfl := Except.ok.inj h
    trivial
  · cases hcheck : checkGroups t with
    | error e => simp [hcheck, bind, Except.bind] at h
    | ok u =>
      cases hrun : Stage.runAll voc (cells t) (Cell.lowest (cells t)) stages with
      | error e => simp [hcheck, hrun, bind, Except.bind] at h
      | ok found =>
        obtain rfl : found.getD (.decide (.leaf t)) = step := by
          simpa [hcheck, hrun, bind, Except.bind, pure, Except.pure] using h
        cases found with
        | none => trivial
        | some step =>
          rw [← length_cells t]
          exact Stage.within_runAll (fun split hsplit => Cell.length_lowest hsplit) hrun

/-- the outermost operator of a text by the given stages -/
def decomposeBy (stages : List Stage) (voc : Vocabulary) (t : Text) : Except ParseError Decomposition :=
  match _h : stepBy stages voc (Text.trim t) with
  | .error e => .error e
  | .ok (.decide found) => .ok found
  | .ok (.narrow inner) => decomposeBy stages voc inner
termination_by t.length
decreasing_by exact Nat.lt_of_lt_of_le (within_stepBy _h) (Text.length_trim_le t)

theorem decomposeBy_eq (stages : List Stage) (voc : Vocabulary) (t : Text) :
    decomposeBy stages voc t =
      match stepBy stages voc (Text.trim t) with
      | .error e => .error e
      | .ok (.decide found) => .ok found
      | .ok (.narrow inner) => decomposeBy stages voc inner := by
  rw [decomposeBy]
  split <;> simp_all

def decompose (voc : Vocabulary) (t : Text) : Except ParseError Decomposition := decomposeBy Stage.order voc t

theorem within_decomposeBy {stages : List Stage} {voc : Vocabulary} {t : Text} {d : Decomposition}
    (h : decomposeBy stages voc t = .ok d) : d.Within t.length := by
  fun_induction decomposeBy stages voc t with
  | case1 => simp at h
  | case2 t found hstep =>
    obtain rfl := Except.ok.inj h
    exact Decomposition.Within.mono (within_stepBy hstep) (Text.length_trim_le t)
  | case3 t inner hstep ih =>
    have hinner : inner.length < (Text.trim t).length := within_stepBy hstep
    exact (ih h).mono (Nat.le_of_lt (Nat.lt_of_lt_of_le hinner (Text.length_trim_le t)))

theorem within_decompose {voc : Vocabulary} {t : Text} {d : Decomposition} (h : decompose voc t = .ok d) :
    d.Within t.length := within_decomposeBy h

/-- true when the text has operators or is a call, false for an operand -/
def isEquation (voc : Vocabulary) (t : Text) : Except ParseError Bool :=
  if Text.isQuoted t then .ok false else (decompose voc t).map Decomposition.hasOperator

end MissionScript
