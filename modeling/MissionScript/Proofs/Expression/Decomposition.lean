/-
What one level of an expression comes to.

`decompose_eq` is the level as a whole: a text that is no operand and passes the checks is what the stages make of it.
The stages themselves are settled by the operator the text would be split on.
- `runAll_sum`, `runAll_product`, `runAll_power`: a sum, a product, or a power without a leading sign is split there.
- `runAll_signed`: behind a leading sign that no looser operator follows nothing is split.
- `runAll_group`, `runAll_call`: a group stands for what it encloses, and a call is a call.
- `runAll_leaf`: a text without operators, parentheses, signs and postfix operators is left alone.
-/
import MissionScript.Expression.Build
import MissionScript.Proofs.Cell.Neighbours
import MissionScript.Proofs.Function.Names

namespace MissionScript

variable {voc : Vocabulary} {t left right : Text} {step : Step}

/-! ## Splits -/

theorem eq_of_multiplicative {op : BinaryOp} (h : multiplicative op left right = .ok (some step)) :
    step = .decide (.binary op left right) := by
  unfold multiplicative at h
  split_ifs at h
  exact (Option.some.inj (Except.ok.inj h)).symm

theorem multiplicative_ne_none (op : BinaryOp) (left right : Text) : multiplicative op left right ≠ .ok none := by
  unfold multiplicative
  split_ifs <;> simp

theorem eq_of_transposed (h : transposed left right = .ok (some step)) : step = .decide (.unary .transpose left) := by
  unfold transposed at h
  split at h
  · exact (Option.some.inj (Except.ok.inj h)).symm
  · exact absurd h (by simp)

theorem transposed_ne_none (operand after : Text) : transposed operand after ≠ .ok none := by
  unfold transposed
  split <;> simp

/-! ## Stages -/

namespace Stage

variable {cs : List Cell}

theorem runAll_cons_of_none {stage : Stage} {stages : List Stage} {split : Option Split}
    (h : stage.run voc cs split = .ok none) : runAll voc cs split (stage :: stages) = runAll voc cs split stages := by
  rw [runAll, h]

theorem runAll_cons_of_ne_none {stage : Stage} {stages : List Stage} {split : Option Split}
    (h : stage.run voc cs split ≠ .ok none) : runAll voc cs split (stage :: stages) = stage.run voc cs split := by
  unfold runAll
  split
  · next hnone => exact absurd hnone h
  · rfl

/-- What the stages come to one of them does. -/
theorem exists_of_runAll {stages : List Stage} {split : Option Split} {step : Step}
    (h : runAll voc cs split stages = .ok (some step)) :
    ∃ stage ∈ stages, stage.run voc cs split = .ok (some step) := by
  induction stages with
  | nil => exact absurd h (by simp [runAll])
  | cons stage stages ih =>
    by_cases hstage : stage.run voc cs split = .ok none
    · rw [runAll_cons_of_none hstage] at h
      obtain ⟨later, hmem, hlater⟩ := ih h
      exact ⟨later, List.mem_cons_of_mem stage hmem, hlater⟩
    · rw [runAll_cons_of_ne_none hstage] at h
      exact ⟨stage, List.mem_cons_self, h⟩

theorem runAll_sum (subtracts : Bool) :
    runAll voc cs (some ⟨if subtracts then .minus else .plus, left, right⟩) order =
      .ok (some (.decide (additive subtracts left right))) := by
  have hgroup : runGroup voc cs (some ⟨if subtracts then .minus else .plus, left, right⟩) = .ok none := by
    unfold runGroup
    cases subtracts <;> split_ifs <;> rfl
  simp only [order, runAll, run, hgroup]
  cases subtracts <;> rfl

/-- the product that a symbol stands for -/
def productOf (divides : Bool) : BinaryOp := if divides then .divide else .multiply

theorem runAll_product (divides : Bool) (hleft : Text.isVisible left = true) (hright : Text.isVisible right = true) :
    runAll voc cs (some ⟨if divides then .divide else .times, left, right⟩) order =
      .ok (some (.decide (.binary (productOf divides) left right))) := by
  have hsplit : multiplicative (productOf divides) left right =
      .ok (some (.decide (.binary (productOf divides) left right))) := by
    simp [multiplicative, hleft, hright]
  simp only [order, runAll, run, runGroup]
  cases divides <;> cases hparen : cs.any (Cell.holds '(') <;> simp only [productOf, Bool.false_eq_true, if_false,
    if_true, Bool.not_true, Bool.not_false] at hsplit ⊢ <;> simp only [hsplit]

/-- A product is refused or divided, whether or not a group is in it. -/
theorem runAll_multiplicative (divides : Bool) :
    runAll voc cs (some ⟨if divides then .divide else .times, left, right⟩) order =
      multiplicative (productOf divides) left right := by
  have hverdict := multiplicative_ne_none (productOf divides) left right
  have hproduct : run voc cs (some ⟨if divides then .divide else .times, left, right⟩) product =
      multiplicative (productOf divides) left right := by cases divides <;> rfl
  have hsum : run voc cs (some ⟨if divides then .divide else .times, left, right⟩) sum = .ok none := by
    cases divides <;> rfl
  cases hparen : cs.any (Cell.holds '(') with
  | true =>
    have hgroup : run voc cs (some ⟨if divides then .divide else .times, left, right⟩) group =
        multiplicative (productOf divides) left right := by
      simp only [run, runGroup, hparen]
      cases divides <;> rfl
    rw [order, runAll_cons_of_ne_none (by rwa [hgroup]), hgroup]
  | false =>
    have hgroup : run voc cs (some ⟨if divides then .divide else .times, left, right⟩) group = .ok none := by
      simp only [run, runGroup, hparen]
      rfl
    rw [order, runAll_cons_of_none hgroup, runAll_cons_of_none hsum, runAll_cons_of_ne_none (by rwa [hproduct]), hproduct]

theorem runAll_power (hsign : isSigned (Cell.text cs) = false) :
    runAll voc cs (some ⟨.caret, left, right⟩) order = .ok (some (.decide (.binary .power left right))) := by
  simp only [order, runAll, run, runGroup, hsign]
  cases hparen : cs.any (Cell.holds '(') <;> simp

theorem callForm_eq_none {admits : FunctionKind → Bool}
    (h : ∀ head inside, Cell.enclosed cs = some (head, inside) → voc.kind? (Text.trim head) = none) :
    callForm voc admits cs = .ok none := by
  unfold callForm
  cases henc : Cell.enclosed cs with
  | none => rfl
  | some found =>
    obtain ⟨head, inside⟩ := found
    simp only [h head inside henc, Option.filter_none]

/-- Behind a leading sign that no looser operator follows nothing is split. -/
theorem runAll_signed {step : Step} (hsign : isSigned (Cell.text cs) = true)
    (hhead : ∀ head inside, Cell.enclosed cs = some (head, inside) → head ≠ [] ∧ voc.kind? (Text.trim head) = none)
    {lowest : Option Split} (hlow : lowest = none ∨ ∃ left right, lowest = some ⟨.caret, left, right⟩)
    (hstep : run voc cs lowest sign = .ok (some step)) : runAll voc cs lowest order = .ok (some step) := by
  have hcall : callForm voc (fun _ => true) cs = .ok none :=
    callForm_eq_none fun head inside h => (hhead head inside h).2
  have hgroup : runGroup voc cs lowest = .ok none := by
    unfold runGroup
    cases hparen : cs.any (Cell.holds '(') with
    | false => rfl
    | true =>
      rcases hlow with rfl | ⟨left, right, rfl⟩
      · simp only [hcall, Bool.not_true, Bool.false_eq_true, if_false]
        split
        · next inside henc => exact absurd rfl (hhead [] inside henc).1
        · rfl
      · simp [hsign]
  rcases hlow with rfl | ⟨left, right, rfl⟩
  · simp only [order, runAll, hstep]
    simp only [run, hgroup]
  · simp only [order, runAll, hstep]
    simp only [run, hgroup, hsign, if_true]

theorem runAll_group {inside : Text}
    (hparen : cs.any (Cell.holds '(') = true) (henc : Cell.enclosed cs = some ([], inside))
    (hvoc : voc.kind? [] = none) : runAll voc cs none order = .ok (some (.narrow inside)) := by
  have hcall : callForm voc (fun _ => true) cs = .ok none := callForm_eq_none fun head inside' h => by
    obtain ⟨rfl, -⟩ : [] = head ∧ inside = inside' := by simpa [henc] using h
    exact hvoc
  have hgroup : runGroup voc cs none = .ok (some (.narrow inside)) := by
    unfold runGroup
    rw [hparen]
    simp only [hcall, henc]
    rfl
  simp only [order, runAll, run, hgroup]

theorem runAll_call {name inside : Text} {kind : FunctionKind} {arity : Arity} (hparen : cs.any (Cell.holds '(') = true)
    (henc : Cell.enclosed cs = some (name, inside)) (hname : Text.trim name = name) (hkind : voc.kind? name = some kind)
    (harity : voc.arity? name = some arity) (haccepts : arity.accepts (argumentTexts inside).length = true) :
    runAll voc cs none order = .ok (some (.decide (.call ⟨name, kind⟩ inside))) := by
  have hcall : callForm voc (fun _ => true) cs = .ok (some (.decide (.call ⟨name, kind⟩ inside))) := by
    unfold callForm
    simp only [henc, hname, hkind, harity, Option.filter_some, if_true]
    cases arity with
    | exact n =>
      have hn : n = (argumentTexts inside).length := by simpa [Arity.accepts] using haccepts
      simp [hn]
    | variadic => rfl
  have hgroup : runGroup voc cs none = .ok (some (.decide (.call ⟨name, kind⟩ inside))) := by
    unfold runGroup
    rw [hparen]
    simp only [hcall]
    rfl
  simp only [order, runAll, run, hgroup]

theorem run_sign_eq_none {lowest : Option Split} (hsign : isSigned (Cell.text cs) = false) :
    run voc cs lowest sign = .ok none := by
  simp only [run]
  cases htext : Cell.text cs with
  | nil => rfl
  | cons c rest =>
    rw [htext] at hsign
    simp only [isSigned, Bool.or_eq_false_iff, beq_eq_false_iff_ne] at hsign
    split <;> simp_all

/-- A name without a function in front of the parentheses makes no call. -/
theorem runAll_indexed {name inside : Text} (henc : Cell.enclosed cs = some (name, inside)) (hne : name ≠ [])
    (hkind : voc.kind? (Text.trim name) = none) (hsign : isSigned (Cell.text cs) = false)
    (hmarker : runMarker cs = none) :
    runAll voc cs none order = .ok none := by
  have hcall : ∀ admits, callForm voc admits cs = .ok none := fun admits => callForm_eq_none fun head inside' h => by
    obtain ⟨rfl, -⟩ := Prod.mk.inj (Option.some.inj (henc.symm.trans h))
    exact hkind
  have hgroup : runGroup voc cs none = .ok none := by
    unfold runGroup
    cases hparen : cs.any (Cell.holds '(') with
    | false => rfl
    | true =>
      simp only [hcall, henc, Bool.not_true, Bool.false_eq_true, if_false]
      split
      · next heq => exact absurd (Prod.mk.inj (Option.some.inj heq)).1 hne
      · rfl
  have hrun : run voc cs none sign = .ok none := run_sign_eq_none hsign
  simp only [order, runAll, hrun]
  simp only [run, hgroup, hcall, hmarker]

theorem runMarker_eq_none (h : ∀ cell ∈ cs, cell.NoPostfix) : runMarker cs = none := by
  unfold runMarker
  cases hlast : cs.getLast? with
  | none => rfl
  | some cell =>
    obtain ⟨hquote, hinverse⟩ := h cell (List.mem_of_getLast? hlast)
    simp [hquote, hinverse]

theorem runAll_leaf (hparen : ∀ cell ∈ cs, cell.holds '(' = false) (hsign : isSigned (Cell.text cs) = false)
    (hmarker : runMarker cs = none) : runAll voc cs none order = .ok none := by
  have henc := Cell.enclosed_eq_none hparen
  have hcall : ∀ admits, callForm voc admits cs = .ok none := fun admits => by simp only [callForm, henc]
  have hgroup : runGroup voc cs none = .ok none := by
    have hany : cs.any (Cell.holds '(') = false := by
      rw [List.any_eq_false]
      exact fun cell hcell => by simp [hparen cell hcell]
    simp [runGroup, hany]
  have hrun : run voc cs none sign = .ok none := run_sign_eq_none hsign
  simp only [order, runAll, hrun]
  simp only [run, hgroup, hcall, hmarker]

/-- A postfix operator at the end is taken off, unless a text with parentheses is split at a transpose first. -/
theorem runAll_marker {step : Step} (henc : Cell.enclosed cs = none) (hsign : isSigned (Cell.text cs) = false)
    {lowest : Option Split}
    (hlow : lowest = none ∨ cs.any (Cell.holds '(') = false ∧ ∃ left right, lowest = some ⟨.quote, left, right⟩)
    (hmarker : runMarker cs = some step) : runAll voc cs lowest order = .ok (some step) := by
  have hcall : ∀ admits, callForm voc admits cs = .ok none := fun admits => by simp only [callForm, henc]
  have hgroup : runGroup voc cs lowest = .ok none := by
    unfold runGroup
    rcases hlow with rfl | ⟨hparen, -⟩
    · cases hparen : cs.any (Cell.holds '(') with
      | false => rfl
      | true => simp only [hcall, henc, Bool.not_true, Bool.false_eq_true, if_false]
    · simp [hparen]
  have hrun : run voc cs lowest sign = .ok none := run_sign_eq_none hsign
  simp only [order, runAll, hrun]
  rcases hlow with rfl | ⟨-, left, right, rfl⟩
  · simp only [run, hgroup, hcall, hmarker]
  · simp only [run, hgroup, hcall, hmarker]

theorem runAll_transposed (hparen : cs.any (Cell.holds '(') = true) (hsign : isSigned (Cell.text cs) = false)
    (hne : transposed left right ≠ .ok none) :
    runAll voc cs (some ⟨.quote, left, right⟩) order = transposed left right := by
  have hgroup : runGroup voc cs (some ⟨.quote, left, right⟩) = transposed left right := by
    simp [runGroup, hparen, hsign]
  simp only [order, runAll, run, hgroup]

end Stage

/-! ## One level -/

theorem decompose_trim (voc : Vocabulary) (t : Text) : decompose voc (Text.trim t) = decompose voc t := by
  rw [decompose, decompose, decomposeBy_eq, decomposeBy_eq _ _ t, Text.trim_trim]

theorem decompose_of_isOperand (ht : Text.trim t = t) (h : isOperand t = true) : decompose voc t = .ok (.leaf t) := by
  rw [decompose, decomposeBy_eq, ht, stepBy, if_pos h]

/-- A text that is no operand and passes the checks is what the stages make of it. -/
theorem decompose_eq (ht : Text.trim t = t) (h : isOperand t = false) (hc : checkGroups t = .ok ()) :
    decompose voc t =
      match Stage.runAll voc (cells t) (Cell.lowest (cells t)) Stage.order with
      | .error e => .error e
      | .ok none => .ok (.leaf t)
      | .ok (some (.decide d)) => .ok d
      | .ok (some (.narrow inner)) => decompose voc inner := by
  have hstep : stepBy Stage.order voc t =
      (Stage.runAll voc (cells t) (Cell.lowest (cells t)) Stage.order).map fun step =>
        step.getD (.decide (.leaf t)) := by
    rw [stepBy, if_neg (by simp [h]), hc]
    cases Stage.runAll voc (cells t) (Cell.lowest (cells t)) Stage.order <;> rfl
  rw [decompose, decomposeBy_eq, ht, hstep]
  rcases Stage.runAll voc (cells t) (Cell.lowest (cells t)) Stage.order with e | step
  · rfl
  · rcases step with _ | ⟨d⟩ | ⟨inner⟩ <;> rfl

end MissionScript
