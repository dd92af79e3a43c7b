/-
Which texts are calls.

Wherever a text leaves the stages before those for calls, it holds no call of a known function. So the stages for the
calls of one kind or another never decide anything, and what is a call is said without any kind.

- `Stage.headless_of_leading`: behind the stages that come first there is no call, of whatever kind.
- `Stage.runAll_leading`: behind them the stages for calls may be left out or put in.
- `ReadsCall`: a text is a call by its parentheses, its operators and the number of its arguments.
- `decompose_call_iff`: these are the texts that are read as calls, and the kind is that of the name.
-/
import MissionScript.Proofs.Expression.Spelling
import MissionScript.Proofs.Function.Kinds
import MissionScript.Proofs.Outcome

namespace MissionScript

open Cell

variable {voc : Vocabulary} {t name inside inner left right : Text} {cs : List Cell} {low : Option Split}
  {kind : FunctionKind} {step : Step}

/-! ## Calls without kinds -/

theorem Vocabulary.arity?_eq_none_iff : voc.arity? name = none ↔ voc.kind? name = none := by
  rw [← Option.not_isSome_iff_eq_none, ← Option.not_isSome_iff_eq_none, voc.isSome_arity?]

/-- Parentheses that enclose the end of the text have no known function before them. -/
def Headless (voc : Vocabulary) (cs : List Cell) : Prop :=
  ∀ head inside, enclosed cs = some (head, inside) → voc.arity? (Text.trim head) = none

/-- The text is `name(inside)`, with a number of arguments that the function takes. -/
structure Calls (voc : Vocabulary) (cs : List Cell) (name inside : Text) : Prop where
  enclosed : ∃ head, enclosed cs = some (head, inside) ∧ Text.trim head = name
  accepts : ∃ arity, voc.arity? name = some arity ∧ arity.accepts (argumentTexts inside).length = true

namespace Stage

theorem callForm_of_headless (h : Headless voc cs) (admits : FunctionKind → Bool) :
    callForm voc admits cs = .ok none :=
  callForm_eq_none fun head inside henc => Vocabulary.arity?_eq_none_iff.1 (h head inside henc)

/-- Of a text that encloses something behind a known name a call comes or an error. -/
theorem callForm_known {head : Text} (henc : enclosed cs = some (head, inside))
    (hkind : voc.kind? (Text.trim head) = some kind) :
    ∃ arity, voc.arity? (Text.trim head) = some arity ∧
      (arity.accepts (argumentTexts inside).length = true ∧
          callForm voc (fun _ => true) cs = .ok (some (.decide (.call ⟨Text.trim head, kind⟩ inside))) ∨
        arity.accepts (argumentTexts inside).length = false ∧ ∃ e, callForm voc (fun _ => true) cs = .error e) := by
  obtain ⟨arity, harity⟩ : ∃ arity, voc.arity? (Text.trim head) = some arity :=
    Option.isSome_iff_exists.1 (by rw [voc.isSome_arity?, hkind]; rfl)
  refine ⟨arity, harity, ?_⟩
  simp only [callForm, henc, hkind, harity, Option.filter_some, if_true]
  cases arity with
  | variadic => exact .inl ⟨rfl, rfl⟩
  | exact expected =>
    by_cases hcount : expected = (argumentTexts inside).length
    · exact .inl ⟨beq_iff_eq.2 hcount, if_pos hcount⟩
    · exact .inr ⟨beq_eq_false_iff_ne.2 hcount, _, if_neg hcount⟩

theorem callForm_eq_none_iff : callForm voc (fun _ => true) cs = .ok none ↔ Headless voc cs := by
  constructor
  · intro h head inside henc
    by_contra hknown
    obtain ⟨kind, hkind⟩ := Option.ne_none_iff_exists'.1 (mt Vocabulary.arity?_eq_none_iff.2 hknown)
    obtain ⟨arity, -, ⟨-, hcall⟩ | ⟨-, e, hcall⟩⟩ := callForm_known henc hkind
    · exact absurd (hcall.symm.trans h) (by simp)
    · exact absurd (hcall.symm.trans h) (by simp)
  · exact fun h => callForm_of_headless h _

theorem callForm_eq_some_iff : callForm voc (fun _ => true) cs = .ok (some step) ↔
    ∃ name kind inside, voc.kind? name = some kind ∧ Calls voc cs name inside ∧
      step = .decide (.call ⟨name, kind⟩ inside) := by
  constructor
  · intro h
    cases henc : enclosed cs with
    | none => simp [callForm, henc] at h
    | some found =>
      obtain ⟨head, inside⟩ := found
      cases hkind : voc.kind? (Text.trim head) with
      | none => simp [callForm, henc, hkind] at h
      | some kind =>
        obtain ⟨arity, harity, ⟨haccepts, hcall⟩ | ⟨-, e, hcall⟩⟩ := callForm_known henc hkind
        · have hstep := Option.some.inj (Except.ok.inj (h.symm.trans hcall))
          exact ⟨_, kind, inside, hkind, ⟨⟨head, henc, rfl⟩, arity, harity, haccepts⟩, hstep⟩
        · exact absurd (hcall.symm.trans h) (by simp)
  · rintro ⟨name, kind, inside, hkind, ⟨⟨head, henc, rfl⟩, arity, harity, haccepts⟩, rfl⟩
    obtain ⟨arity', harity', ⟨-, hcall⟩ | ⟨hrefused, -⟩⟩ := callForm_known henc hkind
    · exact hcall
    · obtain rfl := Option.some.inj (harity.symm.trans harity')
      exact absurd (hrefused.symm.trans haccepts) (by decide)

/-! ## The stages that come first -/

def leading : List Stage := [group, sum, product, power, sign]

def isCall : Stage → Bool
  | .call _ => true
  | _ => false

theorem run_sign_ne_none (h : isSigned (text cs) = true) : run voc cs low sign ≠ .ok none := by
  simp only [run]
  split
  · simp
  · simp
  · next hminus hplus =>
    cases htext : text cs with
    | nil => simp [htext, isSigned] at h
    | cons c rest =>
      rw [htext] at h hminus hplus
      rcases Bool.or_eq_true_iff.1 h with hc | hc
      · exact absurd (congrArg (· :: rest) (beq_iff_eq.1 hc)) (hplus rest)
      · exact absurd (congrArg (· :: rest) (beq_iff_eq.1 hc)) (hminus rest)

theorem any_holds_of_enclosed {head : Text} (h : enclosed cs = some (head, inside)) : cs.any (holds '(') = true := by
  by_contra hparen
  have hnone := enclosed_eq_none fun cell hcell =>
    Bool.eq_false_iff.2 (List.any_eq_false.1 (Bool.eq_false_iff.2 hparen) cell hcell)
  exact absurd (h.symm.trans hnone) (by simp)

/-- Where there is no operator the first stage takes a call, or else a group. -/
theorem runGroup_none (hparen : cs.any (holds '(') = true) :
    runGroup voc cs none =
      match callForm voc (fun _ => true) cs with
      | .ok none =>
        match enclosed cs with
        | some ([], inside) => .ok (some (.narrow inside))
        | _ => .ok none
      | verdict => verdict := by
  unfold runGroup
  rw [hparen]
  rfl

theorem headless_of_runGroup (h : runGroup voc cs none = .ok none) : Headless voc cs := by
  intro head inside henc
  rw [runGroup_none (any_holds_of_enclosed henc)] at h
  refine callForm_eq_none_iff.1 ?_ head inside henc
  split at h
  · next hcall => exact hcall
  · exact h

/-- **Behind the first stages there is no call.** Where none of them decides, no known function is called. -/
theorem headless_of_leading (h : ∀ stage ∈ leading, stage.run voc cs low = .ok none) : Headless voc cs := by
  have hgroup : runGroup voc cs low = .ok none := h group (by simp [leading])
  have hsum := h sum (by simp [leading])
  have hproduct := h product (by simp [leading])
  have hpower := h power (by simp [leading])
  have hunsigned : isSigned (text cs) = false :=
    Bool.eq_false_iff.2 fun hsigned => run_sign_ne_none hsigned (h sign (by simp [leading]))
  cases low with
  | none => exact headless_of_runGroup hgroup
  | some split =>
    intro head inside henc
    exfalso
    simp only [runGroup, any_holds_of_enclosed henc, Bool.not_true, Bool.false_eq_true, if_false, hunsigned] at hgroup
    obtain ⟨symbol, left, right⟩ := split
    cases symbol with
    | plus => exact absurd hsum (by simp [run])
    | minus => exact absurd hsum (by simp [run])
    | times => exact multiplicative_ne_none _ _ _ hproduct
    | divide => exact multiplicative_ne_none _ _ _ hproduct
    | caret => exact absurd hpower (by simp [run, hunsigned])
    | quote => exact transposed_ne_none _ _ hgroup

theorem runAll_append_congr {before stages stages' : List Stage}
    (h : (∀ stage ∈ before, stage.run voc cs low = .ok none) →
      runAll voc cs low stages = runAll voc cs low stages') :
    runAll voc cs low (before ++ stages) = runAll voc cs low (before ++ stages') := by
  induction before with
  | nil => exact h (List.forall_mem_nil _)
  | cons stage before ih =>
    by_cases hstage : stage.run voc cs low = .ok none
    · rw [List.cons_append, List.cons_append, runAll_cons_of_none hstage, runAll_cons_of_none hstage]
      exact ih fun hbefore => h (List.forall_mem_cons.2 ⟨hstage, hbefore⟩)
    · rw [List.cons_append, List.cons_append, runAll_cons_of_ne_none hstage, runAll_cons_of_ne_none hstage]

theorem runAll_filter_isCall (h : Headless voc cs) (stages : List Stage) :
    runAll voc cs low (stages.filter fun stage => !stage.isCall) = runAll voc cs low stages := by
  induction stages with
  | nil => rfl
  | cons stage stages ih =>
    cases hcall : stage.isCall with
    | true =>
      have hnone : stage.run voc cs low = .ok none := by
        cases stage with
        | call kinds => exact callForm_of_headless h _
        | _ => exact absurd hcall (by decide)
      rw [List.filter_cons_of_neg (by simp [hcall]), ih, runAll_cons_of_none hnone]
    | false =>
      rw [List.filter_cons_of_pos (by simp [hcall]), runAll, runAll, ih]

/-- **Stages for calls change nothing** behind the first stages, wherever they stand and whatever kinds they admit. -/
theorem runAll_leading (later : List Stage) :
    runAll voc cs low (leading ++ later.filter fun stage => !stage.isCall) =
      runAll voc cs low (leading ++ later) :=
  runAll_append_congr fun h => runAll_filter_isCall (headless_of_leading h) later

end Stage

/-! ## What the stages come to -/

/-- The step takes an operator with its operands out of the text. -/
def Step.Operates : Step → Prop
  | .decide (.unary _ _) => True
  | .decide (.binary _ _ _) => True
  | _ => False

namespace Stage

theorem operates_additive (subtracts : Bool) (left right : Text) :
    (Step.decide (additive subtracts left right)).Operates := by
  unfold additive
  split <;> trivial

theorem operates_multiplicative {op : BinaryOp} (h : multiplicative op left right = .ok (some step)) :
    step.Operates := by
  rw [eq_of_multiplicative h]
  trivial

theorem operates_transposed (h : transposed left right = .ok (some step)) : step.Operates := by
  rw [eq_of_transposed h]
  trivial

theorem operates_runMarker (h : runMarker cs = some step) : step.Operates := by
  obtain ⟨last, -, hlast⟩ := Option.bind_eq_some_iff.1 h
  split_ifs at hlast
  · obtain rfl := Option.some.inj hlast
    trivial
  · obtain rfl := Option.some.inj hlast
    trivial

/-- The stages for operators take operators out, and nothing else but a plus at the front. -/
theorem run_operators {stage : Stage} (hstage : stage ∈ [sum, product, power, sign, marker])
    (h : stage.run voc cs low = .ok (some step)) :
    step.Operates ∨ stage = sign ∧ ∃ rest, text cs = '+' :: rest ∧ step = .narrow rest := by
  simp only [List.mem_cons, List.not_mem_nil, or_false] at hstage
  rcases hstage with rfl | rfl | rfl | rfl | rfl
  · left
    simp only [run] at h
    split at h
    · obtain rfl := Option.some.inj (Except.ok.inj h)
      exact operates_additive _ _ _
    · obtain rfl := Option.some.inj (Except.ok.inj h)
      exact operates_additive _ _ _
    · exact absurd h (by simp)
  · left
    simp only [run] at h
    split at h
    · exact operates_multiplicative h
    · exact operates_multiplicative h
    · exact absurd h (by simp)
  · left
    simp only [run] at h
    split at h
    · split_ifs at h
      · exact absurd h (by simp)
      · obtain rfl := Option.some.inj (Except.ok.inj h)
        trivial
    · exact absurd h (by simp)
  · simp only [run] at h
    split at h
    · obtain rfl := Option.some.inj (Except.ok.inj h)
      exact .inl trivial
    -- only a plus at the front narrows the text
    · next rest htext => exact .inr ⟨rfl, rest, htext, (Option.some.inj (Except.ok.inj h)).symm⟩
    · exact absurd h (by simp)
  · exact .inl (operates_runMarker (Except.ok.inj h))

/-- Where there is an operator the first stage makes no call and does not narrow. -/
theorem operates_runGroup {split : Split} (h : runGroup voc cs (some split) = .ok (some step)) : step.Operates := by
  obtain ⟨symbol, left, right⟩ := split
  unfold runGroup at h
  split at h
  · exact absurd h (by simp)
  · cases symbol with
    | plus => exact absurd h (by simp)
    | minus => exact absurd h (by simp)
    | times => exact operates_multiplicative h
    | divide => exact operates_multiplicative h
    | caret =>
      simp only at h
      split at h
      · exact absurd h (by simp)
      · obtain rfl := Option.some.inj (Except.ok.inj h)
        trivial
    | quote =>
      simp only at h
      split at h
      · exact absurd h (by simp)
      · exact operates_transposed h

/-- What the first stage comes to besides operators: calls, and texts that a group encloses. -/
theorem runGroup_eq_some_iff (hstep : ¬step.Operates) :
    runGroup voc cs low = .ok (some step) ↔
      low = none ∧
        ((∃ name kind inside, voc.kind? name = some kind ∧ Calls voc cs name inside ∧
            step = .decide (.call ⟨name, kind⟩ inside)) ∨
          Headless voc cs ∧ ∃ inner, enclosed cs = some ([], inner) ∧ step = .narrow inner) := by
  constructor
  · intro h
    cases low with
    | some split => exact absurd (operates_runGroup h) hstep
    | none =>
      refine ⟨rfl, ?_⟩
      have hparen : cs.any (holds '(') = true := by
        by_contra hparen
        have hnone : runGroup voc cs none = .ok none := if_pos (by rw [Bool.eq_false_iff.2 hparen]; rfl)
        exact absurd (h.symm.trans hnone) (by simp)
      rw [runGroup_none hparen] at h
      split at h
      · next hnone =>
        split at h
        · next inner henc =>
          exact .inr ⟨callForm_eq_none_iff.1 hnone, inner, henc, (Option.some.inj (Except.ok.inj h)).symm⟩
        · exact absurd h (by simp)
      · exact .inl (callForm_eq_some_iff.1 h)
  · rintro ⟨rfl, ⟨name, kind, inside, hkind, hcalls, rfl⟩ | ⟨hheadless, inner, henc, rfl⟩⟩
    · obtain ⟨head, henc, -⟩ := hcalls.enclosed
      rw [runGroup_none (any_holds_of_enclosed henc),
        callForm_eq_some_iff.2 ⟨name, kind, inside, hkind, hcalls, rfl⟩]
    · rw [runGroup_none (any_holds_of_enclosed henc), callForm_eq_none_iff.2 hheadless]
      simp only [henc]

theorem order_eq : order = leading ++ [call [.scalar, .userDefined], call [.matrix], marker, call [.unitConversion]] :=
  rfl

/-- The plus at the front is taken off where no looser operator and no call is found first. -/
structure PlusFirst (voc : Vocabulary) (cs : List Cell) (low : Option Split) (rest : Text) : Prop where
  text_eq : text cs = '+' :: rest
  tier : ∀ split, low = some split → split.symbol.tier = .power
  headless : low = none → Headless voc cs

theorem runGroup_plus {rest : Text} (h : PlusFirst voc cs low rest) : runGroup voc cs low = .ok none := by
  have hsigned : isSigned (text cs) = true := by rw [h.text_eq]; rfl
  cases hparen : cs.any (holds '(') with
  | false => exact if_pos (by rw [hparen]; rfl)
  | true =>
    cases hlow : low with
    | none =>
      rw [runGroup_none hparen, callForm_eq_none_iff.2 (h.headless hlow)]
      simp only
      split
      · next inner henc =>
        have htext := text_enclosed henc
        rw [h.text_eq] at htext
        exact absurd (List.cons.inj htext).1 (by decide)
      · rfl
    | some split =>
      have htier := h.tier split hlow
      obtain ⟨symbol, left, right⟩ := split
      simp only [runGroup, hparen, hsigned]
      cases symbol with
      | caret => rfl
      | quote => rfl
      | _ => exact Tier.noConfusion htier

theorem runAll_plus {rest : Text} (h : PlusFirst voc cs low rest) :
    runAll voc cs low order = .ok (some (.narrow rest)) := by
  have hsigned : isSigned (text cs) = true := by rw [h.text_eq]; rfl
  have hsign : run voc cs low sign = .ok (some (.narrow rest)) := by simp only [run, h.text_eq]
  have hquiet : run voc cs low sum = .ok none ∧ run voc cs low product = .ok none ∧
      run voc cs low power = .ok none := by
    cases hlow : low with
    | none => exact ⟨rfl, rfl, rfl⟩
    | some split =>
      have htier := h.tier split hlow
      obtain ⟨symbol, left, right⟩ := split
      cases symbol with
      | caret => exact ⟨rfl, rfl, by simp only [run, hsigned, if_true]⟩
      | quote => exact ⟨rfl, rfl, rfl⟩
      | _ => exact Tier.noConfusion htier
  obtain ⟨hsum, hproduct, hpower⟩ := hquiet
  have hgroup : run voc cs low group = .ok none := runGroup_plus h
  rw [order, runAll_cons_of_none hgroup, runAll_cons_of_none hsum, runAll_cons_of_none hproduct,
    runAll_cons_of_none hpower, runAll_cons_of_ne_none (by simp [hsign]), hsign]

/-- Where an operator looser than a power is found, it is taken out. -/
theorem operates_of_looser {split : Split} (hlooser : split.symbol.tier ≠ .power)
    (h : runAll voc cs (some split) order = .ok (some step)) : step.Operates := by
  have hsum : ∀ (subtracts : Bool) left right,
      runAll voc cs (some ⟨if subtracts then .minus else .plus, left, right⟩) order = .ok (some step) →
        step.Operates := by
    intro subtracts left right hrun
    rw [runAll_sum] at hrun
    obtain rfl := Option.some.inj (Except.ok.inj hrun)
    exact operates_additive _ _ _
  have hproduct : ∀ (divides : Bool) left right,
      runAll voc cs (some ⟨if divides then .divide else .times, left, right⟩) order = .ok (some step) →
        step.Operates := by
    intro divides left right hrun
    rw [runAll_multiplicative] at hrun
    exact operates_multiplicative hrun
  obtain ⟨symbol, left, right⟩ := split
  cases symbol with
  | plus => exact hsum false left right h
  | minus => exact hsum true left right h
  | times => exact hproduct false left right h
  | divide => exact hproduct true left right h
  | caret => exact absurd rfl hlooser
  | quote => exact absurd rfl hlooser

/-- What the stages come to besides operators is what the first one does, or the text without a plus at the front. -/
theorem runAll_eq_some_iff (hstep : ¬step.Operates) :
    runAll voc cs low order = .ok (some step) ↔
      runGroup voc cs low = .ok (some step) ∨ ∃ rest, PlusFirst voc cs low rest ∧ step = .narrow rest := by
  constructor
  · intro h
    by_cases hgroup : run voc cs low group = .ok none
    · right
      have htier : ∀ split, low = some split → split.symbol.tier = .power := by
        rintro split rfl
        by_contra hlooser
        exact hstep (operates_of_looser hlooser h)
      have hheadless : low = none → Headless voc cs := by
        rintro rfl
        exact headless_of_runGroup hgroup
      rw [order_eq, ← runAll_leading, leading, List.cons_append, runAll_cons_of_none hgroup] at h
      obtain ⟨stage, hstage, hrun⟩ := exists_of_runAll h
      obtain hoperates | ⟨-, rest, htext, rfl⟩ := run_operators hstage hrun
      · exact absurd hoperates hstep
      · exact ⟨rest, ⟨htext, htier, hheadless⟩, rfl⟩
    · left
      rwa [order, runAll_cons_of_ne_none hgroup] at h
  · rintro (hgroup | ⟨rest, hplus, rfl⟩)
    · have hrun : run voc cs low group = .ok (some step) := hgroup
      rw [order, runAll_cons_of_ne_none (by simp [hrun]), hrun]
    · exact runAll_plus hplus

end Stage

/-! ## Levels -/

theorem stepBy_congr_stages {stages stages' : List Stage}
    (h : ∀ cs low, Stage.runAll voc cs low stages = Stage.runAll voc cs low stages') (t : Text) :
    stepBy stages voc t = stepBy stages' voc t := by
  rw [stepBy, stepBy, h]

/-- Stages that come to the same at every level come to the same. -/
theorem decomposeBy_congr_stages {stages stages' : List Stage}
    (h : ∀ cs low, Stage.runAll voc cs low stages = Stage.runAll voc cs low stages') (t : Text) :
    decomposeBy stages voc t = decomposeBy stages' voc t := by
  have hstep := stepBy_congr_stages h
  fun_induction decomposeBy stages voc t with
  | case1 t e hfails => rw [decomposeBy_eq, ← hstep, hfails]
  | case2 t found hdecides => rw [decomposeBy_eq, ← hstep, hdecides]
  | case3 t inner hnarrows ih => rw [decomposeBy_eq stages' voc t, ← hstep, hnarrows, ih]

/-- The text is no operand and passes the checks, so that the stages are tried. -/
structure Staged (t : Text) : Prop where
  not_operand : isOperand t = false
  checked : checkGroups t = .ok ()

theorem stepBy_eq_iff {stages : List Stage} (hstep : step ≠ .decide (.leaf t)) :
    stepBy stages voc t = .ok step ↔
      Staged t ∧ Stage.runAll voc (cells t) (Cell.lowest (cells t)) stages = .ok (some step) := by
  constructor
  · intro h
    unfold stepBy at h
    split_ifs at h with hoperand
    · exact absurd (Except.ok.inj h).symm hstep
    · obtain ⟨⟨⟩, hcheck, hrest⟩ := bind_eq_ok_iff.1 h
      obtain ⟨found, hrun, hfound⟩ := bind_eq_ok_iff.1 hrest
      refine ⟨⟨by simpa using hoperand, hcheck⟩, ?_⟩
      cases found with
      | none => exact absurd (Except.ok.inj hfound).symm hstep
      | some found =>
        obtain rfl := Except.ok.inj hfound
        exact hrun
  · rintro ⟨⟨hoperand, hcheck⟩, hrun⟩
    rw [stepBy, if_neg (by simp [hoperand]), hcheck, hrun]
    rfl

/-! ## Calls -/

/-- The text is a call `name(inside)`, perhaps in parentheses and behind pluses: said by what is written there and by
the numbers of arguments that the names of functions stand for. -/
inductive ReadsCall (voc : Vocabulary) (name inside : Text) : Text → Prop where
  | call {t : Text} (h : Staged (Text.trim t)) (hlow : lowest (cells (Text.trim t)) = none)
    (hcalls : Calls voc (cells (Text.trim t)) name inside) : ReadsCall voc name inside t
  | group {t inner : Text} (h : Staged (Text.trim t)) (hlow : lowest (cells (Text.trim t)) = none)
    (hheadless : Headless voc (cells (Text.trim t))) (henc : enclosed (cells (Text.trim t)) = some ([], inner))
    (hinner : ReadsCall voc name inside inner) : ReadsCall voc name inside t
  | plus {t rest : Text} (h : Staged (Text.trim t))
    (hplus : Stage.PlusFirst voc (cells (Text.trim t)) (lowest (cells (Text.trim t))) rest)
    (hrest : ReadsCall voc name inside rest) : ReadsCall voc name inside t

/-- A step makes a call of a text that is one. -/
theorem stepBy_call_iff :
    stepBy Stage.order voc t = .ok (.decide (.call ⟨name, kind⟩ inside)) ↔
      voc.kind? name = some kind ∧ Staged t ∧ lowest (cells t) = none ∧ Calls voc (cells t) name inside := by
  have hcall : ¬(Step.decide (.call ⟨name, kind⟩ inside)).Operates := id
  rw [stepBy_eq_iff (by simp), Stage.runAll_eq_some_iff hcall, Stage.runGroup_eq_some_iff hcall]
  simp only [Step.decide.injEq, Decomposition.call.injEq, Callee.mk.injEq, reduceCtorEq, and_false, exists_false,
    or_false]
  constructor
  · rintro ⟨hstaged, hlow, name', kind', inside', hkind, hcalls, ⟨rfl, rfl⟩, rfl⟩
    exact ⟨hkind, hstaged, hlow, hcalls⟩
  · rintro ⟨hkind, hstaged, hlow, hcalls⟩
    exact ⟨hstaged, hlow, name, kind, inside, hkind, hcalls, ⟨rfl, rfl⟩, rfl⟩

/-- A step narrows a text to what a group encloses, or to what stands behind a plus. -/
theorem stepBy_narrow_iff :
    stepBy Stage.order voc t = .ok (.narrow inner) ↔
      Staged t ∧ (lowest (cells t) = none ∧ Headless voc (cells t) ∧ enclosed (cells t) = some ([], inner) ∨
        Stage.PlusFirst voc (cells t) (lowest (cells t)) inner) := by
  have hnarrow : ¬(Step.narrow inner).Operates := id
  rw [stepBy_eq_iff (by simp), Stage.runAll_eq_some_iff hnarrow, Stage.runGroup_eq_some_iff hnarrow]
  simp only [Step.narrow.injEq, reduceCtorEq, and_false, exists_false, false_or]
  constructor
  · rintro ⟨hstaged, ⟨hlow, hheadless, _, henc, rfl⟩ | ⟨_, hplus, rfl⟩⟩
    · exact ⟨hstaged, .inl ⟨hlow, hheadless, henc⟩⟩
    · exact ⟨hstaged, .inr hplus⟩
  · rintro ⟨hstaged, ⟨hlow, hheadless, henc⟩ | hplus⟩
    · exact ⟨hstaged, .inl ⟨hlow, hheadless, inner, henc, rfl⟩⟩
    · exact ⟨hstaged, .inr ⟨inner, hplus, rfl⟩⟩

/-- **What is read as a call** does not depend on the kind of the function; the kind is added. -/
theorem decompose_call_iff :
    decompose voc t = .ok (.call ⟨name, kind⟩ inside) ↔ voc.kind? name = some kind ∧ ReadsCall voc name inside t := by
  constructor
  · intro h
    unfold decompose at h
    fun_induction decomposeBy Stage.order voc t with
    | case1 t e hfails => exact absurd h (by simp)
    | case2 t found hdecides =>
      obtain rfl := Except.ok.inj h
      obtain ⟨hkind, hstaged, hlow, hcalls⟩ := stepBy_call_iff.1 hdecides
      exact ⟨hkind, .call hstaged hlow hcalls⟩
    | case3 t inner hnarrows ih =>
      obtain ⟨hkind, hinner⟩ := ih h
      obtain ⟨hstaged, ⟨hlow, hheadless, henc⟩ | hplus⟩ := stepBy_narrow_iff.1 hnarrows
      · exact ⟨hkind, .group hstaged hlow hheadless henc hinner⟩
      · exact ⟨hkind, .plus hstaged hplus hinner⟩
  · rintro ⟨hkind, hreads⟩
    induction hreads with
    | call hstaged hlow hcalls =>
      rw [decompose, decomposeBy_eq, stepBy_call_iff.2 ⟨hkind, hstaged, hlow, hcalls⟩]
    | group hstaged hlow hheadless henc _ ih =>
      rw [decompose, decomposeBy_eq, stepBy_narrow_iff.2 ⟨hstaged, .inl ⟨hlow, hheadless, henc⟩⟩]
      exact ih
    | plus hstaged hplus _ ih =>
      rw [decompose, decomposeBy_eq, stepBy_narrow_iff.2 ⟨hstaged, .inr hplus⟩]
      exact ih

/-- **The first stage decides every call.** A text that the stages before those for calls leave alone is no call, of
whatever kinds. So the later stages for calls may be left out, or admit other kinds; and what is read as a call is said
by its form and the number of its arguments, while the kind is only that of the name. -/
theorem calls_decided_first (voc : Vocabulary) :
    (∀ cs low, (∀ stage ∈ Stage.leading, stage.run voc cs low = .ok none) →
      ∀ admits, Stage.callForm voc admits cs = .ok none) ∧
    (∀ t, decomposeBy (Stage.order.filter fun stage => !stage.isCall) voc t = decompose voc t) ∧
    (∀ kinds₁ kinds₂ kinds₃ t, decomposeBy [.group, .sum, .product, .power, .sign, .call kinds₁, .call kinds₂, .marker,
      .call kinds₃] voc t = decompose voc t) ∧
    ∀ t name kind inside, decompose voc t = .ok (.call ⟨name, kind⟩ inside) ↔
      voc.kind? name = some kind ∧ ReadsCall voc name inside t := by
  have hleading : ∀ kinds₁ kinds₂ kinds₃ t, decomposeBy (Stage.leading ++ [.marker]) voc t =
      decomposeBy (Stage.leading ++ [.call kinds₁, .call kinds₂, .marker, .call kinds₃]) voc t :=
    fun kinds₁ kinds₂ kinds₃ => decomposeBy_congr_stages fun cs low =>
      Stage.runAll_leading [.call kinds₁, .call kinds₂, .marker, .call kinds₃]
  refine ⟨?_, ?_, ?_, ?_⟩
  · intro cs low h admits
    exact Stage.callForm_of_headless (Stage.headless_of_leading h) admits
  · exact hleading _ _ _
  · intro kinds₁ kinds₂ kinds₃ t
    exact (hleading kinds₁ kinds₂ kinds₃ t).symm.trans (hleading _ _ _ t)
  · intro t name kind inside
    exact decompose_call_iff

/-- A call in parentheses behind a plus, and an element of an array with a transpose, which is no call. -/
theorem calls_decided_first_behind_plus :
    decompose .initial "+(sin( x ))".toList = .ok (.call ⟨"sin".toList, .scalar⟩ " x ".toList) ∧
      ReadsCall .initial "sin".toList " x ".toList "+(sin( x ))".toList ∧
      decomposeBy (Stage.order.filter fun stage => !stage.isCall) .initial "+(sin( x ))".toList =
        .ok (.call ⟨"sin".toList, .scalar⟩ " x ".toList) ∧
      ∀ admits, Stage.callForm .initial admits (cells "arr(1, 2)".toList) = .ok none := by
  obtain ⟨hnone, hremoved, -, hcall⟩ := calls_decided_first .initial
  have hplus : stepBy Stage.order .initial "+(sin( x ))".toList = .ok (.narrow "(sin( x ))".toList) := by rfl
  have hgroup : stepBy Stage.order .initial "(sin( x ))".toList = .ok (.narrow "sin( x )".toList) := by rfl
  have hsin : stepBy Stage.order .initial "sin( x )".toList =
      .ok (.decide (.call ⟨"sin".toList, .scalar⟩ " x ".toList)) := by rfl
  have hread : decompose .initial "+(sin( x ))".toList = .ok (.call ⟨"sin".toList, .scalar⟩ " x ".toList) := by
    rw [decompose, decomposeBy_eq, show Text.trim "+(sin( x ))".toList = "+(sin( x ))".toList from rfl, hplus]
    simp only
    rw [decomposeBy_eq, show Text.trim "(sin( x ))".toList = "(sin( x ))".toList from rfl, hgroup]
    simp only
    rw [decomposeBy_eq, show Text.trim "sin( x )".toList = "sin( x )".toList from rfl, hsin]
  have hleading : ∀ stage ∈ Stage.leading, stage.run .initial (cells "arr(1, 2)".toList) none = .ok none := by
    simp only [Stage.leading, List.forall_mem_cons]
    exact ⟨rfl, rfl, rfl, rfl, rfl, List.forall_mem_nil _⟩
  exact ⟨hread, ((hcall _ _ _ _).1 hread).2, (hremoved _).trans hread, hnone _ _ hleading⟩

end MissionScript
