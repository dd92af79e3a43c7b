/-
Faults in the structure of an expression.

Parentheses without partners and groups that meet are faults of a text as a whole. They are looked for again in every
operand and every argument, but nothing is found there that the whole does not have: what a text is divided at is live, so
that its parts are read as they are read in the whole.

- `Grouped`: the parentheses balance and no groups are found to meet, which passes to the parts of a text
  (`Grouped.passes`).
- `Local.run`: no fault that a stage finds is structural.
- `build_structural`: the structural faults of a text are those of its outermost level. Groups that meet are found across
  blanks of ASCII, and overlooked if there are other blanks between them.
- `exists_overlooked_groups`: groups with a no-break space between them.
-/
import MissionScript.Proofs.Expression.Division

namespace MissionScript

open Cell Posture

variable {voc : Vocabulary} {nesting : Nesting} {t u b left right function argument : Text} {as bs cs : List Cell}
  {c : Char}

/-! ## What is checked -/

/-- A group stands behind a group with nothing live between them but characters of the given kind. -/
def GroupsMeet (isGap : Char → Bool) (cs : List Cell) : Prop :=
  ∃ before between after, cs = before ++ closing :: (between ++ opening :: after) ∧
    ∀ cell ∈ between, cell.isLive = true → isGap cell.char = true

theorem GroupsMeet.of_ascii (h : GroupsMeet isAsciiBlank cs) : GroupsMeet isBlank cs := by
  obtain ⟨before, between, after, hcs, hblank⟩ := h
  exact ⟨before, between, after, hcs, fun cell hcell hlive => isBlank_of_isAsciiBlank (hblank cell hcell hlive)⟩

/-- The first visible character behind a transpose or an inverse marker is one that may stand there. -/
def FollowersFit (cs : List Cell) : Prop :=
  ∀ before cell after, cs = before ++ cell :: after → cell.holds '\'' = true ∨ cell.role = .inverse 0 →
    ∀ c, firstShown after = some c → c ∈ postfixFollowers

/-- The parentheses balance, everything behind a postfix operator fits, and groups meet across characters of the given
kind. -/
structure LacksOperator (isGap : Char → Bool) (cs : List Cell) : Prop where
  level : Level cs
  followers : FollowersFit cs
  meet : GroupsMeet isGap cs

namespace Cell

theorem meetGroups_iff : meetGroups t = true ↔ ∃ before after, t = before ++ ')' :: '(' :: after := by
  induction t with
  | nil => simp [meetGroups]
  | cons c t ih =>
    rw [meetGroups_cons, Bool.or_eq_true, ih, Bool.and_eq_true, beq_iff_eq, beq_iff_eq, List.head?_eq_some_iff]
    constructor
    · rintro (⟨rfl, after, rfl⟩ | ⟨before, after, rfl⟩)
      · exact ⟨[], after, rfl⟩
      · exact ⟨c :: before, after, rfl⟩
    · rintro ⟨before, after, ht⟩
      cases before with
      | nil =>
        obtain ⟨rfl, rfl⟩ := List.cons.inj ht
        exact .inl ⟨rfl, after, rfl⟩
      | cons d before => exact .inr ⟨before, after, (List.cons.inj ht).2⟩

/-- What counts as groups side by side are groups that meet across blanks of ASCII. -/
theorem juxtaposed_iff : juxtaposed cs = true ↔ GroupsMeet isAsciiBlank cs := by
  constructor
  · intro h
    obtain ⟨before, after, htext⟩ := meetGroups_iff.1 h
    obtain ⟨as, xs, hcs, -, hxs⟩ := List.map_eq_append_iff.1 htext
    obtain ⟨x, ys, rfl, hx, hys⟩ := List.map_eq_cons_iff.1 hxs
    obtain ⟨y, zs, rfl, hy, -⟩ := List.map_eq_cons_iff.1 hys
    obtain ⟨l₁, l₂, rfl, -, hl₂⟩ := List.filter_eq_append_iff.1 hcs
    obtain ⟨m₁, m₂, rfl, -, hlive, hm₂⟩ := List.filter_eq_cons_iff.1 hl₂
    obtain ⟨n₁, n₂, rfl, hbetween, hlive', -⟩ := List.filter_eq_cons_iff.1 hm₂
    have hclosing : x = closing := eq_of_holds (by simp [holds, hx, (Bool.and_eq_true_iff.1 hlive).1])
    have hopening : y = opening := eq_of_holds (by simp [holds, hy, (Bool.and_eq_true_iff.1 hlive').1])
    refine ⟨l₁ ++ m₁, n₁, n₂, by simp [hclosing, hopening], ?_⟩
    intro cell hcell hcellLive
    simpa [hcellLive] using hbetween cell hcell
  · rintro ⟨before, between, after, rfl, hblank⟩
    have hshown : shown between = [] := by
      have hfilter : between.filter (fun cell => cell.isLive && !isAsciiBlank cell.char) = [] := by
        apply List.filter_eq_nil_iff.2
        intro cell hcell hkept
        obtain ⟨hlive, hvisible⟩ := Bool.and_eq_true_iff.1 hkept
        simp [hblank cell hcell hlive] at hvisible
      rw [shown, hfilter]
      rfl
    have hnext : (shown (between ++ opening :: after)).head? = some '(' := by
      rw [shown_append, hshown]
      rfl
    have hfirst : (shown [closing]).getLast? = some ')' := rfl
    rw [show before ++ closing :: (between ++ opening :: after) =
      before ++ ([closing] ++ (between ++ opening :: after)) from rfl, juxtaposed_append,
      juxtaposed_append [closing], hfirst, hnext]
    simp

theorem mem_along_iff {before : List Cell} {s : Site} :
    s ∈ Site.along before cs ↔ ∃ as, cs = as ++ s.cell :: s.after ∧ s.before = as.reverse ++ before := by
  induction cs generalizing before with
  | nil => simp [Site.along]
  | cons cell cs ih =>
    rw [Site.along, List.mem_cons, ih]
    constructor
    · rintro (rfl | ⟨as, hcs, hbefore⟩)
      · exact ⟨[], rfl, rfl⟩
      · exact ⟨cell :: as, congrArg (List.cons cell) hcs, by simp [hbefore]⟩
    · rintro ⟨as, hcs, hbefore⟩
      cases as with
      | nil =>
        obtain ⟨hcell, hafter⟩ := List.cons.inj hcs
        left
        cases s
        simp_all
      | cons d as =>
        obtain ⟨rfl, hrest⟩ := List.cons.inj hcs
        exact .inr ⟨as, hrest, by simp [hbefore]⟩

/-- Nothing stands wrong behind a postfix operator exactly when all that follows one fits. -/
theorem clash_eq_none_iff_followersFit : clash cs = none ↔ FollowersFit cs := by
  have hends : ∀ cell : Cell, (cell.holds '\'' = true ∨ cell.role = .inverse 0) ↔
      ∃ operator : Postfix, operator.endsWith cell = true := by
    intro cell
    constructor
    · rintro (h | h)
      · exact ⟨.transpose, h⟩
      · exact ⟨.inverse, beq_iff_eq.2 h⟩
    · rintro ⟨operator, h⟩
      cases operator with
      | transpose => exact .inl h
      | inverse => exact .inr (beq_iff_eq.1 h)
  rw [clash_eq_none_iff]
  constructor
  · intro h before cell after hcs hpostfix c hc
    obtain ⟨operator, hoperator⟩ := (hends cell).1 hpostfix
    have hmem : (⟨before.reverse, cell, after⟩ : Site) ∈ sites cs :=
      mem_along_iff.2 ⟨before, hcs, (List.append_nil _).symm⟩
    exact List.contains_iff_mem.1 (strayAfter_eq_none_iff.1 (h operator) _ hmem hoperator c hc)
  · intro h operator
    apply strayAfter_eq_none_iff.2
    intro s hs hoperator c hc
    obtain ⟨as, hcs, -⟩ := mem_along_iff.1 hs
    exact List.contains_iff_mem.2 (h as s.cell s.after hcs ((hends s.cell).2 ⟨operator, hoperator⟩) c hc)

end Cell

/-! ## Texts in which nothing is found -/

/-- Every parenthesis has its partner and no groups meet. -/
structure Grouped (cs : List Cell) : Prop where
  level : Level cs
  apart : juxtaposed cs = false

theorem Grouped.passes : Passes Grouped where
  level h := h.level
  cut := by
    intro as bs cs h hlevel _ _
    have hapart := h.apart
    rw [juxtaposed_append, juxtaposed_append bs] at hapart
    simp only [Bool.or_eq_false_iff] at hapart
    exact ⟨hlevel, hapart.1.2.1.1⟩
  group := by
    intro inner h hlevel
    have hapart := h.apart
    rw [juxtaposed_group] at hapart
    exact ⟨hlevel, hapart⟩

/-! ## Faults of a level -/

/-- true for a fault in the structure of a text, false for a fault at an operator or a call -/
def ParseError.isStructural : ParseError → Bool
  | .unbalancedParenthesis _ | .missingOperator _ => true
  | _ => false

/-- A fault of the verdict is not structural. -/
def Local {α : Type} (verdict : Except ParseError α) : Prop := ∀ e, verdict = .error e → e.isStructural = false

namespace Local

variable {α β : Type} {e : ParseError}

theorem ok (a : α) : Local (.ok a) := fun _ h => absurd h (by simp)

theorem error (h : e.isStructural = false) : Local (α := α) (.error e) := by
  intro other hother
  obtain rfl := Except.error.inj hother
  exact h

theorem multiplicative (op : BinaryOp) (left right : Text) : Local (multiplicative op left right) := by
  unfold MissionScript.multiplicative
  split_ifs
  · exact ok _
  · exact error rfl

theorem transposed (operand after : Text) : Local (transposed operand after) := by
  unfold MissionScript.transposed
  split
  · exact ok _
  · exact error rfl

theorem callForm (admits : FunctionKind → Bool) (cs : List Cell) : Local (Stage.callForm voc admits cs) := by
  unfold Stage.callForm
  split
  · exact ok _
  · simp only
    split
    · exact ok _
    · split
      · split_ifs
        · exact ok _
        · refine error ?_
          unfold Stage.arityFault
          split_ifs <;> rfl
      · exact ok _

theorem runGroup (cs : List Cell) (split : Option Split) : Local (Stage.runGroup voc cs split) := by
  unfold Stage.runGroup
  split
  · exact ok _
  · split
    · exact ok _
    · exact ok _
    · exact multiplicative _ _ _
    · exact multiplicative _ _ _
    · exact ok _
    · split
      · exact ok _
      · exact transposed _ _
    · split
      · split <;> exact ok _
      · exact callForm _ cs

theorem run (cs : List Cell) (split : Option Split) (stage : Stage) : Local (stage.run voc cs split) := by
  cases stage with
  | group => exact runGroup cs split
  | call kinds => exact callForm _ cs
  | marker => exact ok _
  | sum | power | sign =>
    simp only [Stage.run]
    split <;> exact ok _
  | product =>
    simp only [Stage.run]
    split
    · exact multiplicative _ _ _
    · exact multiplicative _ _ _
    · exact ok _

theorem runAll (cs : List Cell) (split : Option Split) (stages : List Stage) :
    Local (Stage.runAll voc cs split stages) := by
  induction stages with
  | nil => exact ok _
  | cons stage rest ih =>
    unfold Stage.runAll
    split
    · exact ih
    · exact run cs split stage

end Local

variable {e : ParseError}

theorem not_structural_of_checkGroups (h : Grouped (cells t)) (he : checkGroups t = .error e) :
    e.isStructural = false := by
  unfold checkGroups at he
  rw [balanced_iff.2 h.level, h.apart] at he
  split at he
  · next hunbalanced => exact absurd hunbalanced (by decide)
  · split at he
    · obtain rfl := Except.error.inj he
      rfl
    · exact absurd he (by simp)

theorem not_structural_of_stepBy {stages : List Stage} (h : Grouped (cells t))
    (he : stepBy stages voc t = .error e) : e.isStructural = false := by
  unfold stepBy at he
  split_ifs at he
  rcases bind_eq_error_iff.1 he with he | ⟨⟨⟩, -, he⟩
  · exact not_structural_of_checkGroups h he
  · rcases bind_eq_error_iff.1 he with he | ⟨found, -, he⟩
    · exact Local.runAll (cells t) (lowest (cells t)) stages e he
    · exact absurd he (by simp [pure, Except.pure])

theorem grouped_decomposeBy {stages : List Stage} (h : Grouped (cells (Text.trim t))) :
    (∀ d, decomposeBy stages voc t = .ok d → ∀ operand ∈ d.operands, Grouped (cells operand)) ∧
      ∀ e, decomposeBy stages voc t = .error e → e.isStructural = false := by
  fun_induction decomposeBy stages voc t with
  | case1 t e' hstep =>
    refine ⟨fun d hd => absurd hd (by simp), fun e he => ?_⟩
    obtain rfl := Except.error.inj he
    exact not_structural_of_stepBy h hstep
  | case2 t found hstep =>
    refine ⟨fun d hd => ?_, fun e he => absurd he (by simp)⟩
    obtain rfl := Except.ok.inj hd
    exact Grouped.passes.parts h hstep
  | case3 t inner hstep ih =>
    have hinner : Grouped (cells inner) := Grouped.passes.parts h hstep inner List.mem_cons_self
    exact ih (Grouped.passes.trim hinner)

theorem grouped_operands (h : Grouped (cells (Text.trim t))) {d : Decomposition} (hd : decompose voc t = .ok d) :
    ∀ operand ∈ d.operands, Grouped (cells (Text.trim operand)) :=
  fun operand hmem => Grouped.passes.trim ((grouped_decomposeBy h).1 d hd operand hmem)

theorem not_structural_of_decompose (h : Grouped (cells (Text.trim t))) (he : decompose voc t = .error e) :
    e.isStructural = false := (grouped_decomposeBy h).2 e he

/-! ## Trees -/

namespace Expression

theorem not_structural_of_requireOperand {consumer : Consumer} (he : requireOperand consumer t = .error e) :
    e.isStructural = false := by
  unfold requireOperand at he
  split_ifs at he
  obtain rfl := Except.error.inj he
  rfl

theorem not_structural_of_requireArgument (h : Grouped (cells (Text.trim argument)))
    (he : requireArgument nesting voc function argument = .error e) : e.isStructural = false := by
  unfold requireArgument at he
  rcases bind_eq_error_iff.1 he with he | ⟨⟨⟩, -, he⟩
  · exact not_structural_of_requireOperand he
  · split_ifs at he with hreject
    · rcases bind_eq_error_iff.1 he with he | ⟨nested, -, he⟩
      · unfold isEquation at he
        split_ifs at he
        cases hlevel : decompose voc argument with
        | ok d => exact absurd he (by simp [hlevel, Except.map])
        | error e' =>
          rw [hlevel] at he
          obtain rfl : e' = e := Except.error.inj he
          exact not_structural_of_decompose h hlevel
      · split_ifs at he
        · obtain rfl : ParseError.equationArgument function argument = e := Except.error.inj he
          rfl
        · exact absurd he (by simp [pure, Except.pure])
    · exact absurd he (by simp [pure, Except.pure])

/-- Arguments fail to be built when one of them is refused or fails to be built. -/
theorem exists_of_buildArguments {arguments : List Text}
    (he : buildArguments builder nesting voc function arguments = .error e) :
    ∃ argument ∈ arguments, requireArgument nesting voc function argument = .error e ∨
      build nesting voc argument = .error e := by
  induction arguments with
  | nil =>
    rw [buildArguments] at he
    exact absurd he (by simp [pure, Except.pure])
  | cons argument rest ih =>
    rw [buildArguments, ofExcept_eq] at he
    rcases bind_eq_error_iff.1 he with he | ⟨⟨⟩, -, he⟩
    · exact ⟨argument, List.mem_cons_self, .inl he⟩
    rcases bind_eq_error_iff.1 he with he | ⟨x, -, he⟩
    · exact ⟨argument, List.mem_cons_self, .inr he⟩
    rcases bind_eq_error_iff.1 he with he | ⟨xs, -, he⟩
    · obtain ⟨later, hlater, hfault⟩ := ih he
      exact ⟨later, List.mem_cons_of_mem _ hlater, hfault⟩
    · exact absurd he (by simp [pure, Except.pure])

/-- A grouped text is not refused for its structure. -/
theorem not_structural_of_build (h : Grouped (cells (Text.trim t))) (he : build nesting voc t = .error e) :
    e.isStructural = false := by
  induction t using operand_induction voc generalizing e with
  | _ t ih =>
    -- the parts of a grouped text are grouped, so that the induction reaches them
    have hparts : ∀ d, decompose voc t = .ok d → ∀ operand ∈ d.operands, ∀ e',
        build nesting voc operand = .error e' → e'.isStructural = false :=
      fun d hd operand hmem e' => ih d hd operand hmem (grouped_operands h hd operand hmem)
    rw [build, buildWith_eq] at he
    split at he
    · next e' hlevel =>
      obtain rfl : e' = e := Except.error.inj he
      exact not_structural_of_decompose h hlevel
    · split_ifs at he
      · obtain rfl : ParseError.missingOperand .expression = e := Except.error.inj he
        rfl
      · exact absurd he (by simp [builder])
    · next op operand hlevel =>
      rw [ofExcept_eq] at he
      rcases bind_eq_error_iff.1 he with he | ⟨⟨⟩, -, he⟩
      · exact not_structural_of_requireOperand he
      rcases bind_eq_error_iff.1 he with he | ⟨x, -, he⟩
      · exact hparts _ hlevel operand List.mem_cons_self e he
      · exact absurd he (by simp [builder])
    · next op left right hlevel =>
      rw [ofExcept_eq, ofExcept_eq] at he
      rcases bind_eq_error_iff.1 he with he | ⟨⟨⟩, -, he⟩
      · exact not_structural_of_requireOperand he
      rcases bind_eq_error_iff.1 he with he | ⟨⟨⟩, -, he⟩
      · exact not_structural_of_requireOperand he
      rcases bind_eq_error_iff.1 he with he | ⟨x, -, he⟩
      · exact hparts _ hlevel left List.mem_cons_self e he
      rcases bind_eq_error_iff.1 he with he | ⟨y, -, he⟩
      · exact hparts _ hlevel right (List.mem_cons_of_mem _ List.mem_cons_self) e he
      · exact absurd he (by simp [builder])
    · next callee inside hlevel =>
      rcases bind_eq_error_iff.1 he with he | ⟨nodes, -, he⟩
      · obtain ⟨argument, hmem, hrefused | hfailed⟩ := exists_of_buildArguments he
        · exact not_structural_of_requireArgument (grouped_operands h hlevel argument hmem) hrefused
        · exact hparts _ hlevel argument hmem e hfailed
      · exact absurd he (by simp [builder])

end Expression

/-! ## Whole expressions -/

/-- The text is the expression, or an operand or an argument somewhere in it. -/
inductive PartOf (voc : Vocabulary) : Text → Text → Prop where
  | whole (t : Text) : PartOf voc t t
  | operand {u operand t : Text} {d : Decomposition} (hlevel : decompose voc t = .ok d) (hmem : operand ∈ d.operands)
    (hpart : PartOf voc u operand) : PartOf voc u t

theorem PartOf.grouped (hpart : PartOf voc u t) (h : Grouped (cells (Text.trim t))) : Grouped (cells (Text.trim u)) := by
  induction hpart with
  | whole => exact h
  | operand hlevel hmem _ ih => exact ih (grouped_operands h hlevel _ hmem)

/-- Parentheses are looked at first, then what follows postfix operators, then groups. -/
theorem checkGroups_cases (t : Text) :
    (¬Level (cells t) ∧ checkGroups t = .error (.unbalancedParenthesis t)) ∨
      (Level (cells t) ∧ ¬FollowersFit (cells t) ∧
        ∃ operator found, checkGroups t = .error (.operatorAdjacency operator found)) ∨
      (LacksOperator isAsciiBlank (cells t) ∧ checkGroups t = .error (.missingOperator t)) ∨
      (Level (cells t) ∧ ¬GroupsMeet isAsciiBlank (cells t)) := by
  have hlacks : LacksOperator isAsciiBlank (cells t) ↔
      balanced (cells t) = true ∧ clash (cells t) = none ∧ juxtaposed (cells t) = true := by
    rw [balanced_iff, clash_eq_none_iff_followersFit, juxtaposed_iff]
    exact ⟨fun h => ⟨h.level, h.followers, h.meet⟩, fun ⟨hlevel, hfollow, hmeet⟩ => ⟨hlevel, hfollow, hmeet⟩⟩
  rw [hlacks, ← balanced_iff, ← clash_eq_none_iff_followersFit, ← juxtaposed_iff]
  unfold checkGroups
  cases balanced (cells t) with
  | false => simp
  | true =>
    cases clash (cells t) with
    | some found => simp
    | none => cases juxtaposed (cells t) <;> simp

/-- In a text without structural faults no part is reported for one. -/
theorem PartOf.not_structural (hpart : PartOf voc u t) (hlevel : Level (cells (Text.trim t)))
    (hapart : ¬GroupsMeet isAsciiBlank (cells (Text.trim t))) (he : Expression.build nesting voc u = .error e) :
    e.isStructural = false := by
  rw [← juxtaposed_iff] at hapart
  have h : Grouped (cells (Text.trim t)) := ⟨hlevel, by simpa using hapart⟩
  exact Expression.not_structural_of_build (hpart.grouped h) he

/-- What is reported of the structure of an expression is found on the whole text. -/
theorem build_structural_iff (nesting : Nesting) (voc : Vocabulary) (t u : Text) :
    (Expression.build nesting voc t = .error (.unbalancedParenthesis u) ↔
        u = Text.trim t ∧ ¬Level (cells (Text.trim t))) ∧
      (Expression.build nesting voc t = .error (.missingOperator u) ↔
        u = Text.trim t ∧ LacksOperator isAsciiBlank (cells (Text.trim t))) := by
  rcases checkGroups_cases (Text.trim t) with ⟨hlevel, he⟩ | ⟨hlevel, hfollow, operator, found, he⟩ | ⟨hlacks, he⟩ |
    ⟨hlevel, hapart⟩
  · have hlacks : ¬LacksOperator isAsciiBlank (cells (Text.trim t)) := fun h => hlevel h.level
    have hbuild : Expression.build nesting voc t = .error _ := build_of_checkGroups he
    simp [hbuild, hlevel, hlacks, eq_comm]
  · have hlacks : ¬LacksOperator isAsciiBlank (cells (Text.trim t)) := fun h => hfollow h.followers
    have hbuild : Expression.build nesting voc t = .error _ := build_of_checkGroups he
    simp [hbuild, hlevel, hlacks]
  · have hbuild : Expression.build nesting voc t = .error _ := build_of_checkGroups he
    simp [hbuild, hlacks, hlacks.level, eq_comm]
  · have hlacks : ¬LacksOperator isAsciiBlank (cells (Text.trim t)) := fun h => hapart h.meet
    have hnone : ∀ e, e.isStructural = true → Expression.build nesting voc t ≠ .error e := by
      intro e hstructural he
      exact absurd (hstructural.symm.trans ((PartOf.whole t).not_structural hlevel hapart he)) (by decide)
    simp [hnone (.unbalancedParenthesis u) rfl, hnone (.missingOperator u) rfl, hlevel, hlacks]

/-- **Structural faults are found on the whole text.** Parentheses without partners are reported exactly when the
parentheses of the trimmed text do not balance, and groups that meet exactly when they balance, everything behind a postfix
operator fits, and groups meet across blanks of ASCII; the report carries the trimmed text. It is the same with blanks of
any kind exactly when no groups meet across other blanks only. In a text without these faults no operand and no argument
is reported for one. -/
theorem build_structural (nesting : Nesting) (voc : Vocabulary) (t : Text) :
    (∀ u, Expression.build nesting voc t = .error (.unbalancedParenthesis u) ↔
        u = Text.trim t ∧ ¬Level (cells (Text.trim t))) ∧
      (∀ u, Expression.build nesting voc t = .error (.missingOperator u) ↔
        u = Text.trim t ∧ LacksOperator isAsciiBlank (cells (Text.trim t))) ∧
      ((∀ u, Expression.build nesting voc t = .error (.missingOperator u) ↔
          u = Text.trim t ∧ LacksOperator isBlank (cells (Text.trim t))) ↔
        (LacksOperator isBlank (cells (Text.trim t)) → GroupsMeet isAsciiBlank (cells (Text.trim t)))) ∧
      (Level (cells (Text.trim t)) → ¬GroupsMeet isAsciiBlank (cells (Text.trim t)) →
        ∀ u, PartOf voc u t → ∀ e, Expression.build nesting voc u = .error e → e.isStructural = false) := by
  have hmissing (u : Text) := (build_structural_iff nesting voc t u).2
  refine ⟨fun u => (build_structural_iff nesting voc t u).1, hmissing, ?_, ?_⟩
  · constructor
    · intro hreported hlacks
      have he : Expression.build nesting voc t = .error (.missingOperator (Text.trim t)) :=
        (hreported (Text.trim t)).2 ⟨rfl, hlacks⟩
      exact ((hmissing (Text.trim t)).1 he).2.meet
    · intro hascii u
      rw [hmissing u]
      apply and_congr_right
      intro _
      constructor
      · intro h
        exact ⟨h.level, h.followers, h.meet.of_ascii⟩
      · intro h
        exact ⟨h.level, h.followers, hascii h⟩
  · intro hlevel hapart u hpart e he
    exact hpart.not_structural hlevel hapart he

/-- Groups meet across a string, deep in a product; a group that an inverse marker stands behind is fit to be read. -/
theorem build_meeting_groups :
    Expression.build .reject .initial " 2*((a) 'b(' (c)) ".toList =
        .error (.missingOperator "2*((a) 'b(' (c))".toList) ∧
      (∀ u, Expression.build .reject .initial " 2*((a) 'b(' (c)) ".toList = .error (.missingOperator u) ↔
        u = "2*((a) 'b(' (c))".toList ∧ LacksOperator isBlank (cells "2*((a) 'b(' (c))".toList)) ∧
      ∀ u, PartOf .initial u "((a)^(-1))*[1)]".toList → ∀ e, Expression.build .reject .initial u = .error e →
        e.isStructural = false := by
  have htrim : Text.trim " 2*((a) 'b(' (c)) ".toList = "2*((a) 'b(' (c))".toList := by decide
  have htrim' : Text.trim "((a)^(-1))*[1)]".toList = "((a)^(-1))*[1)]".toList := by decide
  have hlevel : Level (cells "2*((a) 'b(' (c))".toList) := by decide
  have hlevel' : Level (cells "((a)^(-1))*[1)]".toList) := by decide
  have hfollow : FollowersFit (cells "2*((a) 'b(' (c))".toList) := clash_eq_none_iff_followersFit.1 (by decide)
  have hmeet : GroupsMeet isAsciiBlank (cells "2*((a) 'b(' (c))".toList) := juxtaposed_iff.1 (by decide)
  have hapart : ¬GroupsMeet isAsciiBlank (cells "((a)^(-1))*[1)]".toList) := fun h => absurd (juxtaposed_iff.2 h) (by decide)
  refine ⟨?_, ?_, ?_⟩
  · apply ((build_structural .reject .initial _).2.1 _).2
    rw [htrim]
    exact ⟨rfl, hlevel, hfollow, hmeet⟩
  · have h := (build_structural .reject .initial " 2*((a) 'b(' (c)) ".toList).2.2.1
    rw [htrim] at h
    exact h.2 fun _ => hmeet
  · apply (build_structural .reject .initial _).2.2.2
    · rwa [htrim']
    · rwa [htrim']

/-- **Groups that are overlooked.** Groups with a space between them are reported. With a no-break space between them they
meet as well, in a text with no other fault that is not an operand as it stands, and it is taken for one. -/
theorem exists_overlooked_groups :
    Expression.build .allow .initial "(a) (b)".toList = .error (.missingOperator "(a) (b)".toList) ∧
      isOperand (Text.trim "(a)\u00a0(b)".toList) = false ∧
      LacksOperator isBlank (cells (Text.trim "(a)\u00a0(b)".toList)) ∧
      Expression.build .allow .initial "(a)\u00a0(b)".toList = .ok (.leaf "(a)\u00a0(b)".toList) := by
  have hcheck : checkGroups (Text.trim "(a) (b)".toList) = .error (.missingOperator "(a) (b)".toList) := by decide
  have htrim : Text.trim "(a)\u00a0(b)".toList = "(a)\u00a0(b)".toList := by decide
  have hcells : cells "(a)\u00a0(b)".toList =
      cells "(a".toList ++ closing :: ([⟨'\u00a0', .live⟩] ++ opening :: cells "b)".toList) := by decide
  have hmeet : GroupsMeet isBlank (cells "(a)\u00a0(b)".toList) := by
    refine ⟨_, _, _, hcells, ?_⟩
    intro cell hcell _
    rw [List.mem_singleton.1 hcell]
    rfl
  have hleaf : decompose .initial "(a)\u00a0(b)".toList = .ok (.leaf "(a)\u00a0(b)".toList) := by decide +kernel
  refine ⟨build_of_checkGroups hcheck, by decide, ?_, Expression.built_iff.1 (.leaf hleaf (by simp))⟩
  rw [htrim]
  exact ⟨by decide, clash_eq_none_iff_followersFit.1 (by decide), hmeet⟩

end MissionScript
