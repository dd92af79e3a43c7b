/-
Equations for variables before the commands.

- `Treats` says which blocks the interpretation of a script treats, and from which run to which.
- `Equates`: the block is an equation for a variable or for an element of an array.
- `resolveInSetup_of_equates`: what the equation comes to before the commands.
- `equation_of_treats`: it is deferred and has the variable for its target unless a point stands in the index. Behind a
  point it has no target, and is deferred only if the value refers to the variable.
- `exists_equation_at_once`: an index with a point.
-/
import MissionScript.Proofs.Cell.Operand
import MissionScript.Proofs.Cell.Outside
import MissionScript.Proofs.Program.History
import MissionScript.Proofs.Program.Timing

namespace MissionScript

open Expression

variable {s : Setting} {voc : Vocabulary} {script lhs rhs v : Text} {b : Block} {waits : Bool} {mode : Mode} {run after : Run}

/-! ## Blocks that are treated -/

/-- The interpretation of a script treats a block in a mode, at once or when the block has waited, and this leads from a run
to another one. Whether anything behind the block fails is left open. -/
inductive Treats (s : Setting) (voc : Vocabulary) (script : Text) (b : Block) : Bool → Mode → Run → Run → Prop where
  | atOnce {earlier later : List Block} {run after : Run} : readBlocks script = .ok (earlier ++ b :: later) →
      (Run.start voc).firstPass s earlier = .ok run → run.setsAside s b = false → run.firstStep s b = .ok after →
      Treats s voc script b false run.mode run after
  | late {blocks : List Block} {first run after : Run} {mode : Mode} {earlier later : List Delayed} :
      readBlocks script = .ok blocks → (Run.start voc).firstPass s blocks = .ok first →
      first.delayed = earlier ++ ⟨b, mode⟩ :: later →
      earlier.foldlM (Run.replayStep s) { first with delayed := [] } = .ok run →
      run.replayStep s ⟨b, mode⟩ = .ok after → Treats s voc script b true mode run after

/-- What is treated is handled, in the second pass if it has waited. -/
theorem Treats.handled (h : Treats s voc script b waits mode run after) (hb : b.isStatement = true) :
    ∃ i, Run.Handled s (if waits then .second else .first) (run.learn s b) mode b i after := by
  cases h with
  | atOnce _ _ haside hstep =>
    rcases Run.firstStep_cases hb hstep with ⟨hsets, -⟩ | ⟨-, hhandled⟩
    · exact absurd (haside.symm.trans hsets) (by decide)
    · exact hhandled
  | late _ _ _ _ hstep => exact Run.replayStep_cases hb hstep

/-- The first pass treats blocks in the mode of the run. -/
theorem Treats.mode_eq (h : Treats s voc script b false mode run after) : mode = run.mode := by
  cases h with
  | atOnce _ _ _ _ => rfl

/-! ## Equations for variables -/

/-- In a run a block is an equation for a variable or an element of an array, of which nothing outside the script says what
it is a property of. -/
structure Run.Equates (s : Setting) (run : Run) (b : Block) (v lhs rhs : Text) : Prop where
  content : b.content = .statement (.assignment lhs rhs)
  name : ∀ c ∈ v, isWordChar c = true
  /-- the variable itself, or the variable with any index whose parentheses balance -/
  element : lhs = v ∨ ∃ index, Cell.Level (cells index) ∧ lhs = v ++ '(' :: (index ++ [')'])
  type : (run.scope s).typeOf v = some "Variable".toList ∨ (run.scope s).typeOf v = some "Array".toList
  property : s.objects.property lhs = none
  unquoted : Text.isQuoted rhs = false
  equation : isEquation (run.learn s b).vocabulary rhs = .ok true

/-- The assignment has the variable for its target, and is evaluated whenever control reaches it. -/
structure Assignment.DefersTo (a : Assignment) (v : Text) : Prop where
  target : a.target = some (v, 0)
  deferred : a.deferred = true

theorem isEquation_trim (voc : Vocabulary) (t : Text) : isEquation voc (Text.trim t) = isEquation voc t := by
  rw [isEquation, isEquation, Text.isQuoted_trim, decompose_trim]

namespace Run.Equates

theorem trim_lhs (h : run.Equates s b v lhs rhs) : Text.trim lhs = lhs := by
  have hword : ∀ c, isWordChar c = true → isBlank c = false := fun c hc => not_isBlank_of_isWordChar hc
  rcases h.element with rfl | ⟨index, -, rfl⟩
  · apply Text.trim_eq_self
    · exact fun c hc => hword c (h.name c (List.mem_of_mem_head? hc))
    · exact fun c hc => hword c (h.name c (List.mem_of_getLast? hc))
  · apply Text.trim_eq_self
    · intro c hc
      cases hv : v with
      | nil =>
        rw [hv] at hc
        obtain rfl : '(' = c := Option.some.inj hc
        decide
      | cons d v' =>
        rw [hv] at hc
        obtain rfl : d = c := Option.some.inj hc
        exact hword d (h.name d (by rw [hv]; exact List.mem_cons_self))
    · intro c hc
      rw [← List.cons_append, ← List.append_assoc, List.getLast?_concat] at hc
      obtain rfl : ')' = c := Option.some.inj hc
      decide

theorem head_lhs (h : run.Equates s b v lhs rhs) : Reference.head lhs = v := by
  rw [Reference.head, h.trim_lhs]
  rcases h.element with rfl | ⟨index, -, rfl⟩
  · exact List.takeWhile_eq_self_iff.2 h.name
  · rw [List.takeWhile_append_of_pos h.name, List.takeWhile_cons_of_neg (by decide), List.append_nil]

theorem isVariable (h : run.Equates s b v lhs rhs) : (run.scope s).isVariable (Reference.head lhs) = true := by
  change ((run.scope s).typeOf (Reference.head lhs)).any (fun type => ObjectKind.ofTypeName type == .variable) = true
  rw [h.head_lhs]
  rcases h.type with htype | htype <;> rw [htype] <;> decide

/-- With a point in it, the left side is taken for a property of something else. -/
theorem property_lhs (h : run.Equates s b v lhs rhs) :
    (run.scope s).property lhs = if Reference.isDotted lhs then none else some ⟨v, 0, .real⟩ := by
  have htype : ∀ type, (run.scope s).typeOf v = some type →
      ownProperty (run.scope s).typeOf lhs = if Reference.isDotted lhs || ObjectKind.ofTypeName type != .variable then none
        else some ⟨v, 0, if type = "String".toList then .string else .real⟩ := by
    intro type htype
    rw [ownProperty, h.head_lhs, htype]
  change (s.objects.property lhs <|> ownProperty (run.scope s).typeOf lhs) = _
  rw [h.property]
  change ownProperty (run.scope s).typeOf lhs = _
  rcases h.type with hv | hv
  · rw [htype _ hv]
    cases Reference.isDotted lhs <;> rfl
  · rw [htype _ hv]
    cases Reference.isDotted lhs <;> rfl

theorem scope_learn (s : Setting) (b : Block) (run : Run) : (run.learn s b).scope s = run.scope s := by
  rw [scope, declared_learn]
  rfl

/-- What the equation comes to before the commands. -/
theorem resolve {r : Resolution} (h : run.Equates s b v lhs rhs)
    (hr : MissionScript.resolve s.nesting (run.learn s b).vocabulary (run.scope s) .setup lhs rhs = .ok r) :
    build s.nesting (run.learn s b).vocabulary rhs = .ok r.tree ∧
      r.target = (if Reference.isDotted lhs then none else some ⟨v, 0, .real⟩) ∧
      r.timing = if !Reference.isDotted lhs || refersTo v (Text.trim rhs) then .opensCommands else .once := by
  have hproperty := h.property_lhs
  have hvariable := h.isVariable
  have hequation : isEquation (run.learn s b).vocabulary (Text.trim rhs) = .ok true := by
    rw [isEquation_trim]
    exact h.equation
  have hconfigured := resolve_setup_iff.1 hr
  have htarget := hconfigured.target
  rw [h.trim_lhs, hproperty] at htarget
  rw [h.trim_lhs] at hconfigured
  rw [← h.head_lhs]
  cases hconfigured with
  | quoted hquoted =>
    rw [Text.isQuoted_trim, h.unquoted] at hquoted
    exact absurd hquoted (by decide)
  | update _ _ hrefers htree =>
    rw [build_trim] at htree
    refine ⟨htree, by rw [h.head_lhs]; exact htarget, ?_⟩
    rw [hrefers, Bool.or_true, if_pos rfl]
  | value _ _ hvalue _ => exact absurd (hequation.symm.trans hvalue) (by simp)
  | equation _ _ _ _ _ htree =>
    rw [build_trim] at htree
    refine ⟨htree, by rw [h.head_lhs]; exact htarget, ?_⟩
    cases hdotted : Reference.isDotted lhs with
    | true => rw [hdotted] at htarget; exact absurd htarget (by simp)
    | false => rfl
  | verbatim _ _ _ _ htype =>
    cases hdotted : Reference.isDotted lhs with
    | true => rw [hdotted] at htarget; exact absurd htarget (by simp)
    | false =>
      rw [hdotted] at htarget
      rw [Option.some.inj htarget] at htype
      exact absurd htype (by simp)
  | untargeted _ hself _ _ htree =>
    rw [build_trim] at htree
    refine ⟨htree, by rw [h.head_lhs]; exact htarget, ?_⟩
    rw [hvariable, Bool.true_and] at hself
    cases hdotted : Reference.isDotted lhs with
    | true => rw [hself]; rfl
    | false => rw [hdotted] at htarget; exact absurd htarget (by simp)

end Run.Equates

/-- **Equations for variables are deferred unless a point stands in the index.** Before the commands such an equation adds
one assignment with the tree of its value. Without a point on the left side the variable is its target and it is deferred;
with one it has no target, and is deferred exactly when the value refers to the variable. At once it begins the commands
exactly when it is deferred; when it has waited, the mode of the run stays. -/
theorem equation_of_treats (h : Treats s voc script b waits mode run after) (hmode : mode.inCommands = false)
    (hequates : run.Equates s b v lhs rhs) :
    ∃ a : Assignment, after.program = run.program ++ [⟨b.line, .assign a⟩] ∧ a.lhs = lhs ∧
      build s.nesting (run.learn s b).vocabulary rhs = .ok a.tree ∧
      (a.DefersTo v ↔ Reference.isDotted lhs = false) ∧
      (Reference.isDotted lhs = true → a.target = none ∧ a.deferred = refersTo v (Text.trim rhs)) ∧
      (waits = false → after.mode.inCommands = a.deferred) ∧ (waits = true → after.mode = run.mode) := by
  have hstatement : b.isStatement = true := by rw [Block.isStatement, hequates.content]
  obtain ⟨i, hi⟩ := h.handled hstatement
  cases hi with
  | declaration hother => exact absurd (hequates.content.symm.trans hother) (by simp)
  | command hother => exact absurd (hequates.content.symm.trans hother) (by simp)
  | @assignment lhs' rhs' r hsame _ hresolve =>
    obtain ⟨rfl, rfl⟩ := Statement.assignment.inj (Content.statement.inj (hequates.content.symm.trans hsame))
    have hsetup : mode = .setup := by
      cases mode with
      | setup => rfl
      | sequence => exact absurd hmode (by decide)
      | mission => exact absurd hmode (by decide)
    subst hsetup
    rw [Run.Equates.scope_learn] at hresolve
    obtain ⟨htree, htarget, htiming⟩ := hequates.resolve hresolve
    refine ⟨_, congrArg (· ++ _) (Run.program_learn s b run), rfl, htree, ?_, ?_, ?_, ?_⟩
    · constructor
      · intro hdefers
        cases hdotted : Reference.isDotted lhs with
        | false => rfl
        | true =>
          have hnone := hdefers.target
          simp [htarget, hdotted] at hnone
      · intro hdotted
        exact ⟨by simp [htarget, hdotted], by simp [htiming, hdotted, Timing.isDeferred]⟩
    · intro hdotted
      refine ⟨by simp [htarget, hdotted], ?_⟩
      cases hrefers : refersTo v (Text.trim rhs) <;> simp [htiming, hdotted, hrefers, Timing.isDeferred]
    · rintro rfl
      -- a block that has not waited is treated in the mode that the run is in
      have hsetup := h.mode_eq
      change (Run.modeSwitched r.timing (run.learn s b).mode).inCommands = r.timing.isDeferred
      rw [Run.mode_learn, ← hsetup, htiming]
      split_ifs <;> rfl
    · rintro rfl
      exact Run.mode_learn s b run

/-- What can be computed of the runs before and behind a block is seen where it is treated. -/
theorem exists_treats_showing {earlier later : List Block} {α β : Type} {f : Run → α} {g : Run → β} {shown : α}
    {result : β} (hblocks : readBlocks script = .ok (earlier ++ b :: later))
    (hrun : ((Run.start voc).firstPass s earlier).toOption.map (fun run => (run.setsAside s b, f run)) =
      some (false, shown))
    (hafter : ((Run.start voc).firstPass s earlier).toOption.bind (fun run => (run.firstStep s b).toOption.map g) =
      some result) :
    ∃ run after, Treats s voc script b false run.mode run after ∧ f run = shown ∧ g after = result := by
  obtain ⟨run, hearlier, hseen⟩ := toOption_map_eq_some_iff.1 hrun
  obtain ⟨haside, hshown⟩ := Prod.mk.inj hseen
  obtain ⟨run', hearlier', hafter⟩ := toOption_bind_eq_some_iff.1 hafter
  obtain rfl := Except.ok.inj (hearlier.symm.trans hearlier')
  obtain ⟨after, hstep, hresult⟩ := toOption_map_eq_some_iff.1 hafter
  exact ⟨run, after, .atOnce hblocks hearlier haside hstep, hshown, hresult⟩

def arrayAndVariable : List Block :=
  [⟨1, "Create Array arr[3]".toList, [], [], .statement (.declaration ⟨"Array".toList, [⟨"arr".toList, [3]⟩]⟩)⟩,
    ⟨2, "Create Variable x".toList, [], [], .statement (.declaration ⟨"Variable".toList, [⟨"x".toList, []⟩]⟩)⟩]

/-- an equation for an element of the array, with a given left side -/
def equationFor (lhs : Text) : Block :=
  ⟨3, lhs ++ " = x + 1".toList, [], [], .statement (.assignment lhs "x + 1".toList)⟩

/-- what makes a block an equation for the array, as far as it depends on the run -/
def shownOf (lhs : Text) (run : Run) : Mode × Option Text × Except ParseError Bool :=
  (run.mode, (run.scope .knowingFoo).typeOf "arr".toList,
    isEquation (run.learn .knowingFoo (equationFor lhs)).vocabulary "x + 1".toList)

theorem Run.equates_of_shownOf (hlhs : ∃ index, Cell.Level (cells index) ∧ lhs = "arr".toList ++ '(' :: (index ++ [')']))
    (h : shownOf lhs run = (.setup, some "Array".toList, .ok true)) :
    run.mode = .setup ∧ run.Equates .knowingFoo (equationFor lhs) "arr".toList lhs "x + 1".toList := by
  obtain ⟨hmode, htype, hequation⟩ : _ ∧ _ ∧ _ := by simpa only [shownOf, Prod.mk.injEq] using h
  have hname : "arr".toList.all isWordChar = true := by decide +kernel
  exact ⟨hmode, rfl, List.all_eq_true.1 hname, .inr hlhs, .inr htype, rfl, by decide +kernel, hequation⟩

/-- An index without a point. -/
theorem equation_for_element :
    ∃ run after a, Treats .knowingFoo .initial "Create Array arr[3]\nCreate Variable x\narr(2*x) = x + 1".toList
        (equationFor "arr(2*x)".toList) false .setup run after ∧
      after.program = run.program ++ [⟨3, .assign a⟩] ∧ a.DefersTo "arr".toList ∧ after.mode.inCommands = true := by
  have hblocks : readBlocks "Create Array arr[3]\nCreate Variable x\narr(2*x) = x + 1".toList =
      .ok (arrayAndVariable ++ equationFor "arr(2*x)".toList :: []) := by decide +kernel
  have hrun : ((Run.start .initial).firstPass .knowingFoo arrayAndVariable).toOption.map (fun run =>
      (run.setsAside .knowingFoo (equationFor "arr(2*x)".toList), shownOf "arr(2*x)".toList run)) =
      some (false, .setup, some "Array".toList, .ok true) := by decide +kernel
  have hafter : ((Run.start .initial).firstPass .knowingFoo arrayAndVariable).toOption.bind (fun run =>
      (run.firstStep .knowingFoo (equationFor "arr(2*x)".toList)).toOption.map fun after => after.mode) =
      some .sequence := by decide +kernel
  obtain ⟨run, after, htreats, hshown, -⟩ := exists_treats_showing hblocks hrun hafter
  obtain ⟨hmode, hequates⟩ := Run.equates_of_shownOf ⟨"2*x".toList, by decide +kernel, rfl⟩ hshown
  rw [hmode] at htreats
  obtain ⟨a, hprogram, -, -, hdefers, -, hbegins, -⟩ := equation_of_treats htreats rfl hequates
  have ha := hdefers.2 (by decide)
  exact ⟨run, after, a, htreats, hprogram, ha, (hbegins rfl).trans ha.deferred⟩

/-- An index with a point. -/
theorem exists_equation_at_once :
    ¬∀ (s : Setting) (voc : Vocabulary) (script lhs rhs v : Text) (b : Block) (waits : Bool) (mode : Mode)
        (run after : Run), Treats s voc script b waits mode run after → mode.inCommands = false →
      run.Equates s b v lhs rhs → ∃ a : Assignment, after.program = run.program ++ [⟨b.line, .assign a⟩] ∧
        build s.nesting (run.learn s b).vocabulary rhs = .ok a.tree ∧ a.DefersTo v ∧
        (waits = false → after.mode.inCommands = true) := by
  intro hall
  have hblocks : readBlocks "Create Array arr[3]\nCreate Variable x\narr(1.0) = x + 1".toList =
      .ok (arrayAndVariable ++ equationFor "arr(1.0)".toList :: []) := by decide +kernel
  have hrun : ((Run.start .initial).firstPass .knowingFoo arrayAndVariable).toOption.map (fun run =>
      (run.setsAside .knowingFoo (equationFor "arr(1.0)".toList), shownOf "arr(1.0)".toList run)) =
      some (false, .setup, some "Array".toList, .ok true) := by decide +kernel
  have hafter : ((Run.start .initial).firstPass .knowingFoo arrayAndVariable).toOption.bind (fun run =>
      (run.firstStep .knowingFoo (equationFor "arr(1.0)".toList)).toOption.map fun after => after.mode) =
      some .setup := by decide +kernel
  obtain ⟨run, after, htreats, hshown, hunmoved⟩ := exists_treats_showing hblocks hrun hafter
  obtain ⟨hmode, hequates⟩ := Run.equates_of_shownOf ⟨"1.0".toList, by decide +kernel, rfl⟩ hshown
  rw [hmode] at htreats
  obtain ⟨a, -, -, -, hbegins⟩ := hall _ _ _ _ _ _ _ _ _ run after htreats rfl hequates
  have hmoved := hbegins rfl
  rw [hunmoved] at hmoved
  exact absurd hmoved (by decide)

end MissionScript
