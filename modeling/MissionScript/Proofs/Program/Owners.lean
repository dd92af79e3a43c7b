/-
The objects whose properties an assignment uses.

- `le_vocabularyAfter_foldlM`: a pass loses no functions, whether it succeeds or fails.
- `Run.firstStep_of_not_supplied`, `Run.replayStep_of_not_supplied`: an assignment that lacks an object is set aside,
  and is an error when it is taken up again.
- `owners_declared_or_missed`: an owner that has not the name of a function is declared before the assignment, or the
  script fails at the line of the assignment.
- `exists_undeclared_owner`: an owner with the name of a function need not be declared.
-/
import MissionScript.Proofs.Program.Declared

namespace MissionScript

/-- the block assigns a value that is no quoted string and refers to a property of the object -/
def Block.UsesOwner (b : Block) (owner : Text) : Prop :=
  ∃ lhs rhs, b.content = .statement (.assignment lhs rhs) ∧ Text.isQuoted rhs = false ∧
    ∃ r ∈ Text.references rhs, Reference.isDotted r = true ∧ Reference.head r = owner

/-! ## Functions stay known in passes that fail -/

namespace Run

variable {s : Setting} {run after : Run} {b : Block} {d : Delayed} {lhs rhs owner : Text}

/-- Whether a block is performed or fails, the functions known stay the same. -/
theorem vocabularyAfter_perform (s : Setting) (pass : Pass) (run : Run) (mode : Mode) (b : Block) (line : Nat) :
    vocabularyAfter ((run.perform s pass mode b).mapError (run.fail line)) = run.vocabulary := by
  cases hperform : run.perform s pass mode b with
  | error fault => rfl
  | ok after => exact (perform_frame hperform).1

theorem vocabularyAfter_firstStep (s : Setting) (run : Run) (b : Block) :
    vocabularyAfter (run.firstStep s b) = (run.learn s b).vocabulary := by
  unfold firstStep
  simp only
  split
  · rfl
  · rfl
  · exact vocabularyAfter_perform ..

theorem vocabularyAfter_replayStep (s : Setting) (run : Run) (d : Delayed) :
    vocabularyAfter (run.replayStep s d) = (run.learn s d.block).vocabulary := by
  unfold replayStep
  simp only
  split
  · rfl
  · rfl
  · rfl
  · exact vocabularyAfter_perform ..
  · exact vocabularyAfter_perform ..

end Run

theorem le_vocabularyAfter_bind {g : Run → Except Failure Run} (hg : ∀ run, run.vocabulary ≤ vocabularyAfter (g run))
    (x : Except Failure Run) : vocabularyAfter x ≤ vocabularyAfter (x >>= g) := by
  cases x with
  | error failure => exact le_rfl
  | ok run => exact hg run

theorem le_vocabularyAfter_foldlM {α : Type} {f : Run → α → Except Failure Run}
    (hf : ∀ run x, run.vocabulary ≤ vocabularyAfter (f run x)) (xs : List α) (run : Run) :
    run.vocabulary ≤ vocabularyAfter (xs.foldlM f run) := by
  induction xs generalizing run with
  | nil => exact le_rfl
  | cons x xs ih =>
    rw [List.foldlM_cons]
    exact (hf run x).trans (le_vocabularyAfter_bind ih (f run x))

namespace Run

variable {s : Setting} {run after : Run} {b : Block} {d : Delayed} {lhs rhs owner : Text}

theorem le_vocabularyAfter_firstPass (s : Setting) (blocks : List Block) (run : Run) :
    run.vocabulary ≤ vocabularyAfter (run.firstPass s blocks) := by
  apply le_vocabularyAfter_foldlM
  intro run b
  rw [vocabularyAfter_firstStep]
  exact vocabulary_le_learn s b run

theorem le_vocabularyAfter_replays (s : Setting) (ds : List Delayed) (run : Run) :
    run.vocabulary ≤ vocabularyAfter (ds.foldlM (replayStep s) run) := by
  apply le_vocabularyAfter_foldlM
  intro run d
  rw [vocabularyAfter_replayStep]
  exact vocabulary_le_learn s d.block run

theorem le_vocabularyAfter_replay (s : Setting) (run : Run) : run.vocabulary ≤ vocabularyAfter (run.replay s) :=
  le_vocabularyAfter_replays s run.delayed { run with delayed := [] }

/-! ## An assignment that lacks an object -/

/-- In the first pass it is set aside. -/
theorem firstStep_of_not_supplied (hcontent : b.content = .statement (.assignment lhs rhs))
    (h : ¬(run.learn s b).Supplied s lhs rhs) : run.firstStep s b = .ok (run.setAside s b) := by
  rcases supplied_or_missing s (run.learn s b) lhs rhs with ⟨hsupplied, -⟩ | ⟨-, name, hmissing, -⟩
  · exact absurd hsupplied h
  · have hobstacle : (run.learn s b).obstacle s b = .ok (some (.object name)) := by
      simp only [obstacle, hcontent]
      exact hmissing
    simp only [firstStep, hobstacle, setAside, delayed_learn, mode_learn]

/-- In the second pass it is an error at its line. -/
theorem replayStep_of_not_supplied (hcontent : d.block.content = .statement (.assignment lhs rhs))
    (h : ¬(run.learn s d.block).Supplied s lhs rhs) :
    ∃ failure name, run.replayStep s d = .error failure ∧ failure.error.line = d.block.line ∧
      failure.error.fault = .undeclaredName name := by
  rcases supplied_or_missing s (run.learn s d.block) lhs rhs with ⟨hsupplied, -⟩ | ⟨-, name, hmissing, -⟩
  · exact absurd hsupplied h
  · have hobstacle : (run.learn s d.block).obstacle s d.block = .ok (some (.object name)) := by
      simp only [obstacle, hcontent]
      exact hmissing
    exact ⟨(run.learn s d.block).fail d.block.line (.undeclaredName name), name, by simp only [replayStep, hobstacle],
      rfl, rfl⟩

/-- An owner is declared when an assignment has what it needs, unless it has the name of a function, then or later. -/
theorem Supplied.owner_isDeclared {voc : Vocabulary} (h : run.Supplied s lhs rhs)
    (hcontent : b.content = .statement (.assignment lhs rhs)) (huses : b.UsesOwner owner)
    (hvoc : run.vocabulary ≤ voc) (hkind : voc.kind? owner = none) : (run.scope s).isDeclared owner = true := by
  obtain ⟨lhs', rhs', hcontent', hquoted, r, hr, hdotted, rfl⟩ := huses
  rw [hcontent] at hcontent'
  obtain ⟨rfl, rfl⟩ : lhs = lhs' ∧ rhs = rhs' := by simpa using hcontent'
  rcases Bool.or_eq_true_iff.1 (h.owners hquoted r hr hdotted) with hdeclared | hfunction
  · exact hdeclared
  · have hlater := Vocabulary.isSome_kind?_of_le hvoc hfunction
    simp [hkind] at hlater

/-! ## The way of a block through the passes -/

theorem firstPass_split (s : Setting) (run : Run) (before later : List Block) (b : Block) :
    run.firstPass s (before ++ b :: later) =
      (run.firstPass s before >>= fun part => part.firstStep s b >>= fun next => next.firstPass s later) := by
  unfold firstPass
  rw [List.foldlM_append]
  rfl

/-- The functions known when a block is met in the first pass are known to the end. -/
theorem vocabulary_le_of_firstPass {before : List Block} {part : Run} (h : run.firstPass s before = .ok part)
    (b : Block) (later : List Block) :
    (part.learn s b).vocabulary ≤ vocabularyAfter (run.firstPass s (before ++ b :: later) >>= replay s) := by
  rw [firstPass_split, h]
  calc (part.learn s b).vocabulary
      = vocabularyAfter (part.firstStep s b) := (vocabularyAfter_firstStep s part b).symm
    _ ≤ vocabularyAfter (part.firstStep s b >>= fun next => next.firstPass s later) :=
        le_vocabularyAfter_bind (le_vocabularyAfter_firstPass s later) _
    _ ≤ vocabularyAfter ((part.firstStep s b >>= fun next => next.firstPass s later) >>= replay s) :=
        le_vocabularyAfter_bind (le_vocabularyAfter_replay s) _

/-- The functions known when a block is taken up again are known to the end. -/
theorem vocabulary_le_of_replay (s : Setting) (run : Run) (d : Delayed) (ds : List Delayed) :
    (run.learn s d.block).vocabulary ≤
      vocabularyAfter (run.replayStep s d >>= fun next => ds.foldlM (replayStep s) next) := by
  rw [← vocabularyAfter_replayStep]
  exact le_vocabularyAfter_bind (le_vocabularyAfter_replays s ds) _

/-- What is set aside is taken up behind what waited before it. -/
theorem replay_split {middle : Run} {later : List Block} (h : (run.setAside s b).firstPass s later = .ok middle) :
    ∃ ds : List Delayed, middle.replay s = (run.delayed.foldlM (replayStep s) { middle with delayed := [] } >>=
      fun reached => reached.replayStep s ⟨b, run.mode⟩ >>= fun next => ds.foldlM (replayStep s) next) := by
  obtain ⟨ds, hdelayed, -, -⟩ := passes_of_firstPass h
  refine ⟨ds, ?_⟩
  rw [delayed_setAside, List.append_assoc] at hdelayed
  unfold replay
  rw [hdelayed, List.foldlM_append]
  rfl

/-- The blocks of the first pass have declared all there is when one that waited is taken up. -/
theorem declared_of_replayed {voc : Vocabulary} {before blocks : List Block} {part middle reached : Run}
    (hbefore : (start voc).firstPass s before = .ok part) (hfirst : (start voc).firstPass s blocks = .ok middle)
    (hwaited : part.delayed.foldlM (replayStep s) { middle with delayed := [] } = .ok reached) :
    reached.declared = declaredBy blocks := by
  obtain ⟨ds, hdelayed, hwait, -⟩ := passes_of_firstPass hbefore
  have hpart : part.delayed = ds := hdelayed
  calc reached.declared
      = { middle with delayed := [] }.declared := replay_declared (fun d hd => hwait d (hpart ▸ hd)) hwaited
    _ = declaredBy blocks := firstPass_declared hfirst

end Run

/-! ## Scripts -/

/-- The script fails before the block behind some others is taken up again: in the first pass, or in the second pass on
what waited in front of the block. -/
def FailsBefore (s : Setting) (voc : Vocabulary) (before blocks : List Block) (failure : Failure) : Prop :=
  (Run.start voc).firstPass s blocks = .error failure ∨
    ∃ part middle, (Run.start voc).firstPass s before = .ok part ∧ (Run.start voc).firstPass s blocks = .ok middle ∧
      part.delayed.foldlM (Run.replayStep s) { middle with delayed := [] } = .error failure

section Scripts

variable {s : Setting} {voc : Vocabulary} {script : Text} {run : Run} {owner : Text}

/-- In a program an owner without the name of a function is an object from outside, or an earlier instruction declares
it. -/
theorem owner_declared {entries before later : List Entry} {e : Entry} (h : interpret s voc script = .ok run)
    (history : IsHistory s voc script run.program entries) (horder : inOrder entries = before ++ e :: later)
    (huses : e.block.UsesOwner owner) (hkind : run.vocabulary.kind? owner = none) :
    s.objects.isDeclared owner = true ∨ ∃ d ∈ before, d.instruction.Declares owner := by
  obtain ⟨lhs, rhs, hcontent, -⟩ := id huses
  obtain ⟨current, hsupplied, hvocabulary, hdeclared⟩ := history.supplied h horder hcontent
  exact hdeclared owner (hsupplied.owner_isDeclared hcontent huses hvocabulary hkind)

/-- An assignment that uses a property of an object which nothing declares, and which has not the name of a function, is
an error at its line, unless the script fails before. -/
theorem fails_of_undeclared_owner {before later : List Block} {b : Block}
    (hblocks : readBlocks script = .ok (before ++ b :: later)) (huses : b.UsesOwner owner)
    (hkind : (vocabularyAfter (interpret s voc script)).kind? owner = none) (houtside : s.objects.typeOf owner = none)
    (hnone : ∀ c ∈ before ++ b :: later, ¬c.Declares owner) :
    ∃ failure, interpret s voc script = .error failure ∧ (FailsBefore s voc before (before ++ b :: later) failure ∨
      failure.error.line = b.line ∧ ∃ name, failure.error.fault = .undeclaredName name) := by
  have hinterpret : interpret s voc script = (Run.start voc).firstPass s (before ++ b :: later) >>= Run.replay s := by
    unfold interpret
    rw [hblocks]
  obtain ⟨lhs, rhs, hcontent, -⟩ := id huses
  -- wherever the block is met, only the blocks have declared, and no function is known that is unknown at the end
  have lacking (reached : Run) (blocks : List Block) (hdeclared : reached.declared = declaredBy blocks)
      (hsub : ∀ c ∈ blocks, c ∈ before ++ b :: later)
      (hvoc : (reached.learn s b).vocabulary ≤ vocabularyAfter (interpret s voc script)) :
      ¬(reached.learn s b).Supplied s lhs rhs := by
    intro hsupplied
    have hfound := hsupplied.owner_isDeclared hcontent huses hvoc hkind
    rw [Run.scope, Run.declared_learn, hdeclared, isDeclared_extend, isSome_lookup_declaredBy] at hfound
    rcases hfound with ⟨c, hc, hdeclares⟩ | hfound
    · exact hnone c (hsub c hc) hdeclares
    · simp [ObjectModel.isDeclared, houtside] at hfound
  cases hfirst : (Run.start voc).firstPass s (before ++ b :: later) with
  | error failure =>
    rw [hinterpret, hfirst]
    exact ⟨failure, rfl, .inl (.inl hfirst)⟩
  | ok middle =>
    cases hbefore : (Run.start voc).firstPass s before with
    | error failure =>
      rw [Run.firstPass_split, hbefore] at hfirst
      simp [bind, Except.bind] at hfirst
    | ok part =>
      have hmet := lacking part before (Run.firstPass_declared hbefore) (fun c => List.mem_append_left _) <| by
        rw [hinterpret]
        exact Run.vocabulary_le_of_firstPass hbefore b later
      have hrest : (part.setAside s b).firstPass s later = .ok middle := by
        rw [Run.firstPass_split, hbefore] at hfirst
        simpa [Run.firstStep_of_not_supplied hcontent hmet, bind, Except.bind] using hfirst
      obtain ⟨ds, hreplay⟩ := Run.replay_split hrest
      have hend : interpret s voc script = middle.replay s := by
        rw [hinterpret, hfirst]
        rfl
      rw [hend, hreplay] at lacking ⊢
      cases hwaited : part.delayed.foldlM (Run.replayStep s) { middle with delayed := [] } with
      | error failure => exact ⟨failure, rfl, .inl (.inr ⟨part, middle, hbefore, hfirst, hwaited⟩)⟩
      | ok reached =>
        have htaken := lacking reached _ (Run.declared_of_replayed hbefore hfirst hwaited) (fun c hc => hc) <| by
          rw [hwaited]
          exact Run.vocabulary_le_of_replay s reached ⟨b, part.mode⟩ ds
        obtain ⟨failure, name, hstep, hline, hfault⟩ :=
          Run.replayStep_of_not_supplied (d := ⟨b, part.mode⟩) hcontent htaken
        refine ⟨failure, ?_, .inr ⟨hline, name, hfault⟩⟩
        simp only [bind, Except.bind, hstep]

end Scripts

/-- **Owners are declared, or missed.** Take an assignment that uses a property of an object, where the object has not
the name of a function. In a program the object comes from outside, or an instruction before the assignment declares it.
If there is no such object and nothing declares one, the script fails at the line of the assignment, or before. -/
theorem owners_declared_or_missed (s : Setting) (voc : Vocabulary) (script : Text) :
    (∀ (run : Run) (entries before later : List Entry) (e : Entry) (owner : Text), interpret s voc script = .ok run →
      IsHistory s voc script run.program entries → inOrder entries = before ++ e :: later →
      e.block.UsesOwner owner → run.vocabulary.kind? owner = none →
        s.objects.isDeclared owner = true ∨ ∃ d ∈ before, d.instruction.Declares owner) ∧
    ∀ (before later : List Block) (b : Block) (owner : Text), readBlocks script = .ok (before ++ b :: later) →
      b.UsesOwner owner → (vocabularyAfter (interpret s voc script)).kind? owner = none →
      s.objects.typeOf owner = none → (∀ c ∈ before ++ b :: later, ¬c.Declares owner) →
        ∃ failure, interpret s voc script = .error failure ∧
          (FailsBefore s voc before (before ++ b :: later) failure ∨
            failure.error.line = b.line ∧ ∃ name, failure.error.fault = .undeclaredName name) := by
  constructor
  · intro run entries before later e owner h history horder huses hkind
    exact owner_declared h history horder huses hkind
  · intro before later b owner hblocks huses hkind houtside hnone
    exact fails_of_undeclared_owner hblocks huses hkind houtside hnone

/-- A relay that is declared at the end, and one that is not declared. -/
theorem forward_owner_and_missing_owner :
    let forward := "Sat.X = Relay.X\nCreate Spacecraft Sat Relay".toList
    let lacking := "Create Spacecraft Sat\nSat.X = Ghost.X".toList
    (∃ (run : Run) (entries : List Entry) (declaration assignment : Entry),
      interpret .knowingFoo .initial forward = .ok run ∧ IsHistory .knowingFoo .initial forward run.program entries ∧
      inOrder entries = [declaration, assignment] ∧ assignment.block.UsesOwner "Relay".toList ∧
      declaration.instruction.Declares "Relay".toList) ∧
    ∃ (declaration assignment : Block) (failure : Failure), readBlocks lacking = .ok [declaration, assignment] ∧
      interpret .knowingFoo .initial lacking = .error failure ∧
      (FailsBefore .knowingFoo .initial [declaration] [declaration, assignment] failure ∨
        failure.error.line = assignment.line ∧ ∃ name, failure.error.fault = .undeclaredName name) := by
  intro forward lacking
  constructor
  · have hvisits : (readBlocks forward).toOption.map (fun blocks =>
        ((Run.start .initial).visits .knowingFoo blocks).map fun v => (v.waits, v.block.content)) =
        some [(true, .statement (.assignment "Sat.X".toList "Relay.X".toList)),
          (false, .statement (.declaration ⟨"Spacecraft".toList, [⟨"Sat".toList, []⟩, ⟨"Relay".toList, []⟩]⟩))] := by
      decide +kernel
    have hlines : (interpret .knowingFoo .initial forward).toOption.map (fun run => run.program.map Instruction.line) =
        some [2, 1] := by decide +kernel
    have hkind : (vocabularyAfter (interpret .knowingFoo .initial forward)).kind? "Relay".toList = none := by
      decide +kernel
    obtain ⟨run, entries, h, history, hvisits, -⟩ := exists_history_showing hvisits hlines
    obtain ⟨e₁, _, rfl, h₁, hvisits⟩ := List.map_eq_cons_iff.1 hvisits
    obtain ⟨e₂, _, rfl, h₂, hvisits⟩ := List.map_eq_cons_iff.1 hvisits
    obtain rfl := List.map_eq_nil_iff.1 hvisits
    obtain ⟨hwaits₁, hcontent₁⟩ := Prod.mk.inj h₁
    obtain ⟨hwaits₂, -⟩ := Prod.mk.inj h₂
    have horder : inOrder [e₁, e₂] = [e₂, e₁] := by simp [inOrder, hwaits₁, hwaits₂]
    have huses : e₁.block.UsesOwner "Relay".toList :=
      ⟨_, _, hcontent₁, by decide +kernel, "Relay.X".toList, by decide +kernel, by decide +kernel, by decide +kernel⟩
    rw [h] at hkind
    refine ⟨run, [e₁, e₂], e₂, e₁, h, history, horder, huses, ?_⟩
    have howner := (owners_declared_or_missed _ _ _).1 run _ [e₂] [] e₁ _ h history horder huses hkind
    rcases howner with houtside | ⟨d, hd, hdeclares⟩
    · simp [Setting.knowingFoo, ObjectModel.isDeclared] at houtside
    · obtain rfl := List.mem_singleton.1 hd
      exact hdeclares
  · have hcontents : (readBlocks lacking).toOption.map (fun blocks => blocks.map Block.content) =
        some [.statement (.declaration ⟨"Spacecraft".toList, [⟨"Sat".toList, []⟩]⟩),
          .statement (.assignment "Sat.X".toList "Ghost.X".toList)] := by decide +kernel
    cases hblocks : readBlocks lacking with
    | error e => simp [hblocks, Except.toOption] at hcontents
    | ok blocks =>
      rw [hblocks] at hcontents
      obtain ⟨b₁, _, rfl, h₁, hcontents⟩ := List.map_eq_cons_iff.1 (Option.some.inj hcontents)
      obtain ⟨b₂, _, rfl, h₂, hcontents⟩ := List.map_eq_cons_iff.1 hcontents
      obtain rfl := List.map_eq_nil_iff.1 hcontents
      have huses : b₂.UsesOwner "Ghost".toList :=
        ⟨_, _, h₂, by decide +kernel, "Ghost.X".toList, by decide +kernel, by decide +kernel, by decide +kernel⟩
      have hkind : (vocabularyAfter (interpret .knowingFoo .initial lacking)).kind? "Ghost".toList = none := by
        decide +kernel
      have hundeclared : ∀ b ∈ [b₁, b₂], ¬b.Declares "Ghost".toList := by
        simp [Block.Declares, Declaration.Names, h₁, h₂]
      obtain ⟨failure, hfailure, hcause⟩ :=
        (owners_declared_or_missed _ _ _).2 [b₁] [] b₂ _ hblocks huses hkind rfl hundeclared
      exact ⟨b₁, b₂, failure, rfl, hfailure, hcause⟩

/-- An owner with the name of a function need not be declared. -/
theorem exists_undeclared_owner :
    ¬∀ (s : Setting) (voc : Vocabulary) (script : Text) (run : Run) (entries before later : List Entry) (e : Entry)
        (owner : Text), interpret s voc script = .ok run → IsHistory s voc script run.program entries →
      inOrder entries = before ++ e :: later → e.block.UsesOwner owner →
      s.objects.isDeclared owner = true ∨ ∃ d ∈ before, d.instruction.Declares owner := by
  intro hall
  have hvisits : (readBlocks "Create Spacecraft Sat\nSat.X = Sin.X".toList).toOption.map (fun blocks =>
      ((Run.start .initial).visits .knowingFoo blocks).map fun v => (v.waits, v.block.content)) =
      some [(false, .statement (.declaration ⟨"Spacecraft".toList, [⟨"Sat".toList, []⟩]⟩)),
        (false, .statement (.assignment "Sat.X".toList "Sin.X".toList))] := by decide +kernel
  have hlines : (interpret .knowingFoo .initial "Create Spacecraft Sat\nSat.X = Sin.X".toList).toOption.map
      (fun run => run.program.map Instruction.line) = some [1, 2] := by decide +kernel
  obtain ⟨run, entries, h, history, hvisits, -⟩ := exists_history_showing hvisits hlines
  obtain ⟨e₁, _, rfl, h₁, hvisits⟩ := List.map_eq_cons_iff.1 hvisits
  obtain ⟨e₂, _, rfl, h₂, hvisits⟩ := List.map_eq_cons_iff.1 hvisits
  obtain rfl := List.map_eq_nil_iff.1 hvisits
  obtain ⟨hwaits₁, hcontent₁⟩ := Prod.mk.inj h₁
  obtain ⟨hwaits₂, hcontent₂⟩ := Prod.mk.inj h₂
  have horder : inOrder [e₁, e₂] = [e₁, e₂] := by simp [inOrder, hwaits₁, hwaits₂]
  have huses : e₂.block.UsesOwner "Sin".toList :=
    ⟨_, _, hcontent₂, by decide +kernel, "Sin.X".toList, by decide +kernel, by decide +kernel, by decide +kernel⟩
  rcases hall _ _ _ run _ [e₁] [] e₂ _ h history horder huses with houtside | ⟨d, hd, hdeclares⟩
  · simp [Setting.knowingFoo, ObjectModel.isDeclared] at houtside
  · obtain rfl := List.mem_singleton.1 hd
    rw [(history.entry h List.mem_cons_self).1.declares_iff] at hdeclares
    simp [Block.Declares, Declaration.Names, hcontent₁] at hdeclares

end MissionScript
