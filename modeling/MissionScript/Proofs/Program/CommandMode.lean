/-
Assignments behind the first command.

- `Passes.inCommands`, `Passes.inMission_iff`: what the commands that a pass handles do to its mode.
- `Handled.deferred_iff`: once the commands have begun, an assignment is deferred unless its object is a coordinate
  system, or a subscriber while the mission is not running.
- `deferred_iff_of_command`: the same for every assignment of a script behind a command that did not wait.
- `exists_immediate_behind_command`: a command that waits does not begin the commands.
-/
import MissionScript.Proofs.Program.History
import MissionScript.Proofs.Text.Trim

namespace MissionScript

/-- the object that an assignment is about: the owner of its target, or else what its left side names first -/
def Assignment.owner (a : Assignment) : Text :=
  match a.target with
  | some (owner, _) => owner
  | none => Reference.head a.lhs

/-! ## Once the commands have begun -/

section Resolution

variable {nesting : Nesting} {voc : Vocabulary} {objects : ObjectModel} {mode : Mode} {lhs rhs : Text} {r : Resolution}

theorem resolve_inCommands (hmode : mode.inCommands = true) (h : resolve nesting voc objects mode lhs rhs = .ok r) :
    r.target = objects.property (Text.trim lhs) ∧ r.timing.isDeferred = !isImmediate objects mode (Text.trim lhs) := by
  unfold resolve at h
  rw [if_pos hmode] at h
  unfold resolveInCommands at h
  cases htree : valueTree nesting voc (Text.trim rhs) with
  | error fault => simp [htree, bind, Except.bind] at h
  | ok tree =>
    rw [htree] at h
    obtain rfl := Except.ok.inj h
    refine ⟨rfl, ?_⟩
    cases isImmediate objects mode (Text.trim lhs) with
    | true => rfl
    | false => rfl

theorem Reference.head_trim (t : Text) : head (Text.trim t) = Reference.head t := by
  unfold Reference.head
  rw [Text.trim_trim]

/-- Only coordinate systems, and subscribers before the mission, take their values at once. -/
theorem isImmediate_iff : isImmediate objects mode lhs = true ↔
    let owner := ((objects.property lhs).map Property.owner).getD (Reference.head lhs)
    objects.kindOf owner = .coordinateSystem ∨ objects.kindOf owner = .subscriber ∧ mode.inMission = false := by
  unfold isImmediate
  cases objects.property lhs with
  | none =>
    simp only [Option.map_none, Option.getD_none]
    cases objects.kindOf (Reference.head lhs) <;> simp
  | some property =>
    simp only [Option.map_some, Option.getD_some]
    cases objects.kindOf property.owner <;> simp

end Resolution

namespace Run

variable {s : Setting} {pass : Pass} {run after : Run} {mode : Mode} {b : Block} {i : Instruction} {es : List Entry}

theorem Handled.deferred_iff {a : Assignment} (h : Handled s pass run mode b i after) (hmode : mode.inCommands = true)
    (ha : i.assignment? = some a) : a.deferred = true ↔
      ¬((run.scope s).kindOf a.owner = .coordinateSystem ∨
        (run.scope s).kindOf a.owner = .subscriber ∧ mode.inMission = false) := by
  cases h with
  | declaration _ => simp [Instruction.assignment?] at ha
  | command _ => simp [Instruction.assignment?] at ha
  | @assignment lhs rhs r _ _ hresolve =>
    obtain ⟨htarget, hdeferred⟩ := resolve_inCommands hmode hresolve
    obtain rfl := Option.some.inj ha
    have howner : (((run.scope s).property (Text.trim lhs)).map Property.owner).getD (Reference.head (Text.trim lhs)) =
        Assignment.owner ⟨lhs, r.timing.isDeferred, r.target.map fun p : Property => (p.owner, p.id), r.tree⟩ := by
      unfold Assignment.owner
      rw [← htarget, Reference.head_trim]
      cases r.target <;> rfl
    rw [← howner, ← isImmediate_iff, hdeferred]
    simp

/-! ## Commands of the first pass -/

theorem Handled.inCommands (h : Handled s .first run mode b i after)
    (hbegun : run.mode.inCommands = true ∨ i.command?.isSome = true) : after.mode.inCommands = true := by
  cases h with
  | declaration _ =>
    have hbegun : run.mode.inCommands = true := by simpa [Instruction.command?] using hbegun
    exact hbegun
  | @command c _ =>
    show (modeAfter c.keyword run.mode).inCommands = true
    unfold modeAfter
    cases run.mode <;> simp only <;> (try split_ifs) <;> rfl
  | @assignment _ _ r _ _ _ =>
    have hbegun : run.mode.inCommands = true := by simpa [Instruction.command?] using hbegun
    show (modeSwitched r.timing run.mode).inCommands = true
    unfold modeSwitched
    cases hmode : run.mode with
    | setup => simp [hmode, Mode.inCommands] at hbegun
    | sequence => rfl
    | mission => rfl

theorem Handled.inMission_iff (h : Handled s .first run mode b i after) : after.mode.inMission = true ↔
    run.mode.inMission = true ∨ ∃ c ∈ i.command?, c.keyword ≠ Command.beginMissionSequence := by
  cases h with
  | declaration _ => simp [Instruction.command?, declare, emit]
  | @command c _ =>
    show (modeAfter c.keyword run.mode).inMission = true ↔ _
    unfold modeAfter
    by_cases hopening : c.keyword = Command.beginMissionSequence
    · cases run.mode <;> simp [hopening, Instruction.command?, Mode.inMission]
    · cases run.mode <;> simp [hopening, Instruction.command?, Mode.inMission]
  | @assignment _ _ r _ _ _ =>
    show (modeSwitched r.timing run.mode).inMission = true ↔ _
    unfold modeSwitched
    cases run.mode <;> simp [Instruction.command?, Mode.inMission]
    split_ifs <;> rfl

/-- The commands begin with the first command, and do not end. -/
theorem Passes.inCommands (h : Passes s run es after)
    (hbegun : run.mode.inCommands = true ∨ ∃ e ∈ es, e.waits = false ∧ e.instruction.command?.isSome = true) :
    after.mode.inCommands = true := by
  induction h with
  | done run => simpa using hbegun
  | handled _ hi _ ih =>
    apply ih
    rcases hbegun with hmode | ⟨e, he, hwaits, hcommand⟩
    · exact .inl (hi.inCommands (.inl (by simpa using hmode)))
    · rcases List.mem_cons.1 he with rfl | he
      · exact .inl (hi.inCommands (.inr hcommand))
      · exact .inr ⟨e, he, hwaits, hcommand⟩
  | waiting _ _ ih =>
    apply ih
    rcases hbegun with hmode | ⟨e, he, hwaits, hcommand⟩
    · exact .inl (by simpa using hmode)
    · rcases List.mem_cons.1 he with rfl | he
      · simp at hwaits
      · exact .inr ⟨e, he, hwaits, hcommand⟩

/-- The mission runs from the first command on that does more than open the sequence of commands. -/
theorem Passes.inMission_iff (h : Passes s run es after) : after.mode.inMission = true ↔
    run.mode.inMission = true ∨
      ∃ e ∈ es, e.waits = false ∧ ∃ c ∈ e.instruction.command?, c.keyword ≠ Command.beginMissionSequence := by
  induction h with
  | done run => simp
  | handled _ hi _ ih => rw [ih, hi.inMission_iff, mode_learn]; simp [or_assoc]
  | waiting _ _ ih => rw [ih, mode_setAside]; simp

end Run

/-! ## Scripts -/

section Scripts

variable {s : Setting} {voc : Vocabulary} {script : Text} {run : Run} {before later : List Entry} {e : Entry}
variable {a : Assignment}

/-- **Behind a command assignments are deferred.** A command of the first pass begins the commands. Every assignment
behind it is deferred, whether it waits or not, unless its object is a coordinate system when it is handled, or a
subscriber and no command of the first pass before it has done more than open the sequence of commands. -/
theorem deferred_iff_of_command (h : interpret s voc script = .ok run)
    (history : IsHistory s voc script run.program (before ++ e :: later)) (ha : e.instruction.assignment? = some a)
    (hcommand : ∃ c ∈ before, c.waits = false ∧ c.instruction.command?.isSome = true) :
    let declared := declaredBy ((if e.waits then before ++ e :: later else before).map (·.block))
    let kind := (s.objects.extend declared).kindOf a.owner
    a.deferred = true ↔ ¬(kind = .coordinateSystem ∨
      kind = .subscriber ∧ ∀ c ∈ before, c.waits = false → ∀ command ∈ c.instruction.command?,
        command.keyword = Command.beginMissionSequence) := by
  intro declared kind
  obtain ⟨middle, current, next, hbefore, hmode, hi, hdeclared⟩ := history.handled h
  have hbegun : e.mode.inCommands = true := by
    rw [← hmode]
    exact hbefore.inCommands (.inr hcommand)
  have hmission : e.mode.inMission = false ↔ ∀ c ∈ before, c.waits = false → ∀ command ∈ c.instruction.command?,
      command.keyword = Command.beginMissionSequence := by
    rw [← hmode, ← Bool.not_eq_true, hbefore.inMission_iff]
    simp [Run.start, Mode.inMission]
  have hkind : (current.scope s).kindOf a.owner = kind := by
    unfold Run.scope
    rw [hdeclared]
  rw [hi.deferred_iff hbegun ha, hkind, hmission]

end Scripts

/-- The opening command of a script is enough. -/
theorem deferred_behind_opening_command :
    let script := "Create Spacecraft Sat\nBeginMissionSequence\nSat.X = 3".toList
    ∃ (run : Run) (before : List Entry) (e : Entry) (a : Assignment),
      interpret .knowingFoo .initial script = .ok run ∧
      IsHistory .knowingFoo .initial script run.program (before ++ [e]) ∧ e.instruction.assignment? = some a ∧
      (∃ c ∈ before, c.waits = false ∧ c.instruction.command?.isSome = true) ∧ a.deferred = true := by
  intro script
  have hvisits : (readBlocks script).toOption.map (fun blocks =>
      ((Run.start .initial).visits .knowingFoo blocks).map fun v => (v.waits, v.block.content)) =
      some [(false, .statement (.declaration ⟨"Spacecraft".toList, [⟨"Sat".toList, []⟩]⟩)),
        (false, .statement (.command ⟨"BeginMissionSequence".toList, none, [], .keyword⟩)),
        (false, .statement (.assignment "Sat.X".toList "3".toList))] := by decide +kernel
  have hprogram : (interpret .knowingFoo .initial script).toOption.map (fun run => run.program.map fun i =>
      (i.command?.isSome, i.assignment?.map Assignment.owner)) =
      some [(false, none), (true, none), (false, some "Sat".toList)] := by decide +kernel
  obtain ⟨run, entries, h, history, hvisits, hprogram⟩ := exists_history_showing hvisits hprogram
  obtain ⟨e₁, _, rfl, h₁, hvisits⟩ := List.map_eq_cons_iff.1 hvisits
  obtain ⟨e₂, _, rfl, h₂, hvisits⟩ := List.map_eq_cons_iff.1 hvisits
  obtain ⟨e₃, _, rfl, h₃, hvisits⟩ := List.map_eq_cons_iff.1 hvisits
  obtain rfl := List.map_eq_nil_iff.1 hvisits
  obtain ⟨hwaits₁, hblock₁⟩ := Prod.mk.inj h₁
  obtain ⟨hwaits₂, hblock₂⟩ := Prod.mk.inj h₂
  obtain ⟨hwaits₃, _⟩ := Prod.mk.inj h₃
  simp only [List.filter_cons, hwaits₁, hwaits₂, hwaits₃, List.filter_nil, Bool.not_false, Bool.false_eq_true, if_true,
    if_false, List.append_nil, List.map_cons, List.map_nil, List.cons.injEq, Prod.mk.injEq, and_true] at hprogram
  obtain ⟨_, ⟨hcommand, _⟩, _, hassignment⟩ := hprogram
  obtain ⟨a, ha, howner⟩ := Option.map_eq_some_iff.1 hassignment
  have hbegun : ∃ c ∈ [e₁, e₂], c.waits = false ∧ c.instruction.command?.isSome = true :=
    ⟨e₂, by simp, hwaits₂, hcommand⟩
  have hkind : (Setting.knowingFoo.objects.extend (declaredBy [e₁.block, e₂.block])).kindOf a.owner = .other := by
    simp only [howner, declaredBy, List.foldl_cons, List.foldl_nil, Block.declare, hblock₁, hblock₂]
    decide
  refine ⟨run, [e₁, e₂], e₃, a, h, history, ha, hbegun, (deferred_iff_of_command h history ha hbegun).2 ?_⟩
  simp [hwaits₃, hkind]

/-- A command that waits does not begin the commands: an assignment behind it can take effect at once. -/
theorem exists_immediate_behind_command :
    ¬∀ (s : Setting) (voc : Vocabulary) (script : Text) (run : Run) (before later : List Entry) (e : Entry)
        (a : Assignment), interpret s voc script = .ok run → IsHistory s voc script run.program (before ++ e :: later) →
      e.instruction.assignment? = some a → (∃ c ∈ before, c.instruction.command?.isSome = true) →
      let declared := declaredBy ((if e.waits then before ++ e :: later else before).map (·.block))
      let kind := (s.objects.extend declared).kindOf a.owner
      a.deferred = true ∨ kind = .coordinateSystem ∨
        kind = .subscriber ∧ ∀ c ∈ before, ∀ command ∈ c.instruction.command?,
          command.keyword = Command.beginMissionSequence := by
  intro hall
  have hvisits : (readBlocks "Create Spacecraft Sat\nFoo(x)\nSat.X = 3\nSat.Y = foo(1)".toList).toOption.map
      (fun blocks => ((Run.start .initial).visits .knowingFoo blocks).map fun v => (v.waits, v.block.content)) =
      some [(false, .statement (.declaration ⟨"Spacecraft".toList, [⟨"Sat".toList, []⟩]⟩)),
        (true, .statement (.command ⟨"Foo".toList, none, "x".toList, .call⟩)),
        (false, .statement (.assignment "Sat.X".toList "3".toList)),
        (false, .statement (.assignment "Sat.Y".toList "foo(1)".toList))] := by decide +kernel
  have hprogram : (interpret .knowingFoo .initial "Create Spacecraft Sat\nFoo(x)\nSat.X = 3\nSat.Y = foo(1)".toList
      ).toOption.map (fun run => run.program.map fun i =>
        (i.command?.isSome, i.assignment?.map fun a => (a.owner, a.deferred))) =
      some [(false, none), (false, some ("Sat".toList, false)), (false, some ("Sat".toList, false)), (true, none)] := by
    decide +kernel
  obtain ⟨run, entries, h, history, hvisits, hprogram⟩ := exists_history_showing hvisits hprogram
  obtain ⟨e₁, _, rfl, h₁, hvisits⟩ := List.map_eq_cons_iff.1 hvisits
  obtain ⟨e₂, _, rfl, h₂, hvisits⟩ := List.map_eq_cons_iff.1 hvisits
  obtain ⟨e₃, _, rfl, h₃, hvisits⟩ := List.map_eq_cons_iff.1 hvisits
  obtain ⟨e₄, _, rfl, h₄, hvisits⟩ := List.map_eq_cons_iff.1 hvisits
  obtain rfl := List.map_eq_nil_iff.1 hvisits
  obtain ⟨hwaits₁, hblock₁⟩ := Prod.mk.inj h₁
  obtain ⟨hwaits₂, hblock₂⟩ := Prod.mk.inj h₂
  obtain ⟨hwaits₃, _⟩ := Prod.mk.inj h₃
  obtain ⟨hwaits₄, _⟩ := Prod.mk.inj h₄
  simp only [List.filter_cons, hwaits₁, hwaits₂, hwaits₃, hwaits₄, List.filter_nil, Bool.not_false, Bool.not_true,
    Bool.false_eq_true, if_true, if_false, List.cons_append, List.nil_append, List.map_cons, List.map_nil,
    List.cons.injEq, Prod.mk.injEq, and_true] at hprogram
  obtain ⟨_, ⟨_, hassignment⟩, _, hcommand, _⟩ := hprogram
  obtain ⟨a, ha, hshown⟩ := Option.map_eq_some_iff.1 hassignment
  obtain ⟨howner, hdeferred⟩ := Prod.mk.inj hshown
  have hkind : (Setting.knowingFoo.objects.extend (declaredBy [e₁.block, e₂.block])).kindOf a.owner = .other := by
    simp only [howner, declaredBy, List.foldl_cons, List.foldl_nil, Block.declare, hblock₁, hblock₂]
    decide
  have hclaim := hall _ _ _ run [e₁, e₂] [e₄] e₃ a h history ha ⟨e₂, by simp, hcommand⟩
  simp [hwaits₃, hkind, hdeferred] at hclaim

end MissionScript
