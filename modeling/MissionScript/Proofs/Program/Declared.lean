/-
Names and their declarations.

- `isSome_lookup_declaredBy`: the objects of a script are those that one of its blocks declares.
- `IsHistory.supplied`: what is declared when an assignment is handled has been declared by an earlier instruction.
- `firstPass_declared`, `replay_declared`: the first pass takes in every declaration, and the second pass meets none.
- `declared_before_use`: the order of declarations in a script does not matter, and the program has each declaration
  before the assignments to its objects.
-/
import MissionScript.Proofs.Program.Fault
import MissionScript.Proofs.Program.History

namespace MissionScript

/-! ## Who declares a name -/

def Declaration.Names (d : Declaration) (name : Text) : Prop := ∃ n ∈ d.names, n.name = name

def Block.Declares (b : Block) (name : Text) : Prop :=
  ∃ d, b.content = .statement (.declaration d) ∧ d.Names name

def Instruction.Declares (i : Instruction) (name : Text) : Prop := ∃ d, i.action = .declare d ∧ d.Names name

section Names

variable {b : Block} {i : Instruction} {name : Text} {blocks : List Block} {declared : List (Text × Text)}

theorem Instruction.ComesFrom.declares_iff (h : i.ComesFrom b) : i.Declares name ↔ b.Declares name := by
  obtain ⟨-, h⟩ := h
  cases hcontent : b.content with
  | comment => simp [hcontent] at h
  | statement statement =>
    cases haction : i.action with
    | declare d =>
      cases statement with
      | declaration d' =>
        obtain rfl : d = d' := by simpa [hcontent, haction] using h
        simp [Instruction.Declares, Block.Declares, hcontent, haction]
      | command c => simp [hcontent, haction] at h
      | assignment lhs rhs => simp [hcontent, haction] at h
    | assign a =>
      cases statement with
      | declaration d' => simp [hcontent, haction] at h
      | command c => simp [hcontent, haction] at h
      | assignment lhs rhs => simp [Instruction.Declares, Block.Declares, hcontent, haction]
    | command c =>
      cases statement with
      | declaration d' => simp [hcontent, haction] at h
      | command c' => simp [Instruction.Declares, Block.Declares, hcontent, haction]
      | assignment lhs rhs => simp [hcontent, haction] at h

theorem Block.not_declares_of_mayWait (h : b.mayWait = true) : ¬b.Declares name := by
  rintro ⟨d, hcontent, -⟩
  simp [Block.mayWait, hcontent] at h

theorem isSome_lookup_names {typeName : Text} {names : List DeclaredName} :
    ((names.foldl (fun declared n => (n.name, typeName) :: declared) declared).lookup name).isSome = true ↔
      (∃ n ∈ names, n.name = name) ∨ (declared.lookup name).isSome = true := by
  induction names generalizing declared with
  | nil => simp
  | cons n names ih =>
    rw [List.foldl_cons, ih, List.lookup_cons]
    by_cases hn : n.name = name
    · simp [hn]
    · have hne : (name == n.name) = false := beq_eq_false_iff_ne.2 (Ne.symm hn)
      simp [hn, hne]

theorem isSome_lookup_declare :
    ((b.declare declared).lookup name).isSome = true ↔ b.Declares name ∨ (declared.lookup name).isSome = true := by
  cases hcontent : b.content with
  | comment => simp [Block.declare, Block.Declares, hcontent]
  | statement statement =>
    cases statement with
    | command c => simp [Block.declare, Block.Declares, hcontent]
    | assignment lhs rhs => simp [Block.declare, Block.Declares, hcontent]
    | declaration d =>
      have hnames : b.Declares name ↔ d.Names name := by
        constructor
        · rintro ⟨d', hd', hname⟩
          rw [hcontent] at hd'
          obtain rfl : d = d' := by simpa using hd'
          exact hname
        · exact fun hname => ⟨d, hcontent, hname⟩
      rw [hnames]
      simp only [Block.declare, hcontent]
      exact isSome_lookup_names

/-- The objects of a script are those that one of its blocks declares. -/
theorem isSome_lookup_foldl :
    ((blocks.foldl (fun declared b => b.declare declared) declared).lookup name).isSome = true ↔
      (∃ b ∈ blocks, b.Declares name) ∨ (declared.lookup name).isSome = true := by
  induction blocks generalizing declared with
  | nil => simp
  | cons b blocks ih =>
    rw [List.foldl_cons, ih, isSome_lookup_declare]
    simp only [List.mem_cons, exists_eq_or_imp]
    rw [or_left_comm, or_assoc]

theorem isSome_lookup_declaredBy :
    ((declaredBy blocks).lookup name).isSome = true ↔ ∃ b ∈ blocks, b.Declares name := by
  unfold declaredBy
  rw [isSome_lookup_foldl]
  simp

theorem isDeclared_extend {objects : ObjectModel} : (objects.extend declared).isDeclared name = true ↔
    (declared.lookup name).isSome = true ∨ objects.isDeclared name = true := by
  simp [ObjectModel.isDeclared, ObjectModel.extend, Option.isSome_or]

end Names

/-! ## Programs -/

/-- the entries in the order in which their instructions take effect -/
def inOrder (entries : List Entry) : List Entry := entries.filter (!·.waits) ++ entries.filter (·.waits)

section Programs

variable {s : Setting} {voc : Vocabulary} {script : Text} {run : Run} {entries before later : List Entry} {e : Entry}
variable {lhs rhs : Text}

/-- Whatever precedes an entry that does not wait, and all that does not wait where the entry does, takes effect before
it. -/
theorem exists_split_of_inOrder (h : inOrder entries = before ++ e :: later) :
    ∃ earlier rest, entries = earlier ++ e :: rest ∧
      ∀ d ∈ (if e.waits then entries else earlier), d.waits = false → d ∈ before := by
  have hmem {es : List Entry} {d : Entry} (hd : d ∈ es) (hwaits : d.waits = false) : d ∈ es.filter (!·.waits) :=
    List.mem_filter.2 ⟨hd, by simp [hwaits]⟩
  -- the entry is one of those that wait, and all that do not are before it
  have late : ∀ rest, entries.filter (·.waits) = rest ++ e :: later → before = entries.filter (!·.waits) ++ rest →
      ∃ earlier rest, entries = earlier ++ e :: rest ∧
        ∀ d ∈ (if e.waits then entries else earlier), d.waits = false → d ∈ before := by
    intro rest hlate hbefore
    obtain ⟨l₁, l₂, rfl, -, hsecond⟩ := List.filter_eq_append_iff.1 hlate
    obtain ⟨l₃, l₄, rfl, -, hwaits, -⟩ := List.filter_eq_cons_iff.1 hsecond
    refine ⟨l₁ ++ l₃, l₄, by simp, ?_⟩
    intro d hd hearly
    rw [if_pos hwaits] at hd
    rw [hbefore]
    exact List.mem_append_left _ (hmem hd hearly)
  rcases List.append_eq_append_iff.1 h with ⟨rest, hbefore, hlate⟩ | ⟨rest, hearly, hlate⟩
  · exact late rest hlate hbefore
  · cases rest with
    | nil => exact late [] hlate.symm (by simpa using hearly.symm)
    | cons e' rest =>
      obtain ⟨rfl, -⟩ : e = e' ∧ later = rest ++ entries.filter (·.waits) := by simpa using hlate
      obtain ⟨l₁, l₂, rfl, hfirst, hsecond⟩ := List.filter_eq_append_iff.1 hearly
      obtain ⟨l₃, l₄, rfl, hskipped, hwaits, -⟩ := List.filter_eq_cons_iff.1 hsecond
      have hwaits : e.waits = false := by simpa using hwaits
      refine ⟨l₁ ++ l₃, l₄, by simp, ?_⟩
      intro d hd hearly
      rw [if_neg (by simp [hwaits])] at hd
      rcases List.mem_append.1 hd with hd | hd
      · exact hfirst ▸ hmem hd hearly
      · exact absurd hearly (by simpa using hskipped d hd)

theorem IsHistory.entry (history : IsHistory s voc script run.program entries) (h : interpret s voc script = .ok run)
    (he : e ∈ entries) : e.instruction.ComesFrom e.block ∧ (e.waits = true → e.block.mayWait = true) := by
  obtain ⟨middle, hpasses, hreplays⟩ := history.passes h
  refine ⟨?_, hpasses.mayWait he⟩
  cases hwaits : e.waits with
  | false => exact hpasses.comesFrom he hwaits
  | true => exact hreplays.comesFrom (List.mem_filter.2 ⟨he, hwaits⟩)

theorem exists_assignment_of_comesFrom {i : Instruction} {b : Block} {a : Assignment} (h : i.ComesFrom b)
    (ha : i.assignment? = some a) : ∃ rhs, b.content = .statement (.assignment a.lhs rhs) := by
  have haction : i.action = .assign a := by
    unfold Instruction.assignment? at ha
    split at ha
    · next haction => rw [haction, Option.some.inj ha]
    · simp at ha
    · simp at ha
  obtain ⟨-, h⟩ := h
  cases hcontent : b.content with
  | comment => simp [hcontent] at h
  | statement statement =>
    cases statement with
    | declaration d => simp [hcontent, haction] at h
    | command c => simp [hcontent, haction] at h
    | assignment lhs rhs =>
      obtain rfl : a.lhs = lhs := by simpa [hcontent, haction] using h
      exact ⟨rhs, rfl⟩

/-- The entry of an instruction stands where the instruction stands. -/
theorem IsHistory.exists_entry {i : Instruction} {earlier rest : List Instruction}
    (history : IsHistory s voc script run.program entries) (hprogram : run.program = earlier ++ i :: rest) :
    ∃ before e later, inOrder entries = before ++ e :: later ∧ before.map Entry.instruction = earlier ∧
      e.instruction = i := by
  have horder : (inOrder entries).map Entry.instruction = earlier ++ i :: rest := history.program.symm.trans hprogram
  obtain ⟨before, tail, hsplit, hbefore, htail⟩ := List.map_eq_append_iff.1 horder
  obtain ⟨e, later, rfl, he, -⟩ := List.map_eq_cons_iff.1 htail
  exact ⟨before, e, later, hsplit, hbefore, he⟩

/-- An assignment has what it needs when it is handled; what is declared then comes from outside or from an earlier
instruction, and the functions known then are known to the end. -/
theorem IsHistory.supplied (history : IsHistory s voc script run.program entries) (h : interpret s voc script = .ok run)
    (horder : inOrder entries = before ++ e :: later) (hcontent : e.block.content = .statement (.assignment lhs rhs)) :
    ∃ current : Run, current.Supplied s lhs rhs ∧ current.vocabulary ≤ run.vocabulary ∧
      ∀ name, (current.scope s).isDeclared name = true →
        s.objects.isDeclared name = true ∨ ∃ d ∈ before, d.instruction.Declares name := by
  obtain ⟨earlier, rest, rfl, hbefore⟩ := exists_split_of_inOrder horder
  obtain ⟨_, current, _, _, _, hi, hdeclared, hvocabulary⟩ := history.reached h
  refine ⟨current, hi.supplied hcontent, hvocabulary, ?_⟩
  · intro name hname
    unfold Run.scope at hname
    rw [hdeclared, isDeclared_extend, isSome_lookup_declaredBy] at hname
    rcases hname with ⟨b, hb, hdeclares⟩ | hname
    · obtain ⟨d, hd, rfl⟩ := List.mem_map.1 hb
      have hentry : d ∈ earlier ++ e :: rest := by
        cases hwaits : e.waits with
        | true => simpa [hwaits] using hd
        | false => exact List.mem_append_left _ (by simpa [hwaits] using hd)
      obtain ⟨hcomes, hwait⟩ := history.entry h hentry
      have hearly : d.waits = false := by
        by_contra hlate
        exact Block.not_declares_of_mayWait (hwait (by simpa using hlate)) hdeclares
      exact .inr ⟨d, hbefore d hd hearly, hcomes.declares_iff.2 hdeclares⟩
    · exact .inl hname

end Programs

/-! ## Failures -/

namespace Run

variable {s : Setting} {run after : Run} {blocks : List Block} {ds : List Delayed}

theorem firstStep_declared {b : Block} (h : run.firstStep s b = .ok after) :
    after.declared = b.declare run.declared := by
  cases hb : b.isStatement with
  | false =>
    rw [firstStep_of_comment hb] at h
    obtain rfl := Except.ok.inj h
    unfold Block.isStatement at hb
    unfold Block.declare
    split at hb
    · simp at hb
    · next hcontent => rw [hcontent]
  | true =>
    rcases firstStep_cases hb h with ⟨haside, rfl⟩ | ⟨-, i, hi⟩
    · rw [declared_setAside, Block.declare_of_mayWait (mayWait_of_setsAside haside)]
    · rw [hi.declared, declared_learn]

theorem firstPass_declared (h : run.firstPass s blocks = .ok after) :
    after.declared = blocks.foldl (fun declared b => b.declare declared) run.declared := by
  induction blocks generalizing run with
  | nil =>
    obtain rfl := Except.ok.inj h
    rfl
  | cons b rest ih =>
    obtain ⟨next, hstep, hrest⟩ := foldlM_cons_eq_ok_iff.1 h
    rw [List.foldl_cons, ← firstStep_declared hstep]
    exact ih hrest

theorem replay_declared (hds : ∀ d ∈ ds, d.block.mayWait = true) (h : ds.foldlM (replayStep s) run = .ok after) :
    after.declared = run.declared := by
  obtain ⟨late, rfl, -, hreplays⟩ := replays_of_foldlM hds h
  exact hreplays.declared fun e he => hds _ (List.mem_map_of_mem he)

end Run

section Scripts

variable {s : Setting} {voc : Vocabulary} {script : Text} {run : Run} {failure : Failure} {name : Text}

/-- A name that is missed is declared nowhere. -/
theorem not_declares_of_undeclaredName (h : interpret s voc script = .error failure)
    (hfault : failure.error.fault = .undeclaredName name) :
    s.objects.typeOf name = none ∧ ∃ blocks, readBlocks script = .ok blocks ∧ ∀ b ∈ blocks, ¬b.Declares name := by
  have notOfValue : ¬failure.error.fault.IsOfValue := by
    rw [hfault]
    rintro (⟨e, h⟩ | ⟨lhs, rhs, h⟩) <;> simp at h
  unfold interpret at h
  cases hblocks : readBlocks script with
  | error e =>
    simp only [hblocks] at h
    obtain rfl := Except.error.inj h
    obtain ⟨t, flaw, hinvalid⟩ := isInvalidStatement_of_readBlocks hblocks
    simp [hinvalid] at hfault
  | ok blocks =>
    simp only [hblocks] at h
    rcases bind_eq_error_iff.1 h with h | ⟨middle, hfirst, h⟩
    · obtain ⟨_, b, _, reached, -, -, hstep⟩ := exists_of_foldlM_eq_error h
      exact absurd (Run.firstStep_fault hstep) notOfValue
    · obtain ⟨ds, hdelayed, hwait, -⟩ := Run.passes_of_firstPass hfirst
      obtain ⟨before, d, later, reached, hsplit, hbefore, hstep⟩ := exists_of_foldlM_eq_error h
      -- behind the first pass every declaration is in place
      have hdeclared : reached.declared = declaredBy blocks := by
        have hsplit : ds = before ++ d :: later := by rw [← hsplit, hdelayed]; rfl
        rw [Run.replay_declared (fun d hd => hwait d (hsplit ▸ List.mem_append_left _ hd)) hbefore]
        exact Run.firstPass_declared hfirst
      rcases Run.replayStep_fault hstep with hvalue | ⟨name', hunknown⟩ | ⟨name', hname, hmissing⟩
      · exact absurd hvalue notOfValue
      · simp [hunknown] at hfault
      · obtain rfl : name' = name := by simpa [hname] using hfault
        have hnone := mt isDeclared_extend.2 (by simpa [Run.scope] using hmissing)
        rw [hdeclared, isSome_lookup_declaredBy] at hnone
        refine ⟨?_, blocks, rfl, fun b hb hdeclares => hnone (.inl ⟨b, hb, hdeclares⟩)⟩
        have houtside : ¬s.objects.isDeclared name' = true := fun houtside => hnone (.inr houtside)
        simpa [ObjectModel.isDeclared] using houtside

/-- The target of an assignment is an object from outside, or an earlier instruction declares it. -/
theorem target_declared {before later : List Instruction} {i : Instruction} {a : Assignment}
    (h : interpret s voc script = .ok run) (hprogram : run.program = before ++ i :: later)
    (ha : i.assignment? = some a) : s.objects.isDeclared (Reference.head a.lhs) = true ∨
      ∃ d ∈ before, d.Declares (Reference.head a.lhs) := by
  obtain ⟨entries, history⟩ := exists_history h
  obtain ⟨earlier, e, rest, horder, rfl, rfl⟩ := history.exists_entry hprogram
  have he : e ∈ entries := by
    have hmem : e ∈ inOrder entries := by simp [horder]
    rcases List.mem_append.1 hmem with hmem | hmem
    · exact (List.mem_filter.1 hmem).1
    · exact (List.mem_filter.1 hmem).1
  obtain ⟨rhs, hcontent⟩ := exists_assignment_of_comesFrom (history.entry h he).1 ha
  obtain ⟨current, hsupplied, -, hdeclared⟩ := history.supplied h horder hcontent
  rcases hdeclared _ hsupplied.target with houtside | ⟨d, hd, hdeclares⟩
  · exact .inl houtside
  · exact .inr ⟨d.instruction, List.mem_map_of_mem hd, hdeclares⟩

end Scripts

/-- **The order of declarations does not matter, and a program declares before it assigns.** A script fails for want of
a name only when there is no such object outside and no statement of the script declares one. In the program of a script
the target of an assignment is an object from outside, or an earlier instruction declares it. -/
theorem declared_before_use (s : Setting) (voc : Vocabulary) (script : Text) :
    (∀ (failure : Failure) (name : Text), interpret s voc script = .error failure →
      failure.error.fault = .undeclaredName name →
        s.objects.typeOf name = none ∧ ∃ blocks, readBlocks script = .ok blocks ∧ ∀ b ∈ blocks, ¬b.Declares name) ∧
    ∀ (run : Run) (before later : List Instruction) (i : Instruction) (a : Assignment),
      interpret s voc script = .ok run → run.program = before ++ i :: later → i.assignment? = some a →
        s.objects.isDeclared (Reference.head a.lhs) = true ∨ ∃ d ∈ before, d.Declares (Reference.head a.lhs) := by
  constructor
  · intro failure name h hfault
    exact not_declares_of_undeclaredName h hfault
  · intro run before later i a h hprogram ha
    exact target_declared h hprogram ha

/-- A declaration may follow the first use of its object; it may not be left out. -/
theorem forward_target_and_missing_owner :
    let forward := "Sat.X = 3\nCreate Spacecraft Sat".toList
    let lacking := "Sat.X = Ghost.X\nCreate Spacecraft Sat".toList
    (∃ (run : Run) (declaration assignment : Instruction) (a : Assignment),
      interpret .knowingFoo .initial forward = .ok run ∧ run.program = [declaration, assignment] ∧
      assignment.assignment? = some a ∧ Reference.head a.lhs = "Sat".toList ∧ declaration.Declares "Sat".toList) ∧
    ∃ (failure : Failure) (blocks : List Block), interpret .knowingFoo .initial lacking = .error failure ∧
      failure.error.fault = .undeclaredName "Ghost".toList ∧ readBlocks lacking = .ok blocks ∧
      ∀ b ∈ blocks, ¬b.Declares "Ghost".toList := by
  intro forward lacking
  constructor
  · have hheads : (interpret .knowingFoo .initial forward).toOption.map (fun run => run.program.map fun i =>
        i.assignment?.map fun a => Reference.head a.lhs) = some [none, some "Sat".toList] := by decide +kernel
    cases h : interpret .knowingFoo .initial forward with
    | error failure => simp [h, Except.toOption] at hheads
    | ok run =>
      rw [h] at hheads
      obtain ⟨declaration, rest, hprogram, -, hrest⟩ := List.map_eq_cons_iff.1 (Option.some.inj hheads)
      obtain ⟨assignment, rest, rfl, hhead, hnil⟩ := List.map_eq_cons_iff.1 hrest
      obtain rfl := List.map_eq_nil_iff.1 hnil
      obtain ⟨a, ha, hname⟩ := Option.map_eq_some_iff.1 hhead
      refine ⟨run, declaration, assignment, a, rfl, hprogram, ha, hname, ?_⟩
      have htarget := (declared_before_use _ _ _).2 run [declaration] [] assignment a h hprogram ha
      rcases htarget with houtside | ⟨d, hd, hdeclares⟩
      · simp [Setting.knowingFoo, ObjectModel.isDeclared] at houtside
      · obtain rfl := List.mem_singleton.1 hd
        rwa [hname] at hdeclares
  · have hfault : ((interpret .knowingFoo .initial lacking).mapError fun failure => failure.error.fault).map
        (fun _ => ()) = .error (.undeclaredName "Ghost".toList) := by decide +kernel
    cases h : interpret .knowingFoo .initial lacking with
    | ok run => simp [h, Except.map] at hfault
    | error failure =>
      rw [h] at hfault
      have hfault : failure.error.fault = .undeclaredName "Ghost".toList := Except.error.inj hfault
      obtain ⟨-, blocks, hblocks, hnone⟩ := (declared_before_use _ _ _).1 failure _ h hfault
      exact ⟨failure, blocks, rfl, hfault, hblocks, hnone⟩

end MissionScript
