/-
The mode of a run and its history.

A run begins in setup. Two things change its mode: a command, and an assignment that the commands begin with. Both count
only when the first pass treats them; what is set aside keeps the mode it was met in and gives nothing to the run.

- `Comes` says which blocks the interpretation of a script comes to, in which mode and in which run; `comes_of_delayed`.
- `Marks`: a flag of the mode that handling a statement can only set.
- `Marks.firstStep`, `Marks.firstPass`: behind a block, and behind some blocks, the flag is set exactly when it was or
  when one of them set it.
- `mode_replays`: the second pass leaves the mode alone.
- `mode_of_comes`: the mode in which a block is treated says what was treated before it.
-/
import MissionScript.Proofs.Program.CommandMode

namespace MissionScript

variable {s : Setting} {voc : Vocabulary} {script : Text} {b : Block} {blocks earlier : List Block}

/-- The block is a command that does more than open the sequence of commands. -/
def Block.StartsMission (b : Block) : Prop :=
  ∃ c : Command, b.content = .statement (.command c) ∧ c.keyword ≠ Command.beginMissionSequence

namespace Run

variable {run after met ended : Run} {mode : Mode} {i : Instruction} {d : Delayed} {ds before rest : List Delayed}

/-- Treated in a run and a mode, the block is a command or an assignment that the commands begin with. -/
inductive Opens (s : Setting) (run : Run) (mode : Mode) (b : Block) : Prop where
  | command {c : Command} : b.content = .statement (.command c) → Opens s run mode b
  | assignment {lhs rhs : Text} {r : Resolution} : b.content = .statement (.assignment lhs rhs) →
      resolve s.nesting run.vocabulary (run.scope s) mode lhs rhs = .ok r → r.timing.switches = true →
      Opens s run mode b

theorem opens_iff_of_resolve {lhs rhs : Text} {r : Resolution} (hcontent : b.content = .statement (.assignment lhs rhs))
    (hresolve : resolve s.nesting run.vocabulary (run.scope s) mode lhs rhs = .ok r) :
    run.Opens s mode b ↔ r.timing.switches = true := by
  refine ⟨fun h => ?_, .assignment hcontent hresolve⟩
  cases h with
  | command hother => simp [hcontent] at hother
  | assignment hsame hr hswitches =>
    obtain ⟨rfl, rfl⟩ := Statement.assignment.inj (Content.statement.inj (hcontent.symm.trans hsame))
    rwa [Except.ok.inj (hresolve.symm.trans hr)]

/-- Going over some blocks, the first pass comes in a run to a block that it treats at once. -/
inductive Completes (s : Setting) : Run → List Block → Run → Block → Prop where
  | here {run after : Run} {b : Block} {rest : List Block} : run.setsAside s b = false → run.firstStep s b = .ok after →
      Completes s run (b :: rest) run b
  | later {run next met : Run} {b e : Block} {rest : List Block} : run.firstStep s b = .ok next →
      Completes s next rest met e → Completes s run (b :: rest) met e

/-! ## Flags of the mode -/

/-- Handling a statement sets the flag exactly when it has the property, and never clears it. -/
structure Marks (s : Setting) (flag : Mode → Bool) (P : Run → Mode → Block → Prop) : Prop where
  statement : ∀ {run : Run} {mode : Mode} {b : Block}, P run mode b → b.isStatement = true
  handled : ∀ {run after : Run} {mode : Mode} {b : Block} {i : Instruction}, Handled s .first run mode b i after →
    (flag after.mode = true ↔ flag run.mode = true ∨ P run mode b)

theorem marks_inCommands (s : Setting) : Marks s Mode.inCommands (fun run mode b => run.Opens s mode b) where
  statement h := by
    unfold Block.isStatement
    cases h with
    | command hcontent => rw [hcontent]
    | assignment hcontent _ _ => rw [hcontent]
  handled {run after mode b i} h := by
    cases h with
    | declaration hcontent =>
      refine ⟨.inl, ?_⟩
      rintro (hmode | hopens)
      · exact hmode
      · cases hopens with
        | command hother => simp [hcontent] at hother
        | assignment hother _ _ => simp [hcontent] at hother
    | command hcontent =>
      have hhandled : Handled s .first run mode b _ _ := .command hcontent
      exact iff_of_true (hhandled.inCommands (.inr rfl)) (.inr (.command hcontent))
    | @assignment lhs rhs r hcontent _ hresolve =>
      rw [opens_iff_of_resolve hcontent hresolve]
      change (modeSwitched r.timing run.mode).inCommands = true ↔ _
      -- only in setup is there anything left to switch
      cases hmode : run.mode with
      | setup => cases hswitches : r.timing.switches <;> simp [modeSwitched, hswitches, Mode.inCommands]
      | sequence => simp [modeSwitched, Mode.inCommands]
      | mission => simp [modeSwitched, Mode.inCommands]

theorem marks_inMission (s : Setting) : Marks s Mode.inMission (fun _ _ b => b.StartsMission) where
  statement h := by
    obtain ⟨c, hcontent, -⟩ := h
    rw [Block.isStatement, hcontent]
  handled {run after mode b i} h := by
    rw [h.inMission_iff]
    apply or_congr_right
    cases h with
    | declaration hcontent => simp [Instruction.command?, Block.StartsMission, hcontent]
    | command hcontent => simp [Instruction.command?, Block.StartsMission, hcontent]
    | assignment hcontent _ _ => simp [Instruction.command?, Block.StartsMission, hcontent]

namespace Marks

variable {flag : Mode → Bool} {P : Run → Mode → Block → Prop}

/-- A block of the first pass sets the flag when it is treated at once and has the property. -/
theorem firstStep (hmarks : Marks s flag P) (h : run.firstStep s b = .ok after) :
    flag after.mode = true ↔
      flag run.mode = true ∨ run.setsAside s b = false ∧ P (run.learn s b) run.mode b := by
  cases hb : b.isStatement with
  | false =>
    obtain rfl := Except.ok.inj ((firstStep_of_comment hb).symm.trans h)
    refine ⟨.inl, ?_⟩
    rintro (hflag | ⟨-, hP⟩)
    · exact hflag
    · exact absurd ((hmarks.statement hP).symm.trans hb) (by decide)
  | true =>
    rcases firstStep_cases hb h with ⟨haside, rfl⟩ | ⟨haside, i, hi⟩
    · simp [haside]
    · rw [hmarks.handled hi, mode_learn]
      simp [haside]

theorem firstPass (hmarks : Marks s flag P) (h : run.firstPass s blocks = .ok after) :
    flag after.mode = true ↔
      flag run.mode = true ∨ ∃ met e, Completes s run blocks met e ∧ P (met.learn s e) met.mode e := by
  induction blocks generalizing run with
  | nil =>
    obtain rfl := Except.ok.inj h
    refine ⟨.inl, ?_⟩
    rintro (hflag | ⟨met, e, hnone, -⟩)
    · exact hflag
    · cases hnone
  | cons b rest ih =>
    obtain ⟨next, hstep, hrest⟩ := foldlM_cons_eq_ok_iff.1 h
    rw [ih hrest, hmarks.firstStep hstep, or_assoc]
    apply or_congr_right
    constructor
    · rintro (⟨haside, hP⟩ | ⟨met, e, hcompletes, hP⟩)
      · exact ⟨run, b, .here haside hstep, hP⟩
      · exact ⟨met, e, .later hstep hcompletes, hP⟩
    · rintro ⟨met, e, hcompletes, hP⟩
      cases hcompletes with
      | here haside _ => exact .inl ⟨haside, hP⟩
      | later hother hlater =>
        obtain rfl := Except.ok.inj (hstep.symm.trans hother)
        exact .inr ⟨met, e, hlater, hP⟩

end Marks

/-! ## The second pass -/

theorem mode_replayStep (h : run.replayStep s d = .ok after) : after.mode = run.mode := by
  simp only [replayStep] at h
  split at h
  · exact absurd h (by simp)
  · exact absurd h (by simp)
  · exact absurd h (by simp)
  all_goals
    have hsame : after.mode = (run.learn s d.block).mode := (perform_frame (mapError_eq_ok_iff.1 h)).2 rfl
    rw [hsame, mode_learn]

theorem mode_replays (h : ds.foldlM (replayStep s) run = .ok after) : after.mode = run.mode := by
  induction ds generalizing run with
  | nil =>
    obtain rfl := Except.ok.inj h
    rfl
  | cons d ds ih =>
    obtain ⟨next, hstep, hrest⟩ := foldlM_cons_eq_ok_iff.1 h
    rw [ih hrest, mode_replayStep hstep]

/-! ## What waits -/

/-- A block that is not set aside leaves what waits as it is. -/
theorem waits_of_firstStep (h : run.firstStep s b = .ok after) :
    (run.setsAside s b = true ∧ after = run.setAside s b) ∨
      (run.setsAside s b = false ∧ after.delayed = run.delayed) := by
  cases hb : b.isStatement with
  | false =>
    obtain rfl := Except.ok.inj ((firstStep_of_comment hb).symm.trans h)
    refine .inr ⟨?_, rfl⟩
    by_contra haside
    have hmay := mayWait_of_setsAside (Bool.not_eq_false _ ▸ haside)
    exact absurd ((Block.isStatement_of_mayWait hmay).symm.trans hb) (by decide)
  | true =>
    rcases firstStep_cases hb h with haside | ⟨haside, i, hi⟩
    · exact .inl haside
    · exact .inr ⟨haside, by rw [hi.delayed, delayed_learn]⟩

/-- What waits behind the first pass was met in its mode, when as much had been set aside as stands before it. -/
theorem exists_of_delayed (h : run.firstPass s blocks = .ok ended)
    (hdelayed : ended.delayed = run.delayed ++ (before ++ d :: rest)) :
    ∃ earlier later met, blocks = earlier ++ d.block :: later ∧ run.firstPass s earlier = .ok met ∧
      met.setsAside s d.block = true ∧ met.delayed = run.delayed ++ before ∧ met.mode = d.mode := by
  induction blocks generalizing run before with
  | nil =>
    obtain rfl := Except.ok.inj h
    exact absurd hdelayed (by simp)
  | cons b blocks ih =>
    obtain ⟨next, hstep, hlater⟩ := foldlM_cons_eq_ok_iff.1 h
    -- what is known of a block behind the first one
    have hbehind (u : List Delayed) (hnext : next.delayed ++ u = run.delayed ++ before)
        (hrest : ended.delayed = next.delayed ++ (u ++ d :: rest)) :
        ∃ earlier later met, b :: blocks = earlier ++ d.block :: later ∧ run.firstPass s earlier = .ok met ∧
          met.setsAside s d.block = true ∧ met.delayed = run.delayed ++ before ∧ met.mode = d.mode := by
      obtain ⟨earlier, later, met, rfl, hmet, haside, hdone, hmode⟩ := ih hlater hrest
      have hwhole : run.firstPass s (b :: earlier) = .ok met := foldlM_cons_eq_ok_iff.2 ⟨next, hstep, hmet⟩
      exact ⟨b :: earlier, later, met, rfl, hwhole, haside, hdone.trans hnext, hmode⟩
    rcases waits_of_firstStep hstep with ⟨haside, rfl⟩ | ⟨-, hsame⟩
    · obtain ⟨ds, hds, -, -⟩ := passes_of_firstPass hlater
      rw [delayed_setAside, List.append_assoc, hdelayed, List.append_cancel_left_eq] at hds
      cases before with
      | nil =>
        obtain ⟨rfl, -⟩ := List.cons.inj hds
        exact ⟨[], blocks, run, rfl, rfl, haside, (List.append_nil _).symm, rfl⟩
      | cons x before =>
        obtain ⟨rfl, -⟩ := List.cons.inj hds
        exact hbehind before (by simp) (by simp [hdelayed])
    · exact hbehind before (by rw [hsame]) (by rw [hsame]; exact hdelayed)

end Run

/-! ## Scripts -/

/-- Interpreting a script comes to a block, with the blocks before it in the script, in a mode and a run: first in the
first pass, and again in the second one if the first one set it aside. What then becomes of the block is left open. -/
inductive Comes (s : Setting) (voc : Vocabulary) (script : Text) (earlier : List Block) (b : Block) :
    Bool → Mode → Run → Prop where
  | first {later : List Block} {run : Run} : readBlocks script = .ok (earlier ++ b :: later) →
      (Run.start voc).firstPass s earlier = .ok run → Comes s voc script earlier b false run.mode run
  | again {later : List Block} {met ended run : Run} {mode : Mode} {rest : List Delayed} :
      readBlocks script = .ok (earlier ++ b :: later) → (Run.start voc).firstPass s earlier = .ok met →
      met.setsAside s b = true → (Run.start voc).firstPass s (earlier ++ b :: later) = .ok ended →
      ended.delayed = met.delayed ++ ⟨b, mode⟩ :: rest →
      met.delayed.foldlM (Run.replayStep s) { ended with delayed := [] } = .ok run →
      Comes s voc script earlier b true mode run

variable {run ended : Run} {mode : Mode} {again : Bool} {before rest : List Delayed} {d : Delayed}

/-- The second pass comes to nothing but what the first one came to. -/
theorem comes_of_delayed (hblocks : readBlocks script = .ok blocks)
    (hended : (Run.start voc).firstPass s blocks = .ok ended) (hdelayed : ended.delayed = before ++ d :: rest)
    (hrun : before.foldlM (Run.replayStep s) { ended with delayed := [] } = .ok run) :
    ∃ earlier, Comes s voc script earlier d.block true d.mode run := by
  obtain ⟨earlier, later, met, rfl, hmet, haside, hbefore, -⟩ := Run.exists_of_delayed hended hdelayed
  obtain rfl : met.delayed = before := hbefore
  exact ⟨earlier, .again hblocks hmet haside hended hdelayed hrun⟩

/-- What waits is taken up in the mode in which it was met. -/
theorem Comes.exists_met (h : Comes s voc script earlier b again mode run) :
    ∃ met, (Run.start voc).firstPass s earlier = .ok met ∧ met.mode = mode := by
  cases h with
  | first _ hmet => exact ⟨run, hmet, rfl⟩
  | @again later met ended _ _ rest _ hmet haside hended hdelayed _ =>
    refine ⟨met, hmet, ?_⟩
    obtain ⟨middle, hmiddle, hbehind⟩ := foldlM_append_eq_ok_iff.1 hended
    obtain rfl := Except.ok.inj (hmet.symm.trans hmiddle)
    obtain ⟨next, hstep, hlater⟩ := foldlM_cons_eq_ok_iff.1 hbehind
    rcases Run.waits_of_firstStep hstep with ⟨-, rfl⟩ | ⟨hpasses, -⟩
    · obtain ⟨ds, hds, -, -⟩ := Run.passes_of_firstPass hlater
      rw [hdelayed, Run.delayed_setAside, List.append_assoc, List.append_cancel_left_eq] at hds
      exact congrArg Delayed.mode (List.cons.inj hds).1.symm
    · exact absurd (haside.symm.trans hpasses) (by decide)

/-- The first pass is over when a block is come to again, and the mode of the run stays what it was then. -/
theorem Comes.exists_ended (h : Comes s voc script earlier b true mode run) :
    ∃ blocks ended, readBlocks script = .ok blocks ∧ (Run.start voc).firstPass s blocks = .ok ended ∧
      run.mode = ended.mode := by
  cases h with
  | @again later met ended _ _ rest hblocks _ _ hended _ hrun =>
    have hstays := Run.mode_replays hrun
    exact ⟨_, ended, hblocks, hended, hstays⟩

/-- **The mode is what the history says.** A block is treated, at once or when it has waited, as one among commands
exactly when a block before it that the first pass treated at once was a command or an assignment that the commands
begin with. It is treated as one of a running mission exactly when such a block was a command that does more than open
the sequence, and then it is one among commands. Nothing is taken back: a step of the first pass keeps both, and the
second pass ends in the mode it begins in. -/
theorem mode_of_comes (h : Comes s voc script earlier b again mode run) :
    (mode.inCommands = true ↔ ∃ met e, Run.Completes s (Run.start voc) earlier met e ∧
        (met.learn s e).Opens s met.mode e) ∧
      (mode.inMission = true ↔ ∃ met e, Run.Completes s (Run.start voc) earlier met e ∧ e.StartsMission) ∧
      (mode.inMission = true → mode.inCommands = true) ∧
      (again = false → run.mode = mode ∧ ∀ after, run.firstStep s b = .ok after →
        (mode.inCommands = true → after.mode.inCommands = true) ∧
          (mode.inMission = true → after.mode.inMission = true)) ∧
      (again = true → ∃ blocks ended, readBlocks script = .ok blocks ∧
        (Run.start voc).firstPass s blocks = .ok ended ∧ run.mode = ended.mode ∧
        ∀ after, run.replayStep s ⟨b, mode⟩ = .ok after → after.mode = ended.mode) := by
  obtain ⟨met, hmet, hmode⟩ := h.exists_met
  have hcommands := (Run.marks_inCommands s).firstPass hmet
  have hmission := (Run.marks_inMission s).firstPass hmet
  rw [hmode] at hcommands hmission
  have hcommands : mode.inCommands = true ↔ ∃ met e, Run.Completes s (Run.start voc) earlier met e ∧
      (met.learn s e).Opens s met.mode e := by simpa [Run.start, Mode.inCommands] using hcommands
  have hmission : mode.inMission = true ↔ ∃ met e, Run.Completes s (Run.start voc) earlier met e ∧
      e.StartsMission := by simpa [Run.start, Mode.inMission] using hmission
  refine ⟨hcommands, hmission, ?_, ?_, ?_⟩
  · intro hruns
    obtain ⟨met, e, hcompletes, c, hcontent, -⟩ := hmission.1 hruns
    exact hcommands.2 ⟨met, e, hcompletes, .command hcontent⟩
  · rintro rfl
    cases h with
    | first _ _ =>
      refine ⟨rfl, fun after hstep => ⟨fun hmode => ?_, fun hmode => ?_⟩⟩
      · exact ((Run.marks_inCommands s).firstStep hstep).2 (.inl hmode)
      · exact ((Run.marks_inMission s).firstStep hstep).2 (.inl hmode)
  · rintro rfl
    obtain ⟨blocks, ended, hblocks, hended, hstays⟩ := h.exists_ended
    exact ⟨blocks, ended, hblocks, hended, hstays, fun after hstep => (Run.mode_replayStep hstep).trans hstays⟩

/-- An assignment that waits behind the opening command, with the mission begun before it is taken up. -/
theorem mode_of_comes_waiting :
    let script :=
      "Create Spacecraft Sat\nBeginMissionSequence\nSat.X = Relay.X\nPropagate P(Sat)\nCreate Spacecraft Relay".toList
    ∃ earlier b run, Comes .knowingFoo .initial script earlier b true .sequence run ∧ run.mode = .mission ∧
      (∃ met e, Run.Completes .knowingFoo (Run.start .initial) earlier met e ∧
        (met.learn .knowingFoo e).Opens .knowingFoo met.mode e) ∧
      ¬∃ met e, Run.Completes .knowingFoo (Run.start .initial) earlier met e ∧ e.StartsMission := by
  intro script
  have hshown : (readBlocks script).toOption.bind (fun blocks =>
      ((Run.start .initial).firstPass .knowingFoo blocks).toOption.map fun ended =>
        (ended.mode, ended.delayed.map Delayed.mode)) = some (.mission, [.sequence]) := by decide +kernel
  obtain ⟨blocks, hblocks, hshown⟩ := toOption_bind_eq_some_iff.1 hshown
  obtain ⟨ended, hended, hshown⟩ := toOption_map_eq_some_iff.1 hshown
  obtain ⟨hmode, hdelayed⟩ := Prod.mk.inj hshown
  obtain ⟨d, _, hone, hd, hnil⟩ := List.map_eq_cons_iff.1 hdelayed
  obtain rfl := List.map_eq_nil_iff.1 hnil
  have hfirst : ended.delayed = [] ++ d :: [] := hone
  obtain ⟨earlier, hcomes⟩ := comes_of_delayed hblocks hended hfirst rfl
  rw [hd] at hcomes
  obtain ⟨hcommands, hmission, -, -, -⟩ := mode_of_comes hcomes
  exact ⟨earlier, d.block, _, hcomes, hmode, hcommands.1 rfl, mt hmission.2 (by decide)⟩

end MissionScript
