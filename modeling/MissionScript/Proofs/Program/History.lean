/-
The history of a script.

A `Visit` says how the first pass finds a statement; an `Entry` adds the instruction that the statement became.

- `IsHistory` says what the entries of a script have to do with its blocks and with its program; `IsHistory.unique`.
- `Passes` and `Replays` are the two passes, entry by entry.
- `exists_entries`: interpreting a script passes over its entries and replays those that wait.
- `program_of_interpret`: the program is one instruction for each statement, in the order of the script, and what waits
  comes last.
-/
import MissionScript.Proofs.Program.Step

namespace MissionScript

/-- how the first pass finds a statement -/
structure Visit where
  block : Block
  /-- the mode of the run at that point -/
  mode : Mode
  /-- true when the statement is set aside -/
  waits : Bool
  deriving DecidableEq

/-- a visit, and the instruction that the statement became -/
structure Entry extends Visit where
  instruction : Instruction

def Entry.delayed (e : Entry) : Delayed := ⟨e.block, e.mode⟩

/-- the objects that blocks declare, the latest first -/
def declaredBy (blocks : List Block) : List (Text × Text) := blocks.foldl (fun declared b => b.declare declared) []

namespace Run

variable {s : Setting} {voc : Vocabulary} {script : Text} {run after : Run} {blocks : List Block}
variable {e : Entry} {es es₁ es₂ : List Entry}

def visits (s : Setting) (run : Run) : List Block → List Visit
  | [] => []
  | b :: rest =>
    match run.firstStep s b with
    | .error _ => []
    | .ok next => if b.isStatement then ⟨b, run.mode, run.setsAside s b⟩ :: next.visits s rest else next.visits s rest

/-! ## The passes, entry by entry -/

/-- The first pass leads from one run over entries to another run; what becomes of those that wait is left open. -/
inductive Passes (s : Setting) : Run → List Entry → Run → Prop where
  | done (run : Run) : Passes s run [] run
  | handled {run next after : Run} {b : Block} {i : Instruction} {es : List Entry} : run.setsAside s b = false →
      Handled s .first (run.learn s b) run.mode b i next → Passes s next es after →
      Passes s run (⟨⟨b, run.mode, false⟩, i⟩ :: es) after
  | waiting {run after : Run} {b : Block} {i : Instruction} {es : List Entry} : run.setsAside s b = true →
      Passes s (run.setAside s b) es after →
      Passes s run (⟨⟨b, run.mode, true⟩, i⟩ :: es) after

/-- The second pass leads from one run over entries to another run. -/
inductive Replays (s : Setting) : Run → List Entry → Run → Prop where
  | done (run : Run) : Replays s run [] run
  | handled {run next after : Run} {e : Entry} {es : List Entry} :
      Handled s .second (run.learn s e.block) e.mode e.block e.instruction next →
      Replays s next es after → Replays s run (e :: es) after

theorem block_visits (h : run.firstPass s blocks = .ok after) :
    (run.visits s blocks).map Visit.block = blocks.filter Block.isStatement := by
  induction blocks generalizing run with
  | nil => rfl
  | cons b rest ih =>
    obtain ⟨next, hstep, hrest⟩ := foldlM_cons_eq_ok_iff.1 h
    simp only [visits, hstep]
    cases hb : b.isStatement with
    | true => simpa [hb] using ih hrest
    | false => simpa [hb] using ih hrest

/-- The first pass sets statements aside, and passes over entries for any choice of what becomes of these. -/
theorem passes_of_firstPass (h : run.firstPass s blocks = .ok after) :
    ∃ ds, after.delayed = run.delayed ++ ds ∧ (∀ d ∈ ds, d.block.mayWait = true) ∧
      ∀ late : List Entry, late.map Entry.delayed = ds → (∀ e ∈ late, e.waits = true) →
        ∃ es, es.map Entry.toVisit = run.visits s blocks ∧ es.filter (·.waits) = late ∧ Passes s run es after := by
  induction blocks generalizing run with
  | nil =>
    obtain rfl := Except.ok.inj h
    refine ⟨[], by simp, by simp, ?_⟩
    intro late hlate _
    exact ⟨[], rfl, (List.map_eq_nil_iff.1 hlate).symm, .done _⟩
  | cons b rest ih =>
    obtain ⟨next, hstep, hlater⟩ := foldlM_cons_eq_ok_iff.1 h
    obtain ⟨ds, hdelayed, hwait, hentries⟩ := ih hlater
    simp only [visits, hstep]
    cases hb : b.isStatement with
    | false =>
      rw [firstStep_of_comment hb] at hstep
      obtain rfl := Except.ok.inj hstep
      exact ⟨ds, hdelayed, hwait, by simpa using hentries⟩
    | true =>
      rcases firstStep_cases hb hstep with ⟨haside, rfl⟩ | ⟨haside, i, hi⟩
      · refine ⟨⟨b, run.mode⟩ :: ds, by simpa using hdelayed, ?_, ?_⟩
        · intro d hd
          rcases List.mem_cons.1 hd with rfl | hd
          · exact mayWait_of_setsAside haside
          · exact hwait d hd
        · intro late hlate hwaits
          -- the block set aside is the first of those that wait
          obtain ⟨e, late, rfl, he, hlate⟩ := List.map_eq_cons_iff.1 hlate
          obtain ⟨es, hvisits, hfilter, hpasses⟩ :=
            hentries late hlate fun e he => hwaits e (List.mem_cons_of_mem _ he)
          obtain ⟨⟨b', mode, waits⟩, i⟩ := e
          obtain rfl : waits = true := hwaits _ List.mem_cons_self
          obtain ⟨rfl, rfl⟩ := Delayed.mk.inj he
          exact ⟨⟨⟨b', run.mode, true⟩, i⟩ :: es, by simp [hvisits, haside], by simp [hfilter],
            .waiting haside hpasses⟩
      · have hsame : next.delayed = run.delayed := by rw [hi.delayed, delayed_learn]
        refine ⟨ds, by rw [hdelayed, hsame], hwait, ?_⟩
        intro late hlate hwaits
        obtain ⟨es, hvisits, hfilter, hpasses⟩ := hentries late hlate hwaits
        exact ⟨⟨⟨b, run.mode, false⟩, i⟩ :: es, by simp [hvisits, haside], by simp [hfilter],
          .handled haside hi hpasses⟩

theorem replays_of_foldlM {ds : List Delayed} (hds : ∀ d ∈ ds, d.block.mayWait = true)
    (h : ds.foldlM (replayStep s) run = .ok after) :
    ∃ late : List Entry, late.map Entry.delayed = ds ∧ (∀ e ∈ late, e.waits = true) ∧ Replays s run late after := by
  induction ds generalizing run with
  | nil =>
    obtain rfl := Except.ok.inj h
    exact ⟨[], rfl, by simp, .done _⟩
  | cons d rest ih =>
    obtain ⟨next, hstep, hrest⟩ := foldlM_cons_eq_ok_iff.1 h
    have hb := Block.isStatement_of_mayWait (hds d List.mem_cons_self)
    obtain ⟨i, hi⟩ := replayStep_cases hb hstep
    obtain ⟨late, hlate, hwaits, hreplays⟩ := ih (fun d hd => hds d (List.mem_cons_of_mem _ hd)) hrest
    refine ⟨⟨⟨d.block, d.mode, true⟩, i⟩ :: late, by simp [Entry.delayed, hlate], ?_, .handled hi hreplays⟩
    intro e he
    rcases List.mem_cons.1 he with rfl | he
    · rfl
    · exact hwaits e he

theorem Passes.split (h : Passes s run (es₁ ++ es₂) after) :
    ∃ middle, Passes s run es₁ middle ∧ Passes s middle es₂ after := by
  induction es₁ generalizing run with
  | nil => exact ⟨run, .done run, h⟩
  | cons e es₁ ih =>
    cases h with
    | handled haside hi hrest =>
      obtain ⟨middle, hfirst, hsecond⟩ := ih hrest
      exact ⟨middle, .handled haside hi hfirst, hsecond⟩
    | waiting haside hrest =>
      obtain ⟨middle, hfirst, hsecond⟩ := ih hrest
      exact ⟨middle, .waiting haside hfirst, hsecond⟩

theorem Replays.split (h : Replays s run (es₁ ++ es₂) after) :
    ∃ middle, Replays s run es₁ middle ∧ Replays s middle es₂ after := by
  induction es₁ generalizing run with
  | nil => exact ⟨run, .done run, h⟩
  | cons e es₁ ih =>
    cases h with
    | handled hi hrest =>
      obtain ⟨middle, hfirst, hsecond⟩ := ih hrest
      exact ⟨middle, .handled hi hfirst, hsecond⟩

/-! ## What the passes leave behind -/

theorem Passes.program (h : Passes s run es after) :
    after.program = run.program ++ (es.filter (!·.waits)).map Entry.instruction := by
  induction h with
  | done run => simp
  | handled _ hi _ ih => simp [ih, hi.program]
  | waiting _ _ ih => simp [ih]

theorem Replays.program (h : Replays s run es after) : after.program = run.program ++ es.map Entry.instruction := by
  induction h with
  | done run => simp
  | handled hi _ ih => simp [ih, hi.program]

theorem Passes.comesFrom (h : Passes s run es after) (he : e ∈ es) (hwaits : e.waits = false) :
    e.instruction.ComesFrom e.block := by
  induction h with
  | done run => simp at he
  | handled _ hi _ ih =>
    rcases List.mem_cons.1 he with rfl | he
    · exact hi.comesFrom
    · exact ih he
  | waiting _ _ ih =>
    rcases List.mem_cons.1 he with rfl | he
    · simp at hwaits
    · exact ih he

theorem Replays.comesFrom (h : Replays s run es after) (he : e ∈ es) : e.instruction.ComesFrom e.block := by
  induction h with
  | done run => simp at he
  | handled hi _ ih =>
    rcases List.mem_cons.1 he with rfl | he
    · exact hi.comesFrom
    · exact ih he

theorem Passes.mayWait (h : Passes s run es after) (he : e ∈ es) (hwaits : e.waits = true) :
    e.block.mayWait = true := by
  induction h with
  | done run => simp at he
  | handled _ _ _ ih =>
    rcases List.mem_cons.1 he with rfl | he
    · simp at hwaits
    · exact ih he
  | waiting haside _ ih =>
    rcases List.mem_cons.1 he with rfl | he
    · exact mayWait_of_setsAside haside
    · exact ih he

theorem Replays.delayed (h : Replays s run es after) : after.delayed = run.delayed := by
  induction h with
  | done run => rfl
  | handled hi _ ih => rw [ih, hi.delayed, delayed_learn]

theorem Passes.declared (h : Passes s run es after) :
    after.declared = (es.map (·.block)).foldl (fun declared b => b.declare declared) run.declared := by
  induction h with
  | done run => rfl
  | handled _ hi _ ih => simp [ih, hi.declared]
  | waiting haside _ ih => simp [ih, Block.declare_of_mayWait (mayWait_of_setsAside haside)]

theorem Replays.declared (h : Replays s run es after) (hwait : ∀ e ∈ es, e.block.mayWait = true) :
    after.declared = run.declared := by
  induction h with
  | done run => rfl
  | handled hi _ ih =>
    rw [ih fun e he => hwait e (List.mem_cons_of_mem _ he)]
    simp [hi.declared, Block.declare_of_mayWait (hwait _ List.mem_cons_self)]

theorem Passes.vocabulary_le (h : Passes s run es after) : run.vocabulary ≤ after.vocabulary := by
  induction h with
  | done run => exact le_rfl
  | @handled run next _ b _ _ _ hi _ ih =>
    calc run.vocabulary
        ≤ (run.learn s b).vocabulary := vocabulary_le_learn s b run
      _ = next.vocabulary := hi.vocabulary.symm
      _ ≤ _ := ih
  | @waiting run _ b _ _ _ _ ih => exact (vocabulary_le_learn s b run).trans ih

theorem Replays.vocabulary_le (h : Replays s run es after) : run.vocabulary ≤ after.vocabulary := by
  induction h with
  | done run => exact le_rfl
  | @handled run next _ e _ hi _ ih =>
    calc run.vocabulary
        ≤ (run.learn s e.block).vocabulary := vocabulary_le_learn s e.block run
      _ = next.vocabulary := hi.vocabulary.symm
      _ ≤ _ := ih

end Run

/-! ## Histories -/

variable {s : Setting} {voc : Vocabulary} {script : Text} {run : Run} {program : Program} {entries : List Entry}

/-- Interpreting a script passes over its entries and then replays those that wait. -/
theorem exists_entries (h : interpret s voc script = .ok run) :
    ∃ (blocks : List Block) (middle : Run) (entries : List Entry), readBlocks script = .ok blocks ∧
      (Run.start voc).firstPass s blocks = .ok middle ∧
      entries.map Entry.toVisit = (Run.start voc).visits s blocks ∧ Run.Passes s (Run.start voc) entries middle ∧
      Run.Replays s { middle with delayed := [] } (entries.filter (·.waits)) run := by
  unfold interpret at h
  cases hblocks : readBlocks script with
  | error fault => simp [hblocks] at h
  | ok blocks =>
    simp only [hblocks] at h
    cases hfirst : (Run.start voc).firstPass s blocks with
    | error failure => simp [hfirst, bind, Except.bind] at h
    | ok middle =>
      rw [hfirst] at h
      obtain ⟨ds, hdelayed, hwait, hentries⟩ := Run.passes_of_firstPass hfirst
      have hsecond : ds.foldlM (Run.replayStep s) { middle with delayed := [] } = .ok run := by
        rw [← List.nil_append ds, ← show middle.delayed = [] ++ ds from hdelayed]
        exact h
      obtain ⟨late, hlate, hwaits, hreplays⟩ := Run.replays_of_foldlM hwait hsecond
      obtain ⟨entries, hvisits, hfilter, hpasses⟩ := hentries late hlate hwaits
      exact ⟨blocks, middle, entries, rfl, hfirst, hvisits, hpasses, by rwa [hfilter]⟩

/-- The entries of a script are the visits of the first pass, and its program takes what waits to the end. -/
structure IsHistory (s : Setting) (voc : Vocabulary) (script : Text) (program : Program) (entries : List Entry) :
    Prop where
  visits : ∃ blocks, readBlocks script = .ok blocks ∧ entries.map Entry.toVisit = (Run.start voc).visits s blocks
  program : program = (entries.filter (!·.waits) ++ entries.filter (·.waits)).map Entry.instruction

/-- Entries are known from their visits and from the instructions of those that wait and those that do not. -/
theorem entries_eq {es₁ es₂ : List Entry} (hvisits : es₁.map Entry.toVisit = es₂.map Entry.toVisit)
    (hearly : (es₁.filter (!·.waits)).map Entry.instruction = (es₂.filter (!·.waits)).map Entry.instruction)
    (hlate : (es₁.filter (·.waits)).map Entry.instruction = (es₂.filter (·.waits)).map Entry.instruction) :
    es₁ = es₂ := by
  induction es₁ generalizing es₂ with
  | nil => exact (List.map_eq_nil_iff.1 hvisits.symm).symm
  | cons e₁ es₁ ih =>
    obtain ⟨e₂, es₂, rfl, he, hrest⟩ := List.map_eq_cons_iff.1 hvisits.symm
    obtain ⟨v₁, i₁⟩ := e₁
    obtain ⟨v, i₂⟩ := e₂
    obtain rfl : v = v₁ := he
    cases hwaits : v.waits with
    | true =>
      simp only [List.filter_cons, hwaits, Bool.not_true, Bool.false_eq_true, if_false, if_true, List.map_cons,
        List.cons.injEq] at hearly hlate
      rw [hlate.1, ih hrest.symm hearly hlate.2]
    | false =>
      simp only [List.filter_cons, hwaits, Bool.not_false, Bool.false_eq_true, if_false, if_true, List.map_cons,
        List.cons.injEq] at hearly hlate
      rw [hearly.1, ih hrest.symm hearly.2 hlate]

theorem IsHistory.unique {es₁ es₂ : List Entry} (h₁ : IsHistory s voc script program es₁)
    (h₂ : IsHistory s voc script program es₂) : es₁ = es₂ := by
  obtain ⟨blocks, hblocks, hvisits₁⟩ := h₁.visits
  obtain ⟨blocks₂, hblocks₂, hvisits₂⟩ := h₂.visits
  obtain rfl : blocks = blocks₂ := Except.ok.inj (hblocks.symm.trans hblocks₂)
  have hvisits : es₁.map Entry.toVisit = es₂.map Entry.toVisit := hvisits₁.trans hvisits₂.symm
  have hprogram := h₁.program.symm.trans h₂.program
  rw [List.map_append, List.map_append] at hprogram
  have hcount (es : List Entry) : ((es.filter (!·.waits)).map Entry.instruction).length =
      ((es.map Entry.toVisit).filter (!·.waits)).length := by
    simp [List.filter_map, Function.comp_def]
  have hearly : ((es₁.filter (!·.waits)).map Entry.instruction).length =
      ((es₂.filter (!·.waits)).map Entry.instruction).length :=
    calc ((es₁.filter (!·.waits)).map Entry.instruction).length
        = ((es₁.map Entry.toVisit).filter (!·.waits)).length := hcount es₁
      _ = ((es₂.map Entry.toVisit).filter (!·.waits)).length := by rw [hvisits]
      _ = ((es₂.filter (!·.waits)).map Entry.instruction).length := (hcount es₂).symm
  obtain ⟨hearly, hlate⟩ := List.append_inj hprogram hearly
  exact entries_eq hvisits hearly hlate

theorem isHistory_of_passes {blocks : List Block} {middle : Run} (hblocks : readBlocks script = .ok blocks)
    (hvisits : entries.map Entry.toVisit = (Run.start voc).visits s blocks)
    (hpasses : Run.Passes s (Run.start voc) entries middle)
    (hreplays : Run.Replays s { middle with delayed := [] } (entries.filter (·.waits)) run) :
    IsHistory s voc script run.program entries where
  visits := ⟨blocks, hblocks, hvisits⟩
  program :=
    calc run.program
        = middle.program ++ (entries.filter (·.waits)).map Entry.instruction := hreplays.program
      _ = (entries.filter (!·.waits)).map Entry.instruction ++ (entries.filter (·.waits)).map Entry.instruction := by
          rw [hpasses.program]
          rfl
      _ = (entries.filter (!·.waits) ++ entries.filter (·.waits)).map Entry.instruction := List.map_append.symm

theorem exists_history (h : interpret s voc script = .ok run) :
    ∃ entries, IsHistory s voc script run.program entries := by
  obtain ⟨blocks, middle, entries, hblocks, _, hvisits, hpasses, hreplays⟩ := exists_entries h
  exact ⟨entries, isHistory_of_passes hblocks hvisits hpasses hreplays⟩

/-- What can be computed of the visits and of the program is seen in the history. -/
theorem exists_history_showing {α β : Type} {f : Visit → α} {g : Instruction → β} {shown : List α} {result : List β}
    (hvisits : (readBlocks script).toOption.map (fun blocks => ((Run.start voc).visits s blocks).map f) = some shown)
    (hprogram : (interpret s voc script).toOption.map (fun run => run.program.map g) = some result) :
    ∃ run entries, interpret s voc script = .ok run ∧ IsHistory s voc script run.program entries ∧
      entries.map (fun e => f e.toVisit) = shown ∧
      (entries.filter (!·.waits) ++ entries.filter (·.waits)).map (fun e => g e.instruction) = result := by
  obtain ⟨run, h, hresult⟩ := toOption_map_eq_some_iff.1 hprogram
  obtain ⟨entries, history⟩ := exists_history h
  obtain ⟨blocks, hblocks, hentries⟩ := history.visits
  obtain ⟨blocks', hblocks', hshown⟩ := toOption_map_eq_some_iff.1 hvisits
  obtain rfl := Except.ok.inj (hblocks.symm.trans hblocks')
  refine ⟨run, entries, h, history, ?_, ?_⟩
  · calc entries.map (fun e => f e.toVisit)
        = (entries.map Entry.toVisit).map f := List.map_map.symm
      _ = ((Run.start voc).visits s blocks).map f := by rw [hentries]
      _ = shown := hshown
  · calc (entries.filter (!·.waits) ++ entries.filter (·.waits)).map (fun e => g e.instruction)
        = ((entries.filter (!·.waits) ++ entries.filter (·.waits)).map Entry.instruction).map g := List.map_map.symm
      _ = run.program.map g := by rw [← history.program]
      _ = result := hresult

/-- The history of a script that can be interpreted is what the two passes go through. -/
theorem IsHistory.passes (history : IsHistory s voc script run.program entries) (h : interpret s voc script = .ok run) :
    ∃ middle, Run.Passes s (Run.start voc) entries middle ∧
      Run.Replays s { middle with delayed := [] } (entries.filter (·.waits)) run := by
  obtain ⟨blocks, middle, entries', hblocks, _, hvisits, hpasses, hreplays⟩ := exists_entries h
  obtain rfl := history.unique (isHistory_of_passes hblocks hvisits hpasses hreplays)
  exact ⟨middle, hpasses, hreplays⟩

/-- An entry is handled in its mode, when it waits with every declaration of the script in place, and with functions
that are known to the end. -/
theorem IsHistory.reached {before later : List Entry} {e : Entry}
    (history : IsHistory s voc script run.program (before ++ e :: later)) (h : interpret s voc script = .ok run) :
    ∃ middle current next, Run.Passes s (Run.start voc) before middle ∧ middle.mode = e.mode ∧
      Run.Handled s (if e.waits then .second else .first) current e.mode e.block e.instruction next ∧
      current.declared = declaredBy ((if e.waits then before ++ e :: later else before).map (·.block)) ∧
      current.vocabulary ≤ run.vocabulary := by
  obtain ⟨last, hpasses, hreplays⟩ := history.passes h
  obtain ⟨middle, hbefore, hrest⟩ := hpasses.split
  cases hwaits : e.waits with
  | false =>
    cases hrest with
    | @handled _ next _ b _ _ _ hi hafter =>
      refine ⟨middle, middle.learn s b, next, hbefore, rfl, hi, ?_, ?_⟩
      · rw [Run.declared_learn, hbefore.declared]
        rfl
      · calc (middle.learn s b).vocabulary
            = next.vocabulary := hi.vocabulary.symm
          _ ≤ last.vocabulary := hafter.vocabulary_le
          _ ≤ run.vocabulary := hreplays.vocabulary_le
    | waiting _ _ => simp at hwaits
  | true =>
    have hlate (e' : Entry) (he' : e' ∈ (before ++ e :: later).filter (·.waits)) : e'.block.mayWait = true :=
      hpasses.mayWait (List.mem_filter.1 he').1 (List.mem_filter.1 he').2
    rw [List.filter_append, List.filter_cons, if_pos hwaits] at hreplays hlate
    obtain ⟨current, hfirst, hsecond⟩ := hreplays.split
    have hmode : middle.mode = e.mode := by
      cases hrest with
      | handled _ _ _ => rfl
      | waiting _ _ => rfl
    cases hsecond with
    | @handled _ next _ _ _ hi hafter =>
      refine ⟨middle, current.learn s e.block, next, hbefore, hmode, hi, ?_, ?_⟩
      · rw [Run.declared_learn, hfirst.declared fun e' he' => hlate e' (List.mem_append_left _ he')]
        exact hpasses.declared
      · calc (current.learn s e.block).vocabulary
            = next.vocabulary := hi.vocabulary.symm
          _ ≤ run.vocabulary := hafter.vocabulary_le

/-- An entry is handled in its mode, when it waits with every declaration of the script in place. -/
theorem IsHistory.handled {before later : List Entry} {e : Entry}
    (history : IsHistory s voc script run.program (before ++ e :: later)) (h : interpret s voc script = .ok run) :
    ∃ middle current next, Run.Passes s (Run.start voc) before middle ∧ middle.mode = e.mode ∧
      Run.Handled s (if e.waits then .second else .first) current e.mode e.block e.instruction next ∧
      current.declared = declaredBy ((if e.waits then before ++ e :: later else before).map (·.block)) := by
  obtain ⟨middle, current, next, hbefore, hmode, hi, hdeclared, -⟩ := history.reached h
  exact ⟨middle, current, next, hbefore, hmode, hi, hdeclared⟩

/-- **The program is what was handled at once, and then what had to wait.** Each statement of the script becomes one
instruction with its line and its content. Only assignments and calls wait, and nothing waits for longer than the second
pass. -/
theorem program_of_interpret (h : interpret s voc script = .ok run) :
    ∃ (blocks : List Block) (entries : List Entry), readBlocks script = .ok blocks ∧
      entries.map (·.block) = blocks.filter Block.isStatement ∧
      entries.map Entry.toVisit = (Run.start voc).visits s blocks ∧
      (∀ e ∈ entries, e.instruction.ComesFrom e.block ∧ (e.waits = true → e.block.mayWait = true)) ∧
      run.program = (entries.filter (!·.waits) ++ entries.filter (·.waits)).map Entry.instruction ∧
      run.delayed = [] := by
  obtain ⟨blocks, middle, entries, hblocks, hfirst, hvisits, hpasses, hreplays⟩ := exists_entries h
  have hstatements : entries.map (·.block) = blocks.filter Block.isStatement :=
    calc entries.map (·.block)
        = (entries.map Entry.toVisit).map Visit.block := List.map_map.symm
      _ = ((Run.start voc).visits s blocks).map Visit.block := by rw [hvisits]
      _ = blocks.filter Block.isStatement := Run.block_visits hfirst
  have hprogram := (isHistory_of_passes hblocks hvisits hpasses hreplays).program
  refine ⟨blocks, entries, hblocks, hstatements, hvisits, ?_, hprogram, hreplays.delayed⟩
  intro e he
  refine ⟨?_, hpasses.mayWait he⟩
  cases hwaits : e.waits with
  | false => exact hpasses.comesFrom he hwaits
  | true => exact hreplays.comesFrom (List.mem_filter.2 ⟨he, hwaits⟩)

/-- no objects but those of the script, and one function -/
def Setting.knowingFoo : Setting where
  finds name := name == "foo".toList
  objects := { property := fun _ => none, typeOf := fun _ => none }
  nesting := .allow

/-- A target waits for its declaration, and a call for the first mention of its function. -/
theorem program_of_forward_references :
    let script := "Sat.X = 3\nCreate Spacecraft Sat\nFoo(x)\nSat.Y = foo(1)".toList
    ∃ run, interpret .knowingFoo .initial script = .ok run ∧ run.program.map Instruction.line = [2, 4, 1, 3] ∧
      ∃ (blocks : List Block) (entries : List Entry), readBlocks script = .ok blocks ∧
        entries.map (·.block) = blocks.filter Block.isStatement ∧
        run.program = (entries.filter (!·.waits) ++ entries.filter (·.waits)).map Entry.instruction := by
  intro script
  have hlines : (interpret .knowingFoo .initial script).toOption.map (·.program.map Instruction.line) =
      some [2, 4, 1, 3] := by decide +kernel
  cases h : interpret .knowingFoo .initial script with
  | error failure => simp [h, Except.toOption] at hlines
  | ok run =>
    obtain ⟨blocks, entries, hblocks, hstatements, _, _, hprogram, _⟩ := program_of_interpret h
    refine ⟨run, rfl, ?_, blocks, entries, hblocks, hstatements, hprogram⟩
    simpa [h, Except.toOption] using hlines

end MissionScript
