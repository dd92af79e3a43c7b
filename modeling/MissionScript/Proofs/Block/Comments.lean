/-
Comments and statements.

`uncommented` cuts a line at the first `%` outside strings, knowing nothing of bracket literals, and `eraseComments` does
so with every line of a script. The reading of a script looks for comments outside bracket literals only, so that the two
agree on a line when its bracket literals are closed before the comment.

- `code_eq_uncommented_iff`: on which lines the code is what is left by the cut.
- `Reader.advance_alike`, `Reader.readFrom_alike`: the code of the lines fixes what is carried for the statements, and so
  the statements themselves.
- `statementsOf_eraseComments`: comments have no effect on the statements of a script whose bracket literals are closed
  before them.
-/
import MissionScript.Proofs.Block.Code
import MissionScript.Proofs.Cell.Enclosure
import MissionScript.Proofs.Cell.Strings
import MissionScript.Proofs.Outcome
import MissionScript.Proofs.Text.Line

namespace MissionScript

open Cell Posture

variable {t : Text} {c : Char} {p : Posture}

/-! ## Cutting comments off -/

namespace Text

/-- the text up to the first `%` outside strings -/
def uncommentedFrom (opened : Option Char) (before : Text) : Text → Text
  | [] => []
  | c :: rest =>
    if opened = none ∧ c = '%' then [] else c :: uncommentedFrom (openAfter opened before c) (c :: before) rest

def uncommented (line : Text) : Text := uncommentedFrom none [] line

/-- the script with every line cut at its comment -/
def eraseComments (script : Text) : Text := unlines ((lines script).map uncommented)

theorem uncommentedFrom_uncommentedFrom (opened : Option Char) (before t : Text) :
    uncommentedFrom opened before (uncommentedFrom opened before t) = uncommentedFrom opened before t := by
  induction t generalizing opened before with
  | nil => rfl
  | cons c t ih =>
    by_cases hcut : opened = none ∧ c = '%'
    · simp [uncommentedFrom, hcut]
    · rw [uncommentedFrom, if_neg hcut, uncommentedFrom, if_neg hcut, ih]

theorem uncommentedFrom_prefix (opened : Option Char) (before t : Text) : uncommentedFrom opened before t <+: t := by
  induction t generalizing opened before with
  | nil => exact List.prefix_rfl
  | cons c t ih =>
    rw [uncommentedFrom]
    split_ifs
    · exact List.nil_prefix
    · exact List.cons_prefix_cons.2 ⟨rfl, ih _ _⟩

end Text

/-! ## Where comments begin -/

namespace Posture

/-- What is left by the cut holds no `%` that would begin a comment. -/
theorem not_holds_of_uncommentedFrom (h : p.Due t) (ht : Text.uncommentedFrom p.opened p.before t = t) :
    ∀ cell ∈ cellsFrom p t, cell.holds '%' = false := by
  induction t generalizing p with
  | nil => simp [cellsFrom]
  | cons c t ih =>
    by_cases hcut : p.opened = none ∧ c = '%'
    · rw [Text.uncommentedFrom, if_pos hcut] at ht
      exact absurd ht (by simp)
    · rw [Text.uncommentedFrom, if_neg hcut] at ht
      have hrest : Text.uncommentedFrom (p.advance c t).2.opened (p.advance c t).2.before t = t := by
        rw [h.opened_advance, before_advance]
        exact (List.cons.inj ht).2
      intro cell hcell
      rcases List.mem_cons.1 hcell with rfl | hcell
      · by_cases hc : c = '%'
        · obtain ⟨quote, hquote⟩ := Option.ne_none_iff_exists'.1 fun hnone => hcut ⟨hnone, hc⟩
          rw [holds, isLive, role_of_opened hquote]
          rfl
        · have hchar : (c == '%') = false := beq_eq_false_iff_ne.2 hc
          rw [holds, hchar, Bool.and_false]
      · exact ih h.advance hrest cell hcell

/-- A line is left as it is, or cut where no string is open. -/
theorem opened_after_uncommented (h : p.Due (Text.uncommentedFrom p.opened p.before t)) :
    Text.uncommentedFrom p.opened p.before t = t ∨
      (∃ comment, t = Text.uncommentedFrom p.opened p.before t ++ '%' :: comment) ∧
        (p.after (Text.uncommentedFrom p.opened p.before t)).opened = none := by
  induction t generalizing p with
  | nil => exact .inl rfl
  | cons c t ih =>
    by_cases hcut : p.opened = none ∧ c = '%'
    · rw [Text.uncommentedFrom, if_pos hcut]
      exact .inr ⟨⟨t, by rw [hcut.2]; rfl⟩, hcut.1⟩
    · rw [Text.uncommentedFrom, if_neg hcut] at h ⊢
      generalize hu : Text.uncommentedFrom (Text.openAfter p.opened p.before c) (c :: p.before) t = u at *
      have hrest : Text.uncommentedFrom (p.advance c u).2.opened (p.advance c u).2.before t = u := by
        rw [h.opened_advance, before_advance, hu]
      have hdue : (p.advance c u).2.Due (Text.uncommentedFrom (p.advance c u).2.opened (p.advance c u).2.before t) := by
        rw [hrest]
        exact h.advance
      have hlater := ih hdue
      rw [hrest] at hlater
      rcases hlater with hself | ⟨⟨comment, hcomment⟩, hopened⟩
      · exact .inl (congrArg (List.cons c) hself)
      · exact .inr ⟨⟨comment, congrArg (List.cons c) hcomment⟩, hopened⟩

end Posture

/-- Bracket literals are closed before the comment of the line, if it has one. -/
def ClosesBeforeComment (line : Text) : Prop :=
  Text.uncommented line = line ∨ (Posture.start.after (Text.uncommented line)).depth = 0

instance (line : Text) : Decidable (ClosesBeforeComment line) :=
  inferInstanceAs (Decidable (Text.uncommented line = line ∨ (Posture.start.after (Text.uncommented line)).depth = 0))

theorem not_holds_uncommented (line : Text) : ∀ cell ∈ cells (Text.uncommented line), cell.holds '%' = false :=
  not_holds_of_uncommentedFrom (p := Posture.start) trivial (Text.uncommentedFrom_uncommentedFrom none [] line)

/-- A line with a comment is code, its `%`, and the rest. -/
theorem uncommented_eq_or (line : Text) : Text.uncommented line = line ∨
    (∃ comment, line = Text.uncommented line ++ '%' :: comment) ∧
      (Posture.start.after (Text.uncommented line)).context = .code := by
  rcases opened_after_uncommented (p := Posture.start) (t := line) trivial with hself | ⟨hcomment, hopened⟩
  · exact .inl hself
  · refine .inr ⟨hcomment, ?_⟩
    have hpending := pending_after (p := Posture.start) (t := Text.uncommented line) (Nat.zero_le _)
    change (Posture.start.after (Text.uncommented line)).opened = none at hopened
    cases hcontext : (Posture.start.after (Text.uncommented line)).context with
    | code => rfl
    | string quote => simp [opened, hcontext] at hopened
    | marker n => simp [pending, hcontext] at hpending
    | exponent => simp [pending, hcontext] at hpending

/-- In an open bracket literal a `%` begins no comment. -/
theorem not_holds_in_bracket (hcontext : p.context = .code) (hdepth : p.depth ≠ 0) (rest : Text) :
    Cell.holds '%' ⟨'%', (p.advance '%' rest).1⟩ = false := by
  obtain ⟨context, depth, before⟩ := p
  obtain rfl : context = .code := hcontext
  obtain ⟨depth, rfl⟩ := Nat.exists_eq_succ_of_ne_zero hdepth
  rfl

/-- **The code of a line** is what is left by the cut exactly when bracket literals are closed before the comment. -/
theorem code_eq_uncommented_iff (line : Text) :
    (splitComment line).1 = Text.uncommented line ↔ ClosesBeforeComment line := by
  have hquoted := not_holds_uncommented line
  rcases uncommented_eq_or line with hself | ⟨⟨comment, hcomment⟩, hcontext⟩
  · rw [hself] at hquoted
    rw [splitComment_eq_self hquoted, hself]
    exact ⟨fun _ => .inl hself, fun _ => rfl⟩
  · have hne : Text.uncommented line ≠ line := by
      intro hself
      have hlength := congrArg List.length (hcomment.symm.trans hself.symm)
      simp at hlength
    by_cases hdepth : (Posture.start.after (Text.uncommented line)).depth = 0
    · refine ⟨fun _ => .inr hdepth, fun _ => ?_⟩
      have hcode : IsCode (Text.uncommented line) := ⟨⟨hcontext, hdepth⟩, hquoted⟩
      have hsplit := hcode.splitComment_append comment
      rw [← hcomment] at hsplit
      rw [hsplit]
    · refine ⟨fun hcode => ?_, fun hcloses => (hcloses.elim hne hdepth).elim⟩
      -- the code goes on behind the `%`
      exfalso
      generalize Text.uncommented line = u at *
      have hcells : cells line = cells u ++ cellsFrom (Posture.start.after u) ('%' :: comment) := by
        rw [hcomment]
        exact cellsFrom_append (stops_of_mem List.mem_cons_self) Posture.start u comment
      have hbefore : ∀ cell ∈ cells u, (!cell.holds '%') = true := fun cell hcell => by simp [hquoted cell hcell]
      simp only [splitComment, hcells, List.takeWhile_append_of_pos hbefore, cellsFrom, List.takeWhile_cons,
        not_holds_in_bracket hcontext hdepth comment] at hcode
      have hlength := congrArg List.length hcode
      simp [length_text, length_cells] at hlength

/-! ## Statements without their comments -/

/-- line, text and meaning of the blocks that hold statements -/
def statementsOf (blocks : List Block) : List (Nat × Text × Statement) :=
  blocks.filterMap fun b =>
    match b.content with
    | .comment => none
    | .statement s => some (b.line, b.text, s)

namespace CodeLine

variable {l l' : CodeLine}

/-- what the statements of a line depend on -/
def source (l : CodeLine) : Nat × Text := (l.line, l.code)

theorem statementsOf_blocksOf (line : Nat) (comment comment' preface preface' : Text) (ts : List Text) :
    (blocksOf line comment preface ts).map statementsOf = (blocksOf line comment' preface' ts).map statementsOf := by
  induction ts generalizing preface preface' with
  | nil => rfl
  | cons t ts ih =>
    rw [blocksOf, blocksOf]
    cases Statement.classify t with
    | error e => rfl
    | ok s =>
      rcases map_eq_map_iff.1 (ih [] []) with ⟨e, h, h'⟩ | ⟨later, later', h, h', hsame⟩
      · rw [h, h']
        rfl
      · rw [h, h']
        exact congrArg (fun statements => Except.ok ((line, t, s) :: statements)) hsame

theorem blocks_alike (h : l.source = l'.source) (preface preface' : Text) :
    (l.blocks preface).map statementsOf = (l'.blocks preface').map statementsOf := by
  obtain ⟨hline, hcode⟩ := Prod.mk.inj h
  rw [blocks, blocks, statements, statements, hline, hcode]
  exact statementsOf_blocksOf _ _ _ _ _ _

theorem unfinished?_alike (h : l.source = l'.source) :
    l.unfinished?.map source = l'.unfinished?.map source := by
  obtain ⟨hline, hcode⟩ := Prod.mk.inj h
  rw [unfinished?, unfinished?, hcode]
  split_ifs
  · simp [source, hline]
  · rfl

theorem append_alike (h : l.source = l'.source) {code code' : Text} (hcode : Text.trim code = Text.trim code')
    (comment comment' : Option Text) : (l.append code comment).source = (l'.append code' comment').source := by
  obtain ⟨hline, hbefore⟩ := Prod.mk.inj h
  simp only [source, append, hline, hbefore, hcode]

end CodeLine

namespace Reader

variable {r r' : Reader}

/-- what is carried for the statements to come -/
def source (r : Reader) : Option (Nat × Text) := r.pending.map CodeLine.source

theorem source_addBlank (r : Reader) (line : Nat) (comment : Option Text) :
    (r.addBlank line comment).source = r.source := by
  obtain ⟨preface, pending⟩ := r
  cases preface <;> cases comment <;> rfl

theorem gather_alike (h : r.source = r'.source) {code code' : Text} (hcode : Text.trim code = Text.trim code')
    (line : Nat) (comment comment' : Option Text) :
    (r.gather line code comment).map CodeLine.source = (r'.gather line code' comment').map CodeLine.source := by
  have hvisible : Text.isVisible code = Text.isVisible code' := by
    rw [← Text.isVisible_trim code, hcode, Text.isVisible_trim]
  obtain ⟨preface, pending⟩ := r
  obtain ⟨preface', pending'⟩ := r'
  cases pending with
  | none =>
    obtain rfl : pending' = none := Option.map_eq_none_iff.1 h.symm
    simp only [gather, hvisible, hcode]
    split_ifs <;> rfl
  | some l =>
    obtain ⟨l', rfl, hl⟩ := Option.map_eq_some_iff.1 h.symm
    exact congrArg some (CodeLine.append_alike hl.symm hcode comment comment')

/-- what an advance does to the statements: what is carried for them, and those that are complete -/
def effect (step : Reader × List Block) : Option (Nat × Text) × List (Nat × Text × Statement) :=
  (step.1.source, statementsOf step.2)

/-- **One line.** The statements depend on the code of the line and on what is carried for them. -/
theorem advance_alike (h : r.source = r'.source) {raw raw' : Text}
    (hcode : Text.trim (splitComment raw).1 = Text.trim (splitComment raw').1) (line : Nat) :
    (r.advance line raw).map effect = (r'.advance line raw').map effect := by
  have hgather := gather_alike h hcode line (splitComment raw).2 (splitComment raw').2
  rw [advance, advance]
  simp only
  cases hl : r.gather line (splitComment raw).1 (splitComment raw).2 with
  | none =>
    rw [hl] at hgather
    rw [Option.map_eq_none_iff.1 hgather.symm]
    simp only [Except.map, effect, source_addBlank, h]
  | some l =>
    rw [hl] at hgather
    obtain ⟨l', hl', hsource⟩ := Option.map_eq_some_iff.1 hgather.symm
    rw [hl']
    have hunfinished := CodeLine.unfinished?_alike hsource.symm
    simp only
    cases hopen : l.unfinished? with
    | some rest =>
      rw [hopen] at hunfinished
      obtain ⟨rest', hopen', hrest⟩ := Option.map_eq_some_iff.1 hunfinished.symm
      rw [hopen']
      exact congrArg Except.ok (Prod.ext (congrArg some hrest.symm) rfl)
    | none =>
      rw [hopen] at hunfinished
      rw [Option.map_eq_none_iff.1 hunfinished.symm]
      have hblocks := CodeLine.blocks_alike hsource.symm r.prefaceText r'.prefaceText
      rcases map_eq_map_iff.1 hblocks with ⟨e, h, h'⟩ | ⟨blocks, blocks', h, h', hsame⟩
      · rw [h, h']
      · rw [h, h']
        exact congrArg (fun statements => Except.ok (none, statements)) hsame

theorem finish_alike (h : r.source = r'.source) : r.finish.map statementsOf = r'.finish.map statementsOf := by
  obtain ⟨preface, pending⟩ := r
  obtain ⟨preface', pending'⟩ := r'
  cases pending with
  | none =>
    obtain rfl : pending' = none := Option.map_eq_none_iff.1 h.symm
    cases preface <;> cases preface' <;> rfl
  | some l =>
    obtain ⟨l', rfl, hl⟩ := Option.map_eq_some_iff.1 h.symm
    exact CodeLine.blocks_alike hl.symm _ _

/-- **All lines.** Lines with the same code have the same statements. -/
theorem readFrom_alike {f : Text → Text} {lines : List Text}
    (hcode : ∀ raw ∈ lines, Text.trim (splitComment raw).1 = Text.trim (splitComment (f raw)).1)
    (h : r.source = r'.source) (line : Nat) :
    (r.readFrom line lines).map statementsOf = (r'.readFrom line (lines.map f)).map statementsOf := by
  induction lines generalizing r r' line with
  | nil => exact finish_alike h
  | cons raw lines ih =>
    have hstep := advance_alike h (hcode raw List.mem_cons_self) line
    rcases map_eq_map_iff.1 hstep with ⟨e, hr, hr'⟩ | ⟨⟨next, blocks⟩, ⟨next', blocks'⟩, hr, hr', hsame⟩
    · rw [List.map_cons, readFrom, readFrom, hr, hr']
      rfl
    · obtain ⟨hsource, hblocks⟩ := Prod.mk.inj hsame
      have hrest := ih (fun raw hraw => hcode raw (List.mem_cons_of_mem _ hraw)) hsource (line + 1)
      rw [List.map_cons, readFrom_cons hr, readFrom_cons hr']
      rcases map_eq_map_iff.1 hrest with ⟨e, hl, hl'⟩ | ⟨later, later', hl, hl', hlater⟩
      · rw [hl, hl']
        rfl
      · have happend : statementsOf (blocks ++ later) = statementsOf (blocks' ++ later') := by
          simp only [statementsOf, List.filterMap_append] at hblocks hlater ⊢
          rw [hblocks, hlater]
        rw [hl, hl']
        exact congrArg Except.ok happend

end Reader

/-! ## Comments have no effect -/

/-- the line as it is read back from the script without comments -/
def erasedLine (line : Text) : Text := Text.chop (Text.uncommented line)

theorem code_erasedLine (line : Text) :
    Text.trim (splitComment (erasedLine line)).1 = Text.trim (Text.uncommented line) := by
  have hquoted := not_holds_uncommented line
  rw [erasedLine]
  generalize Text.uncommented line = u at *
  obtain ⟨r, hr, hu⟩ := Text.exists_eq_chop_append u
  have hblank : Text.Blank r := by
    rcases hr with rfl | rfl
    · simp [Text.Blank]
    · exact List.all_iff_forall_prop.1 (by decide)
  have hcells : cells u = cells (Text.chop u) ++ cellsFrom (Posture.start.after (Text.chop u)) r := by
    conv_lhs => rw [hu]
    exact cellsFrom_append_blank Posture.start hblank
  have hchopped : ∀ cell ∈ cells (Text.chop u), cell.holds '%' = false := by
    intro cell hcell
    exact hquoted cell (hcells ▸ List.mem_append_left _ hcell)
  calc Text.trim (splitComment (Text.chop u)).1
      = Text.trim (Text.chop u) := by rw [splitComment_eq_self hchopped]
    _ = Text.trim (Text.chop u ++ r) := (Text.trim_append hblank _).symm
    _ = Text.trim u := by rw [← hu]

theorem lines_eraseComments (script : Text) :
    Text.lines (Text.eraseComments script) = (Text.lines script).map erasedLine := by
  have hnewline : ∀ l ∈ (Text.lines script).map Text.uncommented, '\n' ∉ l := by
    intro l hl
    obtain ⟨line, hline, rfl⟩ := List.mem_map.1 hl
    intro hmem
    exact Text.newline_not_mem_of_mem_lines line hline ((Text.uncommentedFrom_prefix none [] line).subset hmem)
  have hread := Text.lines_unlines_append hnewline []
  rw [List.append_nil, Text.lines, List.append_nil, List.map_map] at hread
  exact hread

/-- **Comments have no effect on statements.** A script whose bracket literals are closed before the comments of their
lines fails as it fails without comments, or has the statements that it has without comments. -/
theorem statementsOf_eraseComments {script : Text} (h : ∀ line ∈ Text.lines script, ClosesBeforeComment line) :
    (readBlocks script).map statementsOf = (readBlocks (Text.eraseComments script)).map statementsOf := by
  rw [readBlocks, readBlocks, lines_eraseComments]
  refine Reader.readFrom_alike ?_ rfl 1
  intro line hline
  rw [code_erasedLine, (code_eq_uncommented_iff line).2 (h line hline)]

/-- A comment behind a line that goes on does not stop it, and a `%` in a string is no comment. -/
theorem statementsOf_continued :
    (∀ line ∈ Text.lines "x = 1 + ... % first\n2;s = 'a % b' % done".toList, ClosesBeforeComment line) ∧
    Text.eraseComments "x = 1 + ... % first\n2;s = 'a % b' % done".toList = "x = 1 + ... \n2;s = 'a % b' \n".toList ∧
    (readBlocks "x = 1 + ... % first\n2;s = 'a % b' % done".toList).map statementsOf =
      (readBlocks (Text.eraseComments "x = 1 + ... % first\n2;s = 'a % b' % done".toList)).map statementsOf := by
  have hcloses : ∀ line ∈ Text.lines "x = 1 + ... % first\n2;s = 'a % b' % done".toList, ClosesBeforeComment line := by
    decide +kernel
  exact ⟨hcloses, by decide +kernel, statementsOf_eraseComments hcloses⟩

/-- In an open bracket literal a comment counts as code, and stops a line that goes on. -/
theorem exists_comment_in_bracket :
    ¬∀ script : Text, (readBlocks script).map statementsOf =
      (readBlocks (Text.eraseComments script)).map statementsOf := by
  intro hall
  have hread : (readBlocks (Text.eraseComments "b = [1 2 ... % c\n3]".toList)).map statementsOf =
      .ok [(1, "b = [1 2 3]".toList, .assignment "b".toList "[1 2 3]".toList)] := by decide +kernel
  have hfails : ((readBlocks "b = [1 2 ... % c\n3]".toList).map statementsOf).isOk = false := by decide +kernel
  rw [hall, hread] at hfails
  exact absurd hfails (by decide)

end MissionScript
