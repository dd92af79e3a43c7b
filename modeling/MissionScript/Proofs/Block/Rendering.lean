/-
What is read back from a script that is written group by group.

A `Group` is a line of statements with its comments: the lines above it (`Remark`), the statements, and the comment
behind them. A `Document` is a row of groups with comments behind the last one. `Document.lines` writes it down and
`Document.blocks` says what is to be read.

- `statements_codeOf`: the semicolons between statements divide a line into these statements again.
- `Remark.readFrom`, `Group.advance`: what is read of the comments above a line, and of the line.
- `readBlocks_document`: a document is read back as it was written.
-/
import MissionScript.Proofs.Block.Code
import MissionScript.Proofs.Text.Line

namespace MissionScript

open Cell

/-! ## Documents -/

/-- a comment, from its sign to its last visible character -/
structure IsComment (t : Text) : Prop where
  sign : t.head? = some '%'
  newline : '\n' ∉ t
  trimmed : Text.trimEnd t = t

instance (t : Text) : Decidable (IsComment t) :=
  decidable_of_iff (t.head? = some '%' ∧ '\n' ∉ t ∧ Text.trimEnd t = t)
    ⟨fun ⟨sign, newline, trimmed⟩ => ⟨sign, newline, trimmed⟩, fun h => ⟨h.sign, h.newline, h.trimmed⟩⟩

/-- no lines, or comments and empty lines that begin with a comment -/
structure Remark where
  lines : List Text
  first : ∀ l ∈ lines.head?, IsComment l
  each : ∀ l ∈ lines, l = [] ∨ IsComment l

namespace Remark

def text (m : Remark) : Text := Text.unlines m.lines

/-- what is carried behind the lines, if the first of them has the given number -/
def preface (m : Remark) (line : Nat) : Option Preface := if m.lines.isEmpty then none else some ⟨line, m.text⟩

/-- the comments as a block of their own -/
def blocks (m : Remark) (line : Nat) : List Block :=
  if m.lines.isEmpty then [] else [⟨line, m.text, m.text, [], .comment⟩]

end Remark

/-- The text can stand on a line with other statements, and is this statement. -/
structure IsPlain (text : Text) (kind : Statement) : Prop where
  trimmed : Text.trim text = text
  visible : text ≠ []
  newline : '\n' ∉ text
  /-- the sign of a comment stands in strings only -/
  percent : ∀ cell ∈ cells text, cell.char = '%' → cell.role = .quoted
  /-- strings and bracket literals are closed -/
  closed : Closed text
  /-- parentheses are closed -/
  parentheses : (cells text).foldl depthAfter 0 = 0
  semicolon : cut ';' (cells text) = none
  classified : Statement.classify text = .ok kind

instance (text : Text) (kind : Statement) : Decidable (IsPlain text kind) :=
  decidable_of_iff (Text.trim text = text ∧ text ≠ [] ∧ '\n' ∉ text ∧
      (∀ cell ∈ cells text, cell.char = '%' → cell.role = .quoted) ∧ Closed text ∧
      (cells text).foldl depthAfter 0 = 0 ∧ cut ';' (cells text) = none ∧ Statement.classify text = .ok kind)
    ⟨fun ⟨h₁, h₂, h₃, h₄, h₅, h₆, h₇, h₈⟩ => ⟨h₁, h₂, h₃, h₄, h₅, h₆, h₇, h₈⟩,
      fun ⟨h₁, h₂, h₃, h₄, h₅, h₆, h₇, h₈⟩ => ⟨h₁, h₂, h₃, h₄, h₅, h₆, h₇, h₈⟩⟩

/-- a statement as it is written on a line, and what it is -/
structure PlainStatement where
  text : Text
  kind : Statement
  plain : IsPlain text kind

def codeOf (ss : List PlainStatement) : Text := [';'].intercalate (ss.map PlainStatement.text)

/-- the blocks of statements on a line; the first one gets the preface, the last one the comment -/
def blocksOn (line : Nat) (preface comment : Text) (ss : List PlainStatement) : List Block :=
  ss.mapIdx fun i s =>
    ⟨line, s.text, if i = 0 then preface else [], if i + 1 = ss.length then comment else [], .statement s.kind⟩

/-- a line of statements with its comments -/
structure Group where
  preface : Remark
  statements : List PlainStatement
  gap : Text
  comment : Text
  inhabited : statements ≠ []
  /-- the line does not go on in the next one -/
  finished : ∀ s ∈ statements.getLast?, ¬CodeLine.continuation <:+ s.text
  blank : Gap gap
  commented : comment = [] ∨ IsComment comment

namespace Group

def line (g : Group) : Text := codeOf g.statements ++ g.gap ++ g.comment

def lines (g : Group) : List Text := g.preface.lines ++ [g.line]

/-- the blocks of a group whose first line has the given number -/
def blocks (g : Group) (first : Nat) : List Block :=
  blocksOn (first + g.preface.lines.length) g.preface.text g.comment g.statements

end Group

/-- groups, and comments behind the last one -/
structure Document where
  groups : List Group
  ending : Remark

namespace Document

def lines (d : Document) : List Text := d.groups.flatMap Group.lines ++ d.ending.lines

/-- the blocks of the remaining groups and the ending, the first line of which has the given number -/
def blocksFrom (ending : Remark) (first : Nat) : List Group → List Block
  | [] => ending.blocks first
  | g :: rest => g.blocks first ++ blocksFrom ending (first + g.lines.length) rest

/-- the blocks of the document -/
def blocks (d : Document) : List Block := blocksFrom d.ending 1 d.groups

end Document

/-! ## A line of statements -/

variable {ss : List PlainStatement}

theorem codeOf_singleton (s : PlainStatement) : codeOf [s] = s.text := by simp [codeOf, List.intercalate]

theorem codeOf_cons (s : PlainStatement) (h : ss ≠ []) : codeOf (s :: ss) = s.text ++ ';' :: codeOf ss := by
  cases ss with
  | nil => exact absurd rfl h
  | cons next rest => simp [codeOf, List.intercalate]

/-- What statements have in common and semicolons preserve holds of the line. -/
theorem codeOf_of_each {P : Text → Prop} (hself : ∀ s : PlainStatement, P s.text)
    (hjoin : ∀ t u, P t → P u → P (t ++ ';' :: u)) (h : ss ≠ []) : P (codeOf ss) := by
  induction ss with
  | nil => exact absurd rfl h
  | cons s ss ih =>
    by_cases hss : ss = []
    · rw [hss, codeOf_singleton]
      exact hself s
    · rw [codeOf_cons s hss]
      exact hjoin _ _ (hself s) (ih hss)

theorem PlainStatement.isCode (s : PlainStatement) : IsCode s.text where
  toClosed := s.plain.closed
  uncommented := by
    intro cell hcell
    by_contra hholds
    obtain ⟨hlive, hchar⟩ : cell.isLive = true ∧ cell.char = '%' := by simpa [holds] using hholds
    rw [isLive, s.plain.percent cell hcell hchar] at hlive
    exact absurd hlive (by decide)

theorem isCode_codeOf (h : ss ≠ []) : IsCode (codeOf ss) :=
  codeOf_of_each PlainStatement.isCode (fun _ _ ht hu => ht.append (by decide) hu) h

theorem trim_codeOf (h : ss ≠ []) : Text.trim (codeOf ss) = codeOf ss ∧ codeOf ss ≠ [] := by
  refine codeOf_of_each (P := fun t => Text.trim t = t ∧ t ≠ []) (fun s => ⟨s.plain.trimmed, s.plain.visible⟩) ?_ h
  rintro t u ⟨ht, htne⟩ ⟨hu, hune⟩
  exact ⟨Text.trim_between ht htne hu hune [';'], by simp⟩

theorem newline_not_mem_codeOf (h : ss ≠ []) : '\n' ∉ codeOf ss := by
  refine codeOf_of_each (P := fun t => '\n' ∉ t) (fun s => s.plain.newline) ?_ h
  intro t u ht hu
  simpa using ⟨ht, hu⟩

/-- A line goes on only if its last statement ends in the mark. -/
theorem continuation_codeOf (h : ∀ s ∈ ss.getLast?, ¬CodeLine.continuation <:+ s.text) (hne : ss ≠ []) :
    ¬CodeLine.continuation <:+ codeOf ss := by
  induction ss with
  | nil => exact absurd rfl hne
  | cons s ss ih =>
    by_cases hss : ss = []
    · rw [hss, codeOf_singleton]
      exact h s (by rw [hss]; rfl)
    · intro hmark
      rw [codeOf_cons s hss] at hmark
      have hlater : ¬CodeLine.continuation <:+ codeOf ss := ih (by rwa [List.getLast?_cons_of_ne_nil hss] at h) hss
      -- no mark reaches over a semicolon
      rcases List.suffix_or_suffix_of_suffix hmark (List.suffix_append s.text (';' :: codeOf ss)) with hin | hover
      · rcases List.suffix_cons_iff.1 hin with heq | hin
        · exact absurd (List.cons.inj heq).1 (by decide)
        · exact hlater hin
      · exact absurd (hover.subset List.mem_cons_self) (by decide)

theorem split_codeOf (h : ss ≠ []) : split ';' (cells (codeOf ss)) = ss.map PlainStatement.text := by
  induction ss with
  | nil => exact absurd rfl h
  | cons s ss ih =>
    have hself : ∀ bs, split ';' (cells s.text ++ bs) = prependFirst s.text (split ';' bs) := by
      intro bs
      have happend := splitFrom_append_of_cutFrom s.plain.semicolon bs
      rwa [s.plain.parentheses, text_cells] at happend
    by_cases hss : ss = []
    · have hone := hself []
      rw [List.append_nil] at hone
      rw [hss, codeOf_singleton, hone]
      exact congrArg (fun t => [t]) (List.append_nil s.text)
    · calc split ';' (cells (codeOf (s :: ss)))
          = split ';' (cells s.text ++ ⟨';', .live⟩ :: cells (codeOf ss)) := by
            rw [codeOf_cons s hss, s.plain.closed.cells_append_break (by decide)]
        _ = prependFirst s.text ([] :: split ';' (cells (codeOf ss))) := hself _
        _ = (s :: ss).map PlainStatement.text := by
            rw [ih hss, prependFirst, List.append_nil]
            rfl

/-- Semicolons divide a line into the statements it was put together from. -/
theorem statements_codeOf (h : ss ≠ []) (line : Nat) (comment : Text) :
    CodeLine.statements ⟨line, codeOf ss, comment⟩ = ss.map PlainStatement.text := by
  have htrim : (ss.map PlainStatement.text).map Text.trim = ss.map PlainStatement.text := by
    rw [List.map_map]
    exact List.map_congr_left fun s _ => s.plain.trimmed
  rw [CodeLine.statements, split_codeOf h, htrim]
  apply List.filter_eq_self.2
  intro t ht
  obtain ⟨s, -, rfl⟩ := List.mem_map.1 ht
  simp [s.plain.visible]

theorem blocksOn_cons (line : Nat) (preface comment : Text) (s : PlainStatement) (ss : List PlainStatement) :
    blocksOn line preface comment (s :: ss) =
      ⟨line, s.text, preface, if ss.isEmpty then comment else [], .statement s.kind⟩ ::
        blocksOn line [] comment ss := by
  have hlast : 0 + 1 = (s :: ss).length ↔ ss.isEmpty = true := by cases ss <;> simp
  simp only [blocksOn, List.mapIdx_cons, hlast, if_true]
  simp

theorem blocksOf_statements (line : Nat) (comment preface : Text) (ss : List PlainStatement) :
    CodeLine.blocksOf line comment preface (ss.map PlainStatement.text) = .ok (blocksOn line preface comment ss) := by
  induction ss generalizing preface with
  | nil => rfl
  | cons s ss ih =>
    rw [List.map_cons, CodeLine.blocksOf, s.plain.classified, ih, blocksOn_cons, List.isEmpty_map]
    rfl

/-! ## Comments above a line -/

theorem IsComment.exists_cons {t : Text} (h : IsComment t) : ∃ rest, t = '%' :: rest := List.head?_eq_some_iff.1 h.sign

theorem IsComment.splitComment {t : Text} (h : IsComment t) : splitComment t = ([], some t) := by
  obtain ⟨rest, rfl⟩ := h.exists_cons
  have hsplit := IsCode.nil.splitComment_append rest
  rwa [h.trimmed] at hsplit

/-- A line without blocks only changes what is carried. -/
theorem Reader.readFrom_cons_nil {r r' : Reader} {line : Nat} {raw : Text} (h : r.advance line raw = .ok (r', []))
    (rest : List Text) : r.readFrom line (raw :: rest) = r'.readFrom (line + 1) rest := by
  rw [Reader.readFrom_cons h]
  exact congrFun Except.map_id _

/-- A line without code is put behind the preface, if it is a comment or there is one. -/
theorem Reader.advance_comment {t : Text} (h : IsComment t) (preface : Option Preface) (line : Nat) :
    Reader.advance ⟨preface, none⟩ line t = .ok (Reader.addBlank ⟨preface, none⟩ line (some t), []) := by
  rw [Reader.advance, h.splitComment]
  rfl

namespace Remark

theorem readFrom_each {ls : List Text} (h : ∀ l ∈ ls, l = [] ∨ IsComment l) (p : Preface) (line : Nat)
    (rest : List Text) :
    Reader.readFrom ⟨some p, none⟩ line (ls ++ rest) =
      Reader.readFrom ⟨some ⟨p.line, p.text ++ Text.unlines ls⟩, none⟩ (line + ls.length) rest := by
  induction ls generalizing p line with
  | nil => simp [Text.unlines]
  | cons l ls ih =>
    have hstep : Reader.advance ⟨some p, none⟩ line l = .ok (⟨some ⟨p.line, p.text ++ l ++ ['\n']⟩, none⟩, []) := by
      rcases h l List.mem_cons_self with rfl | hcomment
      · rw [List.append_nil, ← List.append_nil p.text]
        rfl
      · exact Reader.advance_comment hcomment (some p) line
    calc Reader.readFrom ⟨some p, none⟩ line (l :: (ls ++ rest))
        = Reader.readFrom ⟨some ⟨p.line, p.text ++ l ++ ['\n']⟩, none⟩ (line + 1) (ls ++ rest) :=
          Reader.readFrom_cons_nil hstep _
      _ = Reader.readFrom ⟨some ⟨p.line, p.text ++ l ++ ['\n'] ++ Text.unlines ls⟩, none⟩ (line + 1 + ls.length) rest :=
          ih (fun l hl => h l (List.mem_cons_of_mem _ hl)) _ _
      _ = _ := by simp [Text.unlines, Nat.add_comm, Nat.add_left_comm]

theorem readFrom (m : Remark) (line : Nat) (rest : List Text) :
    Reader.empty.readFrom line (m.lines ++ rest) =
      Reader.readFrom ⟨m.preface line, none⟩ (line + m.lines.length) rest := by
  obtain ⟨lines, first, each⟩ := m
  cases lines with
  | nil => rfl
  | cons l ls =>
    have hstep : Reader.empty.advance line l = .ok (⟨some ⟨line, l ++ ['\n']⟩, none⟩, []) :=
      Reader.advance_comment (first l rfl) none line
    calc Reader.empty.readFrom line (l :: (ls ++ rest))
        = Reader.readFrom ⟨some ⟨line, l ++ ['\n']⟩, none⟩ (line + 1) (ls ++ rest) := Reader.readFrom_cons_nil hstep _
      _ = Reader.readFrom ⟨some ⟨line, l ++ ['\n'] ++ Text.unlines ls⟩, none⟩ (line + 1 + ls.length) rest :=
          readFrom_each (fun l hl => each l (List.mem_cons_of_mem _ hl)) _ _ _
      _ = _ := by simp [preface, text, Text.unlines, Nat.add_comm, Nat.add_left_comm]

theorem prefaceText (m : Remark) (line : Nat) : Reader.prefaceText ⟨m.preface line, none⟩ = m.text := by
  obtain ⟨lines, first, each⟩ := m
  cases lines <;> rfl

theorem finish (m : Remark) (line : Nat) : Reader.finish ⟨m.preface line, none⟩ = .ok (m.blocks line) := by
  obtain ⟨lines, first, each⟩ := m
  cases lines <;> rfl

end Remark

/-! ## Groups -/

namespace Group

theorem splitComment_line (g : Group) :
    ∃ comment, splitComment g.line = (codeOf g.statements ++ g.gap, comment) ∧ comment.getD [] = g.comment := by
  have hcode : IsCode (codeOf g.statements ++ g.gap) := (isCode_codeOf g.inhabited).append_gap g.blank
  rcases g.commented with hnone | hcomment
  · refine ⟨none, ?_, hnone.symm⟩
    rw [line, hnone, List.append_nil]
    exact splitComment_eq_self hcode.uncommented
  · refine ⟨some g.comment, ?_, rfl⟩
    obtain ⟨rest, hrest⟩ := hcomment.exists_cons
    have hsplit := hcode.splitComment_append rest
    rw [← hrest, hcomment.trimmed] at hsplit
    exact hsplit

/-- **A line of statements** gives a block for each of them. -/
theorem advance (g : Group) (first : Nat) :
    Reader.advance ⟨g.preface.preface first, none⟩ (first + g.preface.lines.length) g.line =
      .ok (.empty, g.blocks first) := by
  obtain ⟨comment, hsplit, hcomment⟩ := g.splitComment_line
  obtain ⟨htrim, hne⟩ := trim_codeOf g.inhabited
  have htrim' : Text.trim (codeOf g.statements ++ g.gap) = codeOf g.statements := by
    rw [Text.trim_append g.blank.blank, htrim]
  have hvisible : Text.isVisible (codeOf g.statements ++ g.gap) = true := by
    rw [Text.isVisible_append, Text.isVisible_of_trim_eq htrim hne, Bool.true_or]
  have hunfinished : ∀ l : CodeLine, l.code = codeOf g.statements → l.unfinished? = none := by
    intro l hl
    have hmark := continuation_codeOf g.finished g.inhabited
    rw [CodeLine.unfinished?, hl, if_neg (by simpa using hmark)]
  rw [Reader.advance, hsplit]
  simp only [Reader.gather, hvisible, if_true, htrim', hcomment]
  rw [hunfinished _ rfl]
  simp only [CodeLine.blocks, statements_codeOf g.inhabited, g.preface.prefaceText, blocksOf_statements]
  rfl

theorem readFrom (g : Group) (first : Nat) (rest : List Text) :
    Reader.empty.readFrom first (g.lines ++ rest) =
      (Reader.empty.readFrom (first + g.lines.length) rest).map (g.blocks first ++ ·) := by
  rw [lines, List.append_assoc, Remark.readFrom, List.singleton_append, Reader.readFrom_cons (g.advance first)]
  simp [Nat.add_assoc]

end Group

/-! ## Whole documents -/

theorem IsComment.isLine {t : Text} (h : IsComment t) : Text.IsLine t := by
  refine ⟨h.newline, ?_⟩
  intro hlast
  rw [← h.trimmed] at hlast
  exact absurd (Text.last_trimEnd hlast) (by decide)

theorem Group.isLine (g : Group) : Text.IsLine g.line := by
  have hgap : ∀ c ∈ g.gap, c ≠ '\n' ∧ c ≠ '\r' := by
    intro c hc
    rcases g.blank c hc with rfl | rfl <;> decide
  have hcomment : Text.IsLine g.comment := by
    rcases g.commented with hnone | hcomment
    · rw [hnone]
      exact ⟨by simp, by simp⟩
    · exact hcomment.isLine
  constructor
  · simp only [line, List.mem_append, not_or]
    exact ⟨⟨newline_not_mem_codeOf g.inhabited, fun h => (hgap _ h).1 rfl⟩, hcomment.1⟩
  · intro hlast
    rw [line, List.getLast?_append, List.getLast?_append] at hlast
    rcases Option.or_eq_some_iff.1 hlast with hlast | ⟨-, hlast⟩
    · exact hcomment.2 hlast
    · rcases Option.or_eq_some_iff.1 hlast with hlast | ⟨-, hlast⟩
      · exact (hgap _ (List.mem_of_getLast? hlast)).2 rfl
      · rw [← (trim_codeOf g.inhabited).1] at hlast
        exact absurd (Text.last_trim hlast) (by decide)

namespace Document

theorem readFrom_groups (ending : Remark) (gs : List Group) (first : Nat) :
    Reader.empty.readFrom first (gs.flatMap Group.lines ++ ending.lines) = .ok (blocksFrom ending first gs) := by
  induction gs generalizing first with
  | nil =>
    have hread := ending.readFrom first []
    rw [List.append_nil, Reader.readFrom, ending.finish] at hread
    exact hread
  | cons g gs ih =>
    rw [List.flatMap_cons, List.append_assoc, Group.readFrom, ih]
    rfl

theorem isLine_of_mem_lines (d : Document) : ∀ l ∈ d.lines, Text.IsLine l := by
  have hremark : ∀ m : Remark, ∀ l ∈ m.lines, Text.IsLine l := by
    intro m l hl
    rcases m.each l hl with rfl | hcomment
    · exact ⟨by simp, by simp⟩
    · exact hcomment.isLine
  intro l hl
  rcases List.mem_append.1 hl with hl | hl
  · obtain ⟨g, -, hl⟩ := List.mem_flatMap.1 hl
    rcases List.mem_append.1 hl with hl | hl
    · exact hremark g.preface l hl
    · obtain rfl := List.mem_singleton.1 hl
      exact g.isLine
  · exact hremark d.ending l hl

end Document

/-- **Reading undoes writing.** A document is read back as it was written, whether its last line is ended or not. -/
theorem readBlocks_document (d : Document) :
    readBlocks (Text.unlines d.lines) = .ok d.blocks ∧
      (d.lines.getLast? ≠ some [] → readBlocks (Text.unlines d.lines).dropLast = .ok d.blocks) := by
  have hread := Document.readFrom_groups d.ending d.groups 1
  constructor
  · rw [readBlocks, Text.lines_unlines d.isLine_of_mem_lines]
    exact hread
  · intro hlast
    rw [readBlocks, Text.lines_dropLast_unlines d.isLine_of_mem_lines hlast]
    exact hread

/-- a document with statements that share a line, a `%` in a string, and comments at every place -/
def passage : Document where
  groups :=
    [{ preface := ⟨["% of the craft".toList, [], "% its state".toList], by decide +kernel, by decide +kernel⟩
       statements :=
         [⟨"Create Spacecraft Sat".toList, .declaration ⟨"Spacecraft".toList, [⟨"Sat".toList, []⟩]⟩, by decide +kernel⟩,
           ⟨"Sat.X = 7000".toList, .assignment "Sat.X".toList "7000".toList, by decide +kernel⟩]
       gap := [' ']
       comment := "% km".toList
       inhabited := by simp
       finished := by decide +kernel
       blank := by simp [Gap]
       commented := by decide +kernel },
     { preface := ⟨[], by simp, by simp⟩
       statements :=
         [⟨"Sat.Id = 'a % b'".toList, .assignment "Sat.Id".toList "'a % b'".toList, by decide +kernel⟩]
       gap := []
       comment := []
       inhabited := by simp
       finished := by decide +kernel
       blank := by simp [Gap]
       commented := .inl rfl }]
  ending := ⟨["% done".toList], by decide +kernel, by decide +kernel⟩

theorem readBlocks_passage :
    (Text.unlines passage.lines = ("% of the craft\n\n% its state\nCreate Spacecraft Sat;Sat.X = 7000 % km\n" ++
      "Sat.Id = 'a % b'\n% done\n").toList ∧ passage.lines.getLast? ≠ some []) ∧
    passage.blocks.map (fun b => (b.line, b.text, b.preface, b.inlineComment)) =
      [(4, "Create Spacecraft Sat".toList, "% of the craft\n\n% its state\n".toList, []),
        (4, "Sat.X = 7000".toList, [], "% km".toList), (5, "Sat.Id = 'a % b'".toList, [], []),
        (6, "% done\n".toList, "% done\n".toList, [])] ∧
    readBlocks (Text.unlines passage.lines) = .ok passage.blocks ∧
    readBlocks (Text.unlines passage.lines).dropLast = .ok passage.blocks := by
  have hread := readBlocks_document passage
  have hlast : passage.lines.getLast? ≠ some [] := by decide +kernel
  exact ⟨⟨by decide +kernel, hlast⟩, by decide +kernel, hread.1, hread.2 hlast⟩

end MissionScript
