/-
Where an assignment is divided.

- `isLive_or_isLiteral`, `isEncloser_of_isLiteral`: a character such as `=` is live or part of a literal, and the literal
  that ends before a live character ends in its closer.
- `equation_of_classify`: an assignment is divided at its first `=` outside parentheses, strings and bracket literals; this
  `=` is no half of `==`, and belongs to another relational operator only where the left side ends in the other half.
- `exists_relational_assignment`: a comparison that is taken for an assignment.
-/
import MissionScript.Proofs.Cell.Enclosure
import MissionScript.Proofs.Cell.Split
import MissionScript.Proofs.Cell.Strings
import MissionScript.Statement.Basic

namespace MissionScript

open Cell Posture

variable {t lhs rhs left right : Text} {cs : List Cell} {c : Char}

/-! ## Where a character does not count -/

namespace Cell

def isLiteral (cell : Cell) : Bool :=
  match cell.role with
  | .quoted | .bracket _ => true
  | .live | .exponentSign | .inverse _ => false

def depthBehind (cs : List Cell) : Nat := cs.foldl depthAfter 0

/-- The character occurs only in parentheses, strings and bracket literals. -/
def Hides (c : Char) (cs : List Cell) : Prop :=
  ∀ before cell after, cs = before ++ cell :: after → cell.char = c →
    cell.isLiteral = true ∨ depthBehind before ≠ 0

end Cell

/-! ## Characters that cannot open or close anything -/

namespace Posture

/-- A literal that is over behind a character ends in a quote or a bracket. -/
theorem isEncloser_of_closes {p : Posture} {rest : Text} (h : p.Quoting)
    (hliteral : Cell.isLiteral ⟨c, (p.advance c rest).1⟩ = true)
    (hcontext : (p.advance c rest).2.context = .code) (hdepth : (p.advance c rest).2.depth = 0) :
    isEncloser c = true := by
  obtain ⟨context, depth, before⟩ := p
  cases context with
  | string quote =>
    simp only [Posture.advance] at hcontext
    split_ifs at hcontext with hcloses
    rw [beq_iff_eq.1 hcloses, isEncloser, h quote rfl, Bool.or_true]
  | marker n => cases n <;> exact absurd hliteral (by simp [Posture.advance, isLiteral])
  | exponent => exact absurd hliteral (by simp [Posture.advance, isLiteral])
  | code =>
    by_contra hplain
    simp only [isEncloser, Quotation.isQuote, Bool.or_eq_true, beq_iff_eq, not_or] at hplain
    obtain ⟨⟨⟨⟨hopen, hclose⟩, hopen'⟩, hclose'⟩, hquote, hquotes⟩ := hplain
    cases depth with
    | zero =>
      simp only [Posture.advance, beq_false_of_ne hquote, beq_false_of_ne hquotes, beq_false_of_ne hopen,
        beq_false_of_ne hopen'] at hliteral
      simp only [Bool.false_and, Bool.or_self, Bool.false_eq_true, if_false] at hliteral
      split_ifs at hliteral <;> exact absurd hliteral (by simp [isLiteral])
    | succ depth =>
      simp [Posture.advance, hquote, hquotes, hopen, hopen', hclose, hclose'] at hdepth

end Posture

/-- Before a live character a literal ends in its closer. -/
theorem isEncloser_of_isLiteral {p : Posture} {as bs : List Cell} {cell : Cell} (hp : p.Quoting)
    (h : cellsFrom p t = as ++ cell :: ⟨c, .live⟩ :: bs) (hliteral : cell.isLiteral = true) :
    isEncloser cell.char = true := by
  induction as generalizing p t with
  | nil =>
    match t with
    | [] => exact absurd h (by simp [cellsFrom])
    | [x] => exact absurd h (by simp [cellsFrom])
    | x :: y :: t =>
      simp only [cellsFrom, List.nil_append, List.cons.injEq] at h
      obtain ⟨rfl, hnext, -⟩ := h
      have hcode := code_of_live (congrArg Cell.role hnext)
      exact isEncloser_of_closes hp hliteral (by rw [hcode]) (by rw [hcode])
  | cons first as ih =>
    cases t with
    | nil => exact absurd h (by simp [cellsFrom])
    | cons x t => exact ih (hp.advance x t) (List.cons.inj h).2

theorem isLive_or_isLiteral_of_due {p : Posture} {cell : Cell} (hp : p.Due t) (h : cell ∈ cellsFrom p t)
    (hc : cell.char ∉ ['^', '(', '-', '1', ')', '+']) : cell.isLive = true ∨ cell.isLiteral = true := by
  induction t generalizing p with
  | nil => exact absurd h (by simp [cellsFrom])
  | cons x t ih =>
    rw [cellsFrom] at h
    rcases List.mem_cons.1 h with rfl | h
    · obtain ⟨context, depth, before⟩ := p
      rcases hp.context fun hmem => hc (List.mem_cons_of_mem _ hmem) with hcode | ⟨quote, hstring⟩
      · obtain rfl : context = .code := hcode
        have hcaret : (x == '^') = false := beq_false_of_ne fun hx => hc (by simp [hx])
        simp only [Posture.advance, hcaret, Bool.false_and, Bool.false_eq_true, if_false]
        cases depth with
        | zero =>
          simp only
          split_ifs <;> simp [isLive, isLiteral]
        | succ depth =>
          simp only
          split_ifs <;> simp [isLive, isLiteral]
      · obtain rfl : context = .string quote := hstring
        exact .inr rfl
    · exact ih hp.advance h

/-- A character of no marker and no exponent is live or part of a literal. -/
theorem isLive_or_isLiteral {cell : Cell} (h : cell ∈ cells t) (hc : cell.char ∉ ['^', '(', '-', '1', ')', '+']) :
    cell.isLive = true ∨ cell.isLiteral = true :=
  isLive_or_isLiteral_of_due (show Posture.start.Due t from trivial) h hc

namespace Statement

/-! ## The two sides -/

/-- a statement without the keyword of assignments, if it begins with it -/
def body (t : Text) : Text :=
  if t.takeWhile isWordChar = assignmentKeyword ∧ endsWord (t.dropWhile isWordChar) then
    Text.trimStart (t.dropWhile isWordChar)
  else t

theorem trim_body (t : Text) : Text.trim (body (Text.trim t)) = body (Text.trim t) := by
  unfold body
  split_ifs with hkeyword
  · generalize hu : Text.trim t = u
    apply Text.trim_eq_self
    · intro c hc
      have hhead := List.head?_dropWhile_not isBlank (u.dropWhile isWordChar)
      rw [show (u.dropWhile isWordChar).dropWhile isBlank = Text.trimStart (u.dropWhile isWordChar) from rfl, hc] at hhead
      simpa using hhead
    · intro c hc
      obtain ⟨b, -, hb⟩ := Text.exists_eq_append_trimStart (u.dropWhile isWordChar)
      have hparts : u = u.takeWhile isWordChar ++ b ++ Text.trimStart (u.dropWhile isWordChar) := by
        rw [List.append_assoc, ← hb, List.takeWhile_append_dropWhile]
      have hlast : c ∈ u.getLast? := by
        rw [hparts, List.getLast?_append, hc]
        rfl
      rw [← hu] at hlast
      exact Text.last_trim hlast
  · exact Text.trim_trim t

theorem assign_eq_ok {whole : Text} (h : assign whole left right = .ok (.assignment lhs rhs)) :
    lhs = Text.trim left ∧ rhs = Text.trim right ∧ lhs ≠ [] ∧ rhs ≠ [] ∧
      ∀ cell ∈ cells rhs, cell.isLive = true → isRelational cell.char = false := by
  simp only [assign] at h
  split_ifs at h with hlhs hrhs
  split at h
  · exact absurd h (by simp)
  · next hfind =>
    obtain ⟨rfl, rfl⟩ := Statement.assignment.inj (Except.ok.inj h)
    refine ⟨rfl, rfl, by simpa using hlhs, by simpa using hrhs, ?_⟩
    intro cell hcell hlive
    have hnone := List.find?_eq_none.1 hfind cell hcell
    simpa [hlive] using hnone

theorem not_assignment_of_declare {whole : Text} : declare whole t ≠ .ok (.assignment lhs rhs) := by
  intro h
  unfold declare at h
  split at h
  · exact absurd h (by simp)
  · split at h <;> exact absurd h (by simp)

/-- An assignment is cut at the first `=` outside all parentheses. -/
theorem cut_of_classify (h : classify t = .ok (.assignment lhs rhs)) :
    ∃ whole left right, cut '=' (cells (body (Text.trim t))) = some (left, right) ∧
      assign whole left right = .ok (.assignment lhs rhs) := by
  unfold classify at h
  generalize Text.trim t = u at h ⊢
  simp only [classifyTrimmed] at h
  split_ifs at h with hdeclares hassigns hcommands
  · exact absurd h not_assignment_of_declare
  · rw [body, if_pos hassigns]
    split at h
    · next hcut => exact ⟨_, _, _, hcut, h⟩
    · exact absurd h (by simp)
  · exact absurd h (by simp)
  · rw [body, if_neg hassigns]
    split at h
    · next hcut => exact ⟨_, _, _, hcut, h⟩
    · split at h <;> exact absurd h (by simp)

/-- a text as the assignment of `rhs` to `lhs` -/
structure Equation (t lhs rhs : Text) where
  /-- the blanks before the `=` -/
  gap : Text
  /-- the blanks behind the `=` -/
  space : Text
  /-- what is read before the `=` -/
  before : List Cell
  /-- what is read behind the `=` -/
  behind : List Cell
  gap_blank : Text.Blank gap
  space_blank : Text.Blank space
  lhs_ne : lhs ≠ []
  rhs_ne : rhs ≠ []
  text_eq : t = lhs ++ gap ++ '=' :: (space ++ rhs)
  cells_eq : cells t = before ++ ⟨'=', .live⟩ :: behind
  text_before : text before = lhs ++ gap
  /-- the `=` stands outside all parentheses -/
  outside : depthBehind before = 0
  /-- no other `=` before it does -/
  first : Hides '=' before
  /-- the value is read as it is read on its own -/
  alone : cells rhs <:+ behind
  /-- the value has no relational character outside its strings and bracket literals -/
  plain : ∀ cell ∈ behind, isRelational cell.char = true → cell.isLiteral = true

namespace Equation

/-- true when the `=` and a character directly before or behind it make a relational operator -/
def inRelation (e : Equation t lhs rhs) : Bool :=
  (lhs ++ e.gap).getLast?.any isRelational || (e.space ++ rhs).head? == some '='

/-- The value does not go on with a second `=`. -/
theorem head?_behind (e : Equation t lhs rhs) : (e.space ++ rhs).head? ≠ some '=' := by
  intro hhead
  cases hspace : e.space with
  | cons c space =>
    rw [hspace] at hhead
    have hblank := e.space_blank c (by rw [hspace]; exact List.mem_cons_self)
    rw [Option.some.inj hhead] at hblank
    exact absurd hblank (by decide)
  | nil =>
    rw [hspace, List.nil_append] at hhead
    obtain ⟨rest, rfl⟩ := List.head?_eq_some_iff.1 hhead
    have hcells : cells ('=' :: rest) = ⟨'=', .live⟩ :: cellsFrom ⟨.code, 0, ['=']⟩ rest :=
      cellsFrom_live rfl (fun h => absurd h (by decide)) fun h => absurd h (by decide)
    have hmem : ⟨'=', .live⟩ ∈ e.behind := e.alone.subset (by rw [hcells]; exact List.mem_cons_self)
    exact absurd (e.plain _ hmem rfl) (by decide)

/-- Neither does the left side end in a first one. -/
theorem getLast?_before (e : Equation t lhs rhs) : (lhs ++ e.gap).getLast? ≠ some '=' := by
  intro hlast
  rw [← e.text_before, text, List.getLast?_map, Option.map_eq_some_iff] at hlast
  obtain ⟨cell, hcell, hchar⟩ := hlast
  obtain ⟨as, has⟩ := List.getLast?_eq_some_iff.1 hcell
  have hcells : cells t = as ++ cell :: ⟨'=', .live⟩ :: e.behind := by
    rw [e.cells_eq, has, List.append_assoc]
    rfl
  have hliteral : cell.isLiteral = false := by
    by_contra hliteral
    have hcloser := isEncloser_of_isLiteral (fun _ h => by simp [start] at h) hcells (by simpa using hliteral)
    rw [hchar] at hcloser
    exact absurd hcloser (by decide)
  have hlive : cell.isLive = true := by
    have hmem : cell ∈ cells t := by rw [hcells]; simp
    rcases isLive_or_isLiteral hmem (by rw [hchar]; decide) with hlive | h
    · exact hlive
    · exact absurd (hliteral.symm.trans h) (by decide)
  have hdepth : depthBehind as = 0 := by
    have houtside := e.outside
    rw [has, depthBehind, List.foldl_append, List.foldl_cons, List.foldl_nil, depthAfter] at houtside
    simpa [depthBehind, holds, hchar] using houtside
  rcases e.first as cell [] has hchar with h | h
  · exact absurd (hliteral.symm.trans h) (by decide)
  · exact h hdepth

/-- The `=` is no half of `==`, and of no other relational operator unless the left side ends in its first half. -/
theorem inRelation_iff (e : Equation t lhs rhs) :
    e.inRelation = true ↔ e.gap = [] ∧ ∃ c ∈ lhs.getLast?, c = '<' ∨ c = '>' ∨ c = '~' := by
  have hbehind : ((e.space ++ rhs).head? == some '=') = false := by simpa using e.head?_behind
  have hbefore := e.getLast?_before
  rw [inRelation, hbehind, Bool.or_false, Option.any_eq_true]
  rcases List.eq_nil_or_concat' e.gap with hgap | ⟨gap, blank, hgap⟩
  · rw [hgap, List.append_nil] at hbefore ⊢
    constructor
    · rintro ⟨c, hc, hrelational⟩
      have hne : c ≠ '=' := by
        rintro rfl
        exact hbefore hc
      simp only [isRelational, Bool.or_eq_true, beq_iff_eq] at hrelational
      refine ⟨rfl, c, hc, ?_⟩
      tauto
    · rintro ⟨-, c, hc, rfl | rfl | rfl⟩ <;> exact ⟨_, hc, rfl⟩
  · have hblank : isBlank blank = true := e.gap_blank blank (by rw [hgap]; simp)
    rw [hgap, ← List.append_assoc, List.getLast?_concat]
    constructor
    · rintro ⟨c, hc, hrelational⟩
      obtain rfl := Option.some.inj hc
      simp only [isRelational, Bool.or_eq_true, beq_iff_eq] at hrelational
      rcases hrelational with ((rfl | rfl) | rfl) | rfl <;> exact absurd hblank (by decide)
    · rintro ⟨hnil, -⟩
      exact absurd hnil (by simp)

/-- Cutting a trimmed text takes no blanks off its ends. -/
theorem of_cut {whole : Text} (htrim : Text.trim t = t) (hcut : cut '=' (cells t) = some (left, right))
    (hassign : assign whole left right = .ok (.assignment lhs rhs)) : Nonempty (Equation t lhs rhs) := by
  obtain ⟨hlhs, hrhs, hlhsne, hrhsne, hplain⟩ := assign_eq_ok hassign
  obtain ⟨as, bs, hcells, rfl, rfl, houtside, hfirst⟩ := cutFrom_eq_some hcut
  have htext : t = text as ++ '=' :: text bs := by
    rw [← text_cells t, hcells]
    simp [text]
  obtain ⟨b₁, gap, hb₁, hgap, hleft⟩ := Text.exists_eq_append_trim (text as)
  obtain ⟨space, b₂, hspace, hb₂, hright⟩ := Text.exists_eq_append_trim (text bs)
  rw [← hlhs] at hleft
  rw [← hrhs] at hright
  have hstart : b₁ = [] := by
    refine Text.eq_nil_of_blank_append (t := lhs ++ gap ++ '=' :: text bs) ?_ hb₁
    rw [← List.append_assoc, ← hleft, ← htext, htrim]
  have hend : b₂ = [] := by
    refine Text.eq_nil_of_append_blank (t := text as ++ '=' :: (space ++ rhs)) ?_ hb₂
    rw [List.append_assoc, List.cons_append, List.append_assoc, ← hright, ← htext, htrim]
  subst hstart hend
  rw [List.nil_append] at hleft
  rw [List.append_nil] at hright
  have hbehind : cells (text bs) = bs := cells_behind hcells fun _ => rfl
  obtain ⟨cs, hcs, hblank⟩ := cells_blank_append hspace rhs
  rw [← hright, hbehind] at hcs
  refine ⟨⟨gap, space, as, bs, hgap, hspace, hlhsne, hrhsne, ?_, hcells, hleft, houtside, ?_, ⟨cs, hcs.symm⟩, ?_⟩⟩
  · rw [← hleft, ← hright]
    exact htext
  · intro before cell after heq hchar
    have hmem : cell ∈ cells t := by
      rw [hcells, heq]
      simp
    rcases isLive_or_isLiteral hmem (by rw [hchar]; decide) with hlive | hliteral
    · exact .inr (hfirst before cell after heq (by simp [holds, hlive, hchar]))
    · exact .inl hliteral
  · intro cell hcell hrelational
    have hchar : cell.char = '=' ∨ cell.char = '~' ∨ cell.char = '<' ∨ cell.char = '>' := by
      simpa [isRelational, or_assoc] using hrelational
    have hmem : cell ∈ cells t := by
      rw [hcells]
      exact List.mem_append_right _ (List.mem_cons_of_mem _ hcell)
    have hplainChar : cell.char ∉ ['^', '(', '-', '1', ')', '+'] := by
      rcases hchar with h | h | h | h <;> rw [h] <;> decide
    rcases isLive_or_isLiteral hmem hplainChar with hlive | hliteral
    · rw [hcs] at hcell
      rcases List.mem_append.1 hcell with hcell | hcell
      · have hb := (hblank cell hcell).1
        rcases hchar with h | h | h | h <;> rw [h] at hb <;> exact absurd hb (by decide)
      · exact absurd ((hplain cell hcell hlive).symm.trans hrelational) (by decide)
    · exact hliteral

end Equation

/-- An assignment is divided at its first `=` outside parentheses, strings and bracket literals. Only where the left side
ends in `<`, `>` or `~` directly before it, this `=` belongs to a relational operator. -/
theorem equation_of_classify (h : classify t = .ok (.assignment lhs rhs)) :
    ∃ e : Equation (body (Text.trim t)) lhs rhs,
      (e.inRelation = true ↔ e.gap = [] ∧ ∃ c ∈ lhs.getLast?, c = '<' ∨ c = '>' ∨ c = '~') := by
  obtain ⟨whole, left, right, hcut, hassign⟩ := cut_of_classify h
  obtain ⟨e⟩ := Equation.of_cut (trim_body t) hcut hassign
  exact ⟨e, e.inRelation_iff⟩

theorem equation_of_keyword :
    ∃ e : Equation (body (Text.trim " GMAT x(1) = 'a <= b'".toList)) "x(1)".toList "'a <= b'".toList,
      e.inRelation = false := by
  have h : classify " GMAT x(1) = 'a <= b'".toList = .ok (.assignment "x(1)".toList "'a <= b'".toList) := by
    decide +kernel
  obtain ⟨e, he⟩ := equation_of_classify h
  refine ⟨e, ?_⟩
  by_contra hrelation
  obtain ⟨-, c, hc, hcharacter⟩ := he.1 (by simpa using hrelation)
  obtain rfl : ')' = c := Option.some.inj hc
  exact absurd hcharacter (by decide)

/-- A comparison is taken for an assignment. -/
theorem exists_relational_assignment : ¬∀ t lhs rhs : Text, classify t = .ok (.assignment lhs rhs) →
    ∃ e : Equation (body (Text.trim t)) lhs rhs, e.inRelation = false := by
  intro hall
  obtain ⟨e, he⟩ := hall "x <= 3".toList "x <".toList "3".toList (by decide +kernel)
  have hgap : e.gap = [] := by
    have htext : "x <".toList ++ "= 3".toList = "x <".toList ++ (e.gap ++ '=' :: (e.space ++ "3".toList)) := by
      rw [← List.append_assoc, ← e.text_eq]
      decide +kernel
    cases hgap : e.gap with
    | nil => rfl
    | cons c gap =>
      rw [hgap] at htext
      have hc : '=' = c := (List.cons.inj (List.append_cancel_left htext)).1
      have hblank := e.gap_blank c (by rw [hgap]; exact List.mem_cons_self)
      rw [← hc] at hblank
      exact absurd hblank (by decide)
  rw [Equation.inRelation, hgap] at he
  exact absurd he (by simp [isRelational])

end Statement

end MissionScript
