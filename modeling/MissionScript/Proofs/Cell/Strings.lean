/-
Strings among the cells.

Whether a character opens or closes a string depends on the characters before it only: `openAfter` follows the open quote,
and `quotedFrom` reads off it which characters are quoted. Markers, exponents and bracket literals have no part in it.
- `Due.opened_advance`: one character.
- `quoted_cellsFrom`: a whole text.
-/
import MissionScript.Lexeme.Quotation
import MissionScript.Proofs.Cell.Reading

namespace MissionScript

open Cell Posture

variable {t : Text} {c : Char} {p : Posture}

/-! ## Open strings -/

/-- the quote that is open behind a character, given the one that is open before it and the characters read, last one
first -/
def Text.openAfter (opened : Option Char) (before : Text) (c : Char) : Option Char :=
  match opened with
  | some quote => if c = quote then none else some quote
  | none => if c = '"' ∨ (c = '\'' ∧ followsOperand before = false) then some c else none

namespace Posture

/-- the quote of the string that is being read -/
def opened (p : Posture) : Option Char :=
  match p.context with
  | .string quote => some quote
  | _ => none

/-- the open string has one of the two quotes -/
def Quoting (p : Posture) : Prop := ∀ quote, p.context = .string quote → Quotation.isQuote quote = true

theorem Quoting.advance {p : Posture} (h : p.Quoting) (c : Char) (rest : Text) : (p.advance c rest).2.Quoting := by
  obtain ⟨context, depth, before⟩ := p
  intro quote hquote
  cases context with
  | string open' =>
    simp only [Posture.advance] at hquote
    split_ifs at hquote
    exact h quote hquote
  | marker n => cases n <;> exact absurd hquote (by simp [Posture.advance])
  | exponent => exact absurd hquote (by simp [Posture.advance])
  | code =>
    have hopens : (c == '"' || (c == '\'' && !followsOperand before)) = true ∧ quote = c := by
      cases depth <;>
      · simp only [Posture.advance] at hquote
        split_ifs at hquote with hopens
        exact ⟨hopens, (Context.string.inj hquote).symm⟩
    obtain ⟨hopens, rfl⟩ := hopens
    simp only [Bool.or_eq_true, Bool.and_eq_true, beq_iff_eq] at hopens
    rcases hopens with rfl | ⟨rfl, -⟩ <;> rfl

/-- What a marker or the sign of an exponent still takes stands at the beginning of the text. -/
def Due (p : Posture) (t : Text) : Prop :=
  match p.context with
  | .marker n => ∃ taken, taken <+: t ∧ taken <:+ ['(', '-', '1', ')'] ∧ taken.length = n + 1
  | .exponent => signsDigit t = true
  | _ => True

theorem Due.advance (h : p.Due (c :: t)) : (p.advance c t).2.Due t := by
  obtain ⟨context, depth, before⟩ := p
  cases context with
  | string quote =>
    simp only [Posture.advance, Due]
    split_ifs <;> trivial
  | marker n =>
    obtain ⟨taken, hprefix, hsuffix, hlength⟩ := h
    obtain ⟨d, taken, rfl⟩ := List.exists_cons_of_length_eq_add_one hlength
    cases n with
    | zero => trivial
    | succ n =>
      exact ⟨taken, (List.cons_prefix_cons.1 hprefix).2, (List.suffix_cons d taken).trans hsuffix, Nat.succ.inj hlength⟩
  | exponent => trivial
  | code =>
    cases depth with
    | succ depth =>
      simp only [Posture.advance]
      split_ifs <;> trivial
    | zero =>
      simp only [Posture.advance]
      split_ifs with h₁ h₂ h₃ h₄
      · trivial
      · trivial
      · exact ⟨_, List.isPrefixOf_iff_prefix.1 (Bool.and_eq_true_iff.1 h₃).2, List.suffix_rfl, rfl⟩
      · exact (Bool.and_eq_true_iff.1 h₄).2
      · trivial

theorem not_isBlank_of_mem_marker : ∀ c ∈ ['(', '-', '1', ')'], isBlank c = false := List.all_iff_forall_prop.1 (by decide)

/-- A character that is no part of a marker or an exponent is read as code or in a string. -/
theorem Due.context (h : p.Due (c :: t)) (hc : c ∉ ['(', '-', '1', ')', '+']) :
    p.context = .code ∨ ∃ quote, p.context = .string quote := by
  obtain ⟨context, depth, before⟩ := p
  cases context with
  | string quote => exact .inr ⟨quote, rfl⟩
  | marker n =>
    obtain ⟨taken, hprefix, hsuffix, hlength⟩ := h
    obtain ⟨d, taken, rfl⟩ := List.exists_cons_of_length_eq_add_one hlength
    obtain rfl : d = c := (List.cons_prefix_cons.1 hprefix).1
    have hmem : d ∈ ['(', '-', '1', ')'] := hsuffix.subset List.mem_cons_self
    exact absurd (List.mem_append_left ['+'] hmem) hc
  | exponent =>
    have hsign : c = '+' ∨ c = '-' := by
      cases t with
      | nil => exact absurd h (by simp [Due, signsDigit])
      | cons d t =>
        simp only [Due, signsDigit, Bool.and_eq_true, Bool.or_eq_true, beq_iff_eq] at h
        exact h.1
    rcases hsign with rfl | rfl
    · exact absurd (by decide) hc
    · exact absurd (by decide) hc
  | code => exact .inl rfl

/-- Strings are opened and closed as if nothing else were there. -/
theorem Due.opened_advance (h : p.Due (c :: t)) : (p.advance c t).2.opened = Text.openAfter p.opened p.before c := by
  -- no part of a marker or an exponent opens a string
  have hplain : ¬(p.context = .code ∨ ∃ quote, p.context = .string quote) → Text.openAfter none p.before c = none := by
    intro hcontext
    have hc : ¬(c = '"' ∨ (c = '\'' ∧ followsOperand p.before = false)) := by
      rintro (rfl | ⟨rfl, -⟩)
      · exact hcontext (h.context (by decide))
      · exact hcontext (h.context (by decide))
    exact if_neg hc
  obtain ⟨context, depth, before⟩ := p
  cases context with
  | string quote =>
    by_cases hc : c = quote
    · simp [Posture.advance, opened, Text.openAfter, hc]
    · simp [Posture.advance, opened, Text.openAfter, hc]
  | marker n =>
    have hnext : (Posture.advance ⟨.marker n, depth, before⟩ c t).2.opened = none := by cases n <;> rfl
    exact hnext.trans (hplain (by simp)).symm
  | exponent => exact (hplain (by simp)).symm
  | code =>
    have hopens : (c == '"' || (c == '\'' && !followsOperand before)) = true ↔
        c = '"' ∨ (c = '\'' ∧ followsOperand before = false) := by simp
    by_cases hopen : (c == '"' || (c == '\'' && !followsOperand before)) = true
    · have hstring : Text.openAfter none before c = some c := if_pos (hopens.1 hopen)
      simp [Posture.advance, opened, hopen, hstring]
    · have hstring : Text.openAfter none before c = none := if_neg fun h => hopen (hopens.2 h)
      change _ = Text.openAfter none before c
      rw [hstring]
      simp only [Posture.advance, if_neg hopen]
      cases depth with
      | zero => simp only; split_ifs <;> rfl
      | succ depth => simp only; split_ifs <;> rfl

/-- A character is quoted when a string is open before it or behind it. -/
theorem role_eq_quoted_iff (p : Posture) (c : Char) (t : Text) :
    (p.advance c t).1 = .quoted ↔ p.opened ≠ none ∨ (p.advance c t).2.opened ≠ none := by
  obtain ⟨context, depth, before⟩ := p
  cases context with
  | string quote => simp [Posture.advance, opened]
  | marker n => cases n <;> simp [Posture.advance, opened]
  | exponent => simp [Posture.advance, opened]
  | code =>
    by_cases hopen : (c == '"' || (c == '\'' && !followsOperand before)) = true
    · simp [Posture.advance, opened, hopen]
    · simp only [Posture.advance, if_neg hopen]
      cases depth with
      | zero => simp only; split_ifs <;> simp [opened]
      | succ depth => simp only; split_ifs <;> simp [opened]

theorem role_of_opened {quote : Char} (h : p.opened = some quote) (c : Char) (t : Text) :
    (p.advance c t).1 = .quoted := by
  apply (role_eq_quoted_iff p c t).2
  rw [h]
  exact .inl (by simp)

end Posture

/-! ## Quoted characters -/

def Cell.isQuoted (cell : Cell) : Bool := cell.role == .quoted

namespace Text

/-- which characters are quoted, given the quote that is open before them and the characters read, last one first -/
def quotedFrom (opened : Option Char) (before : Text) : Text → List Bool
  | [] => []
  | c :: rest =>
    (opened.isSome || (openAfter opened before c).isSome) :: quotedFrom (openAfter opened before c) (c :: before) rest

/-- **What is quoted** can be read off the quotes and the characters before them. -/
theorem quoted_cellsFrom (h : p.Due t) : (cellsFrom p t).map Cell.isQuoted = quotedFrom p.opened p.before t := by
  induction t generalizing p with
  | nil => rfl
  | cons c t ih =>
    have hquoted : Cell.isQuoted ⟨c, (p.advance c t).1⟩ = (p.opened.isSome || (openAfter p.opened p.before c).isSome) := by
      rw [← h.opened_advance, Bool.eq_iff_iff, Cell.isQuoted, beq_iff_eq, role_eq_quoted_iff]
      simp [Option.isSome_iff_ne_none]
    rw [cellsFrom, List.map_cons, hquoted, ih h.advance, h.opened_advance, before_advance, quotedFrom]

theorem quoted_cells (t : Text) : (cells t).map Cell.isQuoted = quotedFrom none [] t := quoted_cellsFrom trivial

variable {u l r : Text} {quote : Char}

/-- Double quotes always open a string, single ones where they are no transpose. -/
theorem isSome_openAfter_iff : (openAfter none u c).isSome = true ↔ c = '"' ∨ (c = '\'' ∧ followsOperand u = false) := by
  unfold openAfter
  split_ifs with hopens
  · exact ⟨fun _ => hopens, fun _ => rfl⟩
  · exact ⟨fun h => absurd h (by simp), fun h => absurd h hopens⟩

theorem openAfter_eq_of_isSome (h : (openAfter none u c).isSome = true) : openAfter none u c = some c :=
  if_pos (isSome_openAfter_iff.1 h)

theorem openAfter_plain (h : Quotation.isQuote c = false) (u : Text) : openAfter none u c = none := by
  simp only [Quotation.isQuote, Bool.or_eq_false_iff, beq_eq_false_iff_ne] at h
  exact if_neg fun hopens => hopens.elim h.2 fun hopens => h.1 hopens.1

theorem quotedFrom_plain (h : ∀ c ∈ l, Quotation.isQuote c = false) :
    quotedFrom none u (l ++ r) = List.replicate l.length false ++ quotedFrom none (l.reverse ++ u) r := by
  induction l generalizing u with
  | nil => rfl
  | cons c l ih =>
    have hc := openAfter_plain (h c List.mem_cons_self) u
    rw [List.cons_append, quotedFrom, hc, ih fun d hd => h d (List.mem_cons_of_mem c hd)]
    simp [List.replicate_succ]

theorem quotedFrom_body (h : quote ∉ l) : quotedFrom (some quote) u (l ++ quote :: r) =
    List.replicate (l.length + 1) true ++ quotedFrom none (quote :: (l.reverse ++ u)) r := by
  induction l generalizing u with
  | nil => simp [quotedFrom, openAfter]
  | cons c l ih =>
    obtain ⟨hne, hl⟩ : quote ≠ c ∧ quote ∉ l := by simpa using h
    have hc : openAfter (some quote) u c = some quote := if_neg hne.symm
    rw [List.cons_append, quotedFrom, hc, ih hl]
    simp [List.replicate_succ]

theorem quotedFrom_string (hopens : openAfter none u quote = some quote) (h : quote ∉ l) :
    quotedFrom none u (quote :: (l ++ quote :: r)) =
      List.replicate (l.length + 2) true ++ quotedFrom none (quote :: (l.reverse ++ quote :: u)) r := by
  rw [quotedFrom, hopens, quotedFrom_body h]
  simp [List.replicate_succ]

end Text

end MissionScript
