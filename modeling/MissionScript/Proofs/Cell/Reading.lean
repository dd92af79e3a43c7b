/-
How the reading of a text depends on what stands around it.

Only a character that an operand could end in has an effect on what comes after it, and only the sign of an exponent and
the inverse marker are recognised by what follows.
- `cellsFrom_below`: behind any other character a text is read as it is read on its own.
- A text is `Closed` when it leaves no string and no bracket literal open.
- `Reads` is for texts that are read in one way whatever follows them. `Reads.join` and `Reads.close` put such texts
  together with operators, commas and parentheses.
-/
import Mathlib.Data.Bool.AllAny
import MissionScript.Cell.Basic
import MissionScript.Lexeme.Quotation
import MissionScript.Proofs.Text.Trim

namespace MissionScript

/-! ## Characters of names -/

theorem isWordChar_of_isDigit {c : Char} (h : c.isDigit = true) : isWordChar c = true := by
  simp [isWordChar, Char.isAlphanum, h]

theorem isNameStart_eq (c : Char) : isNameStart c = (c.isUpper || c.isLower || c == '_') := rfl

theorem isNameStart_iff {c : Char} : isNameStart c = true ↔
    (65 ≤ c.val.toNat ∧ c.val.toNat ≤ 90) ∨ (97 ≤ c.val.toNat ∧ c.val.toNat ≤ 122) ∨ c = '_' := by
  have hupper : c.isUpper = decide ('A'.val ≤ c.val ∧ c.val ≤ 'Z'.val) := rfl
  have hlower : c.isLower = (decide ('a'.val ≤ c.val) && decide (c.val ≤ 'z'.val)) := rfl
  simp only [isNameStart_eq, hupper, hlower, Bool.or_eq_true, Bool.and_eq_true, decide_eq_true_eq, beq_iff_eq,
    UInt32.le_iff_toNat_le, or_assoc]
  rfl

theorem isWordChar_of_isNameStart {c : Char} (h : isNameStart c = true) : isWordChar c = true := by
  simp only [isNameStart, isWordChar, Char.isAlphanum, Bool.or_eq_true] at h ⊢
  tauto

namespace Posture

/-- the posture behind a text with nothing after it -/
def after (p : Posture) : Text → Posture
  | [] => p
  | c :: rest => (p.advance c rest).2.after rest

theorem before_advance (p : Posture) (c : Char) (rest : Text) : (p.advance c rest).2.before = c :: p.before := by
  unfold advance
  split <;> try rfl
  split <;> try rfl
  split <;> try rfl
  split
  · rfl
  · split <;> try rfl
    split <;> rfl

theorem before_after (p : Posture) (t : Text) : (p.after t).before = t.reverse ++ p.before := by
  induction t generalizing p with
  | nil => rfl
  | cons c t ih =>
    rw [after, ih, before_advance]
    simp

/-- the posture with characters read before everything else -/
def below (p : Posture) (before : Text) : Posture := { p with before := p.before ++ before }

/-! ## Look-behind -/

/-- The characters that a quote may follow as a transpose are those that may end an operand. -/
theorem not_isWordChar_of_followsOperand {c : Char} {before : Text} (h : followsOperand (c :: before) = false) :
    isWordChar c = false ∧ c ≠ '.' := by
  simp only [followsOperand, Bool.or_eq_false_iff, beq_eq_false_iff_ne] at h
  exact ⟨h.1.1.1.1.1, h.1.1.1.1.2⟩

theorem followsOperand_append {before : Text} (h : followsOperand before = false) (u : Text) :
    followsOperand (u ++ before) = followsOperand u := by
  cases u with
  | nil => exact h
  | cons c u => rfl

theorem startsName_eq_false {before : Text} (h : followsOperand before = false) : startsName before = false := by
  cases before with
  | nil => rfl
  | cons c before =>
    have hc := (not_isWordChar_of_followsOperand h).1
    by_contra hs
    rw [isWordChar_of_isNameStart (by simpa [startsName] using hs)] at hc
    exact absurd hc (by decide)

theorem takeWhile_append_of_stop {p : Char → Bool} {before : Text} (h : ∀ c ∈ before.head?, p c = false) (u : Text) :
    (u ++ before).takeWhile p = u.takeWhile p ∧ (u ++ before).dropWhile p = u.dropWhile p ++ before := by
  induction u with
  | nil =>
    cases before with
    | nil => exact ⟨rfl, rfl⟩
    | cons c before =>
      have hc := h c rfl
      exact ⟨List.takeWhile_cons_of_neg (by simp [hc]), List.dropWhile_cons_of_neg (by simp [hc])⟩
  | cons c u ih =>
    rw [List.cons_append, List.takeWhile_cons, List.dropWhile_cons, List.takeWhile_cons, List.dropWhile_cons]
    split
    · exact ⟨by rw [ih.1], ih.2⟩
    · exact ⟨rfl, rfl⟩

theorem startsName_append {before : Text} (h : followsOperand before = false) (u : Text) :
    startsName (u ++ before) = startsName u := by
  cases u with
  | nil => exact startsName_eq_false h
  | cons c u => rfl

theorem endsNumeral_append {before : Text} (h : followsOperand before = false) (u : Text) :
    endsNumeral (u ++ before) = endsNumeral u := by
  have hstop : ∀ c ∈ before.head?, (c.isDigit || c == '.') = false := by
    intro c hc
    cases before with
    | nil => simp at hc
    | cons c' before =>
      obtain rfl : c' = c := by simpa using hc
      obtain ⟨hword, hdot⟩ := not_isWordChar_of_followsOperand h
      have hdigit : c'.isDigit = false := by
        by_contra hd
        rw [isWordChar_of_isDigit (by simpa using hd)] at hword
        exact absurd hword (by decide)
      simp [hdigit, hdot]
  have ⟨htake, hdrop⟩ := takeWhile_append_of_stop hstop u
  simp only [endsNumeral, htake, hdrop, startsName_append h]

theorem advance_below {before : Text} (h : followsOperand before = false) (p : Posture) (c : Char) (rest : Text) :
    (p.below before).advance c rest = ((p.advance c rest).1, (p.advance c rest).2.below before) := by
  obtain ⟨context, depth, u⟩ := p
  simp only [below, advance, followsOperand_append h, endsNumeral_append h]
  split <;> try rfl
  split <;> try rfl
  split <;> try rfl
  split
  · rfl
  · split <;> try rfl
    split <;> rfl

/-- Behind a character that ends no operand a text is read as on its own. -/
theorem cellsFrom_below {before : Text} (h : followsOperand before = false) (p : Posture) (t : Text) :
    cellsFrom (p.below before) t = cellsFrom p t := by
  induction t generalizing p with
  | nil => rfl
  | cons c rest ih =>
    simp only [cellsFrom, advance_below h]
    rw [ih]

theorem after_below {before : Text} (h : followsOperand before = false) (p : Posture) (t : Text) :
    (p.below before).after t = (p.after t).below before := by
  induction t generalizing p with
  | nil => rfl
  | cons c rest ih =>
    rw [after, advance_below h]
    exact ih _

theorem cellsFrom_behind {before : Text} (h : followsOperand before = false) (u t : Text) :
    cellsFrom ⟨.code, 0, u ++ before⟩ t = cellsFrom ⟨.code, 0, u⟩ t := cellsFrom_below h ⟨.code, 0, u⟩ t

/-! ## Look-ahead -/

/-- a character that completes neither the sign of an exponent nor, behind this text, an inverse marker -/
def Stops (c : Char) (t : Text) : Prop :=
  c ≠ '+' ∧ c ≠ '-' ∧ c.isDigit = false ∧ (c ∈ ['(', ')'] → c = ')' ∧ t ≠ ['(', '-', '1'])

theorem signsDigit_append {c : Char} {t : Text} (h : Stops c t) (rest : Text) :
    signsDigit (t ++ c :: rest) = signsDigit t := by
  obtain ⟨hplus, hminus, hdigit, -⟩ := h
  match t with
  | [] => cases rest <;> simp [signsDigit, hplus, hminus]
  | [a] => simp [signsDigit, hdigit]
  | a :: b :: t => rfl

theorem marker_append {c : Char} {t : Text} (h : Stops c t) (rest : Text) :
    ['(', '-', '1', ')'].isPrefixOf (t ++ c :: rest) = ['(', '-', '1', ')'].isPrefixOf t := by
  obtain ⟨-, hminus, hdigit, hparen⟩ := h
  have hone : c ≠ '1' := by
    rintro rfl
    exact absurd hdigit (by decide)
  have hopen : c ≠ '(' := by
    rintro rfl
    exact absurd (hparen (by decide)).1 (by decide)
  match t with
  | [] => simp [List.isPrefixOf, hopen.symm]
  | [a] => simp [List.isPrefixOf, hminus.symm]
  | [a, b] => simp [List.isPrefixOf, hone.symm]
  | [a, b, d] =>
    by_cases hclose : c = ')'
    · have hne := (hparen (by simp [hclose])).2
      simp only [List.cons_append, List.nil_append, List.isPrefixOf, Bool.and_false, Bool.and_eq_false_iff,
        beq_eq_false_iff_ne]
      by_contra hall
      simp only [not_or, not_not] at hall
      exact hne (by rw [← hall.1, ← hall.2.1, ← hall.2.2.1])
    · simp [List.isPrefixOf, Ne.symm hclose]
  | a :: b :: d :: e :: t => simp [List.isPrefixOf]

/-- A character has the role it has at the end of the text when what follows the text stops. -/
theorem advance_append {p : Posture} {c d : Char} {t : Text} (h : Stops d t) (rest : Text) :
    p.advance c (t ++ d :: rest) = p.advance c t := by
  simp only [advance, signsDigit_append h, marker_append h]

/-- A text is read before a character that stops all of it as it is read on its own. -/
theorem cellsFrom_append {d : Char} (h : ∀ u, Stops d u) (p : Posture) (t rest : Text) :
    cellsFrom p (t ++ d :: rest) = cellsFrom p t ++ cellsFrom (p.after t) (d :: rest) := by
  induction t generalizing p with
  | nil => rfl
  | cons c t ih =>
    rw [List.cons_append, cellsFrom, advance_append (h t), ih]
    rfl

theorem after_append {d : Char} (h : ∀ u, Stops d u) (p : Posture) (t rest : Text) :
    p.after (t ++ d :: rest) = (p.after t).after (d :: rest) := by
  induction t generalizing p with
  | nil => rfl
  | cons c t ih =>
    rw [List.cons_append, after, advance_append (h t), ih]
    rfl

/-- how many characters a marker or the sign of an exponent still takes -/
def pending (p : Posture) : Nat :=
  match p.context with
  | .marker n => n + 1
  | .exponent => 1
  | _ => 0

theorem pending_advance {p : Posture} {c : Char} {t : Text} (h : p.pending ≤ t.length + 1) :
    (p.advance c t).2.pending ≤ t.length := by
  obtain ⟨context, depth, u⟩ := p
  match context, depth with
  | .string quote, _ =>
    simp only [advance, pending]
    split_ifs <;> exact Nat.zero_le _
  | .marker 0, _ => exact Nat.zero_le _
  | .marker (n + 1), _ => exact Nat.le_of_succ_le_succ h
  | .exponent, _ => exact Nat.zero_le _
  | .code, depth + 1 =>
    simp only [advance]
    split_ifs <;> exact Nat.zero_le _
  | .code, 0 =>
    have hmarker : ['(', '-', '1', ')'].isPrefixOf t = true → 4 ≤ t.length := fun h =>
      (List.isPrefixOf_iff_prefix.1 h).length_le
    have hsigns : signsDigit t = true → 1 ≤ t.length := by
      intro h
      cases t with
      | nil => exact absurd h (by decide)
      | cons d t => exact Nat.succ_le_succ (Nat.zero_le _)
    simp only [advance]
    split_ifs with h₁ h₂ h₃ h₄
    · exact Nat.zero_le _
    · exact Nat.zero_le _
    · exact hmarker (Bool.and_eq_true_iff.1 h₃).2
    · exact hsigns (Bool.and_eq_true_iff.1 h₄).2
    · exact Nat.zero_le _

theorem pending_after {p : Posture} {t : Text} (h : p.pending ≤ t.length) : (p.after t).pending = 0 := by
  induction t generalizing p with
  | nil => exact Nat.le_zero.1 h
  | cons c t ih => exact ih (pending_advance h)

/-! ## Characters that stand for themselves -/

/-- a character that opens or closes a bracket literal or a string -/
def isEncloser (c : Char) : Bool := c == '[' || c == ']' || c == '{' || c == '}' || Quotation.isQuote c

theorem advance_live {c : Char} {u rest : Text} (h : isEncloser c = false)
    (hmarker : c = '^' → ['(', '-', '1', ')'].isPrefixOf rest = false)
    (hexponent : c = 'e' ∨ c = 'E' → endsNumeral u = false ∨ signsDigit rest = false) :
    advance ⟨.code, 0, u⟩ c rest = (.live, ⟨.code, 0, c :: u⟩) := by
  simp only [isEncloser, Quotation.isQuote, Bool.or_eq_false_iff, beq_eq_false_iff_ne] at h
  obtain ⟨⟨⟨⟨h₁, h₂⟩, h₃⟩, h₄⟩, h₅, h₆⟩ := h
  have hmark : (c == '^' && ['(', '-', '1', ')'].isPrefixOf rest) = false := by
    by_cases hc : c = '^'
    · rw [hmarker hc, Bool.and_false]
    · rw [beq_eq_false_iff_ne.2 hc, Bool.false_and]
  have hexp : ((c == 'e' || c == 'E') && endsNumeral u && signsDigit rest) = false := by
    by_contra hexp
    simp only [Bool.not_eq_false, Bool.and_eq_true, Bool.or_eq_true, beq_iff_eq] at hexp
    rcases hexponent hexp.1.1 with h | h
    · exact absurd (h.symm.trans hexp.1.2) (by decide)
    · exact absurd (h.symm.trans hexp.2) (by decide)
  have hquote : (c == '"' || (c == '\'' && !followsOperand u)) = false := by
    rw [beq_eq_false_iff_ne.2 h₆, beq_eq_false_iff_ne.2 h₅]
    rfl
  have hopen : (c == '[' || c == '{') = false := by
    rw [beq_eq_false_iff_ne.2 h₁, beq_eq_false_iff_ne.2 h₃]
    rfl
  simp only [advance, hquote, hopen, hmark, hexp, Bool.false_eq_true, if_false]

theorem cellsFrom_live {c : Char} {u rest : Text} (h : isEncloser c = false)
    (hmarker : c = '^' → ['(', '-', '1', ')'].isPrefixOf rest = false)
    (hexponent : c = 'e' ∨ c = 'E' → endsNumeral u = false ∨ signsDigit rest = false) :
    cellsFrom ⟨.code, 0, u⟩ (c :: rest) = ⟨c, .live⟩ :: cellsFrom ⟨.code, 0, c :: u⟩ rest := by
  rw [cellsFrom, advance_live h hmarker hexponent]

end Posture

/-! ## Closed texts -/

open Posture

/-- Strings and bracket literals are closed at the end of the text. -/
structure Closed (t : Text) : Prop where
  strings : (Posture.start.after t).context = .code
  brackets : (Posture.start.after t).depth = 0

instance (t : Text) : Decidable (Closed t) :=
  decidable_of_iff ((Posture.start.after t).context = .code ∧ (Posture.start.after t).depth = 0)
    ⟨fun ⟨strings, brackets⟩ => ⟨strings, brackets⟩, fun h => ⟨h.strings, h.brackets⟩⟩

theorem Closed.after_eq (h : Closed t) : Posture.start.after t = ⟨.code, 0, t.reverse⟩ := by
  have hbefore : (Posture.start.after t).before = t.reverse := by
    rw [before_after]
    exact List.append_nil _
  have hstrings := h.strings
  have hbrackets := h.brackets
  generalize Posture.start.after t = p at *
  obtain ⟨context, depth, before⟩ := p
  rw [Posture.mk.injEq]
  exact ⟨hstrings, hbrackets, hbefore⟩

/-! ## Reading whatever follows -/

/-- The text is read as these cells, whatever follows it, and leaves nothing open. -/
def Reads (t : Text) (cs : List Cell) : Prop :=
  ∀ rest, cells (t ++ rest) = cs ++ cellsFrom ⟨.code, 0, t.reverse⟩ rest

/-- characters that stand for themselves and end no operand -/
def separators : Text := [' ', '\t', ',', '(', '+', '-', '*', '/', '^']

theorem followsOperand_separator {c : Char} (hc : c ∈ separators) (u : Text) : followsOperand (c :: u) = false := by
  have hall : ∀ c ∈ separators, (isWordChar c || c == '.' || c == ')' || c == ']' || c == '}' || c == '\'') = false :=
    List.all_iff_forall_prop.1 (by decide)
  exact hall c hc

namespace Reads

variable {l r t : Text} {cs ds : List Cell} {c : Char}

theorem cells_eq (h : Reads t cs) : cells t = cs := by
  have := h []
  rw [List.append_nil] at this
  rw [this, cellsFrom, List.append_nil]

theorem nil : Reads [] [] := fun _ => rfl

theorem cells_append (hl : Reads l cs) (hc : c ∈ separators)
    (hmarker : c = '^' → ['(', '-', '1', ')'].isPrefixOf t = false) :
    cells (l ++ c :: t) = cs ++ ⟨c, .live⟩ :: cells t := by
  have hfollows := followsOperand_separator hc l.reverse
  have hencloser : isEncloser c = false ∧ c ≠ 'e' ∧ c ≠ 'E' := by
    have hall : ∀ c ∈ separators, isEncloser c = false ∧ c ≠ 'e' ∧ c ≠ 'E' :=
      List.all_iff_forall_prop.1 (by decide)
    exact hall c hc
  have hself : cellsFrom ⟨.code, 0, l.reverse⟩ (c :: t) = ⟨c, .live⟩ :: cellsFrom ⟨.code, 0, c :: l.reverse⟩ t :=
    cellsFrom_live hencloser.1 hmarker fun h => (h.elim hencloser.2.1 hencloser.2.2).elim
  have hright : cellsFrom ⟨.code, 0, c :: l.reverse⟩ t = cells t := cellsFrom_behind hfollows [] _
  rw [hl, hself, hright]

/-- Texts are read on their own on both sides of a separator. -/
theorem join (hl : Reads l cs) (hr : Reads r ds) (hc : c ∈ separators)
    (hmarker : c = '^' → ∀ rest, ['(', '-', '1', ')'].isPrefixOf (r ++ rest) = false) :
    Reads (l ++ c :: r) (cs ++ ⟨c, .live⟩ :: ds) := by
  intro rest
  have hfollows := followsOperand_separator hc l.reverse
  calc cells (l ++ c :: r ++ rest)
      = cells (l ++ c :: (r ++ rest)) := by rw [List.append_assoc, List.cons_append]
    _ = cs ++ ⟨c, .live⟩ :: (ds ++ cellsFrom ⟨.code, 0, r.reverse⟩ rest) := by
        rw [hl.cells_append hc fun h => hmarker h rest, hr]
    _ = cs ++ ⟨c, .live⟩ :: (ds ++ cellsFrom ⟨.code, 0, r.reverse ++ c :: l.reverse⟩ rest) := by
        rw [cellsFrom_behind hfollows r.reverse rest]
    _ = _ := by simp

theorem close (h : Reads t cs) : Reads (t ++ [')']) (cs ++ [⟨')', .live⟩]) := by
  intro rest
  have hself : cellsFrom ⟨.code, 0, t.reverse⟩ (')' :: rest) = ⟨')', .live⟩ ::
      cellsFrom ⟨.code, 0, ')' :: t.reverse⟩ rest :=
    cellsFrom_live (by decide) (fun h => absurd h (by decide)) fun h => absurd h (by decide)
  calc cells (t ++ [')'] ++ rest)
      = cs ++ cellsFrom ⟨.code, 0, t.reverse⟩ (')' :: rest) := by rw [← h]; simp
    _ = _ := by rw [hself]; simp

end Reads

end MissionScript
