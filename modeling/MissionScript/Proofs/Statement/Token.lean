/-
The tokens of a declaration.

- `Spells`: how a text spells tokens. Spaces and tabs may stand anywhere between two of them, and have to where the second
  would otherwise continue the first.
- `tokens_eq_iff`: the tokens of a text are the ones it spells.
- `Spells.trim`: blanks at the ends of a text do not matter.
- `denotes_iff`: digits denote a number when they are its decimal digits behind any zeros, which is the value read off them.
-/
import MissionScript.Proofs.Cell.Part
import MissionScript.Proofs.Lexeme.Numeral
import MissionScript.Statement.Declaration

namespace MissionScript.Declaration

variable {t b d rest : Text} {token : Token} {ts : List Token} {n : Nat}

/-! ## Spelling -/

namespace Token

def text : Token → Text
  | .word w => w
  | .digits d => d
  | .mark c => [c]

/-- words are identifiers, digits are digits, and a mark is what neither begins with -/
def WellFormed : Token → Prop
  | .word w => IsIdentifier w
  | .digits d => d ≠ [] ∧ IsDigits d
  | .mark c => (c ≠ ' ' ∧ c ≠ '\t') ∧ isNameStart c = false ∧ c.isDigit = false

/-- the token ends where a text goes on like this -/
def Stops : Token → Text → Prop
  | .word _, rest => ∀ c ∈ rest.head?, isWordChar c = false
  | .digits _, rest => ∀ c ∈ rest.head?, c.isDigit = false
  | .mark _, _ => True

end Token

/-- the text is the tokens, with spaces and tabs between them -/
inductive Spells : List Token → Text → Prop where
  | nil {b : Text} : Gap b → Spells [] b
  | cons {b rest : Text} {token : Token} {ts : List Token} : Gap b → token.WellFormed → token.Stops rest →
      Spells ts rest → Spells (token :: ts) (b ++ (token.text ++ rest))

theorem Spells.exists_of_cons (h : Spells (token :: ts) t) : ∃ b rest, Gap b ∧ token.WellFormed ∧ token.Stops rest ∧
    Spells ts rest ∧ t = b ++ (token.text ++ rest) := by
  cases h with
  | cons hb hform hstop hrest => exact ⟨_, _, hb, hform, hstop, hrest, rfl⟩

theorem tokens_gap (hb : Gap b) (t : Text) : tokens (b ++ t) = tokens t := by
  induction b with
  | nil => rfl
  | cons c b ih =>
    have hc : (c == ' ' || c == '\t') = true := by
      simpa using hb c List.mem_cons_self
    rw [List.cons_append, tokens, if_pos hc]
    exact ih fun x hx => hb x (List.mem_cons_of_mem _ hx)

/-- A name does not begin with a space or a tab, and digits do not begin like a name. -/
theorem not_gap_of_isWordChar {c : Char} (h : isWordChar c = true) : (c == ' ' || c == '\t') = false := by
  by_contra hgap
  have hblank : c = ' ' ∨ c = '\t' := by simpa only [Bool.not_eq_false, Bool.or_eq_true, beq_iff_eq] using hgap
  rcases hblank with rfl | rfl <;> exact absurd h (by decide)

theorem not_isNameStart_of_isDigit {c : Char} (h : c.isDigit = true) : isNameStart c = false := by
  have hbounds : 48 ≤ c.val.toNat ∧ c.val.toNat ≤ 57 := Char.isDigit_iff_toNat.1 h
  by_contra hstart
  rcases isNameStart_iff.1 (by simpa using hstart) with hrange | hrange | rfl
  · omega
  · omega
  · exact absurd hbounds (by decide)

/-- A token is read up to where it stops. -/
theorem tokens_token (hform : token.WellFormed) (hstop : token.Stops rest) :
    tokens (token.text ++ rest) = token :: tokens rest := by
  cases token with
  | word w =>
    obtain ⟨hstart, hword⟩ := hform
    obtain ⟨c, w, rfl⟩ := List.exists_cons_of_ne_nil (l := w) (fun hnil => by simp [hnil, startsName] at hstart)
    have hc : isNameStart c = true := hstart
    have hgap := not_gap_of_isWordChar (hword c List.mem_cons_self)
    have hrest : ∀ x ∈ w, isWordChar x = true := fun x hx => hword x (List.mem_cons_of_mem _ hx)
    obtain ⟨htake, hdrop⟩ := Posture.takeWhile_append_of_stop (p := isWordChar) hstop w
    rw [List.takeWhile_eq_self_iff.2 hrest] at htake
    rw [List.dropWhile_eq_nil_iff.2 hrest, List.nil_append] at hdrop
    rw [Token.text, List.cons_append, tokens, hgap, if_neg Bool.false_ne_true, if_pos hc, htake, hdrop]
  | digits d =>
    obtain ⟨hne, hdigits⟩ := hform
    obtain ⟨c, d, rfl⟩ := List.exists_cons_of_ne_nil hne
    have hc : c.isDigit = true := hdigits c List.mem_cons_self
    have hgap := not_gap_of_isWordChar (isWordChar_of_isDigit hc)
    have hrest : ∀ x ∈ d, x.isDigit = true := fun x hx => hdigits x (List.mem_cons_of_mem _ hx)
    obtain ⟨htake, hdrop⟩ := Posture.takeWhile_append_of_stop (p := Char.isDigit) hstop d
    rw [List.takeWhile_eq_self_iff.2 hrest] at htake
    rw [List.dropWhile_eq_nil_iff.2 hrest, List.nil_append] at hdrop
    rw [Token.text, List.cons_append, tokens, hgap, if_neg Bool.false_ne_true, not_isNameStart_of_isDigit hc,
      if_neg Bool.false_ne_true, if_pos hc, htake, hdrop]
  | mark c =>
    obtain ⟨⟨hspace, htab⟩, hstart, hdigit⟩ := hform
    rw [Token.text, List.singleton_append, tokens, beq_false_of_ne hspace, beq_false_of_ne htab, Bool.or_self,
      if_neg Bool.false_ne_true, hstart, if_neg Bool.false_ne_true, hdigit, if_neg Bool.false_ne_true]

theorem Spells.tokens_eq (h : Spells ts t) : tokens t = ts := by
  induction h with
  | @nil b hb =>
    rw [← List.append_nil b, tokens_gap hb, tokens]
  | cons hb hform hstop hrest ih => rw [tokens_gap hb, tokens_token hform hstop, ih]

theorem Spells.wellFormed (h : Spells ts t) : ∀ token ∈ ts, token.WellFormed := by
  induction h with
  | nil hb => exact fun _ hmem => absurd hmem List.not_mem_nil
  | cons hb hform hstop hrest ih =>
    intro x hx
    rcases List.mem_cons.1 hx with rfl | hx
    · exact hform
    · exact ih x hx

theorem Spells.gap_append (hb : Gap b) (h : Spells ts t) : Spells ts (b ++ t) := by
  cases h with
  | nil hb' =>
    refine .nil fun c hc => ?_
    rcases List.mem_append.1 hc with hc | hc
    · exact hb c hc
    · exact hb' c hc
  | cons hb' hform hstop hrest =>
    rw [← List.append_assoc]
    refine .cons (fun c hc => ?_) hform hstop hrest
    rcases List.mem_append.1 hc with hc | hc
    · exact hb c hc
    · exact hb' c hc

theorem spells_tokens (t : Text) : Spells (tokens t) t := by
  -- every token is the longest of its kind
  have hstop : ∀ (p : Char → Bool) (l : Text), ∀ c ∈ (l.dropWhile p).head?, p c = false := by
    intro p l c hc
    have hhead := List.head?_dropWhile_not p l
    rw [hc] at hhead
    simpa using hhead
  induction t using tokens.induct with
  | case1 =>
    rw [tokens]
    exact .nil Gap.nil
  | case2 c rest hgap ih =>
    rw [tokens, if_pos hgap]
    have hc : c = ' ' ∨ c = '\t' := by simpa using hgap
    exact ih.gap_append (b := [c]) (by simpa [Gap] using hc)
  | case3 c rest hgap hstart ih =>
    rw [tokens, if_neg hgap, if_pos hstart]
    have hform : (Token.word (c :: rest.takeWhile isWordChar)).WellFormed := by
      refine ⟨hstart, fun x hx => ?_⟩
      rcases List.mem_cons.1 hx with rfl | hx
      · exact isWordChar_of_isNameStart hstart
      · exact List.all_eq_true.1 List.all_takeWhile x hx
    have hspells := Spells.cons Gap.nil hform (hstop isWordChar rest) ih
    rwa [Token.text, List.nil_append, List.cons_append, List.takeWhile_append_dropWhile] at hspells
  | case4 c rest hgap hstart hdigit ih =>
    rw [tokens, if_neg hgap, if_neg hstart, if_pos hdigit]
    have hform : (Token.digits (c :: rest.takeWhile Char.isDigit)).WellFormed := by
      refine ⟨by simp, fun x hx => ?_⟩
      rcases List.mem_cons.1 hx with rfl | hx
      · exact hdigit
      · exact List.all_eq_true.1 List.all_takeWhile x hx
    have hspells := Spells.cons Gap.nil hform (hstop Char.isDigit rest) ih
    rwa [Token.text, List.nil_append, List.cons_append, List.takeWhile_append_dropWhile] at hspells
  | case5 c rest hgap hstart hdigit ih =>
    rw [tokens, if_neg hgap, if_neg hstart, if_neg hdigit]
    have hform : (Token.mark c).WellFormed := by
      refine ⟨?_, by simpa using hstart, by simpa using hdigit⟩
      simpa using hgap
    exact .cons (b := []) Gap.nil hform trivial ih

/-- The tokens of a text are the ones it spells. -/
theorem tokens_eq_iff : tokens t = ts ↔ Spells ts t := by
  constructor
  · rintro rfl
    exact spells_tokens t
  · exact Spells.tokens_eq

/-! ## Blanks at the ends -/

/-- the token begins and ends visibly -/
def Token.Visible (token : Token) : Prop := ∀ c ∈ token.text, isBlank c = false

theorem Token.WellFormed.ne_nil (h : token.WellFormed) : token.text ≠ [] := by
  cases token with
  | word w =>
    rintro rfl
    exact absurd h.startsName (by decide)
  | digits d => exact h.1
  | mark c => exact List.cons_ne_nil _ _

theorem Token.Stops.trimEnd (h : token.Stops rest) : token.Stops (Text.trimEnd rest) := by
  have hhead : ∀ c ∈ (Text.trimEnd rest).head?, c ∈ rest.head? := by
    intro c hc
    obtain ⟨b, -, hrest⟩ := Text.exists_eq_trimEnd_append rest
    rw [hrest, List.head?_append, hc]
    rfl
  cases token with
  | word w => exact fun c hc => h c (hhead c hc)
  | digits d => exact fun c hc => h c (hhead c hc)
  | mark c => trivial

theorem Spells.trimEnd (h : Spells ts t) (hvisible : ∀ token ∈ ts, token.Visible) : Spells ts (Text.trimEnd t) := by
  induction h with
  | nil hb =>
    have hnil := Text.trimEnd_append hb.blank []
    rw [List.nil_append] at hnil
    rw [hnil]
    exact .nil Gap.nil
  | @cons b rest token ts hb hform hstop hrest ih =>
    have hwhole : Text.trimEnd (b ++ (token.text ++ rest)) = b ++ (token.text ++ Text.trimEnd rest) := by
      have hlast : ∀ c ∈ (b ++ token.text).getLast?, isBlank c = false := by
        intro c hc
        rw [List.getLast?_append_of_ne_nil _ hform.ne_nil] at hc
        exact hvisible token List.mem_cons_self c (List.mem_of_mem_getLast? hc)
      rw [← List.append_assoc, Text.trimEnd_append_left hlast, List.append_assoc]
    rw [hwhole]
    exact .cons hb hform hstop.trimEnd (ih fun x hx => hvisible x (List.mem_cons_of_mem _ hx))

theorem Spells.trim (h : Spells ts t) (hvisible : ∀ token ∈ ts, token.Visible) : Spells ts (Text.trim t) := by
  have hstart : Spells ts (Text.trimStart t) := by
    cases h with
    | nil hb =>
      rw [Text.trimStart_eq_nil hb.blank]
      exact .nil Gap.nil
    | @cons b rest token ts hb hform hstop hrest =>
      have hhead : ∀ c ∈ (token.text ++ rest).head?, isBlank c = false := by
        intro c hc
        rw [List.head?_append_of_ne_nil _ hform.ne_nil] at hc
        exact hvisible token List.mem_cons_self c (List.mem_of_mem_head? hc)
      rw [Text.trimStart_append hb.blank, Text.trimStart_eq_self hhead]
      exact .cons (b := []) Gap.nil hform hstop hrest
  exact hstart.trimEnd hvisible

/-! ## Values -/

/-- the digits are those of the number behind any zeros -/
def Denotes (d : Text) (n : Nat) : Prop := ∃ zeros, d = List.replicate zeros '0' ++ Nat.toDigits 10 n

theorem decimalValue_eq_ofDigitChars (d : Text) : decimalValue d = Nat.ofDigitChars 10 d 0 := rfl

theorem decimalValue_concat (d : Text) (c : Char) :
    decimalValue (d ++ [c]) = 10 * decimalValue d + (c.toNat - '0'.toNat) := by
  rw [decimalValue, List.foldl_append]
  rfl

theorem Denotes.decimalValue_eq (h : Denotes d n) : decimalValue d = n := by
  obtain ⟨zeros, rfl⟩ := h
  have hzeros : Nat.ofDigitChars 10 (List.replicate zeros '0') 0 = 0 := by
    induction zeros with
    | zero => rfl
    | succ zeros ih =>
      rw [List.replicate_succ, Nat.ofDigitChars_cons]
      exact ih
  rw [decimalValue_eq_ofDigitChars, Nat.ofDigitChars_append, hzeros, Nat.ofDigitChars_toDigits (by decide) (by decide)]

theorem Denotes.isDigits (h : Denotes d n) : d ≠ [] ∧ IsDigits d := by
  obtain ⟨zeros, rfl⟩ := h
  refine ⟨by simp [Nat.toDigits_ne_nil], fun c hc => ?_⟩
  rcases List.mem_append.1 hc with hc | hc
  · rw [List.eq_of_mem_replicate hc]
    rfl
  · exact Nat.isDigit_of_mem_toDigits (by decide) (by decide) hc

theorem digitValue_lt {c : Char} (hc : c.isDigit = true) : c.toNat - '0'.toNat < 10 := by
  have hbounds : 48 ≤ c.toNat ∧ c.toNat ≤ 57 := Char.isDigit_iff_toNat.1 hc
  have hzero : '0'.toNat = 48 := rfl
  omega

theorem toDigits_digitValue {c : Char} (hc : c.isDigit = true) : Nat.toDigits 10 (c.toNat - '0'.toNat) = [c] := by
  have hbounds : 48 ≤ c.toNat ∧ c.toNat ≤ 57 := Char.isDigit_iff_toNat.1 hc
  have hzero : '0'.toNat = 48 := rfl
  have hchar : Nat.digitChar (c.toNat - '0'.toNat) = c := by
    apply Char.toNat_inj.1
    rw [Nat.toNat_digitChar_of_lt_ten (digitValue_lt hc)]
    omega
  rw [Nat.toDigits_of_lt_base (digitValue_lt hc), hchar]

/-- One digit more denotes ten times the number and the digit. -/
theorem Denotes.concat {c : Char} (h : Denotes d n) (hc : c.isDigit = true) :
    Denotes (d ++ [c]) (10 * n + (c.toNat - '0'.toNat)) := by
  obtain ⟨zeros, rfl⟩ := h
  rw [← toDigits_digitValue hc]
  rcases Nat.eq_zero_or_pos n with rfl | hpos
  · refine ⟨zeros + 1, ?_⟩
    rw [Nat.mul_zero, Nat.zero_add, List.replicate_succ']
    rfl
  · refine ⟨zeros, ?_⟩
    rw [List.append_assoc, Nat.toDigits_append_toDigits (by decide) hpos (digitValue_lt hc)]

/-- Digits denote exactly one number, which is the value read off them. -/
theorem denotes_iff : Denotes d n ↔ (d ≠ [] ∧ IsDigits d) ∧ decimalValue d = n := by
  constructor
  · exact fun h => ⟨h.isDigits, h.decimalValue_eq⟩
  · rintro ⟨⟨hne, hdigits⟩, rfl⟩
    induction d using List.reverseRecOn with
    | nil => exact absurd rfl hne
    | append_singleton d c ih =>
      have hc : c.isDigit = true := hdigits c (by simp)
      rw [decimalValue_concat]
      by_cases hd : d = []
      · subst hd
        refine ⟨0, ?_⟩
        rw [show decimalValue [] = 0 from rfl, Nat.mul_zero, Nat.zero_add, toDigits_digitValue hc]
        rfl
      · exact (ih hd fun x hx => hdigits x (List.mem_append_left _ hx)).concat hc

end MissionScript.Declaration
