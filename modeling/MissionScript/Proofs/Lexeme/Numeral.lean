/-
Which texts are numerals.

`IsNumeral` writes the form of unsigned numerals out. `span_of_isNumeral` and `isNumeral_of_span` say that it is the
form that is recognised, `span_of_stop` that it is in front of whatever does not make it longer, and `isNumeral_iff` adds
the sign and the blanks around.
-/
import MissionScript.Lexeme.Numeral
import MissionScript.Proofs.Text.Trim

namespace MissionScript

def IsDigits (t : Text) : Prop := ∀ c ∈ t, c.isDigit = true

/-- digits with at most one point among them, and at least one digit -/
inductive IsMantissa : Text → Prop where
  | whole {whole : Text} : whole ≠ [] → IsDigits whole → IsMantissa whole
  | point {whole fraction : Text} : whole ≠ [] → IsDigits whole → IsDigits fraction →
      IsMantissa (whole ++ '.' :: fraction)
  | fraction {fraction : Text} : fraction ≠ [] → IsDigits fraction → IsMantissa ('.' :: fraction)

/-- an exponent, which may be missing -/
inductive IsExponent : Text → Prop where
  | none : IsExponent []
  | unsigned {e : Char} {digits : Text} : e = 'e' ∨ e = 'E' → digits ≠ [] → IsDigits digits → IsExponent (e :: digits)
  | signed {e sign : Char} {digits : Text} : e = 'e' ∨ e = 'E' → sign = '+' ∨ sign = '-' → digits ≠ [] →
      IsDigits digits → IsExponent (e :: sign :: digits)

/-- an unsigned numeral, with or without an exponent -/
def IsNumeral (t : Text) : Prop :=
  ∃ mantissa exponent, IsMantissa mantissa ∧ IsExponent exponent ∧ t = mantissa ++ exponent

namespace Numeral

/-! ## Digits -/

theorem spanDigits_of_stop {ds rest : Text} (h : IsDigits ds) (hstop : ∀ c ∈ rest.head?, c.isDigit = false) :
    spanDigits (ds ++ rest) = (ds, rest) := by
  have hrest : rest.takeWhile Char.isDigit = [] ∧ rest.dropWhile Char.isDigit = rest := by
    cases rest with
    | nil => exact ⟨rfl, rfl⟩
    | cons c rest =>
      have hc := hstop c rfl
      exact ⟨List.takeWhile_cons_of_neg (by simp [hc]), List.dropWhile_cons_of_neg (by simp [hc])⟩
  rw [spanDigits, List.takeWhile_append_of_pos h, List.dropWhile_append_of_pos h, hrest.1, hrest.2, List.append_nil]

theorem isDigits_spanDigits (t : Text) : IsDigits (spanDigits t).1 :=
  fun c hc => List.all_eq_true.1 List.all_takeWhile c hc

/-! ## Recognition -/

theorem spanMantissa_of_isMantissa {m rest : Text} (h : IsMantissa m) (hdigit : ∀ c ∈ rest.head?, c.isDigit = false)
    (hpoint : rest.head? ≠ some '.') : spanMantissa (m ++ rest) = some (m, rest) := by
  cases h with
  | whole hne hdigits =>
    have hspan := spanDigits_of_stop hdigits hdigit
    unfold spanMantissa
    rw [hspan]
    cases m with
    | nil => exact absurd rfl hne
    | cons c m =>
      cases rest with
      | nil => rfl
      | cons x rest =>
        split <;> simp_all
  | point hne hwhole hfraction =>
    next whole fraction =>
    have hspan : spanDigits (whole ++ '.' :: fraction ++ rest) = (whole, '.' :: (fraction ++ rest)) := by
      rw [List.append_assoc]
      exact spanDigits_of_stop hwhole (by simp)
    have hrest := spanDigits_of_stop hfraction hdigit
    unfold spanMantissa
    rw [hspan]
    cases whole with
    | nil => exact absurd rfl hne
    | cons c whole => simp [hrest]
  | fraction hne hfraction =>
    next fraction =>
    have hnone : IsDigits [] := by simp [IsDigits]
    have hspan : spanDigits ('.' :: fraction ++ rest) = ([], '.' :: (fraction ++ rest)) :=
      spanDigits_of_stop hnone (by simp)
    have hrest := spanDigits_of_stop hfraction hdigit
    unfold spanMantissa
    rw [hspan]
    simp [hrest, hne]

theorem not_isDigit_of_not_isWordChar {c : Char} (h : isWordChar c = false) : c.isDigit = false := by
  simp only [isWordChar, Char.isAlphanum, Bool.or_eq_false_iff] at h
  exact h.1.2

theorem spanExponent_of_stop {x rest : Text} (h : IsExponent x) (hstop : ∀ c ∈ rest.head?, isWordChar c = false) :
    spanExponent (x ++ rest) = (x, rest) := by
  have hdigit : ∀ c ∈ rest.head?, c.isDigit = false := fun c hc => not_isDigit_of_not_isWordChar (hstop c hc)
  cases h with
  | none =>
    cases rest with
    | nil => rfl
    | cons c rest =>
      have hletter : (c == 'e' || c == 'E') = false := by
        have hword := hstop c rfl
        by_contra hletter
        simp only [Bool.not_eq_false, Bool.or_eq_true, beq_iff_eq] at hletter
        rcases hletter with rfl | rfl <;> exact absurd hword (by decide)
      simp [spanExponent, hletter]
  | unsigned he hne hdigits =>
    next e digits =>
    have hsign : spanSign (digits ++ rest) = ([], digits ++ rest) := by
      cases digits with
      | nil => exact absurd rfl hne
      | cons d digits =>
        have hd := hdigits d List.mem_cons_self
        unfold spanSign
        split
        · next h => rw [(List.cons.inj h).1] at hd; exact absurd hd (by decide)
        · next h => rw [(List.cons.inj h).1] at hd; exact absurd hd (by decide)
        · rfl
    rcases he with rfl | rfl <;> simp [spanExponent, hsign, spanDigits_of_stop hdigits hdigit, hne]
  | signed he hsign hne hdigits =>
    rcases he with rfl | rfl <;> rcases hsign with rfl | rfl <;>
      simp [spanExponent, spanSign, spanDigits_of_stop hdigits hdigit, hne]

/-- A numeral is recognised in front of whatever does not go on with a word or a point. -/
theorem span_of_stop {t rest : Text} (h : IsNumeral t) (hstop : ∀ c ∈ rest.head?, isWordChar c = false ∧ c ≠ '.') :
    span (t ++ rest) = some (t, rest) := by
  obtain ⟨m, x, hm, hx, rfl⟩ := h
  have hnext : ∀ c ∈ (x ++ rest).head?, c.isDigit = false ∧ c ≠ '.' := by
    intro c hc
    cases hx with
    | none =>
      obtain ⟨hword, hdot⟩ := hstop c hc
      exact ⟨not_isDigit_of_not_isWordChar hword, hdot⟩
    | unsigned he =>
      obtain rfl := Option.some.inj hc
      rcases he with rfl | rfl <;> decide
    | signed he =>
      obtain rfl := Option.some.inj hc
      rcases he with rfl | rfl <;> decide
  have hmantissa := spanMantissa_of_isMantissa hm (fun c hc => (hnext c hc).1) fun hdot => (hnext _ hdot).2 rfl
  rw [List.append_assoc, span, hmantissa]
  simp [spanExponent_of_stop hx fun c hc => (hstop c hc).1]

theorem span_of_isNumeral {t : Text} (h : IsNumeral t) : span t = some (t, []) := by
  have hspan : span (t ++ []) = some (t, []) := span_of_stop h (by simp)
  rwa [List.append_nil] at hspan

theorem isMantissa_of_spanMantissa {t m rest : Text} (h : spanMantissa t = some (m, rest)) : IsMantissa m := by
  have hwhole := isDigits_spanDigits t
  unfold spanMantissa at h
  split at h
  · next tail heq =>
    split at h
    · simp at h
    · next hne =>
      obtain ⟨rfl, rfl⟩ : '.' :: (spanDigits tail).1 = m ∧ (spanDigits tail).2 = rest := by simpa using h
      exact .fraction (by simpa using hne) (isDigits_spanDigits tail)
  · simp at h
  · next digits tail hne heq =>
    obtain ⟨rfl, rfl⟩ : digits ++ '.' :: (spanDigits tail).1 = m ∧ (spanDigits tail).2 = rest := by simpa using h
    rw [heq] at hwhole
    exact .point hne hwhole (isDigits_spanDigits tail)
  · next digits tail _ hne _ heq =>
    obtain ⟨rfl, rfl⟩ : digits = m ∧ tail = rest := by simpa using h
    rw [heq] at hwhole
    exact .whole hne hwhole

theorem isExponent_spanExponent (t : Text) : IsExponent (spanExponent t).1 := by
  cases t with
  | nil => exact .none
  | cons e rest =>
    simp only [spanExponent]
    split
    · next h =>
      simp only [Bool.and_eq_true, Bool.or_eq_true, beq_iff_eq, Bool.not_eq_true', List.isEmpty_eq_false_iff] at h
      have hdigits := isDigits_spanDigits (spanSign rest).2
      have hsign : (spanSign rest).1 = [] ∨ (spanSign rest).1 = ['+'] ∨ (spanSign rest).1 = ['-'] := by
        unfold spanSign
        split <;> simp
      rcases hsign with hs | hs | hs <;> rw [hs]
      · exact .unsigned h.1 h.2 hdigits
      · exact .signed h.1 (.inl rfl) h.2 hdigits
      · exact .signed h.1 (.inr rfl) h.2 hdigits
    · exact .none

theorem isNumeral_of_span {t numeral rest : Text} (h : span t = some (numeral, rest)) : IsNumeral numeral := by
  obtain ⟨⟨mantissa, tail⟩, hm, heq⟩ := Option.map_eq_some_iff.1 h
  obtain ⟨rfl, rfl⟩ : mantissa ++ (spanExponent tail).1 = numeral ∧ (spanExponent tail).2 = rest := by simpa using heq
  exact ⟨mantissa, _, isMantissa_of_spanMantissa hm, isExponent_spanExponent tail, rfl⟩

/-! ## What numerals consist of -/

theorem mantissa_char {m : Text} (h : IsMantissa m) : ∀ c ∈ m, c.isDigit = true ∨ c = '.' := by
  intro c hc
  cases h with
  | whole _ hdigits => exact .inl (hdigits c hc)
  | point _ hwhole hfraction =>
    rcases List.mem_append.1 hc with hc | hc
    · exact .inl (hwhole c hc)
    · rcases List.mem_cons.1 hc with rfl | hc
      · exact .inr rfl
      · exact .inl (hfraction c hc)
  | fraction _ hfraction =>
    rcases List.mem_cons.1 hc with rfl | hc
    · exact .inr rfl
    · exact .inl (hfraction c hc)

theorem exists_digit_of_isMantissa {m : Text} (h : IsMantissa m) : ∃ c ∈ m, c.isDigit = true := by
  have key : ∀ ds : Text, ds ≠ [] → IsDigits ds → ∃ c ∈ ds, c.isDigit = true := by
    intro ds hne hdigits
    obtain ⟨c, ds, rfl⟩ := List.exists_cons_of_ne_nil hne
    exact ⟨c, List.mem_cons_self, hdigits c List.mem_cons_self⟩
  cases h with
  | whole hne hdigits => exact key _ hne hdigits
  | point hne hwhole _ =>
    obtain ⟨c, hc, hdigit⟩ := key _ hne hwhole
    exact ⟨c, List.mem_append_left _ hc, hdigit⟩
  | fraction hne hfraction =>
    obtain ⟨c, hc, hdigit⟩ := key _ hne hfraction
    exact ⟨c, List.mem_cons_of_mem _ hc, hdigit⟩

/-- Where no numeral begins there is no digit. -/
theorem not_isDigit_of_span {c : Char} {rest : Text} (h : span (c :: rest) = none) : c.isDigit = false := by
  by_contra hdigit
  have hdigits : spanDigits (c :: rest) = (c :: (spanDigits rest).1, (spanDigits rest).2) := by
    rw [Bool.not_eq_false] at hdigit
    simp [spanDigits, hdigit]
  rw [span, Option.map_eq_none_iff, spanMantissa, hdigits] at h
  split at h <;> simp_all

/-- All characters of a numeral may stand in a reference, but for the sign of its exponent, behind which a digit stands. -/
theorem isNumeral_cases {n : Text} (h : IsNumeral n) :
    (∀ c ∈ n, isWordChar c = true ∨ c = '.') ∨
      ∃ l sign d r, n = l ++ sign :: d :: r ∧ (sign = '+' ∨ sign = '-') ∧ d.isDigit = true ∧
        (∀ c ∈ l, isWordChar c = true ∨ c = '.') ∧ ∀ c ∈ d :: r, isWordChar c = true ∨ c = '.' := by
  obtain ⟨m, x, hm, hx, rfl⟩ := h
  have hdigit : ∀ c : Char, c.isDigit = true → isWordChar c = true ∨ c = '.' := by
    intro c hc
    exact .inl (by simp [isWordChar, Char.isAlphanum, hc])
  have hletter : ∀ e : Char, e = 'e' ∨ e = 'E' → isWordChar e = true ∨ e = '.' := by
    rintro e (rfl | rfl) <;> decide
  have hmantissa : ∀ c ∈ m, isWordChar c = true ∨ c = '.' := by
    intro c hc
    rcases mantissa_char hm c hc with hc | hc
    · exact hdigit c hc
    · exact .inr hc
  cases hx with
  | none => exact .inl (by simpa using hmantissa)
  | @unsigned e ds he _ hds =>
    left
    intro c hc
    rcases List.mem_append.1 hc with hc | hc
    · exact hmantissa c hc
    · rcases List.mem_cons.1 hc with rfl | hc
      · exact hletter c he
      · exact hdigit c (hds c hc)
  | @signed e sign ds he hsign hne hds =>
    right
    obtain ⟨d, r, rfl⟩ := List.exists_cons_of_ne_nil hne
    refine ⟨m ++ [e], sign, d, r, by simp, hsign, hds d List.mem_cons_self, fun c hc => ?_, fun c hc => hdigit c (hds c hc)⟩
    rcases List.mem_append.1 hc with hc | hc
    · exact hmantissa c hc
    · exact hletter c (List.mem_singleton.1 hc ▸ he)

/-- A character of a numeral may stand in a reference, or is a sign. -/
theorem char_of_isNumeral {n : Text} (h : IsNumeral n) : ∀ c ∈ n, (isWordChar c = true ∨ c = '.') ∨ c = '+' ∨ c = '-' := by
  rcases isNumeral_cases h with hall | ⟨l, sign, d, r, rfl, hsign, -, hl, hr⟩
  · exact fun c hc => .inl (hall c hc)
  · intro c hc
    rcases List.mem_append.1 hc with hc | hc
    · exact .inl (hl c hc)
    · rcases List.mem_cons.1 hc with rfl | hc
      · exact .inr hsign
      · exact .inl (hr c hc)

/-- Of two neighbours in a numeral the first may stand in a reference, or the second is a digit. -/
theorem neighbours_of_isNumeral {l r : Text} {c d : Char} (h : IsNumeral (l ++ c :: d :: r)) :
    (isWordChar c = true ∨ c = '.') ∨ d.isDigit = true := by
  have hplain : ∀ u : Text, (∀ c ∈ u, isWordChar c = true ∨ c = '.') →
      u.IsChain fun c d => (isWordChar c = true ∨ c = '.') ∨ d.isDigit = true := by
    intro u hu
    refine List.isChain_iff_forall_rel_of_append_cons_cons.2 fun c d u₁ u₂ heq => .inl (hu c ?_)
    simp [heq]
  have hchain : (l ++ c :: d :: r).IsChain fun c d => (isWordChar c = true ∨ c = '.') ∨ d.isDigit = true := by
    rcases isNumeral_cases h with hall | ⟨l', sign, e, r', heq, -, hdigit, hl', hr'⟩
    · exact hplain _ hall
    · rw [heq]
      refine List.isChain_append.2 ⟨hplain l' hl', .cons_cons (.inr hdigit) (hplain _ hr'), fun c hc d _ => ?_⟩
      exact .inl (hl' c (List.mem_of_getLast? hc))
  exact (List.isChain_append_cons_cons.1 hchain).2.1

theorem last_of_isNumeral {n : Text} (h : IsNumeral n) : ∀ c ∈ n.getLast?, isWordChar c = true ∨ c = '.' := by
  intro c hc
  rcases isNumeral_cases h with hall | ⟨l, sign, d, r, rfl, -, -, -, hr⟩
  · exact hall c (List.mem_of_getLast? hc)
  · have hlast : (l ++ [sign] ++ d :: r).getLast? = (d :: r).getLast? := List.getLast?_append_of_ne_nil _ (by simp)
    rw [← List.append_cons] at hlast
    exact hr c (List.mem_of_getLast? (hlast ▸ hc))

theorem head_of_isNumeral {c : Char} {t : Text} (h : IsNumeral (c :: t)) : c.isDigit = true ∨ c = '.' := by
  obtain ⟨m, x, hm, -, heq⟩ := h
  have hmem : c ∈ m := by
    cases m with
    | nil =>
      obtain ⟨d, hd, -⟩ := exists_digit_of_isMantissa hm
      simp at hd
    | cons d m =>
      obtain ⟨rfl, -⟩ := List.cons.inj heq
      exact List.mem_cons_self
  exact mantissa_char hm c hmem

theorem not_sign_of_isNumeral {c : Char} {t : Text} (h : IsNumeral (c :: t)) : c ≠ '+' ∧ c ≠ '-' := by
  rcases head_of_isNumeral h with h | rfl
  · constructor <;> rintro rfl <;> exact absurd h (by decide)
  · decide

/-- The numeral recognised at the start of a text is all of it when the text has the form of one. -/
theorem isNumeral_iff_span {t : Text} : ((span t).any fun found => found.2.isEmpty) = true ↔ IsNumeral t := by
  constructor
  · intro h
    cases ht : span t with
    | none => simp [ht] at h
    | some found =>
      obtain ⟨n, rest⟩ := found
      obtain rfl : rest = [] := by simpa [ht] using h
      obtain rfl : n = t := by simpa using (span_append ht).1
      exact isNumeral_of_span ht
  · intro h
    simp [span_of_isNumeral h]

end Numeral

/-- A trimmed text is one numeral when it has the form of one behind an optional sign. -/
theorem Text.isNumeral_iff {t : Text} (ht : trim t = t) :
    isNumeral t = true ↔ IsNumeral t ∨ ∃ sign n, (sign = '+' ∨ sign = '-') ∧ IsNumeral n ∧ t = sign :: n := by
  unfold isNumeral
  rw [ht, Numeral.isNumeral_iff_span]
  unfold Numeral.spanSign
  split
  · next rest =>
    constructor
    · intro h
      exact .inr ⟨'+', rest, .inl rfl, h, rfl⟩
    · rintro (h | ⟨sign, n, -, h, heq⟩)
      · exact absurd rfl (Numeral.not_sign_of_isNumeral h).1
      · exact (List.cons.inj heq).2 ▸ h
  · next rest =>
    constructor
    · intro h
      exact .inr ⟨'-', rest, .inr rfl, h, rfl⟩
    · rintro (h | ⟨sign, n, -, h, heq⟩)
      · exact absurd rfl (Numeral.not_sign_of_isNumeral h).2
      · exact (List.cons.inj heq).2 ▸ h
  · next hplus hminus =>
    constructor
    · exact .inl
    · rintro (h | ⟨sign, n, rfl | rfl, h, heq⟩)
      · exact h
      · exact absurd heq (hplus n)
      · exact absurd heq (hminus n)

end MissionScript
