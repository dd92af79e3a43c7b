/-
Numerals.

An unsigned numeral is a run of digits with an optional point and further digits, or a point and at least one digit, and
then an optional exponent: `e` or `E`, an optional sign, at least one digit. `span` takes the longest numeral a text begins
with and `span_append` says that nothing is lost.
-/
import MissionScript.Text.Basic

namespace MissionScript.Numeral

def spanSign : Text → Text × Text
  | '+' :: rest => (['+'], rest)
  | '-' :: rest => (['-'], rest)
  | rest => ([], rest)

def spanDigits (t : Text) : Text × Text := (t.takeWhile Char.isDigit, t.dropWhile Char.isDigit)

def spanMantissa (t : Text) : Option (Text × Text) :=
  match spanDigits t with
  | ([], '.' :: rest) =>
    if (spanDigits rest).1.isEmpty then none else some ('.' :: (spanDigits rest).1, (spanDigits rest).2)
  | ([], _) => none
  | (whole, '.' :: rest) => some (whole ++ '.' :: (spanDigits rest).1, (spanDigits rest).2)
  | (whole, rest) => some (whole, rest)

/-- the exponent a text begins with, which may be empty, and the rest -/
def spanExponent : Text → Text × Text
  | [] => ([], [])
  | e :: rest =>
    let (sign, digits) := spanSign rest
    if (e == 'e' || e == 'E') && !(spanDigits digits).1.isEmpty then
      (e :: sign ++ (spanDigits digits).1, (spanDigits digits).2)
    else ([], e :: rest)

/-- the unsigned numeral a text begins with, and the rest -/
def span (t : Text) : Option (Text × Text) :=
  (spanMantissa t).map fun (mantissa, rest) => (mantissa ++ (spanExponent rest).1, (spanExponent rest).2)

theorem spanSign_append (t : Text) : (spanSign t).1 ++ (spanSign t).2 = t := by
  unfold spanSign
  split <;> rfl

theorem spanDigits_append (t : Text) : (spanDigits t).1 ++ (spanDigits t).2 = t :=
  List.takeWhile_append_dropWhile

theorem spanMantissa_append {t mantissa rest : Text} (h : spanMantissa t = some (mantissa, rest)) :
    mantissa ++ rest = t ∧ mantissa ≠ [] := by
  have whole := spanDigits_append t
  unfold spanMantissa at h
  split at h
  · next tail heq =>
    split at h
    · simp at h
    · obtain ⟨rfl, rfl⟩ : '.' :: (spanDigits tail).1 = mantissa ∧ (spanDigits tail).2 = rest := by simpa using h
      have frac := spanDigits_append tail
      rw [heq] at whole
      exact ⟨by simpa [frac] using whole, by simp⟩
  · simp at h
  · next digits tail hne heq =>
    obtain ⟨rfl, rfl⟩ : digits ++ '.' :: (spanDigits tail).1 = mantissa ∧ (spanDigits tail).2 = rest := by simpa using h
    have frac := spanDigits_append tail
    rw [heq] at whole
    exact ⟨by simpa [frac] using whole, by simp⟩
  · next digits tail _ hempty _ heq =>
    obtain ⟨rfl, rfl⟩ : digits = mantissa ∧ tail = rest := by simpa using h
    rw [heq] at whole
    exact ⟨whole, fun h => hempty h⟩

theorem spanExponent_append (t : Text) : (spanExponent t).1 ++ (spanExponent t).2 = t := by
  cases t with
  | nil => rfl
  | cons e rest =>
    simp only [spanExponent]
    split
    · simp [spanDigits_append, spanSign_append]
    · rfl

/-- A numeral and the rest are the text, and a numeral is not empty. -/
theorem span_append {t numeral rest : Text} (h : span t = some (numeral, rest)) :
    numeral ++ rest = t ∧ numeral ≠ [] := by
  obtain ⟨⟨mantissa, tail⟩, hm, heq⟩ := Option.map_eq_some_iff.1 h
  obtain ⟨rfl, rfl⟩ : mantissa ++ (spanExponent tail).1 = numeral ∧ (spanExponent tail).2 = rest := by simpa using heq
  obtain ⟨htext, hne⟩ := spanMantissa_append hm
  exact ⟨by simpa [spanExponent_append] using htext, by simp [hne]⟩

end MissionScript.Numeral

namespace MissionScript.Text

/-- true when the text is one numeral, with an optional sign and blanks around it -/
def isNumeral (t : Text) : Bool := (Numeral.span (Numeral.spanSign (trim t)).2).any fun (_, rest) => rest.isEmpty

end MissionScript.Text
