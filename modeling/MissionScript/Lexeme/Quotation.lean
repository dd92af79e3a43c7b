/-
Quoted strings.

A string stands between two single or two double quotes and does not hold its own quote. Nothing is escaped.
-/
import MissionScript.Text.Basic

namespace MissionScript.Quotation

def isQuote (c : Char) : Bool := c == '\'' || c == '"'

/-- the closed string a text begins with, quotes included, and the rest -/
def span : Text → Option (Text × Text)
  | [] => none
  | quote :: rest =>
    if isQuote quote then
      match rest.dropWhile fun c => c != quote with
      | [] => none
      | _ :: after => some (quote :: (rest.takeWhile fun c => c != quote) ++ [quote], after)
    else none

/-- A string and the rest are the text, and a string is not empty. -/
theorem span_append {t string rest : Text} (h : span t = some (string, rest)) : string ++ rest = t ∧ string ≠ [] := by
  cases t with
  | nil => simp [span] at h
  | cons quote body =>
    simp only [span] at h
    split at h
    · split at h
      · simp at h
      · next close after hdrop =>
        obtain ⟨rfl, rfl⟩ : quote :: (body.takeWhile fun c => c != quote) ++ [quote] = string ∧ after = rest := by
          simpa using h
        have hclose : close = quote := by
          have := List.head?_dropWhile_not (fun c => c != quote) body
          simpa [hdrop] using this
        have hbody := List.takeWhile_append_dropWhile (p := fun c => c != quote) (l := body)
        rw [hdrop, hclose] at hbody
        exact ⟨by simpa using hbody, by simp⟩
    · simp at h

end MissionScript.Quotation

namespace MissionScript.Text

/-- true when the text is one quoted string, with blanks around it -/
def isQuoted (t : Text) : Bool := (Quotation.span (trim t)).any fun (_, rest) => rest.isEmpty

end MissionScript.Text
