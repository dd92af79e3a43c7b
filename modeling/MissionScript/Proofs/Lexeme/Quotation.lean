/-
Which texts begin with a string.

A string goes on to the first quote of its kind, and without such a quote there is no string (`span_eq_some_iff`).
-/
import Mathlib.Data.List.TakeWhile
import Mathlib.Tactic
import MissionScript.Lexeme.Quotation

namespace MissionScript.Quotation

variable {quote : Char} {body rest string after : Text}

theorem span_of_closed (hquote : isQuote quote = true) (hbody : quote ∉ body) :
    span (quote :: (body ++ quote :: after)) = some (quote :: (body ++ [quote]), after) := by
  have hpass : ∀ c ∈ body, (c != quote) = true := by
    intro c hc
    simpa using fun heq : c = quote => hbody (heq ▸ hc)
  have htake : (body ++ quote :: after).takeWhile (fun c => c != quote) = body := by
    rw [List.takeWhile_append_of_pos hpass, List.takeWhile_cons_of_neg (by simp), List.append_nil]
  have hdrop : (body ++ quote :: after).dropWhile (fun c => c != quote) = quote :: after := by
    rw [List.dropWhile_append_of_pos hpass, List.dropWhile_cons_of_neg (by simp)]
  simp [span, hquote, htake, hdrop]

theorem span_of_not_mem (h : isQuote quote = true → quote ∉ rest) : span (quote :: rest) = none := by
  by_cases hquote : isQuote quote = true
  · have hdrop : rest.dropWhile (fun c => c != quote) = [] := by
      apply List.dropWhile_eq_nil_iff.2
      intro c hc
      simpa using fun heq : c = quote => h hquote (heq ▸ hc)
    simp [span, hdrop]
  · simp [span, hquote]

/-- A text begins with a string when its first character is a quote that comes again. -/
theorem span_eq_some_iff : span (quote :: rest) = some (string, after) ↔ isQuote quote = true ∧
    ∃ body, quote ∉ body ∧ string = quote :: (body ++ [quote]) ∧ rest = body ++ quote :: after := by
  constructor
  · intro h
    by_cases hquote : isQuote quote = true
    · by_cases hmem : quote ∈ rest
      · obtain ⟨body, tail, rfl, hbody⟩ := List.eq_append_cons_of_mem hmem
        rw [span_of_closed hquote hbody] at h
        obtain ⟨rfl, rfl⟩ : quote :: (body ++ [quote]) = string ∧ tail = after := by simpa using h
        exact ⟨hquote, body, hbody, rfl, rfl⟩
      · rw [span_of_not_mem fun _ => hmem] at h
        exact absurd h (by simp)
    · rw [span_of_not_mem fun h => absurd h hquote] at h
      exact absurd h (by simp)
  · rintro ⟨hquote, body, hbody, rfl, rfl⟩
    exact span_of_closed hquote hbody

end MissionScript.Quotation
