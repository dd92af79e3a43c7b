/-
Blank characters.

Two notions of blank are used. `isBlank` is the Unicode property White_Space and decides what is trimmed from the ends of
a text. `isAsciiBlank` is the narrower set that operator recognition steps over: space, tab, line feed, form feed and
carriage return, but not the vertical tab.
-/

namespace MissionScript

/-- a character with the Unicode property White_Space -/
def isBlank (c : Char) : Bool :=
  ('\t' ≤ c && c ≤ '\r') || c == ' ' || c == '\u0085' || c == '\u00a0' || c == '\u1680' ||
    ('\u2000' ≤ c && c ≤ '\u200a') || c == '\u2028' || c == '\u2029' || c == '\u202f' || c == '\u205f' ||
    c == '\u3000'

/-- a blank that operators are recognised across -/
def isAsciiBlank (c : Char) : Bool :=
  c == ' ' || c == '\t' || c == '\n' || c == '\x0c' || c == '\r'

/-- Whatever operators are recognised across is also trimmed. -/
theorem isBlank_of_isAsciiBlank {c : Char} (h : isAsciiBlank c = true) : isBlank c = true := by
  simp only [isAsciiBlank, Bool.or_eq_true, beq_iff_eq, or_assoc] at h
  rcases h with rfl | rfl | rfl | rfl | rfl <;> decide

end MissionScript
