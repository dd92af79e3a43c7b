/-
References.

A reference is a name, or an object and its properties joined by points: `Sat`, `Sat.X`. A name begins with a letter or an
underscore and goes on with letters, digits and underscores. The head of a reference is the object it starts from.
-/
import MissionScript.Text.Basic

namespace MissionScript.Reference

/-- the longest run of word characters and of points that a name follows, and the rest -/
def span : Text → Text × Text
  | [] => ([], [])
  | c :: rest =>
    if isWordChar c || (c == '.' && startsName rest) then (c :: (span rest).1, (span rest).2) else ([], c :: rest)

/-- the leading name: `Sat` of `Sat.X`, `arr` of `arr(2)` -/
def head (reference : Text) : Text := (Text.trim reference).takeWhile isWordChar

/-- true when the reference goes through a point to a property -/
def isDotted (reference : Text) : Bool := reference.contains '.'

theorem span_append (t : Text) : (span t).1 ++ (span t).2 = t := by
  induction t with
  | nil => rfl
  | cons c rest ih =>
    unfold span
    split
    · simpa using ih
    · rfl

theorem span_ne_nil {c : Char} (h : isNameStart c = true) (rest : Text) : (span (c :: rest)).1 ≠ [] := by
  have hword : isWordChar c = true := by
    simp only [isNameStart, isWordChar, Char.isAlphanum, Bool.or_eq_true] at *
    grind
  simp [span, hword]

end MissionScript.Reference
