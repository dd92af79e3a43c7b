/-
Texts and their ends.

A text is a list of characters, so that every rule about one is a recursion on it. `trimStart`, `trimEnd` and `trim` drop
Unicode blanks from the ends; `isVisible` says that something is left. `isWordChar` and `startsName` fix the letters of
names, which are ASCII. `consFirst` is how a text is cut into runs from its end.
-/
import MissionScript.Text.Blank

namespace MissionScript

/-- a text, character by character -/
abbrev Text := List Char

namespace Text

def trimStart (t : Text) : Text := t.dropWhile isBlank

def trimEnd (t : Text) : Text := (t.reverse.dropWhile isBlank).reverse

def trim (t : Text) : Text := trimEnd (trimStart t)

/-- true when the text holds something besides blanks -/
def isVisible (t : Text) : Bool := t.any fun c => !isBlank c

theorem length_trimStart_le (t : Text) : (trimStart t).length ≤ t.length :=
  (List.dropWhile_sublist _).length_le

theorem length_trimEnd_le (t : Text) : (trimEnd t).length ≤ t.length := by
  simpa [trimEnd] using (List.dropWhile_sublist isBlank (l := t.reverse)).length_le

theorem length_trim_le (t : Text) : (trim t).length ≤ t.length :=
  Nat.le_trans (length_trimEnd_le _) (length_trimStart_le t)

end Text

/-- puts an element in front of the first run -/
def consFirst {α : Type} (x : α) : List (List α) → List (List α)
  | [] => [[x]]
  | run :: runs => (x :: run) :: runs

theorem flatten_consFirst {α : Type} (x : α) (runs : List (List α)) :
    (consFirst x runs).flatten = x :: runs.flatten := by
  cases runs <;> rfl

/-- a letter, digit or underscore -/
def isWordChar (c : Char) : Bool := c.isAlphanum || c == '_'

def isNameStart (c : Char) : Bool := c.isAlpha || c == '_'

def startsName : Text → Bool
  | c :: _ => isNameStart c
  | [] => false

end MissionScript
