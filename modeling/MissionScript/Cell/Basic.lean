/-
Which characters of an expression count.

An expression is never cut into tokens. Every character gets a role instead, and only `live` characters can be operators
or grouping parentheses. The others are the text of a quoted string, a `[...]` or `{...}` literal, the sign of an exponent
such as `1e-5`, or the five characters of the inverse marker `^(-1)`.

`advance` gives one character its role from what was read before it and what follows; `cells` runs it over a text.
`text_cells` says that marking keeps every character in its place.
-/
import MissionScript.Text.Basic

namespace MissionScript

/-- what a character of an expression stands for -/
inductive Role where
  /-- an operator, a parenthesis or a part of an operand -/
  | live
  /-- part of a quoted string, its quotes included -/
  | quoted
  /-- part of a bracket literal, with the number of brackets still open after it -/
  | bracket (depth : Nat)
  /-- the sign of an exponent -/
  | exponentSign
  /-- part of an inverse marker, with the number of characters of the marker that follow -/
  | inverse (rest : Nat)
  deriving DecidableEq, Repr

structure Cell where
  char : Char
  role : Role
  deriving DecidableEq, Repr

/-- what the reading of an expression is in the middle of -/
inductive Context where
  | code
  | string (quote : Char)
  | marker (rest : Nat)
  | exponent
  deriving DecidableEq, Repr

/-- how far an expression has been read: the context, the open brackets, and the characters read, last one first -/
structure Posture where
  context : Context
  depth : Nat
  before : Text

namespace Posture

def start : Posture := ⟨.code, 0, []⟩

/-- A quote directly after an operand or a closer is a transpose and opens no string. -/
def followsOperand : Text → Bool
  | [] => false
  | p :: _ => isWordChar p || p == '.' || p == ')' || p == ']' || p == '}' || p == '\''

/-- true when the characters read end in digits and dots that belong to a number and not to a name -/
def endsNumeral (before : Text) : Bool :=
  let isPart := fun c : Char => c.isDigit || c == '.'
  (before.takeWhile isPart).any Char.isDigit && !startsName (before.dropWhile isPart)

def signsDigit : Text → Bool
  | sign :: digit :: _ => (sign == '+' || sign == '-') && digit.isDigit
  | _ => false

/-- the role of a character, given the text after it, and the posture behind it -/
def advance (p : Posture) (c : Char) (rest : Text) : Role × Posture :=
  let before := c :: p.before
  match p.context with
  | .string quote => (.quoted, ⟨if c == quote then .code else .string quote, p.depth, before⟩)
  | .marker 0 => (.inverse 0, ⟨.code, p.depth, before⟩)
  | .marker (n + 1) => (.inverse (n + 1), ⟨.marker n, p.depth, before⟩)
  | .exponent => (.exponentSign, ⟨.code, p.depth, before⟩)
  | .code =>
    if c == '"' || (c == '\'' && !followsOperand p.before) then (.quoted, ⟨.string c, p.depth, before⟩)
    else if c == '[' || c == '{' then (.bracket (p.depth + 1), ⟨.code, p.depth + 1, before⟩)
    else
      match p.depth with
      | d + 1 =>
        let depth := if c == ']' || c == '}' then d else d + 1
        (.bracket depth, ⟨.code, depth, before⟩)
      | 0 =>
        if c == '^' && ['(', '-', '1', ')'].isPrefixOf rest then (.inverse 4, ⟨.marker 3, 0, before⟩)
        else if (c == 'e' || c == 'E') && endsNumeral p.before && signsDigit rest then (.live, ⟨.exponent, 0, before⟩)
        else (.live, ⟨.code, 0, before⟩)

end Posture

/-- the cells of a text that continues a posture -/
def cellsFrom (p : Posture) : Text → List Cell
  | [] => []
  | c :: rest => ⟨c, (p.advance c rest).1⟩ :: cellsFrom (p.advance c rest).2 rest

def cells (t : Text) : List Cell := cellsFrom .start t

namespace Cell

def text (cs : List Cell) : Text := cs.map Cell.char

/-- true when the cell can be an operator or a parenthesis -/
def isLive (cell : Cell) : Bool := cell.role == .live

/-- true when the cell holds a character that can be an operator or a parenthesis -/
def holds (c : Char) (cell : Cell) : Bool := cell.isLive && cell.char == c

/-- true when a bracket literal closes for good, and does so with the last cell -/
def closesBracketAtEnd : List Cell → Bool
  | [] => false
  | cell :: rest => if cell.role == .bracket 0 then rest.isEmpty else closesBracketAtEnd rest

def isBracketLiteral : List Cell → Bool
  | ⟨_, .bracket _⟩ :: rest => closesBracketAtEnd rest
  | _ => false

theorem length_text (cs : List Cell) : (text cs).length = cs.length := by simp [text]

end Cell

theorem text_cellsFrom (t : Text) (p : Posture) : Cell.text (cellsFrom p t) = t := by
  induction t generalizing p with
  | nil => rfl
  | cons c rest ih => simpa [cellsFrom, Cell.text] using ih _

/-- Marking keeps every character in its place. -/
theorem text_cells (t : Text) : Cell.text (cells t) = t := text_cellsFrom t _

theorem length_cells (t : Text) : (cells t).length = t.length := by
  rw [← Cell.length_text, text_cells]

end MissionScript
