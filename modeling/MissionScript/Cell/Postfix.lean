/-
What may follow a postfix operator.

A transpose quote or an inverse marker ends an operand, so only another operator, a closer or the end may come after it.
`clash` is the first violation: transposes are looked at before inverse markers.
-/
import MissionScript.Cell.Operator

namespace MissionScript

/-- an operator written behind its operand -/
inductive Postfix where
  | transpose
  | inverse
  deriving DecidableEq, Repr

/-- the characters that may come after a postfix operator -/
def postfixFollowers : Text := ['+', '-', '*', '/', '^', '\'', ')', ']', ',', ';', '}']

def Postfix.endsWith : Postfix → Cell → Bool
  | .transpose, cell => cell.holds '\''
  | .inverse, cell => cell.role == .inverse 0

namespace Cell

/-- the first character after one of the operator's occurrences that may not stand there -/
def strayAfter (operator : Postfix) (cs : List Cell) : Option Char :=
  ((sites cs).filter fun s => operator.endsWith s.cell).findSome? fun s =>
    ((s.after.find? fun cell => !isBlank cell.char).map Cell.char).filter fun c => !postfixFollowers.contains c

/-- the first postfix operator with a character after it that may not stand there -/
def clash (cs : List Cell) : Option (Postfix × Char) :=
  (strayAfter .transpose cs).map (Postfix.transpose, ·) <|> (strayAfter .inverse cs).map (Postfix.inverse, ·)

end Cell

end MissionScript
