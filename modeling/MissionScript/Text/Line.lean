/-
Lines of a text.

Every line feed ends a line, together with one carriage return directly before it. What follows the last line feed is a
line of its own only if it is not empty, and a carriage return there belongs to it.
-/
import MissionScript.Text.Basic

namespace MissionScript.Text

def lines : Text → List Text
  | [] => []
  | '\n' :: rest => [] :: lines rest
  | '\r' :: '\n' :: rest => [] :: lines rest
  | c :: rest => consFirst c (lines rest)

end MissionScript.Text
