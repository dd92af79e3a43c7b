/-
Expressions.

A leaf is an operand without operators: a number, a quoted string, a bracket literal or a reference, which may carry an
index as in `arr(2)`. A call keeps the texts of its arguments when the function comes with the script, since such a function
is bound by what is written and not by the shape of the tree.
-/
import MissionScript.Function.Basic

namespace MissionScript

inductive UnaryOp where
  | negate
  | transpose
  | inverse
  deriving DecidableEq, Repr

inductive BinaryOp where
  | add
  | subtract
  | multiply
  | divide
  | power
  deriving DecidableEq, Repr

def UnaryOp.symbol : UnaryOp → String
  | .negate => "-"
  | .transpose => "'"
  | .inverse => "^(-1)"

def BinaryOp.symbol : BinaryOp → String
  | .add => "+"
  | .subtract => "-"
  | .multiply => "*"
  | .divide => "/"
  | .power => "^"

/-- a function as a call names it -/
structure Callee where
  name : Text
  kind : FunctionKind
  deriving DecidableEq, Repr

/-- an expression as a tree -/
inductive Expression where
  | leaf (text : Text)
  | unary (op : UnaryOp) (operand : Expression)
  | binary (op : BinaryOp) (left right : Expression)
  | call (callee : Callee) (arguments : List Expression) (inputs : List Text)
  deriving Repr

mutual

/-- the texts of the leaves, from left to right -/
def Expression.leaves : Expression → List Text
  | .leaf text => [text]
  | .unary _ operand => operand.leaves
  | .binary _ left right => left.leaves ++ right.leaves
  | .call _ arguments _ => Expression.leavesOfAll arguments

def Expression.leavesOfAll : List Expression → List Text
  | [] => []
  | e :: es => e.leaves ++ Expression.leavesOfAll es

end

/-- true when the expression is an operand without operators -/
def Expression.isLeaf : Expression → Bool
  | .leaf _ => true
  | _ => false

end MissionScript
