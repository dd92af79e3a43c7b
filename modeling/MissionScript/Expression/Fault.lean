/-
Why a text is no expression.
-/
import MissionScript.Cell.Postfix
import MissionScript.Expression.Basic

namespace MissionScript

/-- what an operand is missing for -/
inductive Consumer where
  /-- the whole expression -/
  | expression
  | unary (op : UnaryOp)
  | binary (op : BinaryOp)
  | function (name : Text)
  deriving DecidableEq, Repr

def Consumer.label : Consumer → String
  | .expression => "expression"
  | .unary op => op.symbol
  | .binary op => op.symbol
  | .function name => String.ofList name

def Postfix.symbol : Postfix → String
  | .transpose => "'"
  | .inverse => "^(-1)"

/-- why a text is no expression -/
inductive ParseError where
  /-- the parentheses of the text have no partners -/
  | unbalancedParenthesis (text : Text)
  /-- nothing stands where an operand must be -/
  | missingOperand (consumer : Consumer)
  /-- the text has a group directly after a group -/
  | missingOperator (text : Text)
  /-- a call has the wrong number of arguments -/
  | functionArity (function : Text) (expected found : Nat)
  /-- a postfix operator is followed by something other than an operator or a closer -/
  | operatorAdjacency (operator : Postfix) (found : Char)
  /-- an argument has operators of its own where that is not allowed -/
  | equationArgument (function argument : Text)
  deriving DecidableEq, Repr

def ParseError.message : ParseError → String
  | .unbalancedParenthesis text => "unbalanced parenthesis in \"" ++ String.ofList text ++ "\""
  | .missingOperand consumer => "missing operand for '" ++ consumer.label ++ "'"
  | .missingOperator text => "missing operator between groups in \"" ++ String.ofList text ++ "\""
  | .functionArity function expected found =>
    "function '" ++ String.ofList function ++ "' expects " ++ toString expected ++ " argument(s), found " ++ toString found
  | .operatorAdjacency operator found =>
    "unexpected '" ++ found.toString ++ "' after matrix operator '" ++ operator.symbol ++ "'"
  | .equationArgument function argument =>
    "argument \"" ++ String.ofList argument ++ "\" of '" ++ String.ofList function ++ "' is an equation"

end MissionScript
