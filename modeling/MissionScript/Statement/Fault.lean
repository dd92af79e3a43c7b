/-
Why a script cannot be run.

A fault says what is wrong and a `ScriptError` adds the line of the statement that it is wrong in.
-/
import MissionScript.Expression.Fault
import MissionScript.Statement.Declaration

namespace MissionScript

/-- what makes a statement invalid -/
inductive Flaw where
  /-- a declaration breaks off -/
  | expected (expectation : Expectation)
  /-- a type whose objects have dimensions, and a name without -/
  | dimensionsMissing (typeName name : Text)
  /-- dimensions for a type whose objects have none -/
  | dimensionsForbidden (typeName : Text)
  /-- the keyword of assignments with something else behind it -/
  | assignmentMissing
  | targetMissing
  | valueMissing
  /-- a relational character in the value of an assignment -/
  | relationInValue (c : Char)
  /-- nothing of all that a statement can be -/
  | unrecognised
  deriving DecidableEq, Repr

def assignmentKeyword : Text := "GMAT".toList

def Flaw.message : Flaw → String
  | .expected expectation => expectation.message
  | .dimensionsMissing typeName name => String.ofList typeName ++ " '" ++ String.ofList name ++ "' needs dimensions"
  | .dimensionsForbidden typeName => String.ofList typeName ++ " objects cannot have dimensions"
  | .assignmentMissing => "'" ++ String.ofList assignmentKeyword ++ "' must be followed by an assignment"
  | .targetMissing => "nothing to assign to"
  | .valueMissing => "missing value"
  | .relationInValue c => "unexpected '" ++ c.toString ++ "' in value"
  | .unrecognised => "not a declaration, command or assignment"

/-- why a script cannot be run -/
inductive ScriptFault where
  /-- an expression that is none -/
  | expression (e : ParseError)
  /-- an equation for a field that holds the name of a file -/
  | ambiguousEquation (lhs rhs : Text)
  | invalidStatement (text : Text) (flaw : Flaw)
  | undeclaredName (name : Text)
  | unknownCommand (name : Text)
  deriving DecidableEq, Repr

def ScriptFault.message : ScriptFault → String
  | .expression e => e.message
  | .ambiguousEquation lhs rhs =>
    "\"" ++ String.ofList rhs ++ "\" is an equation but '" ++ String.ofList lhs ++ "' is a Filename field"
  | .invalidStatement text flaw => "invalid statement \"" ++ String.ofList text ++ "\": " ++ flaw.message
  | .undeclaredName name => "'" ++ String.ofList name ++ "' is not declared"
  | .unknownCommand name => "unknown command '" ++ String.ofList name ++ "'"

/-- a fault and the line of the statement it is in -/
structure ScriptError where
  line : Nat
  fault : ScriptFault
  deriving DecidableEq, Repr

def ScriptError.message (e : ScriptError) : String := "line " ++ toString e.line ++ ": " ++ e.fault.message

end MissionScript
