/-
The functions that are built in.

A built-in function belongs to one of three kinds and takes a fixed number of arguments. Functions that a script brings
with it are a fourth kind and take any number. Names are matched as written, and a name that begins with a capital also
as if it did not: `Sin` is `sin`, `SIN` is not.
-/
import MissionScript.Text.Basic

namespace MissionScript

inductive FunctionKind where
  | scalar
  | matrix
  | unitConversion
  | userDefined
  deriving DecidableEq, Repr

inductive Arity where
  | exact (n : Nat)
  | variadic
  deriving DecidableEq, Repr

def Arity.accepts : Arity → Nat → Bool
  | .exact n, count => n == count
  | .variadic, _ => true

/-- a function that every script can call -/
structure Builtin where
  name : Text
  kind : FunctionKind
  arity : Nat
  deriving DecidableEq, Repr

namespace Builtin

def make (kind : FunctionKind) (arity : Nat) (name : String) : Builtin := ⟨name.toList, kind, arity⟩

def all : List Builtin :=
  ["sin", "cos", "tan", "asin", "acos", "atan", "sinh", "cosh", "tanh", "log", "log10", "exp", "sqrt", "abs", "floor",
    "ceil", "fix", "round"].map (make .scalar 1) ++
  ["atan2", "mod"].map (make .scalar 2) ++
  ["transpose", "det", "inv", "norm"].map (make .matrix 1) ++
  ["degToRad", "radToDeg", "deg2Rad", "rad2Deg"].map (make .unitConversion 1)

/-- the built-in function with exactly this name -/
def named (name : Text) : Option Builtin := all.find? fun f => f.name == name

end Builtin

/-- the name with its first letter in lower case, when that letter is a capital; names of functions are ASCII, and of all
capitals only `A` to `Z` and the Kelvin sign have an ASCII lower case -/
def lowerFirst : Text → Option Text
  | [] => none
  | c :: rest =>
    if c.isUpper then some (c.toLower :: rest) else if c == '\u212a' then some ('k' :: rest) else none

/-- the built-in function a name stands for -/
def Builtin.lookup (name : Text) : Option Builtin := named name <|> (lowerFirst name).bind named

end MissionScript
