/-
Declarations.

After `Create` come a type name and one or more names, with or without commas between them, and at the end a semicolon if
one is wanted. A name may carry dimensions in brackets. Spaces and tabs may stand between any two tokens.

`readNames` runs over the tokens in a `Progress`, one token at a time; where it cannot go on it says what was expected.
A list of dimensions that does not go on after a dimension counts as no list at all, so what is expected there is what may
follow a bare name.
-/
import MissionScript.Text.Basic

namespace MissionScript

structure DeclaredName where
  name : Text
  dimensions : List Nat
  deriving DecidableEq, Repr

/-- objects of one type coming into being -/
structure Declaration where
  typeName : Text
  names : List DeclaredName
  deriving DecidableEq, Repr

/-- what could have stood where a declaration breaks off -/
inductive Expectation where
  | typeName
  | identifier
  | dimension
  /-- behind a name without dimensions -/
  | afterName
  /-- behind a name with dimensions -/
  | afterDimensions
  /-- behind the final semicolon -/
  | ending
  deriving DecidableEq, Repr

def Expectation.message : Expectation → String
  | .typeName => "expected type_name"
  | .identifier => "expected identifier"
  | .dimension => "expected dimension"
  | .afterName => "expected EOI, identifier, or dimensions"
  | .afterDimensions => "expected EOI or identifier"
  | .ending => "expected EOI"

namespace Declaration

/-! ## Tokens -/

inductive Token where
  | word (text : Text)
  | digits (text : Text)
  | mark (c : Char)
  deriving DecidableEq, Repr

def tokens : Text → List Token
  | [] => []
  | c :: rest =>
    if c == ' ' || c == '\t' then tokens rest
    else if isNameStart c then .word (c :: rest.takeWhile isWordChar) :: tokens (rest.dropWhile isWordChar)
    else if c.isDigit then .digits (c :: rest.takeWhile Char.isDigit) :: tokens (rest.dropWhile Char.isDigit)
    else .mark c :: tokens rest
termination_by t => t.length
decreasing_by
  · simp
  · exact Nat.lt_succ_of_le (List.dropWhile_sublist _).length_le
  · exact Nat.lt_succ_of_le (List.dropWhile_sublist _).length_le
  · simp

/-! ## Names -/

/-- a name with its dimensions as written, none if it has no brackets -/
structure WrittenName where
  name : Text
  dimensions : List Text
  deriving DecidableEq, Repr

inductive Progress where
  /-- a name must follow -/
  | name
  /-- a name has been read -/
  | named (name : Text)
  /-- a dimension must follow -/
  | dimension (name : Text) (dimensions : List Text)
  /-- a dimension has been read -/
  | measured (name : Text) (dimensions : List Text)
  /-- the brackets behind a name have closed -/
  | dimensioned (name : Text) (dimensions : List Text)
  /-- the final semicolon has been read -/
  | ended
  deriving DecidableEq, Repr

/-- the names that the tokens from a point on declare -/
def readNames : Progress → List Token → Except Expectation (List WrittenName)
  | .name, .word n :: rest => readNames (.named n) rest
  | .name, _ => .error .identifier
  | .named n, [] => .ok [⟨n, []⟩]
  | .named n, .word m :: rest => (readNames (.named m) rest).map (⟨n, []⟩ :: ·)
  | .named n, .mark ',' :: rest => (readNames .name rest).map (⟨n, []⟩ :: ·)
  | .named n, .mark ';' :: rest => (readNames .ended rest).map (⟨n, []⟩ :: ·)
  | .named n, .mark '[' :: rest => readNames (.dimension n []) rest
  | .named _, _ => .error .afterName
  | .dimension n ds, .digits d :: rest => readNames (.measured n (ds ++ [d])) rest
  | .dimension _ _, _ => .error .dimension
  | .measured n ds, .mark ',' :: rest => readNames (.dimension n ds) rest
  | .measured n ds, .mark ']' :: rest => readNames (.dimensioned n ds) rest
  | .measured _ _, _ => .error .afterName
  | .dimensioned n ds, [] => .ok [⟨n, ds⟩]
  | .dimensioned n ds, .word m :: rest => (readNames (.named m) rest).map (⟨n, ds⟩ :: ·)
  | .dimensioned n ds, .mark ',' :: rest => (readNames .name rest).map (⟨n, ds⟩ :: ·)
  | .dimensioned n ds, .mark ';' :: rest => (readNames .ended rest).map (⟨n, ds⟩ :: ·)
  | .dimensioned _ _, _ => .error .afterDimensions
  | .ended, [] => .ok []
  | .ended, _ => .error .ending

/-! ## Values -/

def decimalValue (digits : Text) : Nat := digits.foldl (fun n c => 10 * n + (c.toNat - '0'.toNat)) 0

/-- the largest dimension there is, plus one -/
def dimensionBound : Nat := Nat.pow 2 64

/-- a name with the values of its dimensions; one that is out of bounds has no value -/
def WrittenName.declared (w : WrittenName) : DeclaredName :=
  ⟨w.name, (w.dimensions.map decimalValue).filter fun n => n < dimensionBound⟩

/-- the declaration that the text behind `Create` makes -/
def read (t : Text) : Except Expectation Declaration :=
  match tokens t with
  | .word typeName :: rest => (readNames .name rest).map fun names => ⟨typeName, names.map WrittenName.declared⟩
  | _ => .error .typeName

def isIndexable (typeName : Text) : Bool := typeName == "Array".toList

end Declaration

end MissionScript
