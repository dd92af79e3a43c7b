/-
Statements.

A statement declares objects, gives a command or assigns a value. `classify` decides which by its first word: `Create`, the
keyword of assignments and the keywords of commands count when they stand alone. Any other statement is an assignment if it
holds a `=` outside parentheses, and otherwise must be a call from end to end.
-/
import MissionScript.Cell.Depth
import MissionScript.Statement.Command
import MissionScript.Statement.Fault

namespace MissionScript

inductive Statement where
  | declaration (d : Declaration)
  | command (c : Command)
  | assignment (lhs rhs : Text)
  deriving DecidableEq, Repr

namespace Statement

def declarationKeyword : Text := "Create".toList

/-- true when a word with this text behind it stands alone -/
def endsWord : Text → Bool
  | [] => true
  | c :: _ => c == ' ' || c == '\t' || c == '\'' || c == '"'

/-- the first name that has dimensions against its type, or none against it -/
def dimensionFlaw (d : Declaration) : Option Flaw :=
  d.names.findSome? fun n =>
    if Declaration.isIndexable d.typeName && n.dimensions.isEmpty then some (.dimensionsMissing d.typeName n.name)
    else if !Declaration.isIndexable d.typeName && !n.dimensions.isEmpty then some (.dimensionsForbidden d.typeName)
    else none

/-- the declaration that a statement makes with the text behind its keyword -/
def declare (t rest : Text) : Except ScriptFault Statement :=
  match Declaration.read rest with
  | .error expectation => .error (.invalidStatement t (.expected expectation))
  | .ok d =>
    match dimensionFlaw d with
    | some flaw => .error (.invalidStatement t flaw)
    | none => .ok (.declaration d)

def isRelational (c : Char) : Bool := c == '=' || c == '~' || c == '<' || c == '>'

/-- the assignment of what stands behind a `=` to what stands before it -/
def assign (t left right : Text) : Except ScriptFault Statement :=
  let lhs := Text.trim left
  let rhs := Text.trim right
  if lhs.isEmpty then .error (.invalidStatement t .targetMissing)
  else if rhs.isEmpty then .error (.invalidStatement t .valueMissing)
  else
    match (cells rhs).find? fun cell => cell.isLive && isRelational cell.char with
    | some cell => .error (.invalidStatement t (.relationInValue cell.char))
    | none => .ok (.assignment lhs rhs)

/-- `name(arguments)` as the whole statement -/
def callCommand (t name : Text) : Option Command :=
  match Cell.enclosed (cells t) with
  | some (head, inside) =>
    if !name.isEmpty && Text.trimEnd head == name then some ⟨name, none, Text.trim inside, .call⟩ else none
  | none => none

def classifyTrimmed (t : Text) : Except ScriptFault Statement :=
  let word := t.takeWhile isWordChar
  let rest := t.dropWhile isWordChar
  if word = declarationKeyword ∧ endsWord rest then declare t rest
  else if word = assignmentKeyword ∧ endsWord rest then
    match Cell.cut '=' (cells (Text.trimStart rest)) with
    | some (left, right) => assign (Text.trimStart rest) left right
    | none => .error (.invalidStatement t .assignmentMissing)
  else if Command.keywords.contains word ∧ endsWord rest then .ok (.command (.ofKeyword word rest))
  else
    match Cell.cut '=' (cells t) with
    | some (left, right) => assign t left right
    | none =>
      match callCommand t word with
      | some c => .ok (.command c)
      | none => .error (.invalidStatement t .unrecognised)

/-- what a statement is -/
def classify (t : Text) : Except ScriptFault Statement := classifyTrimmed (Text.trim t)

end Statement

end MissionScript
