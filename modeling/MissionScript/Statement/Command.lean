/-
Commands.

A command begins with one of a fixed set of keywords, which a quoted label may follow, or calls a function.
-/
import MissionScript.Text.Basic

namespace MissionScript

inductive CommandForm where
  /-- `Propagate 'Coast' Prop(Sat)` -/
  | keyword
  /-- `MyFunction(a, b)` -/
  | call
  deriving DecidableEq, Repr

/-- something to do at a point of the mission -/
structure Command where
  keyword : Text
  /-- the label behind the keyword, without its quotes -/
  description : Option Text
  arguments : Text
  form : CommandForm
  deriving DecidableEq, Repr

namespace Command

/-- the command that opens the sequence of commands and does nothing else -/
def beginMissionSequence : Text := "BeginMissionSequence".toList

def keywords : List Text :=
  beginMissionSequence ::
    ["Achieve", "BeginFiniteBurn", "BeginScript", "CallFunction", "ClearPlot", "Else", "EndFiniteBurn", "EndFor", "EndIf",
      "EndOptimize", "EndScript", "EndTarget", "EndWhile", "FindEvents", "For", "Global", "If", "Maneuver", "MarkPoint",
      "Minimize", "NonlinearConstraint", "Optimize", "PenDown", "PenUp", "Propagate", "Report", "Save", "Set", "Stop",
      "Target", "Toggle", "UpdateDynamicData", "Vary", "While", "Write"].map String.toList

/-- the label in single quotes that a text begins with, and the rest -/
def spanLabel : Text → Option (Text × Text)
  | '\'' :: quoted =>
    match quoted.dropWhile fun c => c != '\'' with
    | [] => none
    | _ :: after => some (quoted.takeWhile fun c => c != '\'', after)
  | _ => none

def ofKeyword (keyword rest : Text) : Command :=
  match spanLabel (Text.trim rest) with
  | some (label, arguments) => ⟨keyword, some label, Text.trim arguments, .keyword⟩
  | none => ⟨keyword, none, Text.trim rest, .keyword⟩

end Command

end MissionScript
