/-
Programs: what a script tells to do, in the order it takes effect.
-/
import MissionScript.Expression.Basic
import MissionScript.Statement.Basic

namespace MissionScript

/-- a value for a target -/
structure Assignment where
  lhs : Text
  /-- true when it is evaluated every time control reaches it -/
  deferred : Bool
  /-- owner and number of the property, when the target is one -/
  target : Option (Text × Nat)
  tree : Expression

inductive Action where
  | declare (d : Declaration)
  | assign (a : Assignment)
  | command (c : Command)

/-- an action and the line of the statement it comes from -/
structure Instruction where
  line : Nat
  action : Action

/-- instructions in the order they take effect -/
abbrev Program := List Instruction

namespace Program

def assignments (p : Program) : List (Nat × Assignment) :=
  p.filterMap fun i =>
    match i.action with
    | .assign a => some (i.line, a)
    | .declare _ | .command _ => none

end Program

end MissionScript
