/-
When an assignment takes effect.

Before the first command an assignment configures its object once, unless it is an equation on a numeric property or refers
to the variable it assigns to. Such an assignment is evaluated every time control reaches it, and the commands begin with
it. Once the commands have begun every assignment is evaluated on reach, except those to coordinate systems and, as long as
the mission is not running, to subscribers.
-/
import MissionScript.Expression.Build
import MissionScript.Object.Model
import MissionScript.Statement.Fault

namespace MissionScript

/-- how far a script has come -/
inductive Mode where
  /-- no command yet -/
  | setup
  /-- the commands have begun -/
  | sequence
  /-- a command other than the opening one has been given -/
  | mission
  deriving DecidableEq, Repr

namespace Mode

def inCommands : Mode → Bool
  | .setup => false
  | .sequence | .mission => true

def inMission : Mode → Bool
  | .mission => true
  | .setup | .sequence => false

end Mode

/-- when an assignment takes effect -/
inductive Timing where
  /-- once, while the script is loaded -/
  | once
  /-- every time control reaches it -/
  | onReach
  /-- every time control reaches it, and the commands begin with it -/
  | opensCommands
  deriving DecidableEq, Repr

namespace Timing

def isDeferred : Timing → Bool
  | .once => false
  | .onReach | .opensCommands => true

def switches : Timing → Bool
  | .opensCommands => true
  | .once | .onReach => false

end Timing

structure Resolution where
  timing : Timing
  target : Option Property
  tree : Expression

def refersTo (name t : Text) : Bool := (Text.references t).any fun reference => Reference.head reference == name

def buildValue (nesting : Nesting) (voc : Vocabulary) (rhs : Text) : Except ScriptFault Expression :=
  (Expression.build nesting voc rhs).mapError .expression

/-- the tree of a value; a quoted string is taken as it is -/
def valueTree (nesting : Nesting) (voc : Vocabulary) (rhs : Text) : Except ScriptFault Expression :=
  if Text.isQuoted rhs then .ok (.leaf rhs) else buildValue nesting voc rhs

/-- true when an assignment takes effect at once although the commands have begun -/
def isImmediate (objects : ObjectModel) (mode : Mode) (lhs : Text) : Bool :=
  let owner := match objects.property lhs with
    | some property => property.owner
    | none => Reference.head lhs
  match objects.kindOf owner with
  | .coordinateSystem => true
  | .subscriber => !mode.inMission
  | .variable | .other => false

def resolveInCommands (nesting : Nesting) (voc : Vocabulary) (objects : ObjectModel) (mode : Mode) (lhs rhs : Text) :
    Except ScriptFault Resolution := do
  let tree ← valueTree nesting voc rhs
  return ⟨if isImmediate objects mode lhs then .once else .onReach, objects.property lhs, tree⟩

/-- what an equation comes to before the commands begin, by the type of the property it is for -/
def resolveEquation (nesting : Nesting) (voc : Vocabulary) (target : Option Property) (lhs rhs : Text) :
    Except ScriptFault Resolution :=
  match target.map Property.type with
  | some .real | some .other => do return ⟨.opensCommands, target, ← buildValue nesting voc rhs⟩
  | some .filename => .error (.ambiguousEquation lhs rhs)
  | some .string | some .enumeration => .ok ⟨.once, target, .leaf rhs⟩
  | none => do return ⟨.once, target, ← buildValue nesting voc rhs⟩

def resolveInSetup (nesting : Nesting) (voc : Vocabulary) (objects : ObjectModel) (lhs rhs : Text) :
    Except ScriptFault Resolution := do
  let target := objects.property lhs
  if Text.isQuoted rhs then return ⟨.once, target, .leaf rhs⟩
  else if objects.isVariable (Reference.head lhs) && refersTo (Reference.head lhs) rhs then
    return ⟨.opensCommands, target, ← buildValue nesting voc rhs⟩
  else if ← (isEquation voc rhs).mapError ScriptFault.expression then resolveEquation nesting voc target lhs rhs
  else return ⟨.once, target, ← buildValue nesting voc rhs⟩

def resolve (nesting : Nesting) (voc : Vocabulary) (objects : ObjectModel) (mode : Mode) (lhs rhs : Text) :
    Except ScriptFault Resolution :=
  if mode.inCommands then resolveInCommands nesting voc objects mode (Text.trim lhs) (Text.trim rhs)
  else resolveInSetup nesting voc objects (Text.trim lhs) (Text.trim rhs)

end MissionScript
