/-
The objects that assignments are about.

An object model says what a target such as `Sat.X` is a property of, and which type the object of a name has. Of the types
only a few matter for when an assignment takes effect; `ObjectKind.ofTypeName` singles them out.
-/
import MissionScript.Text.Basic

namespace MissionScript

inductive PropertyType where
  | real
  | string
  | enumeration
  | filename
  | other
  deriving DecidableEq, Repr

structure Property where
  owner : Text
  id : Nat
  type : PropertyType
  deriving DecidableEq, Repr

/-- the sorts of objects that differ in when their assignments take effect -/
inductive ObjectKind where
  | coordinateSystem
  /-- plots, reports and whatever else is fed by the running mission -/
  | subscriber
  /-- objects that hold a value while the mission runs -/
  | variable
  | other
  deriving DecidableEq, Repr

namespace ObjectKind

def subscriberTypes : List Text :=
  ["OrbitView", "OpenGLPlot", "Enhanced3DView", "GroundTrackPlot", "XYPlot", "ReportFile", "EphemerisFile",
    "DynamicDataDisplay"].map String.toList

def variableTypes : List Text := ["Variable", "Array", "String"].map String.toList

def ofTypeName (typeName : Text) : ObjectKind :=
  if typeName = "CoordinateSystem".toList then .coordinateSystem
  else if subscriberTypes.contains typeName then .subscriber
  else if variableTypes.contains typeName then .variable
  else .other

end ObjectKind

structure ObjectModel where
  /-- the property that a target names -/
  property : Text → Option Property
  /-- the type of the object with a name -/
  typeOf : Text → Option Text
  /-- true for objects that hold a value while the mission runs -/
  isVariable : Text → Bool := fun name => (typeOf name).any fun type => ObjectKind.ofTypeName type == .variable

namespace ObjectModel

def kindOf (objects : ObjectModel) (name : Text) : ObjectKind :=
  match objects.typeOf name with
  | some type => .ofTypeName type
  | none => .other

def isDeclared (objects : ObjectModel) (name : Text) : Bool := (objects.typeOf name).isSome

end ObjectModel

end MissionScript
