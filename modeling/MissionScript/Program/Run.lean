/-
From a script to its program.

A first pass goes through the blocks in order and sets aside those that need a name which nothing has declared yet, or call
a function which nothing knows yet. A second pass takes up what was set aside, in order and with every declaration in
place; now a missing object or function is an error, while a bare name in an equation may stand for itself. The second pass
treats a block in the mode in which it was set aside, and leaves the mode of the run alone.

`Run` is what both passes work on. Functions found on the way stay known to later scripts, even if the script fails.
-/
import MissionScript.Block.Basic
import MissionScript.Program.Basic
import MissionScript.Program.Timing

namespace MissionScript

/-- what a script is interpreted against -/
structure Setting where
  /-- finds the functions that come with the script -/
  finds : Text → Bool
  objects : ObjectModel
  nesting : Nesting

/-- a block that was set aside, and the mode at that point -/
structure Delayed where
  block : Block
  mode : Mode

/-- what the interpretation of a script has come to -/
structure Run where
  vocabulary : Vocabulary
  mode : Mode
  /-- the objects of the script with their types, the latest first -/
  declared : List (Text × Text)
  delayed : List Delayed
  program : Program

/-- the error of a script, and the functions known by then -/
structure Failure where
  error : ScriptError
  vocabulary : Vocabulary

/-- which of the two passes a block is treated in -/
inductive Pass where
  | first
  | second
  deriving DecidableEq, Repr

/-- why a block cannot be treated yet -/
inductive Obstacle where
  /-- an object that nothing has declared -/
  | object (name : Text)
  /-- a bare name in an equation that nothing has declared -/
  | value (name : Text)
  /-- a function that nothing knows -/
  | function (name : Text)
  deriving DecidableEq, Repr

/-! ## Objects of the script -/

/-- the property that a variable of the script is for itself -/
def ownProperty (typeOf : Text → Option Text) (lhs : Text) : Option Property :=
  let name := Reference.head lhs
  match typeOf name with
  | some type =>
    if Reference.isDotted lhs || ObjectKind.ofTypeName type != .variable then none
    else some ⟨name, 0, if type = "String".toList then .string else .real⟩
  | none => none

/-- the objects of a script in front of those outside it -/
def ObjectModel.extend (objects : ObjectModel) (declared : List (Text × Text)) : ObjectModel where
  property lhs :=
    objects.property lhs <|> ownProperty (fun name => declared.lookup name <|> objects.typeOf name) lhs
  typeOf name := declared.lookup name <|> objects.typeOf name

namespace Run

def start (voc : Vocabulary) : Run := ⟨voc, .setup, [], [], []⟩

/-- the objects that can be seen -/
def scope (run : Run) (s : Setting) : ObjectModel := s.objects.extend run.declared

def fail (run : Run) (line : Nat) (fault : ScriptFault) : Failure := ⟨⟨line, fault⟩, run.vocabulary⟩

/-! ## One block -/

/-- looks for the functions that a block needs -/
def learn (s : Setting) (b : Block) (run : Run) : Run :=
  match b.content with
  | .statement (.command c) =>
    if c.form = .call then { run with vocabulary := run.vocabulary.learn s.finds c.keyword } else run
  | .statement (.assignment _ rhs) => { run with vocabulary := run.vocabulary.learn s.finds rhs }
  | .statement (.declaration _) | .comment => run

/-- true when the name is an object or a function -/
def knows (run : Run) (s : Setting) (name : Text) : Bool :=
  (run.scope s).isDeclared name || (run.vocabulary.kind? name).isSome

/-- the first name that an assignment needs and nothing has declared -/
def missingName (s : Setting) (run : Run) (lhs rhs : Text) : Except ScriptFault (Option Obstacle) := do
  let unknown := fun name => !run.knows s name
  let references := Text.references rhs
  if !(run.scope s).isDeclared (Reference.head lhs) then return some (.object (Reference.head lhs))
  else if Text.isQuoted rhs then return none
  else
    match ((references.filter Reference.isDotted).map Reference.head).find? unknown with
    | some name => return some (.object name)
    | none =>
      if ← (isEquation run.vocabulary rhs).mapError ScriptFault.expression then
        return ((references.map Reference.head).find? unknown).map .value
      else return none

def obstacle (s : Setting) (b : Block) (run : Run) : Except ScriptFault (Option Obstacle) :=
  match b.content with
  | .statement (.command c) =>
    .ok (if c.form = .call ∧ (run.vocabulary.kind? c.keyword).isNone then some (.function c.keyword) else none)
  | .statement (.assignment lhs rhs) => missingName s run lhs rhs
  | .statement (.declaration _) | .comment => .ok none

def emit (run : Run) (line : Nat) (action : Action) : Run := { run with program := run.program ++ [⟨line, action⟩] }

def declare (run : Run) (d : Declaration) : Run :=
  { run with declared := d.names.foldl (fun declared n => (n.name, d.typeName) :: declared) run.declared }

def modeAfter (keyword : Text) : Mode → Mode
  | .setup => if keyword = Command.beginMissionSequence then .sequence else .mission
  | .sequence => if keyword = Command.beginMissionSequence then .sequence else .mission
  | .mission => .mission

def modeSwitched (timing : Timing) : Mode → Mode
  | .setup => if timing.switches then .sequence else .setup
  | .sequence => .sequence
  | .mission => .mission

/-- treats a block as it is treated in the given mode; only in the first pass does it change the mode of the run -/
def perform (s : Setting) (pass : Pass) (mode : Mode) (b : Block) (run : Run) : Except ScriptFault Run :=
  match b.content with
  | .comment => .ok run
  | .statement (.declaration d) => .ok ((run.declare d).emit b.line (.declare d))
  | .statement (.command c) =>
    let next := if pass = .first then modeAfter c.keyword run.mode else run.mode
    .ok ({ run with mode := next }.emit b.line (.command c))
  | .statement (.assignment lhs rhs) => do
    let r ← resolve s.nesting run.vocabulary (run.scope s) mode lhs rhs
    let target := r.target.map fun property => (property.owner, property.id)
    let next := if pass = .first then modeSwitched r.timing run.mode else run.mode
    return { run with mode := next }.emit b.line (.assign ⟨lhs, r.timing.isDeferred, target, r.tree⟩)

/-! ## Passes -/

def firstStep (s : Setting) (run : Run) (b : Block) : Except Failure Run :=
  let run := run.learn s b
  match run.obstacle s b with
  | .error fault => .error (run.fail b.line fault)
  | .ok (some _) => .ok { run with delayed := run.delayed ++ [⟨b, run.mode⟩] }
  | .ok none => (run.perform s .first run.mode b).mapError (run.fail b.line)

def replayStep (s : Setting) (run : Run) (d : Delayed) : Except Failure Run :=
  let run := run.learn s d.block
  match run.obstacle s d.block with
  | .error fault => .error (run.fail d.block.line fault)
  | .ok (some (.object name)) => .error (run.fail d.block.line (.undeclaredName name))
  | .ok (some (.function name)) => .error (run.fail d.block.line (.unknownCommand name))
  | .ok (some (.value _)) | .ok none => (run.perform s .second d.mode d.block).mapError (run.fail d.block.line)

def firstPass (s : Setting) (run : Run) (blocks : List Block) : Except Failure Run := blocks.foldlM (firstStep s) run

def replay (s : Setting) (run : Run) : Except Failure Run :=
  run.delayed.foldlM (replayStep s) { run with delayed := [] }

end Run

/-- interprets a script, given the functions known before it -/
def interpret (s : Setting) (voc : Vocabulary) (script : Text) : Except Failure Run :=
  match readBlocks script with
  | .error error => .error ⟨error, voc⟩
  | .ok blocks => (Run.start voc).firstPass s blocks >>= Run.replay s

def vocabularyAfter : Except Failure Run → Vocabulary
  | .ok run => run.vocabulary
  | .error failure => failure.vocabulary

/-- interprets scripts one after the other; of each, only the functions it found carry over to the next -/
def interpretAll (s : Setting) (voc : Vocabulary) : List Text → List (Except Failure Run)
  | [] => []
  | script :: rest =>
    let result := interpret s voc script
    result :: interpretAll s (vocabularyAfter result) rest

end MissionScript
