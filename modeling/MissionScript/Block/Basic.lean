/-
The blocks of a script.

A block is one statement with the comments that belong to it. Comments begin with `%` and reach to the end of the line.
Comments on lines of their own, and the empty lines among them, are the preface of the next statement; a comment behind
statements belongs to the last one of the line. Comments after the last statement are a block of their own.

A line that ends in `...` goes on in the next one. Statements on a line are divided by semicolons.

`Reader` is what is carried from line to line; `Reader.advance` takes in one line.
-/
import MissionScript.Statement.Basic
import MissionScript.Text.Line

namespace MissionScript

inductive Content where
  | comment
  | statement (s : Statement)
  deriving DecidableEq, Repr

/-- a statement with its comments, or comments without a statement -/
structure Block where
  /-- the line it starts on, counted from one -/
  line : Nat
  text : Text
  /-- the comment lines directly above -/
  preface : Text
  inlineComment : Text
  content : Content
  deriving DecidableEq, Repr

/-- statements of one line, or of several lines that go on into each other -/
structure CodeLine where
  line : Nat
  code : Text
  comment : Text
  deriving DecidableEq, Repr

/-- comment lines that wait for a statement, from a line on -/
structure Preface where
  line : Nat
  text : Text
  deriving DecidableEq, Repr

def splitComment (raw : Text) : Text × Option Text :=
  let isCode := fun cell : Cell => !cell.holds '%'
  let comment := (cells raw).dropWhile isCode
  (Cell.text ((cells raw).takeWhile isCode),
    if comment.isEmpty then none else some (Text.trimEnd (Cell.text comment)))

def joinComment (comments : Text) : Option Text → Text
  | none => comments
  | some comment => if comments.isEmpty then comment else comments ++ ' ' :: comment

namespace CodeLine

/-- the mark of a line that goes on in the next one -/
def continuation : Text := ['.', '.', '.']

/-- the code without the mark that it goes on, if it has one -/
def unfinished? (l : CodeLine) : Option CodeLine :=
  if continuation.isSuffixOf l.code then
    some { l with code := Text.trimEnd (l.code.take (l.code.length - continuation.length)) }
  else none

/-- the line with the code and the comment of the next one -/
def append (l : CodeLine) (code : Text) (comment : Option Text) : CodeLine :=
  { l with code := l.code ++ ' ' :: Text.trim code, comment := joinComment l.comment comment }

def statements (l : CodeLine) : List Text :=
  ((Cell.split ';' (cells l.code)).map Text.trim).filter fun t => !t.isEmpty

/-- the blocks of some statements; the first one gets the preface, the last one the comment -/
def blocksOf (line : Nat) (comment : Text) : Text → List Text → Except ScriptError (List Block)
  | _, [] => .ok []
  | preface, t :: rest => do
    let s ← (Statement.classify t).mapError (ScriptError.mk line)
    let later ← blocksOf line comment [] rest
    return ⟨line, t, preface, if rest.isEmpty then comment else [], .statement s⟩ :: later

/-- the blocks of a line; without a statement, preface and comment are lost -/
def blocks (l : CodeLine) (preface : Text) : Except ScriptError (List Block) :=
  blocksOf l.line l.comment preface l.statements

end CodeLine

/-- what is carried from line to line -/
structure Reader where
  preface : Option Preface
  pending : Option CodeLine
  deriving DecidableEq, Repr

namespace Reader

def empty : Reader := ⟨none, none⟩

def prefaceText (r : Reader) : Text := (r.preface.map Preface.text).getD []

def addBlank (r : Reader) (line : Nat) (comment : Option Text) : Reader :=
  match r.preface, comment with
  | none, none => r
  | none, some comment => { r with preface := some ⟨line, comment ++ ['\n']⟩ }
  | some p, comment => { r with preface := some { p with text := p.text ++ comment.getD [] ++ ['\n'] } }

/-- the code that is complete up to here, if a line has code -/
def gather (r : Reader) (line : Nat) (code : Text) (comment : Option Text) : Option CodeLine :=
  match r.pending with
  | some l => some (l.append code comment)
  | none => if Text.isVisible code then some ⟨line, Text.trim code, comment.getD []⟩ else none

/-- takes in a line: what is carried on, and the blocks that are complete -/
def advance (r : Reader) (line : Nat) (raw : Text) : Except ScriptError (Reader × List Block) :=
  let (code, comment) := splitComment raw
  match r.gather line code comment with
  | none => .ok (r.addBlank line comment, [])
  | some l =>
    match l.unfinished? with
    | some l => .ok ({ r with pending := some l }, [])
    | none => (l.blocks r.prefaceText).map (empty, ·)

def finish (r : Reader) : Except ScriptError (List Block) :=
  match r.pending, r.preface with
  | some l, _ => l.blocks r.prefaceText
  | none, some p => .ok [⟨p.line, p.text, p.text, [], .comment⟩]
  | none, none => .ok []

/-- the blocks of the remaining lines, the first of which has the given number -/
def readFrom (r : Reader) (line : Nat) : List Text → Except ScriptError (List Block)
  | [] => r.finish
  | raw :: rest => do
    let (r, blocks) ← r.advance line raw
    let later ← r.readFrom (line + 1) rest
    return blocks ++ later

/-- A line gives its blocks, and what is carried on reads the others. -/
theorem readFrom_cons {r r' : Reader} {line : Nat} {raw : Text} {blocks : List Block}
    (h : r.advance line raw = .ok (r', blocks)) (rest : List Text) :
    r.readFrom line (raw :: rest) = (r'.readFrom (line + 1) rest).map (blocks ++ ·) := by
  rw [readFrom, h]
  cases hlater : r'.readFrom (line + 1) rest with
  | error e => simp [hlater, bind, Except.bind, Except.map]
  | ok later => simp [hlater, bind, Except.bind, Except.map, pure, Except.pure]

end Reader

def readBlocks (script : Text) : Except ScriptError (List Block) := Reader.empty.readFrom 1 (Text.lines script)

end MissionScript
