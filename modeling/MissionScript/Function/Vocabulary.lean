/-
The functions a script can call.

A vocabulary holds the script's own functions next to the built-in ones, which hide a function of the script with the same
name. It only grows: `learn` goes through the references of a text and adds each plain name that is no function yet and
that the finder knows.
-/
import MissionScript.Function.Basic
import MissionScript.Lexeme.Basic
import MissionScript.Text.NameSet

namespace MissionScript

/-- the functions known at some point -/
structure Vocabulary where
  userDefined : NameSet

namespace Vocabulary

/-- only the built-in functions -/
def initial : Vocabulary := ⟨.empty⟩

def hasUserDefined (voc : Vocabulary) (name : Text) : Bool :=
  voc.userDefined.contains name || (lowerFirst name).any voc.userDefined.contains

/-- true when the name stands for a function of the kind, whatever else it stands for -/
def knows (voc : Vocabulary) (name : Text) : FunctionKind → Bool
  | .userDefined => voc.hasUserDefined name
  | kind => (Builtin.lookup name).any fun f => f.kind == kind

def kind? (voc : Vocabulary) (name : Text) : Option FunctionKind :=
  match Builtin.lookup name with
  | some f => some f.kind
  | none => if voc.hasUserDefined name then some .userDefined else none

def arity? (voc : Vocabulary) (name : Text) : Option Arity :=
  match Builtin.lookup name with
  | some f => some (.exact f.arity)
  | none => if voc.hasUserDefined name then some .variadic else none

/-- a vocabulary, how many functions it has gained, and the names the finder was asked for -/
structure Discovery where
  vocabulary : Vocabulary
  added : Nat
  asked : List Text

/-- what comes of meeting a reference -/
def Discovery.meet (finds : Text → Bool) (d : Discovery) (reference : Text) : Discovery :=
  if Reference.isDotted reference || (d.vocabulary.kind? reference).isSome then d
  else if finds reference then
    ⟨⟨d.vocabulary.userDefined.insert reference⟩, d.added + 1, d.asked ++ [reference]⟩
  else { d with asked := d.asked ++ [reference] }

def discover (voc : Vocabulary) (finds : Text → Bool) (t : Text) : Discovery :=
  (Text.references t).foldl (Discovery.meet finds) ⟨voc, 0, []⟩

/-- the vocabulary after meeting a text -/
def learn (voc : Vocabulary) (finds : Text → Bool) (t : Text) : Vocabulary := (voc.discover finds t).vocabulary

end Vocabulary

end MissionScript
