/-
The order in which an expression is built.

A journal notes each node as it is made. Operands come before their operator, so a finished journal is the expression in
postfix order; an unfinished one shows how far the building came.
-/
import MissionScript.Expression.Build

namespace MissionScript

/-- the making of a node -/
inductive Event where
  | leaf (text : Text)
  | unary (op : UnaryOp)
  | binary (op : BinaryOp)
  /-- a call, with the number of nodes and the texts of its arguments -/
  | call (callee : Callee) (arguments : Nat) (inputs : List Text)
  deriving DecidableEq, Repr

/-- a building that keeps a journal -/
abbrev Journaled := ExceptT ParseError (StateM (List Event))

namespace Event

def note (e : Event) : Journaled Unit := modify fun events => events ++ [e]

/-- makes no nodes but notes that they are made -/
def builder : Builder Journaled Unit where
  leaf text := note (.leaf text)
  unary op _ := note (.unary op)
  binary op _ _ := note (.binary op)
  call callee inputs arguments := note (.call callee arguments.length inputs)

end Event

/-- the journal of an expression, and the fault that ended it -/
def journal (nesting : Nesting) (voc : Vocabulary) (t : Text) : Except ParseError Unit × List Event :=
  (buildWith Event.builder nesting voc t).run.run []

end MissionScript
