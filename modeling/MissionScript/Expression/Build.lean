/-
From the text of an expression to nodes.

`buildWith` takes a text apart level by level and has a builder make a node for each part, operands before operators and
from left to right. The first fault ends it; what the builder did before stays done. `build` makes a tree and `parse` first
learns the functions that the text refers to.
-/
import MissionScript.Expression.Decomposition

namespace MissionScript

/-- what may be passed to a function -/
inductive Nesting where
  /-- any expression -/
  | allow
  /-- only operands without operators -/
  | reject
  deriving DecidableEq, Repr

/-- how the nodes of an expression are made -/
structure Builder (m : Type → Type) (α : Type) where
  leaf : Text → m α
  unary : UnaryOp → α → m α
  binary : BinaryOp → α → α → m α
  /-- a call with the texts and the nodes of its arguments -/
  call : Callee → List Text → List α → m α

/-- refuses an operand that is blank -/
def requireOperand (consumer : Consumer) (operand : Text) : Except ParseError Unit :=
  if Text.isVisible operand then .ok () else .error (.missingOperand consumer)

/-- refuses an argument that is blank, or an equation where none is allowed -/
def requireArgument (nesting : Nesting) (voc : Vocabulary) (function argument : Text) : Except ParseError Unit := do
  requireOperand (.function function) argument
  if nesting = .reject then
    if ← isEquation voc argument then throw (.equationArgument function argument)

theorem length_argumentTexts_le (inside : Text) :
    (argumentTexts inside).flatten.length + (argumentTexts inside).length ≤ inside.length + 1 := by
  unfold argumentTexts
  split
  · have h := Cell.length_splitFrom ',' 0 (cells inside)
    rw [length_cells] at h
    rw [← h, Cell.split]
    generalize Cell.splitFrom ',' 0 (cells inside) = parts
    induction parts with
    | nil => simp
    | cons part parts ih =>
      have := Text.length_trim_le part
      simp only [List.map_cons, List.flatten_cons, List.length_append, List.length_cons] at ih ⊢
      omega
  · simp

section

variable {m : Type → Type} {α : Type} [Monad m] [MonadExcept ParseError m]

mutual

def buildWith (b : Builder m α) (nesting : Nesting) (voc : Vocabulary) (t : Text) : m α :=
  match _h : decompose voc t with
  | .error e => throw e
  | .ok (.leaf text) => if text.isEmpty then throw (.missingOperand .expression) else b.leaf text
  | .ok (.unary op operand) => do
    MonadExcept.ofExcept (requireOperand (.unary op) operand)
    let node ← buildWith b nesting voc operand
    b.unary op node
  | .ok (.binary op left right) => do
    MonadExcept.ofExcept (requireOperand (.binary op) left)
    MonadExcept.ofExcept (requireOperand (.binary op) right)
    let leftNode ← buildWith b nesting voc left
    let rightNode ← buildWith b nesting voc right
    b.binary op leftNode rightNode
  | .ok (.call callee inside) => do
    let nodes ← buildArguments b nesting voc callee.name (argumentTexts inside)
    b.call callee (argumentTexts inside) nodes
termination_by t.length
decreasing_by
  · exact within_decompose _h
  · exact (within_decompose _h).1
  · exact (within_decompose _h).2
  · have hlen : inside.length + 2 ≤ t.length := within_decompose _h
    exact Nat.lt_of_le_of_lt (length_argumentTexts_le inside) (by omega)

def buildArguments (b : Builder m α) (nesting : Nesting) (voc : Vocabulary) (function : Text) :
    List Text → m (List α)
  | [] => pure []
  | argument :: rest => do
    MonadExcept.ofExcept (requireArgument nesting voc function argument)
    let node ← buildWith b nesting voc argument
    let nodes ← buildArguments b nesting voc function rest
    return node :: nodes
termination_by arguments => arguments.flatten.length + arguments.length
decreasing_by
  · simp only [List.flatten_cons, List.length_append, List.length_cons]; omega
  · simp only [List.flatten_cons, List.length_append, List.length_cons]; omega

end

theorem buildWith_eq (b : Builder m α) (nesting : Nesting) (voc : Vocabulary) (t : Text) :
    buildWith b nesting voc t =
      (match decompose voc t with
      | .error e => throw e
      | .ok (.leaf text) => if text.isEmpty then throw (.missingOperand .expression) else b.leaf text
      | .ok (.unary op operand) => do
        MonadExcept.ofExcept (requireOperand (.unary op) operand)
        let node ← buildWith b nesting voc operand
        b.unary op node
      | .ok (.binary op left right) => do
        MonadExcept.ofExcept (requireOperand (.binary op) left)
        MonadExcept.ofExcept (requireOperand (.binary op) right)
        let leftNode ← buildWith b nesting voc left
        let rightNode ← buildWith b nesting voc right
        b.binary op leftNode rightNode
      | .ok (.call callee inside) => do
        let nodes ← buildArguments b nesting voc callee.name (argumentTexts inside)
        b.call callee (argumentTexts inside) nodes) := by
  rw [buildWith]
  split <;> simp_all

end

namespace Expression

/-- makes trees; only calls of the script's own functions keep the texts of their arguments -/
def builder : Builder (Except ParseError) Expression where
  leaf text := .ok (.leaf text)
  unary op operand := .ok (.unary op operand)
  binary op left right := .ok (.binary op left right)
  call callee inputs arguments := .ok (.call callee arguments (if callee.kind = .userDefined then inputs else []))

def build (nesting : Nesting) (voc : Vocabulary) (t : Text) : Except ParseError Expression :=
  buildWith builder nesting voc t

/-- learns the functions of a text and builds it; what was learned stays even if the text is no expression -/
def parse (finds : Text → Bool) (voc : Vocabulary) (t : Text) : Except ParseError Expression × Vocabulary :=
  (build .allow (voc.learn finds t) t, voc.learn finds t)

/-- parses texts independently of each other: each has its own copy of the vocabulary, which is handed on without what
the copies learn -/
def parseEach (finds : Text → Bool) (voc : Vocabulary) : List Text → List (Except ParseError Expression) × Vocabulary
  | [] => ([], voc)
  | t :: texts =>
    let session := voc
    let (result, _) := parse finds session t
    let (results, voc) := parseEach finds voc texts
    (result :: results, voc)

def parseMany (finds : Text → Bool) (voc : Vocabulary) (texts : List Text) : List (Except ParseError Expression) :=
  (parseEach finds voc texts).1

def referenceNames (t : Text) : NameSet := .ofList (Text.references t)

end Expression

end MissionScript
