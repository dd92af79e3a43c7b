/-
Grouping parentheses.

Live parentheses nest, and what they enclose is hidden from the level outside. `split` and `cut` divide a text at a
separator on the outermost level, where a closer without an opener leaves the depth at zero. `enclosed` recognises
`head(inside)` when the first parenthesis closes at the very end. `Juxtaposed` texts have a group directly after a group.
-/
import MissionScript.Cell.Basic

namespace MissionScript.Cell

def depthAfter (depth : Nat) (cell : Cell) : Nat :=
  if cell.holds '(' then depth + 1 else if cell.holds ')' then depth - 1 else depth

/-- divides at every separator on the outermost level, from a given depth on -/
def splitFrom (sep : Char) (depth : Nat) : List Cell → List Text
  | [] => [[]]
  | cell :: rest =>
    if depth == 0 && cell.holds sep then [] :: splitFrom sep 0 rest
    else consFirst cell.char (splitFrom sep (depthAfter depth cell) rest)

/-- the parts between the separators on the outermost level -/
def split (sep : Char) (cs : List Cell) : List Text := splitFrom sep 0 cs

def cutFrom (sep : Char) (depth : Nat) : List Cell → Option (Text × Text)
  | [] => none
  | cell :: rest =>
    if depth == 0 && cell.holds sep then some ([], text rest)
    else (cutFrom sep (depthAfter depth cell) rest).map fun (left, right) => (cell.char :: left, right)

/-- the texts before and after the first separator on the outermost level -/
def cut (sep : Char) (cs : List Cell) : Option (Text × Text) := cutFrom sep 0 cs

/-- true when the parentheses open so far are closed by the last cell and not before -/
def closesAtEnd (depth : Nat) : List Cell → Bool
  | [] => false
  | cell :: rest => if depthAfter depth cell = 0 then rest.isEmpty else closesAtEnd (depthAfter depth cell) rest

/-- the text before the first parenthesis and the text inside, when that parenthesis closes at the very end -/
def enclosed (cs : List Cell) : Option (Text × Text) :=
  match cs.dropWhile fun cell => !cell.holds '(' with
  | [] => none
  | _ :: inner =>
    if closesAtEnd 1 inner then some (text (cs.takeWhile fun cell => !cell.holds '('), text inner.dropLast) else none

/-- true when a `(` comes directly after a `)` -/
def meetGroups : Text → Bool
  | [] => false
  | ')' :: '(' :: _ => true
  | _ :: rest => meetGroups rest

/-- true when a group follows a group with nothing live but blanks between them -/
def juxtaposed (cs : List Cell) : Bool :=
  meetGroups (text (cs.filter fun cell => cell.isLive && !isAsciiBlank cell.char))

theorem length_enclosed {cs : List Cell} {head inside : Text} (h : enclosed cs = some (head, inside)) :
    head.length + inside.length + 2 ≤ cs.length := by
  unfold enclosed at h
  split at h
  · simp at h
  · next open' inner hdrop =>
    split at h
    · next hclose =>
      simp only [Option.some.injEq, Prod.mk.injEq] at h
      obtain ⟨rfl, rfl⟩ := h
      have hlen := congrArg List.length (List.takeWhile_append_dropWhile (p := fun cell => !holds '(' cell) (l := cs))
      cases inner with
      | nil => simp [closesAtEnd] at hclose
      | cons cell rest => simp [hdrop, length_text] at hlen ⊢; omega
    · simp at h

/-- The parts of a division and the separators between them have the length of the whole. -/
theorem length_splitFrom (sep : Char) (depth : Nat) (cs : List Cell) :
    (splitFrom sep depth cs).flatten.length + (splitFrom sep depth cs).length = cs.length + 1 := by
  induction cs generalizing depth with
  | nil => rfl
  | cons cell rest ih =>
    unfold splitFrom
    split
    · have h := ih 0
      simp only [List.flatten_cons, List.nil_append, List.length_cons]
      omega
    · have h := ih (depthAfter depth cell)
      cases hs : splitFrom sep (depthAfter depth cell) rest with
      | nil => simp [hs] at h
      | cons part parts =>
        simp only [hs, List.flatten_cons, List.length_append, List.length_cons, consFirst] at h ⊢
        omega

end MissionScript.Cell
