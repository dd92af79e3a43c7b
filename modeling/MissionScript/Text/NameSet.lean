/-
Sets of names.

A set is the list of its names in the order of their characters, without repetition. `mem_insert` and `size_insert` say
what an insertion does.
-/
import MissionScript.Text.Basic

namespace MissionScript

/-- puts a name into an ordered list, unless it is there -/
def insertOrdered (name : Text) : List Text → List Text
  | [] => [name]
  | x :: xs => if name < x then name :: x :: xs else if name = x then x :: xs else x :: insertOrdered name xs

theorem mem_insertOrdered {name x : Text} {xs : List Text} : x ∈ insertOrdered name xs ↔ x = name ∨ x ∈ xs := by
  induction xs with
  | nil => simp [insertOrdered]
  | cons y ys ih =>
    unfold insertOrdered
    split
    · simp
    · split
      · next h => simp [h]
      · simp only [List.mem_cons, ih]
        constructor <;> rintro (h | h | h) <;> simp [h]

theorem pairwise_insertOrdered {name : Text} {xs : List Text} (h : xs.Pairwise (· < ·)) :
    (insertOrdered name xs).Pairwise (· < ·) := by
  induction xs with
  | nil => simp [insertOrdered]
  | cons y ys ih =>
    obtain ⟨hy, hys⟩ := List.pairwise_cons.1 h
    unfold insertOrdered
    split
    · next hlt =>
      refine List.pairwise_cons.2 ⟨fun x hx => ?_, h⟩
      rcases List.mem_cons.1 hx with rfl | hx
      · exact hlt
      · exact List.lt_trans hlt (hy x hx)
    · next hlt =>
      split
      · exact h
      · next hne =>
        refine List.pairwise_cons.2 ⟨fun x hx => ?_, ih hys⟩
        rcases mem_insertOrdered.1 hx with rfl | hx
        · have hle := List.not_lt.1 hlt
          exact Classical.not_not.1 fun hgt => hne (List.le_antisymm (List.not_lt.1 hgt) hle)
        · exact hy x hx

theorem length_insertOrdered {name : Text} {xs : List Text} (h : name ∉ xs) :
    (insertOrdered name xs).length = xs.length + 1 := by
  induction xs with
  | nil => rfl
  | cons y ys ih =>
    obtain ⟨hne, hys⟩ : name ≠ y ∧ name ∉ ys := by simpa using h
    unfold insertOrdered
    split
    · rfl
    · simp [ih hys]

structure NameSet where
  toList : List Text
  ordered : toList.Pairwise (· < ·)

namespace NameSet

def empty : NameSet := ⟨[], .nil⟩

def contains (names : NameSet) (name : Text) : Bool := names.toList.contains name

def insert (names : NameSet) (name : Text) : NameSet :=
  ⟨insertOrdered name names.toList, pairwise_insertOrdered names.ordered⟩

def ofList (names : List Text) : NameSet := names.foldl insert empty

def size (names : NameSet) : Nat := names.toList.length

theorem contains_insert (names : NameSet) (name x : Text) :
    (names.insert name).contains x = (x == name || names.contains x) := by
  rw [Bool.eq_iff_iff]
  simp [contains, insert, mem_insertOrdered]

theorem size_insert {names : NameSet} {name : Text} (h : names.contains name = false) :
    (names.insert name).size = names.size + 1 :=
  length_insertOrdered (by simpa [contains] using h)

end NameSet

end MissionScript
