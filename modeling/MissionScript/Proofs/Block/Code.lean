/-
The code of a line.

A text is `IsCode` when it is `Closed` and holds no comment. Behind closed code everything is read as on its own.

- `IsCode.append`: code and code with a semicolon or a blank between them is code.
- `IsCode.splitComment_append`: a `%` behind code begins the comment of the line.
- `splitComment_eq_self`: a line without such a `%` is code throughout.
-/
import MissionScript.Block.Basic
import MissionScript.Proofs.Cell.Part

namespace MissionScript

open Cell Posture

variable {t u b : Text} {c : Char}

/-- code without a comment, which leaves nothing open -/
structure IsCode (t : Text) : Prop extends Closed t where
  uncommented : ∀ cell ∈ cells t, cell.holds '%' = false

theorem IsCode.nil : IsCode [] where
  strings := rfl
  brackets := rfl
  uncommented := by simp [cells, cellsFrom]

/-! ## Code behind code -/

/-- characters between statements, and between code and a comment -/
def breaks : Text := [';', ' ', '\t']

/-- A break, or the sign of a comment, stands for itself and completes nothing. -/
theorem stops_of_mem (hc : c ∈ '%' :: breaks) (t : Text) : Stops c t := by
  have hall : ∀ c ∈ '%' :: breaks, c ≠ '+' ∧ c ≠ '-' ∧ c.isDigit = false ∧ c ∉ ['(', ')'] :=
    List.all_iff_forall_prop.1 (by decide)
  obtain ⟨hplus, hminus, hdigit, hparen⟩ := hall c hc
  exact ⟨hplus, hminus, hdigit, fun h => absurd h hparen⟩

theorem advance_of_mem (hc : c ∈ '%' :: breaks) (before rest : Text) :
    advance ⟨.code, 0, before⟩ c rest = (.live, ⟨.code, 0, c :: before⟩) := by
  have hall : ∀ c ∈ '%' :: breaks, isEncloser c = false ∧ c ≠ '^' ∧ c ≠ 'e' ∧ c ≠ 'E' :=
    List.all_iff_forall_prop.1 (by decide)
  obtain ⟨hencloser, hcaret, he, hE⟩ := hall c hc
  exact advance_live hencloser (fun h => absurd h hcaret) fun h => (h.elim he hE).elim

theorem followsOperand_break (hc : c ∈ breaks) (before : Text) : followsOperand (c :: before) = false := by
  have hall : ∀ c ∈ breaks, (isWordChar c || c == '.' || c == ')' || c == ']' || c == '}' || c == '\'') = false :=
    List.all_iff_forall_prop.1 (by decide)
  exact hall c hc

theorem Closed.cells_append (h : Closed t) (hc : c ∈ '%' :: breaks) (u : Text) :
    cells (t ++ c :: u) = cells t ++ ⟨c, .live⟩ :: cellsFrom ⟨.code, 0, c :: t.reverse⟩ u := by
  have happend : cells (t ++ c :: u) = cells t ++ cellsFrom (start.after t) (c :: u) :=
    cellsFrom_append (stops_of_mem hc) start t u
  rw [happend, h.after_eq, cellsFrom, advance_of_mem hc]

/-- Behind closed code and a break a text is read as on its own. -/
theorem Closed.cells_append_break (h : Closed t) (hc : c ∈ breaks) (u : Text) :
    cells (t ++ c :: u) = cells t ++ ⟨c, .live⟩ :: cells u := by
  have hbehind : cellsFrom ⟨.code, 0, c :: t.reverse⟩ u = cells u :=
    cellsFrom_behind (followsOperand_break hc t.reverse) [] u
  rw [h.cells_append (List.mem_cons_of_mem _ hc), hbehind]

theorem Closed.append (ht : Closed t) (hc : c ∈ breaks) (hu : Closed u) : Closed (t ++ c :: u) := by
  have hafter : start.after (t ++ c :: u) = (start.after u).below (c :: t.reverse) := by
    calc start.after (t ++ c :: u)
        = (start.after t).after (c :: u) := after_append (stops_of_mem (List.mem_cons_of_mem _ hc)) start t u
      _ = Posture.after ⟨.code, 0, c :: t.reverse⟩ u := by
          rw [ht.after_eq, after, advance_of_mem (List.mem_cons_of_mem _ hc)]
      _ = _ := after_below (followsOperand_break hc _) start u
  exact ⟨by rw [hafter]; exact hu.strings, by rw [hafter]; exact hu.brackets⟩

theorem IsCode.append (ht : IsCode t) (hc : c ∈ breaks) (hu : IsCode u) : IsCode (t ++ c :: u) where
  toClosed := ht.toClosed.append hc hu.toClosed
  uncommented := by
    rw [ht.cells_append_break hc]
    intro cell hcell
    rcases List.mem_append.1 hcell with hcell | hcell
    · exact ht.uncommented cell hcell
    · rcases List.mem_cons.1 hcell with rfl | hcell
      · have hall : ∀ c ∈ breaks, Cell.holds '%' ⟨c, .live⟩ = false := List.all_iff_forall_prop.1 (by decide)
        exact hall c hc
      · exact hu.uncommented cell hcell

theorem IsCode.of_gap (hb : Gap b) : IsCode b := by
  induction b with
  | nil => exact .nil
  | cons c b ih =>
    have hc : c ∈ breaks := by rcases hb c List.mem_cons_self with rfl | rfl <;> decide
    exact IsCode.nil.append hc (ih fun d hd => hb d (List.mem_cons_of_mem _ hd))

theorem IsCode.append_gap (h : IsCode t) (hb : Gap b) : IsCode (t ++ b) := by
  cases b with
  | nil => rwa [List.append_nil]
  | cons c b =>
    have hc : c ∈ breaks := by rcases hb c List.mem_cons_self with rfl | rfl <;> decide
    exact h.append hc (.of_gap fun d hd => hb d (List.mem_cons_of_mem _ hd))

/-! ## Code and comment -/

theorem splitComment_eq_self (h : ∀ cell ∈ cells t, cell.holds '%' = false) : splitComment t = (t, none) := by
  have htake : (cells t).takeWhile (fun cell => !cell.holds '%') = cells t :=
    List.takeWhile_eq_self_iff.2 fun cell hcell => by simp [h cell hcell]
  have hdrop : (cells t).dropWhile (fun cell => !cell.holds '%') = [] :=
    List.dropWhile_eq_nil_iff.2 fun cell hcell => by simp [h cell hcell]
  simp only [splitComment, htake, hdrop, text_cells]
  rfl

theorem IsCode.splitComment_append (h : IsCode t) (comment : Text) :
    splitComment (t ++ '%' :: comment) = (t, some (Text.trimEnd ('%' :: comment))) := by
  have hcells := h.cells_append List.mem_cons_self comment
  have hcode : ∀ cell ∈ cells t, (!cell.holds '%') = true := fun cell hcell => by simp [h.uncommented cell hcell]
  have hsign : (!Cell.holds '%' ⟨'%', .live⟩) = false := rfl
  simp only [splitComment, hcells, List.takeWhile_append_of_pos hcode, List.dropWhile_append_of_pos hcode,
    List.takeWhile_cons, List.dropWhile_cons, hsign]
  have htext : text (⟨'%', .live⟩ :: cellsFrom ⟨.code, 0, '%' :: t.reverse⟩ comment) = '%' :: comment :=
    congrArg (List.cons '%') (text_cellsFrom comment _)
  simp [text_cells, htext]

end MissionScript
