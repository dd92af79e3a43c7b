/-
Which comments are found.

The comment of a line begins at the first `%` outside strings; the comment that is found begins where the code ends. The
number of `%` measures what is missing.

- `count_foundComments`: what is found holds no more signs than there are, and as many only if bracket literals are closed
  before the comments of their lines.
- `foundComments_eq`: in such lines what is found are the comments.
-/
import MissionScript.Proofs.Block.Comments

namespace MissionScript

open Cell

variable {line : Text}

namespace Text

/-- what stands behind the code of a line, up to the blanks that the line ends in -/
def behind? (code line : Text) : Option Text :=
  if (line.drop code.length).isEmpty then none else some (trimEnd (line.drop code.length))

def comment? (line : Text) : Option Text := behind? (uncommented line) line

def comments (script : Text) : List Text := (lines script).filterMap comment?

theorem count_trimEnd (t : Text) : (trimEnd t).count '%' = t.count '%' := by
  obtain ⟨b, hb, ht⟩ := exists_eq_trimEnd_append t
  have hnone : b.count '%' = 0 := List.count_eq_zero.2 fun hmem => absurd (hb '%' hmem) (by decide)
  conv_rhs => rw [ht, List.count_append, hnone]
  rfl

/-- The code of a line and its comment hold the signs that the line holds. -/
theorem count_behind? {code : Text} (h : code <+: line) :
    code.count '%' + ((behind? code line).getD []).count '%' = line.count '%' := by
  obtain ⟨rest, rfl⟩ := h
  rw [behind?, List.drop_left, List.count_append]
  split_ifs with hrest
  · obtain rfl := List.isEmpty_iff.1 hrest
    rfl
  · rw [Option.getD_some, count_trimEnd]

end Text

/-- the comments that are found in some lines -/
def foundComments (lines : List Text) : List Text := lines.filterMap fun raw => (splitComment raw).2

/-- A line is its code and a rest, which is empty or begins with the sign of a comment. -/
theorem splitComment_eq (raw : Text) :
    ∃ rest, raw = (splitComment raw).1 ++ rest ∧
      (splitComment raw).2 = (if rest.isEmpty then none else some (Text.trimEnd rest)) ∧ ∀ c ∈ rest.head?, c = '%' := by
  refine ⟨text ((cells raw).dropWhile fun cell => !cell.holds '%'), ?_, ?_, ?_⟩
  · change raw = text _ ++ text _
    rw [text, text, ← List.map_append, List.takeWhile_append_dropWhile]
    exact (text_cells raw).symm
  · rw [text, List.isEmpty_map]
    rfl
  · intro c hc
    obtain ⟨cell, hcell, rfl⟩ := Option.map_eq_some_iff.1 (List.head?_map.symm.trans hc)
    have hholds := List.head?_dropWhile_not (fun cell : Cell => !cell.holds '%') (cells raw)
    rw [hcell] at hholds
    have hsign : cell.holds '%' = true := by simpa using hholds
    exact beq_iff_eq.1 (Bool.and_eq_true_iff.1 hsign).2

theorem splitComment_snd (raw : Text) : (splitComment raw).2 = Text.behind? (splitComment raw).1 raw := by
  obtain ⟨rest, hraw, hcomment, -⟩ := splitComment_eq raw
  have hrest := congrArg (List.drop (splitComment raw).1.length) hraw
  rw [List.drop_left] at hrest
  rw [hcomment, Text.behind?, hrest]

theorem percent_mem_of_found {raw comment : Text} (h : (splitComment raw).2 = some comment) : '%' ∈ comment := by
  obtain ⟨rest, -, hcomment, hsign⟩ := splitComment_eq raw
  rw [hcomment] at h
  split_ifs at h with hrest
  obtain rfl := Option.some.inj h
  rw [← List.count_pos_iff, Text.count_trimEnd, List.count_pos_iff]
  cases rest with
  | nil => exact absurd rfl hrest
  | cons c rest => exact hsign c rfl ▸ List.mem_cons_self

theorem percent_mem_of_mem_foundComments {lines : List Text} : ∀ comment ∈ foundComments lines, '%' ∈ comment := by
  intro comment hcomment
  obtain ⟨raw, -, hraw⟩ := List.mem_filterMap.1 hcomment
  exact percent_mem_of_found hraw

theorem uncommented_prefix_code (line : Text) : Text.uncommented line <+: (splitComment line).1 := by
  have hquoted := not_holds_uncommented line
  rcases uncommented_eq_or line with hself | ⟨⟨comment, hcomment⟩, -⟩
  · rw [hself] at hquoted
    rw [splitComment_eq_self hquoted, hself]
  · generalize Text.uncommented line = u at *
    have hcells : cells line = cells u ++ cellsFrom (Posture.start.after u) ('%' :: comment) := by
      rw [hcomment]
      exact Posture.cellsFrom_append (stops_of_mem List.mem_cons_self) Posture.start u comment
    have hbefore : ∀ cell ∈ cells u, (!cell.holds '%') = true := fun cell hcell => by simp [hquoted cell hcell]
    simp only [splitComment, hcells, List.takeWhile_append_of_pos hbefore, text, List.map_append]
    rw [← text, text_cells]
    exact List.prefix_append _ _

/-- Between the cut and the comment that is found a line holds as many signs as the comment that is found lacks, and none
only if bracket literals are closed before the comment. -/
theorem exists_code_eq (line : Text) :
    ∃ missed, (splitComment line).1 = Text.uncommented line ++ missed ∧
      ((Text.comment? line).getD []).count '%' = ((splitComment line).2.getD []).count '%' + missed.count '%' ∧
      (missed.count '%' = 0 → ClosesBeforeComment line) := by
  obtain ⟨missed, hmissed⟩ := uncommented_prefix_code line
  obtain ⟨rest, hline, -, -⟩ := splitComment_eq line
  refine ⟨missed, hmissed.symm, ?_, fun hnone => ?_⟩
  · have hcut : Text.uncommented line <+: line := Text.uncommentedFrom_prefix none [] line
    have hall := Text.count_behind? hcut
    have hfound := Text.count_behind? (List.prefix_iff_exists_append_eq.2 ⟨rest, hline.symm⟩)
    rw [← splitComment_snd, ← hmissed, List.count_append] at hfound
    rw [Text.comment?]
    omega
  · rw [← code_eq_uncommented_iff, ← hmissed]
    rw [← hmissed, List.append_assoc] at hline
    rcases uncommented_eq_or line with hself | ⟨⟨comment, hcomment⟩, -⟩
    · have hlength := congrArg List.length hline
      rw [hself, List.length_append, List.length_append] at hlength
      rw [List.eq_nil_of_length_eq_zero (by omega : missed.length = 0), List.append_nil]
    · -- what stands behind the cut begins with a sign
      cases missed with
      | nil => rw [List.append_nil]
      | cons c missed =>
        have hsign := (List.cons.inj (List.append_cancel_left (hline.symm.trans hcomment))).1
        rw [hsign, List.count_cons_self] at hnone
        exact absurd hnone (Nat.succ_ne_zero _)

/-- The signs that the first line adds to those of the other lines. -/
theorem count_flatten_filterMap_cons (f : Text → Option Text) (raw : Text) (lines : List Text) :
    ((raw :: lines).filterMap f).flatten.count '%' =
      ((f raw).getD []).count '%' + (lines.filterMap f).flatten.count '%' := by
  cases hraw : f raw with
  | none => rw [List.filterMap_cons_none hraw]; exact (Nat.zero_add _).symm
  | some comment => rw [List.filterMap_cons_some hraw, List.flatten_cons, List.count_append]; rfl

/-- No more comments are found than there are, and all of them only where bracket literals are closed before them. -/
theorem count_foundComments (lines : List Text) :
    (foundComments lines).flatten.count '%' ≤ (lines.filterMap Text.comment?).flatten.count '%' ∧
      ((lines.filterMap Text.comment?).flatten.count '%' ≤ (foundComments lines).flatten.count '%' →
        ∀ line ∈ lines, ClosesBeforeComment line) := by
  induction lines with
  | nil => exact ⟨Nat.le_refl _, fun _ line hline => absurd hline List.not_mem_nil⟩
  | cons raw lines ih =>
    obtain ⟨hle, hclosed⟩ := ih
    obtain ⟨missed, -, hcount, hmissed⟩ := exists_code_eq raw
    rw [foundComments, count_flatten_filterMap_cons, count_flatten_filterMap_cons, ← foundComments]
    refine ⟨by omega, fun hall => ?_⟩
    rw [List.forall_mem_cons]
    exact ⟨hmissed (by omega), hclosed (by omega)⟩

/-- Where bracket literals are closed the comments that are found are those that there are. -/
theorem foundComments_eq {lines : List Text} (h : ∀ line ∈ lines, ClosesBeforeComment line) :
    foundComments lines = lines.filterMap Text.comment? := by
  refine List.filterMap_congr fun line hline => ?_
  rw [splitComment_snd, (code_eq_uncommented_iff line).2 (h line hline)]
  rfl

end MissionScript
