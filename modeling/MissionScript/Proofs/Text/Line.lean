/-
What the lines of a text are.

- `lines_unlines`: what is written line by line is read back line by line, but for a carriage return that ends a line.
- `lines_unlines_append`: the same with more text behind it, which may be a last line that is not ended.
-/
import Mathlib.Tactic
import MissionScript.Text.Line

namespace MissionScript.Text

variable {l t : Text} {ls : List Text}

/-- a line without the carriage return it ends in -/
def chop : Text → Text
  | [] => []
  | ['\r'] => []
  | c :: rest => c :: chop rest

/-- every line followed by a line feed -/
def unlines (ls : List Text) : Text := ls.flatMap fun l => l ++ ['\n']

theorem chop_eq_self (h : l.getLast? ≠ some '\r') : chop l = l := by
  fun_induction chop l with
  | case1 => rfl
  | case2 => exact absurd rfl h
  | case3 c rest hc ih =>
    cases rest with
    | nil => rfl
    | cons d rest => rw [ih (by simpa using h)]

/-- What is cut off is a carriage return, if anything. -/
theorem exists_eq_chop_append (l : Text) : ∃ r, (r = [] ∨ r = ['\r']) ∧ l = chop l ++ r := by
  fun_induction chop l with
  | case1 => exact ⟨[], .inl rfl, rfl⟩
  | case2 => exact ⟨['\r'], .inr rfl, rfl⟩
  | case3 c rest hc ih =>
    obtain ⟨r, hr, hrest⟩ := ih
    exact ⟨r, hr, congrArg (List.cons c) hrest⟩

theorem lines_append_newline (h : '\n' ∉ l) (t : Text) : lines (l ++ '\n' :: t) = chop l :: lines t := by
  fun_induction chop l with
  | case1 => rfl
  | case2 => rfl
  | case3 c rest hc ih =>
    obtain ⟨hfeed, hrest⟩ := List.ne_and_not_mem_of_not_mem_cons h
    have hending : ∀ u, c = '\r' → rest ++ '\n' :: t = '\n' :: u → False := by
      intro u hreturn hu
      cases rest with
      | nil => exact hc hreturn rfl
      | cons d rest => exact hrest (List.mem_cons.2 (.inl (List.cons.inj hu).1.symm))
    rw [List.cons_append, lines, ih hrest]
    · rfl
    · exact fun h => hfeed h.symm
    · exact hending

/-- **What is written line by line is read back line by line**, but for the carriage returns that end lines. -/
theorem lines_unlines_append (h : ∀ l ∈ ls, '\n' ∉ l) (t : Text) :
    lines (unlines ls ++ t) = ls.map chop ++ lines t := by
  induction ls with
  | nil => rfl
  | cons l ls ih =>
    calc lines (unlines (l :: ls) ++ t)
        = lines (l ++ '\n' :: (unlines ls ++ t)) := by simp [unlines]
      _ = chop l :: lines (unlines ls ++ t) := lines_append_newline (h l List.mem_cons_self) _
      _ = (l :: ls).map chop ++ lines t := by rw [ih fun l hl => h l (List.mem_cons_of_mem _ hl)]; rfl

theorem lines_eq_singleton (hne : l ≠ []) (h : '\n' ∉ l) : lines l = [l] := by
  induction l with
  | nil => exact absurd rfl hne
  | cons c rest ih =>
    obtain ⟨hfeed, hrest⟩ := List.ne_and_not_mem_of_not_mem_cons h
    rw [lines]
    · cases rest with
      | nil => rfl
      | cons d rest => rw [ih (by simp) hrest]; rfl
    · exact fun h => hfeed h.symm
    · intro u _ hu
      exact hrest (hu ▸ List.mem_cons_self)

/-- no line feed, and no carriage return that would be taken for a part of one -/
structure IsLine (l : Text) : Prop where
  newline : '\n' ∉ l
  ending : l.getLast? ≠ some '\r'

/-- **Lines are read back as they were written.** -/
theorem lines_unlines (h : ∀ l ∈ ls, IsLine l) : lines (unlines ls) = ls := by
  have hread := lines_unlines_append (fun l hl => (h l hl).newline) []
  rw [List.append_nil, lines, List.append_nil] at hread
  rw [hread]
  exact (List.map_congr_left fun l hl => chop_eq_self (h l hl).ending).trans (List.map_id _)

/-- The last line need not be ended if it is not empty. -/
theorem lines_dropLast_unlines (h : ∀ l ∈ ls, IsLine l) (hlast : ls.getLast? ≠ some []) :
    lines (unlines ls).dropLast = ls := by
  rcases List.eq_nil_or_concat ls with rfl | ⟨ls, l, rfl⟩
  · rfl
  · rw [List.concat_eq_append] at *
    have hl : l ≠ [] := by
      rintro rfl
      exact hlast List.getLast?_concat
    have hbefore : ∀ l ∈ ls, IsLine l := fun l' hl' => h l' (List.mem_append_left _ hl')
    have hnewline : '\n' ∉ l := (h l (by simp)).newline
    have hdrop : (unlines (ls ++ [l])).dropLast = unlines ls ++ l := by
      have hwhole : unlines (ls ++ [l]) = unlines ls ++ l ++ ['\n'] := by simp [unlines]
      rw [hwhole, List.dropLast_concat]
    calc lines (unlines (ls ++ [l])).dropLast
        = lines (unlines ls ++ l) := by rw [hdrop]
      _ = ls.map chop ++ lines l := lines_unlines_append (fun l hl => (hbefore l hl).newline) l
      _ = ls ++ [l] := by
          rw [lines_eq_singleton hl hnewline]
          congr 1
          exact (List.map_congr_left fun l hl => chop_eq_self (hbefore l hl).ending).trans (List.map_id _)

theorem newline_not_mem_consFirst {c : Char} (hc : c ≠ '\n') (h : ∀ l ∈ ls, '\n' ∉ l) :
    ∀ l ∈ consFirst c ls, '\n' ∉ l := by
  cases ls with
  | nil => simpa [consFirst] using hc.symm
  | cons first rest =>
    rintro l hl
    rcases List.mem_cons.1 hl with rfl | hl
    · exact List.not_mem_cons_of_ne_of_not_mem hc.symm (h first List.mem_cons_self)
    · exact h l (List.mem_cons_of_mem _ hl)

theorem newline_not_mem_of_mem_lines : ∀ l ∈ lines t, '\n' ∉ l := by
  fun_induction lines t with
  | case1 => simp
  | case2 rest ih => simpa using ih
  | case3 rest ih => simpa using ih
  | case4 c rest hfeed _ ih => exact newline_not_mem_consFirst hfeed ih

end MissionScript.Text
