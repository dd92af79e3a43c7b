/-
What trimming leaves.

- `trim_append_append`: blanks around a text do not matter to what is left of it.
- `exists_eq_append_trim`: a text is what trimming leaves of it, between blanks; `exists_eq_append_trimStart` and
  `exists_eq_trimEnd_append` say so for one end.
- `trim_eq_self`: a text that begins and ends visibly is left as it is; `trim_append_left`: one in front stays whole.
- `isVisible_eq_false_iff`: nothing is left of a text exactly when it is blank throughout.
-/
import Mathlib.Data.List.TakeWhile
import Mathlib.Tactic
import MissionScript.Text.Basic

namespace MissionScript.Text

variable {t b b₁ b₂ : Text}

def Blank (b : Text) : Prop := ∀ c ∈ b, isBlank c = true

theorem Blank.append (h₁ : Blank b₁) (h₂ : Blank b₂) : Blank (b₁ ++ b₂) := by
  intro c hc
  rcases List.mem_append.1 hc with hc | hc
  · exact h₁ c hc
  · exact h₂ c hc

theorem Blank.reverse (h : Blank b) : Blank b.reverse := fun c hc => h c (List.mem_reverse.1 hc)

theorem trimStart_append (h : Blank b) (t : Text) : trimStart (b ++ t) = trimStart t :=
  List.dropWhile_append_of_pos h

theorem trimEnd_append (h : Blank b) (t : Text) : trimEnd (t ++ b) = trimEnd t := by
  unfold trimEnd
  rw [List.reverse_append, List.dropWhile_append_of_pos h.reverse]

theorem trimStart_eq_nil (h : Blank b) : trimStart b = [] := List.dropWhile_eq_nil_iff.2 h

theorem trim_append_append (h₁ : Blank b₁) (h₂ : Blank b₂) (t : Text) : trim (b₁ ++ (t ++ b₂)) = trim t := by
  unfold trim
  rw [trimStart_append h₁]
  by_cases ht : trimStart t = []
  · have hblank : Blank (t ++ b₂) := Blank.append (List.dropWhile_eq_nil_iff.1 ht) h₂
    rw [trimStart_eq_nil hblank, ht]
  · have hsplit : trimStart (t ++ b₂) = trimStart t ++ b₂ := by
      unfold trimStart at ht ⊢
      rw [List.dropWhile_append, if_neg (by simpa using ht)]
    rw [hsplit, trimEnd_append h₂]

theorem trim_append (h : Blank b) (t : Text) : trim (t ++ b) = trim t :=
  trim_append_append (fun _ hc => absurd hc List.not_mem_nil) h t

/-- A text is the blanks it begins with and the rest. -/
theorem exists_eq_append_trimStart (t : Text) : ∃ b, Blank b ∧ t = b ++ trimStart t :=
  ⟨t.takeWhile isBlank, fun c hc => List.all_eq_true.1 List.all_takeWhile c hc, List.takeWhile_append_dropWhile.symm⟩

/-- A text is the blanks it ends in and what stands before them. -/
theorem exists_eq_trimEnd_append (t : Text) : ∃ b, Blank b ∧ t = trimEnd t ++ b := by
  obtain ⟨b, hb, ht⟩ := exists_eq_append_trimStart t.reverse
  refine ⟨b.reverse, hb.reverse, ?_⟩
  have hreverse := congrArg List.reverse ht
  rwa [List.reverse_reverse, List.reverse_append] at hreverse

/-- A text is what trimming leaves of it, between blanks. -/
theorem exists_eq_append_trim (t : Text) : ∃ b₁ b₂, Blank b₁ ∧ Blank b₂ ∧ t = b₁ ++ (trim t ++ b₂) := by
  obtain ⟨b₁, h₁, hstart⟩ := exists_eq_append_trimStart t
  obtain ⟨b₂, h₂, hend⟩ := exists_eq_trimEnd_append (trimStart t)
  refine ⟨b₁, b₂, h₁, h₂, ?_⟩
  rw [trim, ← hend]
  exact hstart

theorem trimStart_eq_self (hhead : ∀ c ∈ t.head?, isBlank c = false) : trimStart t = t := by
  cases t with
  | nil => rfl
  | cons c rest => exact List.dropWhile_cons_of_neg (by simp [hhead c rfl])

theorem trim_eq_self (hhead : ∀ c ∈ t.head?, isBlank c = false) (hlast : ∀ c ∈ t.getLast?, isBlank c = false) :
    trim t = t := by
  unfold trim trimEnd
  rw [trimStart_eq_self hhead]
  have hend : t.reverse.dropWhile isBlank = t.reverse := by
    cases hrev : t.reverse with
    | nil => rfl
    | cons c rest =>
      have hc : c ∈ t.getLast? := by rw [List.getLast?_eq_head?_reverse, hrev]; rfl
      exact List.dropWhile_cons_of_neg (by simp [hlast c hc])
  rw [hend, List.reverse_reverse]

theorem head_trim {c : Char} (h : c ∈ (trim t).head?) : isBlank c = false := by
  have hstart : ∀ c ∈ (trimStart t).head?, isBlank c = false := by
    intro c hc
    have := List.head?_dropWhile_not isBlank t
    rw [show t.dropWhile isBlank = trimStart t from rfl, hc] at this
    simpa using this
  obtain ⟨b, -, hb⟩ := exists_eq_trimEnd_append (trimStart t)
  change trimStart t = trim t ++ b at hb
  refine hstart c ?_
  rw [hb, List.head?_append, h]
  rfl

theorem last_trimEnd {c : Char} (h : c ∈ (trimEnd t).getLast?) : isBlank c = false := by
  unfold trimEnd at h
  rw [List.getLast?_reverse] at h
  have := List.head?_dropWhile_not isBlank t.reverse
  rw [h] at this
  simpa using this

theorem last_trim {c : Char} (h : c ∈ (trim t).getLast?) : isBlank c = false := last_trimEnd h

theorem head?_trim_cons {c : Char} (h : isBlank c = false) (t : Text) : (trim (c :: t)).head? = some c := by
  obtain ⟨b₁, b₂, h₁, h₂, heq⟩ := exists_eq_append_trim (c :: t)
  cases b₁ with
  | cons d b₁ =>
    obtain rfl : c = d := (List.cons.inj heq).1
    exact absurd (h.symm.trans (h₁ c List.mem_cons_self)) (by decide)
  | nil =>
    cases htrim : trim (c :: t) with
    | cons d rest =>
      rw [htrim] at heq
      obtain rfl : c = d := (List.cons.inj heq).1
      rfl
    | nil =>
      rw [htrim] at heq
      have hc : c ∈ b₂ := by
        rw [List.nil_append, List.nil_append] at heq
        exact heq ▸ List.mem_cons_self
      exact absurd (h.symm.trans (h₂ c hc)) (by decide)

theorem trim_trim (t : Text) : trim (trim t) = trim t := trim_eq_self (fun _ h => head_trim h) (fun _ h => last_trim h)

theorem eq_nil_of_blank_append (h : trim (b ++ t) = b ++ t) (hb : Blank b) : b = [] := by
  cases b with
  | nil => rfl
  | cons c b =>
    have hhead : c ∈ (trim (c :: b ++ t)).head? := by rw [h]; rfl
    exact absurd ((hb c List.mem_cons_self).symm.trans (head_trim hhead)) (by decide)

theorem eq_nil_of_append_blank (h : trim (t ++ b) = t ++ b) (hb : Blank b) : b = [] := by
  rcases List.eq_nil_or_concat' b with hnil | ⟨b, c, rfl⟩
  · exact hnil
  · have hlast : c ∈ (trim (t ++ (b ++ [c]))).getLast? := by rw [h, ← List.append_assoc, List.getLast?_concat]; rfl
    exact absurd ((hb c (by simp)).symm.trans (last_trim hlast)) (by decide)

/-- What begins and ends with trimmed texts is trimmed. -/
theorem trim_between {l r : Text} (hl : trim l = l) (hlne : l ≠ []) (hr : trim r = r) (hrne : r ≠ []) (middle : Text) :
    trim (l ++ (middle ++ r)) = l ++ (middle ++ r) := by
  apply trim_eq_self
  · intro c hc
    rw [List.head?_append_of_ne_nil _ hlne, ← hl] at hc
    exact head_trim hc
  · intro c hc
    rw [← List.append_assoc, List.getLast?_append_of_ne_nil _ hrne, ← hr] at hc
    exact last_trim hc

/-- A text in front that ends visibly stays whole. -/
theorem trimEnd_append_left {l : Text} (hlast : ∀ c ∈ l.getLast?, isBlank c = false) (t : Text) :
    trimEnd (l ++ t) = l ++ trimEnd t := by
  have hwhole : l.reverse.dropWhile isBlank = l.reverse := by
    cases hrev : l.reverse with
    | nil => rfl
    | cons c rest =>
      have hc : c ∈ l.getLast? := by rw [List.getLast?_eq_head?_reverse, hrev]; rfl
      exact List.dropWhile_cons_of_neg (by simp [hlast c hc])
  unfold trimEnd
  rw [List.reverse_append, List.dropWhile_append]
  split_ifs with hempty
  · rw [hwhole, List.isEmpty_iff.1 hempty, List.reverse_reverse, List.reverse_nil, List.append_nil]
  · rw [List.reverse_append, List.reverse_reverse]

/-- A trimmed text in front stays whole. -/
theorem trim_append_left {l : Text} (hl : trim l = l) (hne : l ≠ []) (t : Text) : trim (l ++ t) = l ++ trimEnd t := by
  have hhead : ∀ c ∈ (l ++ t).head?, isBlank c = false := by
    intro c hc
    rw [List.head?_append_of_ne_nil _ hne, ← hl] at hc
    exact head_trim hc
  have hlast : ∀ c ∈ l.getLast?, isBlank c = false := by
    intro c hc
    rw [← hl] at hc
    exact last_trim hc
  rw [trim, trimStart_eq_self hhead, trimEnd_append_left hlast]

theorem trim_trimEnd (t : Text) : trim (trimEnd t) = trim t := by
  obtain ⟨b, hb, ht⟩ := exists_eq_trimEnd_append t
  conv_rhs => rw [ht]
  exact (trim_append hb (trimEnd t)).symm

theorem isVisible_eq_false_iff : isVisible t = false ↔ Blank t := by
  simp [isVisible, Blank]

theorem isVisible_of_mem {c : Char} (hc : c ∈ t) (h : isBlank c = false) : isVisible t = true := by
  simp only [isVisible, List.any_eq_true]
  exact ⟨c, hc, by simp [h]⟩

theorem isVisible_of_trim_eq (h : trim t = t) (hne : t ≠ []) : isVisible t = true := by
  obtain ⟨c, rest, rfl⟩ := List.exists_cons_of_ne_nil hne
  have hhead : c ∈ (trim (c :: rest)).head? := by rw [h]; rfl
  exact isVisible_of_mem List.mem_cons_self (head_trim hhead)

theorem isVisible_append (s t : Text) : isVisible (s ++ t) = (isVisible s || isVisible t) := List.any_append

theorem isVisible_append_append (h₁ : Blank b₁) (h₂ : Blank b₂) (t : Text) :
    isVisible (b₁ ++ (t ++ b₂)) = isVisible t := by
  have h₁' := isVisible_eq_false_iff.2 h₁
  have h₂' := isVisible_eq_false_iff.2 h₂
  simp only [isVisible, List.any_append] at h₁' h₂' ⊢
  rw [h₁', h₂', Bool.false_or, Bool.or_false]

theorem isVisible_trim (t : Text) : isVisible (trim t) = isVisible t := by
  obtain ⟨b₁, b₂, h₁, h₂, ht⟩ := exists_eq_append_trim t
  have hpad := isVisible_append_append h₁ h₂ (trim t)
  rw [← ht] at hpad
  exact hpad.symm

end MissionScript.Text
