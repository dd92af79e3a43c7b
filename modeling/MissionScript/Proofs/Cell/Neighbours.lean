/-
What may stand next to what.

- `juxtaposed_append`: groups meet in a text when they do in a part of it, or where the parts meet.
- `strayAfter_eq_none_iff`: no postfix operator is followed by something that may not follow it.
- `checkGroups_eq_ok_iff`: the checks of a text as a whole, in one.
-/
import MissionScript.Expression.Decomposition
import MissionScript.Proofs.Cell.Outside

namespace MissionScript

namespace Cell

/-! ## Groups -/

theorem meetGroups_cons (c : Char) (t : Text) :
    meetGroups (c :: t) = ((c == ')' && t.head? == some '(') || meetGroups t) := by
  rw [meetGroups.eq_def]
  split
  · next h => simp at h
  · next rest h =>
    obtain ⟨rfl, rfl⟩ := List.cons.inj h
    rfl
  · next x rest hne h =>
    obtain ⟨rfl, rfl⟩ := List.cons.inj h
    by_cases hc : c = ')'
    · cases t with
      | nil => simp
      | cons d t =>
        have hd : d ≠ '(' := fun hd => hne t hc (by rw [hd])
        simp [hd]
    · simp [hc]

theorem meetGroups_append (s t : Text) :
    meetGroups (s ++ t) = (meetGroups s || meetGroups t || (s.getLast? == some ')' && t.head? == some '(')) := by
  induction s with
  | nil => simp [meetGroups]
  | cons c s ih =>
    rw [List.cons_append, meetGroups_cons, meetGroups_cons, ih]
    cases s with
    | nil =>
      cases meetGroups t <;> simp [meetGroups]
    | cons d s =>
      simp only [List.cons_append, List.head?_cons, List.getLast?_cons_cons]
      simp only [Bool.or_assoc]

/-- the characters that groups are told apart by -/
def shown (cs : List Cell) : Text := text (cs.filter fun cell => cell.isLive && !isAsciiBlank cell.char)

theorem shown_append (as bs : List Cell) : shown (as ++ bs) = shown as ++ shown bs := by
  simp [shown, text]

theorem juxtaposed_append (as bs : List Cell) :
    juxtaposed (as ++ bs) =
      (juxtaposed as || juxtaposed bs || ((shown as).getLast? == some ')' && (shown bs).head? == some '(')) := by
  unfold juxtaposed
  rw [show text ((as ++ bs).filter fun cell => cell.isLive && !isAsciiBlank cell.char) = shown as ++ shown bs from
    shown_append as bs, meetGroups_append]
  rfl

theorem juxtaposed_group (inner : List Cell) : juxtaposed (opening :: (inner ++ [closing])) = juxtaposed inner := by
  have hopen : shown [opening] = ['('] := rfl
  have hclose : shown [closing] = [')'] := rfl
  have hone : juxtaposed [opening] = false := rfl
  have htwo : juxtaposed [closing] = false := rfl
  rw [show opening :: (inner ++ [closing]) = [opening] ++ (inner ++ [closing]) from rfl, juxtaposed_append,
    juxtaposed_append, hopen, hclose, hone, htwo]
  simp

theorem juxtaposed_of_no_paren {cs : List Cell} (h : ∀ cell ∈ cs, cell.holds '(' = false) : juxtaposed cs = false := by
  have key : ∀ t : Text, '(' ∉ t → meetGroups t = false := by
    intro t
    induction t with
    | nil => intro _; rfl
    | cons c t ih =>
      intro ht
      obtain ⟨-, ht⟩ : '(' ≠ c ∧ '(' ∉ t := by simpa using ht
      rw [meetGroups_cons, ih ht, Bool.or_false, Bool.and_eq_false_iff]
      right
      cases t with
      | nil => rfl
      | cons d t =>
        have hd : d ≠ '(' := fun hd => ht (hd ▸ List.mem_cons_self)
        simp [hd]
  apply key
  intro hmem
  obtain ⟨cell, hcell, hchar⟩ := List.mem_map.1 hmem
  obtain ⟨hcell, hlive⟩ := List.mem_filter.1 hcell
  have := h cell hcell
  simp [holds, hchar] at this
  simp [this] at hlive

/-! ## Postfix operators -/

def firstShown (cs : List Cell) : Option Char := (cs.find? fun cell => !isBlank cell.char).map Cell.char

def nextShown (s : Site) : Option Char := firstShown s.after

theorem strayAfter_eq_none_iff {operator : Postfix} {cs : List Cell} :
    strayAfter operator cs = none ↔
      ∀ s ∈ sites cs, operator.endsWith s.cell = true → ∀ c ∈ nextShown s, postfixFollowers.contains c = true := by
  simp only [strayAfter, List.findSome?_eq_none_iff, List.mem_filter, Option.filter_eq_none_iff, and_imp, nextShown,
    firstShown, Option.mem_def, Bool.not_eq_true', Bool.not_eq_false]

theorem clash_eq_none_iff {cs : List Cell} : clash cs = none ↔ ∀ operator, strayAfter operator cs = none := by
  simp only [clash, Option.orElse_eq_orElse, Option.orElse_eq_or, Option.or_eq_none_iff, Option.map_eq_none_iff]
  constructor
  · rintro ⟨h₁, h₂⟩ operator
    cases operator
    · exact h₁
    · exact h₂
  · exact fun h => ⟨h _, h _⟩

/-- neither a transpose nor the end of an inverse marker -/
def NoPostfix (cell : Cell) : Prop := cell.holds '\'' = false ∧ cell.role ≠ .inverse 0

theorem NoPostfix.endsWith {cell : Cell} (h : cell.NoPostfix) (operator : Postfix) :
    operator.endsWith cell = false := by
  cases operator with
  | transpose => exact h.1
  | inverse => simpa [Postfix.endsWith] using h.2

theorem clash_of_noPostfix {cs : List Cell} (h : ∀ cell ∈ cs, cell.NoPostfix) : clash cs = none := by
  apply clash_eq_none_iff.2
  intro operator
  apply strayAfter_eq_none_iff.2
  intro s hs hends
  rw [(h s.cell (Site.cell_mem_of_mem_along hs)).endsWith] at hends
  exact absurd hends (by decide)

/-- Nothing stands wrong behind a postfix operator when nothing does in the parts, and the second part may follow one or
the first part has none. -/
theorem clash_append {as bs : List Cell} (ha : clash as = none) (hb : clash bs = none)
    (h : (∀ cell ∈ as, cell.NoPostfix) ∨ ∀ c ∈ firstShown bs, postfixFollowers.contains c = true) :
    clash (as ++ bs) = none := by
  apply clash_eq_none_iff.2
  intro operator
  apply strayAfter_eq_none_iff.2
  intro x hx hends c hc
  rw [sites_append] at hx
  rcases List.mem_append.1 hx with hx | hx
  · obtain ⟨s, hs, rfl⟩ := List.mem_map.1 hx
    rcases h with hrow | h
    · have hcell : (s.among [] bs).cell.NoPostfix := hrow s.cell (Site.cell_mem_of_mem_along hs)
      rw [hcell.endsWith] at hends
      exact absurd hends (by decide)
    have hnone := strayAfter_eq_none_iff.1 (clash_eq_none_iff.1 ha operator) s hs hends
    unfold nextShown firstShown at hc hnone
    rw [show (s.among [] bs).after = s.after ++ bs from rfl, List.find?_append] at hc
    cases hfind : s.after.find? fun cell => !isBlank cell.char with
    | some cell =>
      rw [hfind] at hc hnone
      exact hnone c hc
    | none =>
      rw [hfind, Option.none_or] at hc
      exact h c hc
  · obtain ⟨s, hs, rfl⟩ := List.mem_map.1 hx
    have hnone := strayAfter_eq_none_iff.1 (clash_eq_none_iff.1 hb operator) s hs hends
    rw [nextShown, show (s.among as.reverse []).after = s.after by simp [Site.among]] at hc
    exact hnone c hc

end Cell

theorem checkGroups_eq_ok_iff {t : Text} :
    checkGroups t = .ok () ↔
      Cell.Level (cells t) ∧ Cell.clash (cells t) = none ∧ Cell.juxtaposed (cells t) = false := by
  rw [← Cell.balanced_iff]
  unfold checkGroups
  cases hbal : Cell.balanced (cells t) with
  | false => simp
  | true =>
    cases hclash : Cell.clash (cells t) with
    | some found => simp
    | none => cases hjux : Cell.juxtaposed (cells t) <;> simp

end MissionScript
