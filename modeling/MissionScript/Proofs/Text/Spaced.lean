/-
Texts with their blanks written as spaces.

A predicate that is `BlankBlind` does not tell blanks apart. `spaced` writes every blank of a text as a space.
- `takeWhile_spaced`, `dropWhile_spaced`: a text is divided by such a predicate as it is with spaces.
- `trim_spaced`: trimming goes by the Unicode property and does not tell blanks apart.
- `spaced_eq_self`: a text without blanks is left as it is.
-/
import MissionScript.Proofs.Text.Trim

namespace MissionScript

/-- the character, or a space for a blank -/
def spacedChar (c : Char) : Char := if isBlank c then ' ' else c

/-- The predicate does not tell blanks apart. -/
def BlankBlind (p : Char → Bool) : Prop := ∀ c, isBlank c = true → p c = p ' '

variable {p q : Char → Bool} {c d : Char} {t l r b : Text}

theorem spacedChar_of_blank (h : isBlank c = true) : spacedChar c = ' ' := if_pos h

theorem spacedChar_of_visible (h : isBlank c = false) : spacedChar c = c := if_neg (by simp [h])

@[simp] theorem isBlank_spacedChar (c : Char) : isBlank (spacedChar c) = isBlank c := by
  cases h : isBlank c with
  | true => rw [spacedChar_of_blank h]; rfl
  | false => rw [spacedChar_of_visible h, h]

/-- A blank that operators are recognised across is left of every blank. -/
theorem isAsciiBlank_spacedChar (c : Char) : isAsciiBlank (spacedChar c) = isBlank c := by
  cases h : isBlank c with
  | true => rw [spacedChar_of_blank h]; rfl
  | false =>
    rw [spacedChar_of_visible h]
    by_contra hascii
    rw [isBlank_of_isAsciiBlank (by simpa using hascii)] at h
    exact absurd h (by decide)

/-- A visible character is no blank written as a space. -/
theorem spacedChar_eq_iff (hd : isBlank d = false) : spacedChar c = d ↔ c = d := by
  cases h : isBlank c with
  | true =>
    rw [spacedChar_of_blank h]
    constructor
    · rintro rfl
      exact absurd hd (by decide)
    · rintro rfl
      exact absurd (h.symm.trans hd) (by decide)
  | false => rw [spacedChar_of_visible h]

namespace BlankBlind

theorem apply (h : BlankBlind p) (c : Char) : p (spacedChar c) = p c := by
  cases hc : isBlank c with
  | true => rw [spacedChar_of_blank hc, h c hc]
  | false => rw [spacedChar_of_visible hc]

theorem isBlank : BlankBlind isBlank := fun _ h => h

/-- What holds of visible characters only does not tell blanks apart. -/
theorem of_visible (h : ∀ c, p c = true → MissionScript.isBlank c = false) : BlankBlind p := by
  have hfalse : ∀ c, MissionScript.isBlank c = true → p c = false := by
    intro c hc
    by_contra hp
    exact absurd (hc.symm.trans (h c (by simpa using hp))) (by decide)
  intro c hc
  rw [hfalse c hc, hfalse ' ' rfl]

theorem beq (hd : MissionScript.isBlank d = false) : BlankBlind fun c => c == d :=
  of_visible fun c hc => by rw [beq_iff_eq.1 hc, hd]

theorem or (hp : BlankBlind p) (hq : BlankBlind q) : BlankBlind fun c => p c || q c :=
  fun c hc => by simp only [hp c hc, hq c hc]

theorem not (hp : BlankBlind p) : BlankBlind fun c => !p c := fun c hc => by simp only [hp c hc]

end BlankBlind

namespace Text

def spaced (t : Text) : Text := t.map spacedChar

@[simp] theorem spaced_nil : spaced [] = [] := rfl

@[simp] theorem spaced_cons (c : Char) (t : Text) : spaced (c :: t) = spacedChar c :: spaced t := rfl

@[simp] theorem spaced_append (l r : Text) : spaced (l ++ r) = spaced l ++ spaced r := List.map_append

theorem spaced_reverse (t : Text) : spaced t.reverse = (spaced t).reverse := List.map_reverse

theorem isEmpty_spaced (t : Text) : (spaced t).isEmpty = t.isEmpty := by
  cases t <;> rfl

theorem spaced_eq_self (h : ∀ c ∈ t, isBlank c = false) : spaced t = t := by
  have hmap : t.map spacedChar = t.map id := List.map_congr_left fun c hc => spacedChar_of_visible (h c hc)
  rw [spaced, hmap, List.map_id]

theorem isBlank_of_mem_spaced (h : ∀ c ∈ spaced t, isBlank c = false) : ∀ c ∈ t, isBlank c = false := by
  intro c hc
  rw [← isBlank_spacedChar]
  exact h _ (List.mem_map_of_mem hc)

/-! ## Divisions and tests -/

theorem takeWhile_spaced (h : BlankBlind p) (t : Text) : (spaced t).takeWhile p = spaced (t.takeWhile p) := by
  have hp : p ∘ spacedChar = p := funext h.apply
  rw [spaced, List.takeWhile_map, hp]
  rfl

theorem dropWhile_spaced (h : BlankBlind p) (t : Text) : (spaced t).dropWhile p = spaced (t.dropWhile p) := by
  have hp : p ∘ spacedChar = p := funext h.apply
  rw [spaced, List.dropWhile_map, hp]
  rfl

theorem any_spaced (h : BlankBlind p) (t : Text) : (spaced t).any p = t.any p := by
  have hp : p ∘ spacedChar = p := funext h.apply
  rw [spaced, List.any_map, hp]

theorem find?_spaced (h : BlankBlind p) (t : Text) : (spaced t).find? p = (t.find? p).map spacedChar := by
  have hp : p ∘ spacedChar = p := funext h.apply
  rw [spaced, List.find?_map, hp]

theorem isVisible_spaced (t : Text) : isVisible (spaced t) = isVisible t := any_spaced BlankBlind.isBlank.not t

theorem trimStart_spaced (t : Text) : trimStart (spaced t) = spaced (trimStart t) := dropWhile_spaced .isBlank t

theorem trimEnd_spaced (t : Text) : trimEnd (spaced t) = spaced (trimEnd t) := by
  unfold trimEnd
  rw [← spaced_reverse, dropWhile_spaced .isBlank, spaced_reverse]

theorem trim_spaced (t : Text) : trim (spaced t) = spaced (trim t) := by
  rw [trim, trimStart_spaced, trimEnd_spaced]
  rfl

theorem isPrefixOf_spaced (h : ∀ c ∈ l, isBlank c = false) (t : Text) :
    l.isPrefixOf (spaced t) = l.isPrefixOf t := by
  induction l generalizing t with
  | nil => rfl
  | cons d l ih =>
    cases t with
    | nil => rfl
    | cons c t =>
      have hd : (d == spacedChar c) = (d == c) := by
        rw [Bool.eq_iff_iff, beq_iff_eq, beq_iff_eq, eq_comm, spacedChar_eq_iff (h d List.mem_cons_self), eq_comm]
      rw [spaced_cons, List.isPrefixOf_cons_cons, List.isPrefixOf_cons_cons, hd,
        ih fun x hx => h x (List.mem_cons_of_mem _ hx)]

end Text

end MissionScript
