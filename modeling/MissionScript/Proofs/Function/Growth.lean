/-
Vocabularies only grow.

One vocabulary is at most another when the other has all functions of the script that the first one has.
- `Vocabulary.le_learn`: meeting a text loses nothing.
- `Vocabulary.isSome_kind?_of_le`: what is a function stays one.
-/
import Mathlib.Tactic
import MissionScript.Function.Vocabulary

namespace MissionScript.Vocabulary

instance : Preorder Vocabulary where
  le earlier later := ∀ name, earlier.userDefined.contains name = true → later.userDefined.contains name = true
  le_refl _ _ h := h
  le_trans _ _ _ h₁ h₂ name h := h₂ name (h₁ name h)

variable {voc later : Vocabulary} {finds : Text → Bool} {name : Text}

theorem le_meet (finds : Text → Bool) (d : Discovery) (r : Text) : d.vocabulary ≤ (d.meet finds r).vocabulary := by
  intro name hname
  unfold Discovery.meet
  split_ifs
  · exact hname
  · simp only [NameSet.contains_insert, Bool.or_eq_true]
    exact .inr hname
  · exact hname

theorem le_learn (voc : Vocabulary) (finds : Text → Bool) (t : Text) : voc ≤ voc.learn finds t := by
  have key : ∀ (rs : List Text) (d : Discovery), d.vocabulary ≤ (rs.foldl (Discovery.meet finds) d).vocabulary := by
    intro rs
    induction rs with
    | nil => exact fun d => le_rfl
    | cons r rs ih => exact fun d => (le_meet finds d r).trans (ih _)
  exact key _ ⟨voc, 0, []⟩

theorem hasUserDefined_of_le (h : voc ≤ later) (hname : voc.hasUserDefined name = true) :
    later.hasUserDefined name = true := by
  unfold hasUserDefined at hname ⊢
  rcases Bool.or_eq_true_iff.1 hname with hexact | hlowered
  · rw [h name hexact, Bool.true_or]
  · cases hlower : lowerFirst name with
    | none => simp [hlower] at hlowered
    | some lower =>
      have hmem : later.userDefined.contains lower = true := h lower (by simpa [hlower] using hlowered)
      simp [hmem]

theorem isSome_kind?_of_le (h : voc ≤ later) (hname : (voc.kind? name).isSome = true) :
    (later.kind? name).isSome = true := by
  unfold kind? at hname ⊢
  cases hbuiltin : Builtin.lookup name with
  | some f => rfl
  | none =>
    simp only [hbuiltin] at hname ⊢
    cases huser : voc.hasUserDefined name with
    | false => simp [huser] at hname
    | true => rw [if_pos (hasUserDefined_of_le h huser)]; rfl

end MissionScript.Vocabulary
