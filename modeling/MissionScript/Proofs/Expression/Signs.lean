/-
Runs of signs.

- `build_signed`: a sign before what has no sums and products outside its parentheses is its sign, or none.
- `Part.build_withSigns`: a run of signs there negates when it has an odd number of minus signs.

A sign before a numeral becomes part of the leaf, a plus before anything else vanishes, and a minus before anything else
is a negation. The trees differ in shape, so that they are compared by their values.
-/
import Mathlib.Algebra.Group.Nat.Even
import MissionScript.Proofs.Expression.Evaluation
import MissionScript.Proofs.Expression.Infix

namespace MissionScript

open Cell Expression

universe u

variable {voc : Vocabulary} {t r : Text} {c : Char} {k : Nat} {signs : List Sign} {x y : Expression}

/-- a `+` or a `-` with the gap behind it -/
structure Sign where
  minus : Bool
  gap : Text
  isGap : Gap gap

def Sign.char (s : Sign) : Char := if s.minus then '-' else '+'

theorem Sign.char_cases (s : Sign) : s.char = '+' ∨ s.char = '-' := by
  unfold char
  cases s.minus
  · exact .inl rfl
  · exact .inr rfl

def withSigns : List Sign → Text → Text
  | [], t => t
  | s :: signs, t => s.char :: (s.gap ++ withSigns signs t)

/-- true when the run has an odd number of minus signs -/
def negates : List Sign → Bool
  | [] => false
  | s :: signs => s.minus ^^ negates signs

theorem negates_eq_false_iff : negates signs = false ↔ Even (signs.countP Sign.minus) := by
  induction signs with
  | nil => simp [negates]
  | cons s signs ih =>
    rw [negates, List.countP_cons]
    cases s.minus with
    | false => simpa using ih
    | true =>
      rw [if_pos rfl, Nat.even_add_one, ← ih]
      simp

/-! ## The text of a run -/

theorem withSigns_append (signs : List Sign) (t r : Text) : withSigns signs (t ++ r) = withSigns signs t ++ r := by
  induction signs with
  | nil => rfl
  | cons s signs ih =>
    rw [withSigns, withSigns, ih]
    simp

theorem Part.behind_signs (h : Part k t) (signs : List Sign) : Part k (withSigns signs t) := by
  induction signs with
  | nil => exact h
  | cons s signs ih => exact (ih.gap_append s.isGap).signed s.char_cases

theorem trim_sign_append (hc : c = '+' ∨ c = '-') (hr : Text.trim r = r) (hne : r ≠ []) (b : Text) :
    Text.trim (c :: (b ++ r)) = c :: (b ++ r) := by
  have hsign : Text.trim [c] = [c] := by rcases hc with rfl | rfl <;> decide
  exact Text.trim_between hsign (List.cons_ne_nil c []) hr hne b

theorem withSigns_ne_nil (hne : t ≠ []) : withSigns signs t ≠ [] := by
  cases signs with
  | nil => exact hne
  | cons s signs => exact List.cons_ne_nil _ _

theorem trim_withSigns (ht : Text.trim t = t) (hne : t ≠ []) (signs : List Sign) :
    Text.trim (withSigns signs t) = withSigns signs t := by
  induction signs with
  | nil => exact ht
  | cons s signs ih => exact trim_sign_append s.char_cases ih (withSigns_ne_nil hne) s.gap

/-! ## The tree of a run -/

/-- A sign before what has no sums and products outside its parentheses is a sign of its value. -/
theorem build_signed (hvoc : voc.Reachable) (hc : c = '+' ∨ c = '-') (h : Part 2 t)
    (htrim : Text.trim (c :: t) = c :: t) (hx : build .allow voc t = .ok x) :
    ∃ y, build .allow voc (c :: t) = .ok y ∧ Negates.{u} (c == '-') x y := by
  by_cases hnumeral : Text.isNumeral (c :: t) = true
  · have hoperand : isOperand (c :: t) = true := (isOperand_signed hc h.toSound htrim).trans hnumeral
    refine ⟨.leaf (c :: t), build_leaf (decompose_of_isOperand htrim hoperand) (List.cons_ne_nil c t), ?_⟩
    have hn : IsNumeral t := by
      rcases (Text.isNumeral_iff htrim).1 hnumeral with hn | ⟨sign, n, -, hn, heq⟩
      · have hsign := Numeral.not_sign_of_isNumeral hn
        exact absurd hc (by simp [hsign])
      · exact (List.cons.inj heq).2 ▸ hn
    have hne : t ≠ [] := fun hnil => absurd (isVisible_of_build (hnil ▸ hx)) (by decide)
    obtain rfl : .leaf t = x := by
      rw [build_leaf (decompose_operand (.numeral hn)) hne] at hx
      exact Except.ok.inj hx
    rcases hc with rfl | rfl
    · exact .plus hn
    · exact .minus hn
  · have hlevel := decompose_signed hvoc hc h htrim (by simpa using hnumeral)
    rcases hc with rfl | rfl
    · -- the plus vanishes
      exact ⟨x, (build_congr hlevel).trans hx, .refl x⟩
    · exact ⟨.unary .negate x, build_unary hlevel (isVisible_of_build hx) hx, .negate x⟩

/-- **Runs of signs before a factor.** A run of signs before what has no sums and products outside its parentheses
negates its value when the number of minus signs is odd, and leaves it otherwise. -/
theorem Part.build_withSigns (hvoc : voc.Reachable) (h : Part 2 t) (htrim : Text.trim t = t)
    (hx : build .allow voc t = .ok x) (signs : List Sign) :
    ∃ y, build .allow voc (withSigns signs t) = .ok y ∧ Negates.{u} (negates signs) x y := by
  have hne : t ≠ [] := fun hnil => absurd (isVisible_of_build (hnil ▸ hx)) (by decide)
  induction signs with
  | nil => exact ⟨x, hx, .refl x⟩
  | cons s signs ih =>
    obtain ⟨y, hy, hsame⟩ := ih
    have hpad : build .allow voc (s.gap ++ withSigns signs t) = .ok y := (build_blank_append s.isGap.blank _).trans hy
    obtain ⟨z, hz, hsign⟩ := build_signed hvoc s.char_cases ((h.behind_signs signs).gap_append s.isGap)
      (trim_sign_append s.char_cases (trim_withSigns htrim hne signs) (withSigns_ne_nil hne) s.gap) hpad
    have hchar : (s.char == '-') = s.minus := by
      unfold Sign.char
      cases s.minus <;> rfl
    rw [hchar] at hsign
    exact ⟨z, hz, hsame.trans hsign⟩

end MissionScript
