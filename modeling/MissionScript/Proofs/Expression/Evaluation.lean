/-
The values of trees.

An `Interpretation` in a field says what operands, powers, postfix operators and calls stand for; the four operations
and the minus stand for those of the field. `IsEvaluation` is what is left of that when nothing at all is said of the
others, but that the sign of a numeral is the sign of its value.

- `Interpretation.isEvaluation`: the values that an interpretation gives are an evaluation.
- `Negates`: in every evaluation a tree has the value of another, or its negative.
-/
import Mathlib.Algebra.Field.Basic
import MissionScript.Expression.Basic
import MissionScript.Proofs.Lexeme.Numeral

namespace MissionScript

universe u

variable {K : Type u} [Field K] {value : Expression → K} {x y z : Expression} {a b : Bool} {n : Text}

/-! ## Interpretations -/

/-- what everything but the four operations and the minus stands for -/
structure Interpretation (K : Type u) where
  operand : Text → K
  power : K → K → K
  transpose : K → K
  inverse : K → K
  call : Callee → List K → List Text → K

namespace Interpretation

/-- the value of a leaf; the sign before a numeral is a sign -/
def leaf (i : Interpretation K) : Text → K
  | '-' :: n => if (Numeral.span n).any (fun found => found.2.isEmpty) then -i.operand n else i.operand ('-' :: n)
  | '+' :: n => if (Numeral.span n).any (fun found => found.2.isEmpty) then i.operand n else i.operand ('+' :: n)
  | t => i.operand t

mutual

def eval (i : Interpretation K) : Expression → K
  | .leaf t => i.leaf t
  | .unary .negate x => -i.eval x
  | .unary .transpose x => i.transpose (i.eval x)
  | .unary .inverse x => i.inverse (i.eval x)
  | .binary .add x y => i.eval x + i.eval y
  | .binary .subtract x y => i.eval x - i.eval y
  | .binary .multiply x y => i.eval x * i.eval y
  | .binary .divide x y => i.eval x / i.eval y
  | .binary .power x y => i.power (i.eval x) (i.eval y)
  | .call callee arguments inputs => i.call callee (i.evalAll arguments) inputs

def evalAll (i : Interpretation K) : List Expression → List K
  | [] => []
  | x :: xs => i.eval x :: i.evalAll xs

end

end Interpretation

/-! ## Evaluations -/

/-- An evaluation: of powers, postfix operators, calls and leaves without a sign nothing is known. -/
structure IsEvaluation (value : Expression → K) : Prop where
  negate (x : Expression) : value (.unary .negate x) = -value x
  add (x y : Expression) : value (.binary .add x y) = value x + value y
  subtract (x y : Expression) : value (.binary .subtract x y) = value x - value y
  multiply (x y : Expression) : value (.binary .multiply x y) = value x * value y
  divide (x y : Expression) : value (.binary .divide x y) = value x / value y
  plus {n : Text} : IsNumeral n → value (.leaf ('+' :: n)) = value (.leaf n)
  minus {n : Text} : IsNumeral n → value (.leaf ('-' :: n)) = -value (.leaf n)

theorem Interpretation.leaf_of_isNumeral (i : Interpretation K) (h : IsNumeral n) : i.leaf n = i.operand n := by
  unfold leaf
  split
  · exact absurd rfl (Numeral.not_sign_of_isNumeral h).2
  · exact absurd rfl (Numeral.not_sign_of_isNumeral h).1
  · rfl

/-- **Interpretations are evaluations.** Whatever operands, powers, postfix operators and calls stand for, the values of
the trees are an evaluation. -/
theorem Interpretation.isEvaluation (i : Interpretation K) : IsEvaluation i.eval where
  negate _ := by rw [eval]
  add _ _ := by rw [eval]
  subtract _ _ := by rw [eval]
  multiply _ _ := by rw [eval]
  divide _ _ := by rw [eval]
  plus h := by
    rw [eval, eval, i.leaf_of_isNumeral h]
    exact if_pos (Numeral.isNumeral_iff_span.2 h)
  minus h := by
    rw [eval, eval, i.leaf_of_isNumeral h]
    exact if_pos (Numeral.isNumeral_iff_span.2 h)

/-! ## The same value, or its negative -/

/-- The second tree has the negative of the value of the first one, or else its value, in every evaluation. -/
def Negates (negative : Bool) (x y : Expression) : Prop :=
  ∀ (K : Type u) [Field K] (value : Expression → K), IsEvaluation value →
    value y = if negative then -value x else value x

namespace Negates

theorem refl (x : Expression) : Negates.{u} false x x := fun _ _ _ _ => rfl

theorem trans (h : Negates.{u} a x y) (h' : Negates.{u} b y z) : Negates.{u} (b ^^ a) x z := by
  intro K _ value hvalue
  rw [h' K value hvalue, h K value hvalue]
  cases a <;> cases b <;> simp

theorem negate (x : Expression) : Negates.{u} true x (.unary .negate x) := fun _ _ _ hvalue => hvalue.negate x

theorem plus (h : IsNumeral n) : Negates.{u} false (.leaf n) (.leaf ('+' :: n)) := fun _ _ _ hvalue => hvalue.plus h

theorem minus (h : IsNumeral n) : Negates.{u} true (.leaf n) (.leaf ('-' :: n)) := fun _ _ _ hvalue => hvalue.minus h

theorem multiply (h : Negates.{u} a x y) (z : Expression) :
    Negates.{u} a (.binary .multiply x z) (.binary .multiply y z) := by
  intro K _ value hvalue
  rw [hvalue.multiply, hvalue.multiply, h K value hvalue]
  cases a
  · rfl
  · exact neg_mul _ _

theorem divide (h : Negates.{u} a x y) (z : Expression) :
    Negates.{u} a (.binary .divide x z) (.binary .divide y z) := by
  intro K _ value hvalue
  rw [hvalue.divide, hvalue.divide, h K value hvalue]
  cases a
  · rfl
  · exact neg_div _ _

/-- A sign of the right side is as good as one in the operator. -/
theorem value_sum (h : Negates.{u} a y z) (hvalue : IsEvaluation value) (subtracts : Bool) (x : Expression) :
    value (.binary (if subtracts then .subtract else .add) x z) =
      if subtracts ^^ a then value x - value y else value x + value y := by
  cases subtracts with
  | false =>
    rw [if_neg Bool.false_ne_true, hvalue.add, h K value hvalue]
    cases a
    · rfl
    · exact (sub_eq_add_neg _ _).symm
  | true =>
    rw [if_pos rfl, hvalue.subtract, h K value hvalue]
    cases a
    · rfl
    · exact sub_neg_eq_add _ _

end Negates

end MissionScript
