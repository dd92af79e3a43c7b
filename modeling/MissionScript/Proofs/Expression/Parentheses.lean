/-
Redundant parentheses.

- `decompose_parenthesized`: pairs of parentheses around a text that is enclosable leave it what it is.
- `build_parenthesized`: whatever is built from a closed text is built from it in any number of parentheses.

The text is arbitrary. That it is built says that its own parentheses balance; that it is closed says that the closing
parentheses behind it are read as such.
-/
import MissionScript.Proofs.Expression.Built
import MissionScript.Proofs.Expression.Operand

namespace MissionScript

open Cell Expression

variable {voc : Vocabulary} {nesting : Nesting} {t : Text}

def parenthesized : Nat → Text → Text
  | 0, t => t
  | n + 1, t => '(' :: (parenthesized n t ++ [')'])

/-- What is in parentheses can be put in parentheses again. -/
theorem Enclosable.group (h : Enclosable t) : Enclosable ('(' :: (t ++ [')'])) := by
  have hnil : IsHead [] := .inl rfl
  have hstem : Stem ('(' :: (t ++ [')'])) (enclosure [] t) := .of_enclosable hnil h
  refine ⟨?_, (h.facts hnil).checked⟩
  rw [hstem.reads.cells_eq]
  exact hstem.reads.close

theorem decompose_parenthesized (hvoc : voc.kind? [] = none) (h : Enclosable t) (n : Nat) :
    Enclosable (parenthesized n t) ∧ decompose voc (parenthesized n t) = decompose voc t := by
  induction n with
  | zero => exact ⟨h, rfl⟩
  | succ n ih =>
    obtain ⟨henclosable, hsame⟩ := ih
    refine ⟨henclosable.group, ?_⟩
    calc decompose voc (parenthesized (n + 1) t)
        = decompose voc (parenthesized n t) := decompose_group hvoc henclosable
      _ = decompose voc t := hsame

/-- **Redundant parentheses are transparent.** A text that leaves no string and no bracket literal open is built, if at all,
to the tree that it is built to in any number of parentheses. -/
theorem build_parenthesized (hvoc : voc.Reachable) (hclosed : Closed t) {x : Expression}
    (h : build nesting voc t = .ok x) (n : Nat) : build nesting voc (parenthesized n t) = .ok x := by
  have hnil : voc.kind? [] = none := by
    apply hvoc.kind?_eq_none
    intro c hc
    exact absurd hc (by simp)
  have henclosable : Enclosable t := hclosed.enclosable (checkGroups_of_build h)
  obtain ⟨-, hsame⟩ := decompose_parenthesized hnil henclosable n
  calc build nesting voc (parenthesized n t)
      = build nesting voc t := build_congr hsame
    _ = .ok x := h

/-- A sum of a string that holds a parenthesis and a transpose, in two pairs of parentheses. -/
theorem build_parenthesized_string :
    Vocabulary.initial.Reachable ∧ Closed "'a(' + b'".toList ∧
      build .reject .initial "'a(' + b'".toList =
        .ok (.binary .add (.leaf "'a('".toList) (.unary .transpose (.leaf ['b']))) ∧
      build .reject .initial "(('a(' + b'))".toList =
        .ok (.binary .add (.leaf "'a('".toList) (.unary .transpose (.leaf ['b']))) := by
  have hclosed : Closed "'a(' + b'".toList := by decide
  have hlevel : decompose .initial "'a(' + b'".toList = .ok (.binary .add "'a(' ".toList " b'".toList) := by
    decide +kernel
  have hstring : Built .reject .initial "'a(' ".toList (.leaf "'a('".toList) := .leaf (by decide +kernel) (by decide)
  have htranspose : Built .reject .initial " b'".toList (.unary .transpose (.leaf ['b'])) :=
    .unary (by decide +kernel : decompose .initial " b'".toList = .ok (.unary .transpose ['b']))
      (.leaf (by decide +kernel) (by decide))
  have hbuild := built_iff.1 (Built.binary hlevel hstring htranspose)
  exact ⟨.initial, hclosed, hbuild, build_parenthesized .initial hclosed hbuild 2⟩

end MissionScript
