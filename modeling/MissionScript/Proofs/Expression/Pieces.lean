/-
What becomes of the characters of an expression.

A text is cut into pieces: operands, and what stands around them. `MadeOf` says which operands it is made of, in which order.
Every form of a level puts its own pieces around those of its operands, so a text is made of the leaves of its tree.

- `Spelled.madeOf`: a level is made of what its operands are made of.
- `madeOf_of_build`: the leaves of a tree are the operands of its text, and the rest is blanks, signs, markers and names of
  functions in front of their parentheses.
-/
import MissionScript.Proofs.Cell.Split
import MissionScript.Proofs.Expression.Built
import MissionScript.Proofs.Expression.Spelling

namespace MissionScript

open Cell Expression

variable {voc : Vocabulary} {nesting : Nesting} {t u : Text} {xs ys : List Text}

inductive Piece where
  /-- an operand without operators -/
  | leaf (text : Text)
  /-- a blank, an operator, a parenthesis or a comma -/
  | sign (c : Char)
  /-- the marker of an inverse -/
  | marker
  /-- the name of a function, up to and with its parenthesis -/
  | head (name blanks : Text)
  deriving DecidableEq, Repr

namespace Piece

def text : Piece → Text
  | leaf text => text
  | sign c => [c]
  | marker => "^(-1)".toList
  | head name blanks => name ++ (blanks ++ ['('])

def leaf? : Piece → Option Text
  | leaf text => some text
  | _ => none

/-- the characters that stand around operands, blanks apart -/
def signs : Text := "+-*/^'(),".toList

/-- what may be a piece: an operand is not empty, and a name before a parenthesis is a function's -/
def Fits (voc : Vocabulary) : Piece → Prop
  | leaf text => text ≠ []
  | sign c => isBlank c = true ∨ c ∈ signs
  | marker => True
  | head name blanks => (voc.kind? name).isSome = true ∧ Text.Blank blanks

end Piece

/-- The text is a row of pieces, and these are the operands among them. -/
def MadeOf (voc : Vocabulary) (t : Text) (leaves : List Text) : Prop :=
  ∃ pieces : List Piece, (∀ p ∈ pieces, p.Fits voc) ∧ pieces.flatMap Piece.text = t ∧ pieces.filterMap Piece.leaf? = leaves

namespace MadeOf

theorem nil : MadeOf voc [] [] := ⟨[], fun _ h => absurd h List.not_mem_nil, rfl, rfl⟩

theorem append (hs : MadeOf voc t xs) (ht : MadeOf voc u ys) : MadeOf voc (t ++ u) (xs ++ ys) := by
  obtain ⟨ps, hps, rfl, rfl⟩ := hs
  obtain ⟨qs, hqs, rfl, rfl⟩ := ht
  refine ⟨ps ++ qs, fun p hp => ?_, List.flatMap_append, List.filterMap_append⟩
  rcases List.mem_append.1 hp with hp | hp
  · exact hps p hp
  · exact hqs p hp

theorem piece {p : Piece} (h : p.Fits voc) : MadeOf voc p.text p.leaf?.toList := by
  refine ⟨[p], fun q hq => List.mem_singleton.1 hq ▸ h, List.append_nil _, ?_⟩
  cases hp : p.leaf? <;> simp [hp]

theorem leaf (h : t ≠ []) : MadeOf voc t [t] := piece (p := .leaf t) h

theorem sign {c : Char} (h : c ∈ Piece.signs) : MadeOf voc [c] [] := piece (p := .sign c) (.inr h)

theorem blank {b : Text} (h : Text.Blank b) : MadeOf voc b [] := by
  refine ⟨b.map .sign, fun p hp => ?_, ?_, ?_⟩
  · obtain ⟨c, hc, rfl⟩ := List.mem_map.1 hp
    exact .inl (h c hc)
  · rw [List.flatMap_map]
    exact List.flatMap_singleton' b
  · rw [List.filterMap_map]
    exact List.filterMap_eq_nil_iff.2 fun _ _ => rfl

theorem cons_sign {c : Char} (h : c ∈ Piece.signs) (ht : MadeOf voc t xs) : MadeOf voc (c :: t) xs := (sign h).append ht

theorem append_blank {b : Text} (ht : MadeOf voc t xs) (h : Text.Blank b) : MadeOf voc (t ++ b) xs := by
  simpa using ht.append (blank h)

theorem blank_append {b : Text} (h : Text.Blank b) (ht : MadeOf voc t xs) : MadeOf voc (b ++ t) xs := (blank h).append ht

theorem of_trim (h : MadeOf voc (Text.trim t) xs) : MadeOf voc t xs := by
  obtain ⟨b₁, b₂, h₁, h₂, ht⟩ := Text.exists_eq_append_trim t
  rw [ht]
  exact blank_append h₁ (h.append_blank h₂)

/-- Commas between the parts are not operands. -/
theorem intercalate {parts : List Text} {leaves : List (List Text)}
    (h : List.Forall₂ (fun part xs => MadeOf voc (Text.trim part) xs) parts leaves) :
    MadeOf voc ([','].intercalate parts) leaves.flatten := by
  induction h with
  | nil => exact nil
  | @cons part xs parts leaves hpart hparts ih =>
    cases hparts with
    | nil =>
      rw [List.intercalate_singleton, List.flatten_cons, List.flatten_nil, List.append_nil]
      exact of_trim hpart
    | cons hnext hrest =>
      rw [List.intercalate_cons_cons, List.append_assoc]
      exact (of_trim hpart).append (cons_sign (by decide) ih)

end MadeOf

/-! ## Levels -/

def Decomposition.MadeOf (voc : Vocabulary) : Decomposition → List Text → Prop
  | .leaf text, leaves => text ≠ [] ∧ leaves = [text]
  | .unary _ operand, leaves => MissionScript.MadeOf voc operand leaves
  | .binary _ left right, leaves =>
    ∃ xs ys, MissionScript.MadeOf voc left xs ∧ MissionScript.MadeOf voc right ys ∧ leaves = xs ++ ys
  | .call _ inside, leaves => MissionScript.MadeOf voc inside leaves

theorem BinaryOp.sign_mem_signs (op : BinaryOp) : op.sign ∈ Piece.signs := by
  cases op <;> decide

/-- An operation puts its operator, or the name of its function, around its operands. -/
theorem Operation.madeOf {d : Decomposition} (h : Operation voc t d) (hleaves : d.MadeOf voc xs) : MadeOf voc t xs := by
  cases h with
  | negate operand => exact .cons_sign (by decide) hleaves
  | transpose operand hb =>
    have hquote : MadeOf voc ('\'' :: _) [] := .cons_sign (by decide) (.blank hb)
    simpa using MadeOf.append hleaves hquote
  | inverse operand =>
    have hmarker : MadeOf voc Postfix.inverse.written [] := .piece (p := .marker) trivial
    simpa using MadeOf.append hleaves hmarker
  | binary op left right =>
    obtain ⟨xs, ys, hleft, hright, rfl⟩ := hleaves
    exact hleft.append (.cons_sign op.sign_mem_signs hright)
  | folded subtracts negates left right hb =>
    obtain ⟨xs, ys, hleft, hright, rfl⟩ := hleaves
    refine hleft.append (.cons_sign (BinaryOp.sign_mem_signs _) (.blank_append hb ?_))
    exact .cons_sign (BinaryOp.sign_mem_signs _) hright
  | call head inside hkind harity haccepts =>
    obtain ⟨b₁, b₂, h₁, h₂, hhead⟩ := Text.exists_eq_append_trim head
    have hname : MadeOf voc (Text.trim head ++ (b₂ ++ ['('])) [] :=
      .piece (p := .head (Text.trim head) b₂) ⟨by rw [hkind]; rfl, h₂⟩
    have hinside : MadeOf voc (inside ++ [')']) xs := by
      simpa using MadeOf.append hleaves (.sign (by decide))
    have hall := (MadeOf.blank_append h₁ hname).append hinside
    rw [hhead]
    simpa using hall

/-- A level is made of what its operands are made of. -/
theorem Spelled.madeOf {d : Decomposition} (h : Spelled voc t d) (hleaves : d.MadeOf voc xs) : MadeOf voc t xs := by
  induction h with
  | leaf t =>
    obtain ⟨hne, rfl⟩ := hleaves
    exact .leaf hne
  | operation h => exact h.madeOf hleaves
  | blanks h₁ h₂ _ ih => exact .blank_append h₁ ((ih hleaves).append_blank h₂)
  | plus _ ih => exact .cons_sign (by decide) (ih hleaves)
  | group _ ih =>
    refine .cons_sign (by decide) ?_
    simpa using (ih hleaves).append (.sign (by decide))

theorem leavesOfAll_eq (arguments : List Expression) : leavesOfAll arguments = (arguments.map leaves).flatten := by
  induction arguments with
  | nil => rfl
  | cons x rest ih => rw [leavesOfAll, ih, List.map_cons, List.flatten_cons]

/-- What stands inside the parentheses of a call is made of what its arguments are made of. -/
theorem madeOf_inside {inside : Text} {items : List (Text × Expression)}
    (hitems : argumentTexts inside = items.map Prod.fst) (h : ∀ i ∈ items, MadeOf voc i.1 i.2.leaves) :
    MadeOf voc inside (leavesOfAll (items.map Prod.snd)) := by
  rw [leavesOfAll_eq, List.map_map]
  unfold argumentTexts at hitems
  split_ifs at hitems with hvisible
  · rw [← text_cells inside, ← splitFrom_intercalate ',' 0 (cells inside)]
    refine .intercalate ?_
    rw [← List.forall₂_map_left_iff (f := Text.trim) (R := MadeOf voc)]
    change List.Forall₂ (MadeOf voc) ((split ',' (cells inside)).map Text.trim) _
    rw [hitems, List.forall₂_map_left_iff, List.forall₂_map_right_iff, List.forall₂_same]
    exact h
  · obtain rfl := List.map_eq_nil_iff.1 hitems.symm
    exact .blank (Text.isVisible_eq_false_iff.1 (by simpa using hvisible))

/-- **Nothing of the text is lost and nothing is added.** The leaves of the tree stand in the text, one behind the other and
apart from each other, and what stands around them are blanks, signs, markers and names of functions before their
parentheses. -/
theorem madeOf_of_build {x : Expression} (h : build nesting voc t = .ok x) : MadeOf voc t x.leaves := by
  have hbuilt := built_iff.2 h
  clear h
  induction hbuilt with
  | leaf hlevel hne => exact (spelled_of_decompose hlevel).madeOf ⟨hne, rfl⟩
  | unary hlevel _ ih => exact (spelled_of_decompose hlevel).madeOf ih
  | binary hlevel _ _ ihx ihy => exact (spelled_of_decompose hlevel).madeOf ⟨_, _, ihx, ihy, rfl⟩
  | call hlevel hitems _ _ ih => exact (spelled_of_decompose hlevel).madeOf (madeOf_inside hitems ih)

/-- A remainder, behind a sign and with blanks in it, and an inverse: three operands. -/
theorem madeOf_sum_of_remainder :
    build .allow .initial "-mod ( a, 2 ) + B^(-1)".toList =
        .ok (.binary .add (.unary .negate (.call ⟨"mod".toList, .scalar⟩ [.leaf ['a'], .leaf ['2']] []))
          (.unary .inverse (.leaf ['B']))) ∧
      MadeOf .initial "-mod ( a, 2 ) + B^(-1)".toList [['a'], ['2'], ['B']] := by
  have hcall : decompose .initial "mod ( a, 2 )".toList = .ok (.call ⟨"mod".toList, .scalar⟩ " a, 2 ".toList) := by
    decide +kernel
  have harguments : argumentTexts " a, 2 ".toList =
      [(['a'], Expression.leaf ['a']), (['2'], .leaf ['2'])].map Prod.fst := by
    decide +kernel
  have hname : Built .allow .initial ['a'] (.leaf ['a']) := .leaf (by decide +kernel) (by simp)
  have hnumeral : Built .allow .initial ['2'] (.leaf ['2']) := .leaf (by decide +kernel) (by simp)
  have hmatrix : Built .allow .initial ['B'] (.leaf ['B']) := .leaf (by decide +kernel) (by simp)
  have hremainder : Built .allow .initial "mod ( a, 2 )".toList
      (.call ⟨"mod".toList, .scalar⟩ [.leaf ['a'], .leaf ['2']] []) :=
    .call hcall harguments
      (List.forall_mem_cons.2 ⟨by decide +kernel, List.forall_mem_singleton.2 (by decide +kernel)⟩)
      (List.forall_mem_cons.2 ⟨hname, List.forall_mem_singleton.2 hnumeral⟩)
  have hnegation : decompose .initial "-mod ( a, 2 ) ".toList = .ok (.unary .negate "mod ( a, 2 )".toList) := by
    decide +kernel
  have hinverse : decompose .initial " B^(-1)".toList = .ok (.unary .inverse ['B']) := by decide +kernel
  have hsum : decompose .initial "-mod ( a, 2 ) + B^(-1)".toList =
      .ok (.binary .add "-mod ( a, 2 ) ".toList " B^(-1)".toList) := by
    decide +kernel
  have hbuild := built_iff.1 (.binary hsum (.unary hnegation hremainder) (.unary hinverse hmatrix))
  exact ⟨hbuild, madeOf_of_build hbuild⟩

end MissionScript
