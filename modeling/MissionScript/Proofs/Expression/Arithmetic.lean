/-
Arithmetic keeps its value behind signs.

`Arithmetic` is the infix language with inverse markers, a minus before a minus, and a run of signs before every term
of a sum but the first. Every text of it is built (`Arithmetic.builds`).

- `Arithmetic.build_withSigns`: a run of signs before a product negates its value, or leaves it.
- `Arithmetic.sum_signed`: a product behind a sign may begin with signs of its own.
- `build_sign_run`: a term behind a run of signs is added or subtracted, as the number of minus signs says.

The first sign of a run is where the text is split, the second one is taken into the operator, and the others come to
stand before the first factor of the term. They are a part of that factor alone, so that what they do to the product is
followed along its factors.
-/
import Mathlib.Algebra.Field.Rat
import MissionScript.Proofs.Expression.Built
import MissionScript.Proofs.Expression.Postfix
import MissionScript.Proofs.Expression.Signs

namespace MissionScript

open Cell Expression

universe u

variable {voc : Vocabulary} {category left right : Category} {l r t b b₁ b₂ : Text} {c : Char} {op : BinaryOp}
  {x y : Expression} {signs : List Sign}

/-- the texts of each category, with runs of signs before the terms of sums -/
inductive Arithmetic (voc : Vocabulary) : Category → Text → Prop where
  | operand {t : Text} : Operand t → Arithmetic voc .atom t
  | group {b₁ t b₂ : Text} : Gap b₁ → Gap b₂ → Arithmetic voc .sum t →
      Arithmetic voc .atom ('(' :: (b₁ ++ (t ++ b₂) ++ [')']))
  /-- a call, or an index behind a name that stands for no function -/
  | call {name gap : Text} {args : List Argument} : IsIdentifier name →
      (∀ kind, voc.kind? name = some kind → ∃ arity, voc.arity? name = some arity ∧ arity.accepts args.length = true) →
      Gap gap → (∀ a ∈ args, Gap a.before ∧ Gap a.after) → (∀ a ∈ args, Arithmetic voc .sum a.text) →
      Arithmetic voc .atom (name ++ '(' :: (joined gap args ++ [')']))
  | inverse {t b : Text} : Gap b → Arithmetic voc .atom t → Arithmetic voc .atom (t ++ b ++ Postfix.inverse.written)
  | lift {small large : Category} {t : Text} : small.Within large → Arithmetic voc small t → Arithmetic voc large t
  | minus {category : Category} {b t : Text} : category = .signed ∨ category = .exponent → Gap b →
      Arithmetic voc category t → Arithmetic voc category ('-' :: (b ++ t))
  | binary {left right : Category} {c : Char} {op : BinaryOp} {l b₁ b₂ r : Text} :
      left.Joined c op right → left ≠ .sum → Arithmetic voc left l → Arithmetic voc right r → Gap b₁ → Gap b₂ →
      -- what looks like an inverse marker is one
      (c = '^' → ['(', '-', '1', ')'].isPrefixOf (b₂ ++ r) = false) →
      Arithmetic voc left (l ++ b₁ ++ c :: (b₂ ++ r))
  | sum {l b r : Text} {signs : List Sign} : Arithmetic voc .sum l → Gap b → signs ≠ [] → Arithmetic voc .product r →
      isSigned r = false → Arithmetic voc .sum (l ++ b ++ withSigns signs r)

/-! ## Phrases -/

theorem Phrase.inverse (h : Phrase .atom t) (hb : Gap b) : Phrase .atom (t ++ b ++ Postfix.inverse.written) where
  toPart := (h.left_part hb).inverse
  head := by
    rw [List.append_assoc]
    exact h.head_append _
  last := by
    refine ⟨')', ?_, .inr rfl⟩
    rw [List.getLast?_append]
    rfl

theorem Phrase.sum (hl : Phrase .sum l) (hb : Gap b) (hne : signs ≠ []) (hr : Phrase .product r) :
    Phrase .sum (l ++ b ++ withSigns signs r) where
  toPart := by
    obtain ⟨s, signs, rfl⟩ := List.exists_cons_of_ne_nil hne
    have hright : Part 0 (s.gap ++ withSigns signs r) :=
      ((hr.toPart.behind_signs signs).gap_append s.isGap).mono (Nat.zero_le _)
    have hinfix : s.char ∈ infixes := by rcases s.char_cases with h | h <;> rw [h] <;> decide
    exact (hl.left_part hb).binary hright hinfix (noMarker_of_sign s.char_cases _) fun _ _ => Nat.zero_le _
  head := by
    rw [List.append_assoc]
    exact hl.head_append _
  last := by
    rw [show withSigns signs r = withSigns signs [] ++ r from withSigns_append signs [] r, ← List.append_assoc]
    exact hr.last_append _

theorem Arithmetic.phrase (h : Arithmetic voc category t) : Phrase category t := by
  induction h with
  | operand h => exact .operand h
  | group h₁ h₂ _ ih => exact .group h₁ h₂ ih
  | call hname _ hgap hgaps _ ih => exact .call hname (sound_joined hgap hgaps ih)
  | inverse hb _ ih => exact ih.inverse hb
  | lift hw _ ih => exact ih.lift hw
  | minus hcategory hb _ ih => exact ih.minus (by rcases hcategory with rfl | rfl <;> rfl) hb
  | binary hj _ _ _ h₁ h₂ hmarker ihl ihr => exact ihl.binary hj ihr h₁ h₂ hmarker
  | sum _ hb hne _ _ ihl ihr => exact ihl.sum hb hne ihr

/-! ## Products that begin with signs -/

/-- A product, or a factor, is one without signs behind a run of signs. -/
theorem Arithmetic.exists_unsigned (h : Arithmetic voc category t) (hc : category = .product ∨ category = .signed) :
    ∃ signs u, t = withSigns signs u ∧ Arithmetic voc category u ∧ isSigned u = false := by
  induction h with
  | operand | group | call | inverse | sum => simp at hc
  | @lift small large t hw ht ih =>
    cases hw with
    | product | base | exponent => simp at hc
    | power => exact ⟨[], t, rfl, .lift .power ht, ht.phrase.isSigned rfl⟩
    | signed =>
      obtain ⟨signs, u, rfl, hu, hfirst⟩ := ih (.inr rfl)
      exact ⟨signs, u, rfl, .lift .signed hu, hfirst⟩
  | @minus category b t hcategory hb ht ih =>
    obtain ⟨signs, u, rfl, hu, hfirst⟩ := ih hc
    exact ⟨⟨true, b, hb⟩ :: signs, u, rfl, hu, hfirst⟩
  | @binary left right c op l b₁ b₂ r hj hsum hl hr h₁ h₂ hmarker ihl _ =>
    obtain ⟨signs, u, rfl, hu, hfirst⟩ := ihl hc
    refine ⟨signs, u ++ b₁ ++ c :: (b₂ ++ r), ?_, .binary hj hsum hu hr h₁ h₂ hmarker, ?_⟩
    · rw [withSigns_append, withSigns_append]
    · obtain ⟨d, u, rfl⟩ := List.exists_cons_of_ne_nil hu.phrase.ne_nil
      exact hfirst

/-- **Sums of products.** A product may be added to a sum or subtracted from it, whatever signs it begins with. -/
theorem Arithmetic.sum_signed (hl : Arithmetic voc .sum l) (hr : Arithmetic voc .product r) (h₁ : Gap b₁) (h₂ : Gap b₂)
    (subtracts : Bool) : Arithmetic voc .sum (l ++ b₁ ++ (if subtracts then '-' else '+') :: (b₂ ++ r)) := by
  obtain ⟨signs, u, rfl, hu, hfirst⟩ := hr.exists_unsigned (.inl rfl)
  exact .sum hl h₁ (List.cons_ne_nil ⟨subtracts, b₂, h₂⟩ signs) hu hfirst

/-! ## Inverse markers -/

theorem decompose_inverse (h : Phrase .atom t) (hb : Gap b) :
    decompose voc (t ++ b ++ Postfix.inverse.written) = .ok (.unary .inverse (t ++ b)) := by
  have hwhole := h.inverse hb
  have hcells : cells (t ++ b ++ Postfix.inverse.written) = cells (t ++ b) ++ Postfix.inverse.mark :=
    (h.left_part hb).reads.inverse.cells_eq
  have hmem : ⟨'^', .inverse 4⟩ ∈ cells (t ++ b ++ Postfix.inverse.written) := by
    rw [hcells]
    exact List.mem_append_right _ List.mem_cons_self
  have hsigned : isSigned (t ++ b ++ Postfix.inverse.written) = false := hwhole.isSigned rfl
  have hoperand : isOperand (t ++ b ++ Postfix.inverse.written) = false := by
    by_contra hoperand
    rcases inert_of_isOperand hwhole.trim_eq (by simpa using hoperand) with hinert | ⟨sign, cs, hsign, hsigns, -⟩
    · exact (hinert _ hmem).2 4 rfl
    · rw [← text_cells (t ++ b ++ Postfix.inverse.written), hsigns] at hsigned
      rcases hsign with rfl | rfl <;> exact Bool.false_ne_true hsigned.symm
  have hmarker : Stage.runMarker (cells (t ++ b ++ Postfix.inverse.written)) =
      some (.decide (.unary .inverse (t ++ b))) := by
    rw [hcells, runMarker_inverse, text_cells]
  rw [decompose_eq hwhole.trim_eq hoperand hwhole.clean.checkGroups,
    Stage.runAll_marker (hcells ▸ enclosed_inverse _) (by rwa [text_cells]) (.inl hwhole.toPart.lowest_eq_none) hmarker]

/-! ## Signs before a product -/

theorem Category.Joined.product (h : Category.product.Joined c op right) :
    right = .signed ∧ ∃ divides, c = (if divides then '/' else '*') ∧ op = Stage.productOf divides := by
  cases h with
  | multiply => exact ⟨rfl, false, rfl, rfl⟩
  | divide => exact ⟨rfl, true, rfl, rfl⟩

/-- What is split in two is built from the trees of both sides. -/
theorem exists_of_build_binary (hlevel : decompose voc t = .ok (.binary op l r)) {nesting : Nesting}
    (hx : build nesting voc t = .ok x) :
    ∃ y z, x = .binary op y z ∧ build nesting voc l = .ok y ∧ build nesting voc r = .ok z := by
  cases built_of_build hx with
  | leaf h => exact absurd (hlevel.symm.trans h) (by simp)
  | unary h => exact absurd (hlevel.symm.trans h) (by simp)
  | call h => exact absurd (hlevel.symm.trans h) (by simp)
  | binary h hy hz =>
    obtain ⟨rfl, rfl, rfl⟩ : op = _ ∧ l = _ ∧ r = _ := by simpa using hlevel.symm.trans h
    exact ⟨_, _, rfl, built_iff.1 hy, built_iff.1 hz⟩

/-- **Signs before a product are signs of its value.** A run of signs before a product negates its value when the number
of minus signs is odd, and leaves it otherwise. -/
theorem Arithmetic.build_withSigns (hvoc : voc.Reachable) (h : Arithmetic voc .product t)
    (hx : build .allow voc t = .ok x) (signs : List Sign) :
    ∃ y, build .allow voc (withSigns signs t) = .ok y ∧ Negates.{u} (negates signs) x y := by
  generalize hproduct : Category.product = category at h
  induction h generalizing x with
  | operand | group | call | inverse | sum => exact absurd hproduct (by decide)
  | minus hcategory => rcases hcategory with rfl | rfl <;> exact absurd hproduct (by decide)
  | @lift small large t hw ht _ =>
    subst hproduct
    cases hw
    exact ht.phrase.toPart.build_withSigns hvoc ht.phrase.trim_eq hx signs
  | @binary left right c op l b₁ b₂ r hj hsum hl hr h₁ h₂ hmarker ihl _ =>
    subst hproduct
    have hwhole := hl.phrase.binary hj hr.phrase h₁ h₂ hmarker
    have hlevel : decompose voc (l ++ b₁ ++ c :: (b₂ ++ r)) = .ok (.binary op (l ++ b₁) (b₂ ++ r)) :=
      decompose_joined hj hl.phrase hr.phrase h₁ h₂ (fun h => absurd h hsum) hmarker
    obtain ⟨y, z, rfl, hy, hz⟩ := exists_of_build_binary hlevel hx
    rw [build_append_blank h₁.blank] at hy
    obtain ⟨y', hy', hsame⟩ := ihl hy rfl
    obtain ⟨rfl, divides, rfl, rfl⟩ := hj.product
    have htrim := trim_withSigns hwhole.trim_eq hwhole.ne_nil signs
    have hpart : Part 1 (withSigns signs l ++ b₁) := (hl.phrase.toPart.behind_signs signs).append_gap h₁
    have hleft : build .allow voc (withSigns signs l ++ b₁) = .ok y' := (build_append_blank h₁.blank _).trans hy'
    rw [withSigns_append, withSigns_append] at htrim ⊢
    have hsplit : decompose voc (withSigns signs l ++ b₁ ++ (if divides then '/' else '*') :: (b₂ ++ r)) =
        .ok (.binary (Stage.productOf divides) (withSigns signs l ++ b₁) (b₂ ++ r)) :=
      decompose_product divides hpart (hr.phrase.right_part h₂) (isVisible_of_build hleft) (isVisible_of_build hz) htrim
    refine ⟨.binary (Stage.productOf divides) y' z,
      build_binary hsplit (isVisible_of_build hleft) (isVisible_of_build hz) hleft hz, ?_⟩
    cases divides
    · exact hsame.multiply z
    · exact hsame.divide z

/-! ## Signs before a term -/

/-- A second sign is taken into the operator. -/
theorem additive_of_sign (subtracts : Bool) (left : Text) (s : Sign) (hb : Gap b) (rest : Text) :
    additive subtracts left (b ++ s.char :: rest) =
      .binary (if subtracts ^^ s.minus then .subtract else .add) left rest := by
  have htrim : Text.trimStart (b ++ s.char :: rest) = s.char :: rest := by
    rw [Text.trimStart_append hb.blank]
    refine List.dropWhile_cons_of_neg ?_
    rcases s.char_cases with h | h <;> rw [h] <;> decide
  rw [additive, htrim, Sign.char]
  cases s.minus <;> cases subtracts <;> rfl

/-- A term behind a run of signs is added or subtracted, with the signs that the operator does not take before it. -/
theorem Arithmetic.build_term (hvoc : voc.Reachable) (hl : Phrase .sum l) (hb : Gap b) (hne : signs ≠ [])
    (hr : Arithmetic voc .product r) (hfirst : isSigned r = false) (hx : build .allow voc l = .ok x)
    (hy : build .allow voc r = .ok y) :
    ∃ subtracts flips z, build .allow voc (l ++ b ++ withSigns signs r) =
      .ok (.binary (if subtracts then .subtract else .add) x z) ∧
      Negates.{u} flips y z ∧ (subtracts ^^ flips) = negates signs := by
  have htrim := (hl.sum hb hne hr.phrase).trim_eq
  have hleft : build .allow voc (l ++ b) = .ok x := (build_append_blank hb.blank l).trans hx
  obtain ⟨s, signs, rfl⟩ := List.exists_cons_of_ne_nil hne
  have hright : Part 1 (s.gap ++ withSigns signs r) := (hr.phrase.toPart.behind_signs signs).gap_append s.isGap
  have hlevel : decompose voc (l ++ b ++ withSigns (s :: signs) r) =
      .ok (additive s.minus (l ++ b) (s.gap ++ withSigns signs r)) :=
    decompose_sum s.minus (hl.left_part hb) hright htrim
  cases signs with
  | nil =>
    have hunsigned : r.head? ≠ some '-' := by
      intro hhead
      obtain ⟨rest, rfl⟩ := List.head?_eq_some_iff.1 hhead
      exact absurd hfirst (by simp [isSigned])
    have hlast : build .allow voc (s.gap ++ r) = .ok y := (build_blank_append s.isGap.blank r).trans hy
    have hsplit := hlevel.trans
      (congrArg _ (additive_of_unsigned s.minus (l ++ b) (hr.phrase.unsigned_right s.isGap hunsigned)))
    exact ⟨s.minus, false, y, build_binary hsplit (isVisible_of_build hleft) (isVisible_of_build hlast) hleft hlast,
      .refl y, rfl⟩
  | cons s₂ signs =>
    obtain ⟨z, hz, hsame⟩ := hr.build_withSigns hvoc hy signs
    have hlast : build .allow voc (s₂.gap ++ withSigns signs r) = .ok z :=
      (build_blank_append s₂.isGap.blank _).trans hz
    have hsplit := hlevel.trans (congrArg _ (additive_of_sign s.minus (l ++ b) s₂ s.isGap _))
    exact ⟨s.minus ^^ s₂.minus, negates signs, z,
      build_binary hsplit (isVisible_of_build hleft) (isVisible_of_build hlast) hleft hlast, hsame,
      Bool.xor_assoc s.minus s₂.minus (negates signs)⟩

/-! ## Every text is built -/

/-- **Arithmetic is built.** For every vocabulary, every text of every category has a tree. -/
theorem Arithmetic.builds (hvoc : voc.Reachable) (h : Arithmetic voc category t) :
    ∃ x, build .allow voc t = .ok x := by
  induction h with
  | operand h => exact ⟨_, build_leaf (decompose_operand h) (Phrase.operand h).ne_nil⟩
  | @group b₁ t b₂ h₁ h₂ ht ih =>
    obtain ⟨x, hx⟩ := ih
    have hempty : voc.kind? [] = none := hvoc.kind?_eq_none (by simp)
    refine ⟨x, ?_⟩
    rw [build_congr (decompose_group hempty (ht.phrase.toSound.pad h₁ h₂).enclosable), build_pad h₁.blank h₂.blank, hx]
  | @call name gap args hname haccepts hgap hgaps hargs ih =>
    have hphrases : ∀ a ∈ args, Phrase .sum a.text := fun a ha => (hargs a ha).phrase
    have henclosable := (sound_joined hgap hgaps hphrases).enclosable
    have htexts := argumentTexts_joined hgap hgaps hphrases
    cases hkind : voc.kind? name with
    -- an array element is a leaf, whatever stands in its index
    | none => exact ⟨_, build_leaf (decompose_indexed hname hkind henclosable) (by simp)⟩
    | some kind =>
      obtain ⟨arity, harity, hcount⟩ := haccepts kind hkind
      have hcall := decompose_call hname hkind harity (by rwa [htexts, List.length_map]) henclosable
      have : Nonempty Expression := ⟨.leaf []⟩
      choose! tree htree using ih
      have htrees := buildArguments_eq_ok name (fun a ha => (hphrases a ha).isVisible) htree
      rw [← htexts] at htrees
      exact ⟨_, build_call hcall htrees⟩
  | @inverse t b hb ht ih =>
    obtain ⟨x, hx⟩ := ih
    have hpad : build .allow voc (t ++ b) = .ok x := (build_append_blank hb.blank t).trans hx
    exact ⟨_, build_unary (decompose_inverse ht.phrase hb) (isVisible_of_build hpad) hpad⟩
  | lift _ _ ih => exact ih
  | @minus category b t hcategory hb ht ih =>
    obtain ⟨x, hx⟩ := ih
    have hpad : build .allow voc (b ++ t) = .ok x := (build_blank_append hb.blank t).trans hx
    have hmay : category.maySign = true ∧ 2 ≤ category.rank := by rcases hcategory with rfl | rfl <;> decide
    obtain ⟨y, hy, -⟩ := build_signed.{0} hvoc (.inr rfl) ((ht.phrase.right_part hb).mono hmay.2)
      (ht.phrase.minus hmay.1 hb).trim_eq hpad
    exact ⟨y, hy⟩
  | @binary left right c op l b₁ b₂ r hj hsum hl hr h₁ h₂ hmarker ihl ihr =>
    obtain ⟨x, hx⟩ := ihl
    obtain ⟨y, hy⟩ := ihr
    have hleft : build .allow voc (l ++ b₁) = .ok x := (build_append_blank h₁.blank l).trans hx
    have hright : build .allow voc (b₂ ++ r) = .ok y := (build_blank_append h₂.blank r).trans hy
    have hlevel : decompose voc (l ++ b₁ ++ c :: (b₂ ++ r)) = .ok (.binary op (l ++ b₁) (b₂ ++ r)) :=
      decompose_joined hj hl.phrase hr.phrase h₁ h₂ (fun h => absurd h hsum) hmarker
    exact ⟨_, build_binary hlevel (isVisible_of_build hleft) (isVisible_of_build hright) hleft hright⟩
  | sum hl hb hne hr hfirst ihl ihr =>
    obtain ⟨x, hx⟩ := ihl
    obtain ⟨y, hy⟩ := ihr
    obtain ⟨subtracts, flips, z, hz, -⟩ := build_term.{0} hvoc hl.phrase hb hne hr hfirst hx hy
    exact ⟨_, hz⟩

/-- **Runs of signs keep their value.** Behind a sum, a product that begins with no sign of its own may have any run of
signs before it. The whole is built, to a sum or a difference whose left side is the tree of the sum. In every
evaluation into every field the value of the product is added when the number of minus signs is even, and subtracted
when it is odd. -/
theorem build_sign_run (hvoc : voc.Reachable) (hl : Arithmetic voc .sum l) (hr : Arithmetic voc .product r)
    (hfirst : isSigned r = false) (hb : Gap b) (hne : signs ≠ []) :
    ∃ op x y z, (op = .add ∨ op = .subtract) ∧ build .allow voc l = .ok x ∧ build .allow voc r = .ok y ∧
      build .allow voc (l ++ b ++ withSigns signs r) = .ok (.binary op x z) ∧
      ∀ (K : Type u) [Field K] (value : Expression → K), IsEvaluation value →
        value (.binary op x z) =
          if Even (signs.countP Sign.minus) then value x + value y else value x - value y := by
  obtain ⟨x, hx⟩ := hl.builds hvoc
  obtain ⟨y, hy⟩ := hr.builds hvoc
  obtain ⟨subtracts, flips, z, hz, hsame, hsigns⟩ := Arithmetic.build_term hvoc hl.phrase hb hne hr hfirst hx hy
  refine ⟨_, x, y, z, by cases subtracts <;> simp, hx, hy, hz, ?_⟩
  intro K _ value hvalue
  rw [hsame.value_sum hvalue subtracts x, hsigns]
  by_cases heven : Even (signs.countP Sign.minus)
  · rw [negates_eq_false_iff.2 heven, if_pos heven, if_neg Bool.false_ne_true]
  · rw [Bool.eq_true_of_not_eq_false fun h => heven (negates_eq_false_iff.1 h), if_neg heven, if_pos rfl]

/-- In `1+ -a - +-2*b` the product `2*b` is added. -/
theorem build_minus_plus_minus :
    Vocabulary.initial.Reachable ∧ Arithmetic .initial .sum "1+ -a".toList ∧ Arithmetic .initial .product "2*b".toList ∧
      ∃ op x y z, (op = .add ∨ op = .subtract) ∧ build .allow .initial "1+ -a".toList = .ok x ∧
        build .allow .initial "2*b".toList = .ok y ∧
        build .allow .initial "1+ -a - +-2*b".toList = .ok (.binary op x z) ∧
        ∀ i : Interpretation ℚ, i.eval (.binary op x z) = i.eval x + i.eval y := by
  have hspace : Gap [' '] := by simp [Gap]
  have hname : ∀ name ∈ [['a'], ['b']], IsIdentifier name := by decide
  have hdigits : ∀ n ∈ [['1'], ['2']], IsNumeral n := by
    intro n hn
    have hone : n ≠ [] ∧ IsDigits n := by
      rcases List.mem_cons.1 hn with rfl | hn
      · simp [IsDigits]
      · obtain rfl := List.mem_singleton.1 hn
        simp [IsDigits]
    exact ⟨n, [], .whole hone.1 hone.2, .none, (List.append_nil n).symm⟩
  have hfactor : ∀ t, Operand t → Arithmetic .initial .signed t := fun t h => .lift .power (.lift .base (.operand h))
  have hone := hfactor _ (.numeral (hdigits ['1'] (by simp)))
  have htwo := hfactor _ (.numeral (hdigits ['2'] (by simp)))
  have ha := hfactor _ (.reference (.name (hname ['a'] (by simp))))
  have hb := hfactor _ (.reference (.name (hname ['b'] (by simp))))
  have hsum : Arithmetic .initial .sum ['1', '+', ' ', '-', 'a'] :=
    Arithmetic.sum_signed (.lift .product (.lift .signed hone)) (.lift .signed (.minus (.inl rfl) .nil ha)) .nil hspace
      false
  have hproduct : Arithmetic .initial .product ['2', '*', 'b'] :=
    .binary .multiply (by decide) (.lift .signed htwo) hb .nil .nil (by decide)
  have hne : [⟨true, [' '], hspace⟩, ⟨false, [], .nil⟩, ⟨true, [], .nil⟩] ≠ ([] : List Sign) := by simp
  obtain ⟨op, x, y, z, hop, hx, hy, hz, hvalue⟩ := build_sign_run .initial hsum hproduct rfl hspace hne
  refine ⟨.initial, hsum, hproduct, op, x, y, z, hop, hx, hy, hz, ?_⟩
  intro i
  rw [hvalue ℚ i.eval i.isEvaluation, if_pos ⟨1, rfl⟩]

end MissionScript
