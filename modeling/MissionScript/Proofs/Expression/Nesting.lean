/-
Expressions without nested equations.

An expression may be refused for one more reason when no equations may be passed to functions. `build_reject` says that this
is all: it is a filter on the trees, which lets pass those whose calls have leaves only for arguments.

- `isEquation_of_built`: of the texts that are built the equations are those that make more than a leaf.
- `Built.reject`: a tree with plain calls is built by the same rules.
- `Built.refused`: any other tree is refused, for an argument that is an equation.
-/
import MissionScript.Proofs.Expression.Built

namespace MissionScript

open Expression

variable {voc : Vocabulary} {nesting : Nesting} {t function argument : Text} {x : Expression}

/-- true when every argument of every call is a leaf, so that no call stands in another -/
def Expression.plainCalls : Expression → Bool
  | .leaf _ => true
  | .unary _ operand => operand.plainCalls
  | .binary _ left right => left.plainCalls && right.plainCalls
  | .call _ arguments _ => arguments.all isLeaf

theorem Expression.plainCalls_of_isLeaf (h : x.isLeaf = true) : x.plainCalls = true := by
  cases x with
  | leaf text => rfl
  | unary op operand => exact absurd h (by simp [isLeaf])
  | binary op left right => exact absurd h (by simp [isLeaf])
  | call callee arguments inputs => exact absurd h (by simp [isLeaf])

/-! ## Equations -/

/-- A leaf is made of a text without operators, anything else of a text with one. -/
theorem Built.hasOperator (h : Built nesting voc t x) :
    ∃ d, decompose voc t = .ok d ∧ d.hasOperator = !x.isLeaf := by
  cases h with
  | leaf hlevel hne => exact ⟨_, hlevel, rfl⟩
  | unary hlevel hx => exact ⟨_, hlevel, rfl⟩
  | binary hlevel hx hy => exact ⟨_, hlevel, rfl⟩
  | call hlevel hitems hadmitted hbuilt => exact ⟨_, hlevel, rfl⟩

theorem decompose_of_isQuoted (h : Text.isQuoted t = true) : decompose voc t = .ok (.leaf (Text.trim t)) := by
  have hquoted : Text.isQuoted (Text.trim t) = true := by
    rw [Text.isQuoted, Text.trim_trim]
    exact h
  rw [← decompose_trim]
  apply decompose_of_isOperand (Text.trim_trim t)
  simp [isOperand, hquoted]

/-- **Equations are what makes more than a leaf.** -/
theorem isEquation_of_built (h : Built nesting voc t x) : isEquation voc t = .ok !x.isLeaf := by
  obtain ⟨d, hlevel, hoperator⟩ := h.hasOperator
  unfold isEquation
  split_ifs with hquoted
  · rw [decompose_of_isQuoted hquoted] at hlevel
    obtain rfl : Decomposition.leaf (Text.trim t) = d := Except.ok.inj hlevel
    rw [← hoperator]
    rfl
  · rw [hlevel, ← hoperator]
    rfl

/-! ## Arguments -/

theorem requireArgument_allow :
    requireArgument .allow voc function argument = requireOperand (.function function) argument := by
  unfold requireArgument
  cases requireOperand (.function function) argument <;> rfl

/-- What is admitted where no equations are allowed is admitted anywhere. -/
theorem requireArgument_of_reject (h : requireArgument .reject voc function argument = .ok ()) :
    requireArgument .allow voc function argument = .ok () := by
  rw [requireArgument_allow]
  obtain ⟨⟨⟩, hoperand, -⟩ := bind_eq_ok_iff.1 h
  exact hoperand

/-- An argument that is built is refused exactly when it is more than a leaf. -/
theorem requireArgument_reject (h : requireArgument .allow voc function argument = .ok ())
    (hx : Built nesting voc argument x) :
    requireArgument .reject voc function argument =
      if x.isLeaf then .ok () else .error (.equationArgument function argument) := by
  rw [requireArgument_allow] at h
  unfold requireArgument
  rw [h, isEquation_of_built hx]
  cases x.isLeaf <;> rfl

/-! ## Trees -/

/-- What is built without nested equations is built with them. -/
theorem Built.allow (h : Built .reject voc t x) : Built .allow voc t x := by
  induction h with
  | leaf hlevel hne => exact .leaf hlevel hne
  | unary hlevel _ ih => exact .unary hlevel ih
  | binary hlevel _ _ ihx ihy => exact .binary hlevel ihx ihy
  | call hlevel hitems hadmitted _ ih =>
    refine .call hlevel hitems ?_ ih
    intro i hi
    exact requireArgument_of_reject (hadmitted i hi)

/-- A tree with plain calls is built without nested equations. -/
theorem Built.reject (h : Built .allow voc t x) (hplain : x.plainCalls = true) : Built .reject voc t x := by
  induction h with
  | leaf hlevel hne => exact .leaf hlevel hne
  | unary hlevel _ ih => exact .unary hlevel (ih hplain)
  | binary hlevel _ _ ihx ihy =>
    obtain ⟨hx, hy⟩ := Bool.and_eq_true_iff.1 hplain
    exact .binary hlevel (ihx hx) (ihy hy)
  | @call t inside callee items hlevel hitems hadmitted hbuilt ih =>
    have hleaf : ∀ i ∈ items, i.2.isLeaf = true := by
      intro i hi
      exact List.all_eq_true.1 hplain i.2 (List.mem_map_of_mem hi)
    refine .call hlevel hitems ?_ ?_
    · intro i hi
      rw [requireArgument_reject (hadmitted i hi) (hbuilt i hi), if_pos (hleaf i hi)]
    · intro i hi
      exact ih i hi (plainCalls_of_isLeaf (hleaf i hi))

/-- The first argument that is more than a leaf is refused. -/
theorem buildArguments_refused {items : List (Text × Expression)}
    (hadmitted : ∀ i ∈ items, requireArgument .allow voc function i.1 = .ok ())
    (hbuilt : ∀ i ∈ items, Built .allow voc i.1 i.2) (hnested : ∃ i ∈ items, i.2.isLeaf = false) :
    ∃ argument, isEquation voc argument = .ok true ∧
      buildArguments builder .reject voc function (items.map Prod.fst) = .error (.equationArgument function argument) := by
  induction items with
  | nil =>
    obtain ⟨i, hi, -⟩ := hnested
    exact absurd hi List.not_mem_nil
  | cons i items ih =>
    have hfirst := hbuilt i List.mem_cons_self
    have hrequired := requireArgument_reject (hadmitted i List.mem_cons_self) hfirst
    rw [List.map_cons, buildArguments, ofExcept_eq]
    cases hleaf : i.2.isLeaf with
    | false =>
      refine ⟨i.1, by rw [isEquation_of_built hfirst, hleaf]; rfl, ?_⟩
      rw [hrequired, hleaf]
      rfl
    | true =>
      -- a leaf is built in both modes, so that a later argument is the first that is refused
      have hlater : ∃ j ∈ items, j.2.isLeaf = false := by
        obtain ⟨j, hj, hjleaf⟩ := hnested
        rcases List.mem_cons.1 hj with rfl | hj
        · exact absurd (hleaf.symm.trans hjleaf) (by decide)
        · exact ⟨j, hj, hjleaf⟩
      obtain ⟨argument, hequation, herror⟩ := ih (fun j hj => hadmitted j (List.mem_cons_of_mem i hj))
        (fun j hj => hbuilt j (List.mem_cons_of_mem i hj)) hlater
      have hnode : buildWith builder .reject voc i.1 = .ok i.2 :=
        built_iff.1 (hfirst.reject (plainCalls_of_isLeaf hleaf))
      refine ⟨argument, hequation, ?_⟩
      rw [hrequired, hleaf, hnode, herror]
      rfl

/-- A tree with a call in which an argument is more than a leaf is refused for such an argument. -/
theorem Built.refused (h : Built .allow voc t x) (hnested : x.plainCalls = false) :
    ∃ function argument, isEquation voc argument = .ok true ∧
      build .reject voc t = .error (.equationArgument function argument) := by
  induction h with
  | leaf hlevel hne => exact absurd hnested (by simp [plainCalls])
  | unary hlevel hx ih =>
    obtain ⟨function, argument, hequation, herror⟩ := ih hnested
    exact ⟨function, argument, hequation, build_unary_error hlevel (isVisible_of_build (built_iff.1 hx)) herror⟩
  | @binary t left right op x y hlevel hx hy ihx ihy =>
    have hleft := isVisible_of_build (built_iff.1 hx)
    have hright := isVisible_of_build (built_iff.1 hy)
    cases hplain : x.plainCalls with
    | false =>
      obtain ⟨function, argument, hequation, herror⟩ := ihx hplain
      exact ⟨function, argument, hequation, build_left_error hlevel hleft hright herror⟩
    | true =>
      -- the left side is built, and the right side is refused behind it
      have hnestedRight : y.plainCalls = false := by simpa [plainCalls, hplain] using hnested
      obtain ⟨function, argument, hequation, herror⟩ := ihy hnestedRight
      exact ⟨function, argument, hequation,
        build_right_error hlevel hleft hright (built_iff.1 (hx.reject hplain)) herror⟩
  | @call t inside callee items hlevel hitems hadmitted hbuilt ih =>
    have hsome : ∃ i ∈ items, i.2.isLeaf = false := by
      obtain ⟨argument, hargument, hleaf⟩ := List.all_eq_false.1 hnested
      obtain ⟨i, hi, rfl⟩ := List.mem_map.1 hargument
      exact ⟨i, hi, by simpa using hleaf⟩
    obtain ⟨argument, hequation, herror⟩ := buildArguments_refused hadmitted hbuilt hsome
    rw [← hitems] at herror
    exact ⟨callee.name, argument, hequation, build_call_error hlevel herror⟩

/-- **Rejecting nested equations is a filter on the trees.** Without nested equations a text is built to the same tree as
with them or not at all: it is built if every argument of every call is a leaf, and otherwise refused for an argument that is
an equation. A text that is built is an equation exactly when its tree is more than a leaf. -/
theorem build_reject (voc : Vocabulary) (t : Text) :
    (∀ x, build .reject voc t = .ok x → build .allow voc t = .ok x) ∧
      (∀ x, build .allow voc t = .ok x →
        (x.plainCalls = true → build .reject voc t = .ok x) ∧
          (x.plainCalls = false → ∃ function argument, isEquation voc argument = .ok true ∧
            build .reject voc t = .error (.equationArgument function argument)) ∧
          (isEquation voc t = .ok true ↔ x.isLeaf = false)) ∧
      ∀ e, build .allow voc t = .error e → ∃ e', build .reject voc t = .error e' := by
  have hsame : ∀ x, build .reject voc t = .ok x → build .allow voc t = .ok x := by
    intro x hx
    exact built_iff.1 (built_iff.2 hx).allow
  refine ⟨hsame, ?_, ?_⟩
  · intro x hx
    have hbuilt := built_iff.2 hx
    refine ⟨fun hplain => built_iff.1 (hbuilt.reject hplain), hbuilt.refused, ?_⟩
    rw [isEquation_of_built hbuilt]
    cases x.isLeaf <;> simp
  · intro e he
    cases hreject : build .reject voc t with
    | error e' => exact ⟨e', rfl⟩
    | ok x =>
      rw [hsame x hreject] at he
      exact absurd he (by simp)

/-- A difference of calls, the second of a product. -/
theorem build_reject_product :
    build .allow .initial "sin(a) - cos(2*b)".toList =
        .ok (.binary .subtract (.call ⟨"sin".toList, .scalar⟩ [.leaf ['a']] [])
          (.call ⟨"cos".toList, .scalar⟩ [.binary .multiply (.leaf ['2']) (.leaf ['b'])] [])) ∧
      ∃ function argument, isEquation .initial argument = .ok true ∧
        build .reject .initial "sin(a) - cos(2*b)".toList = .error (.equationArgument function argument) := by
  have hlevel : decompose .initial "sin(a) - cos(2*b)".toList =
      .ok (.binary .subtract "sin(a) ".toList " cos(2*b)".toList) := by decide +kernel
  have hsin : Built .allow .initial "sin(a) ".toList (.call ⟨"sin".toList, .scalar⟩ [.leaf ['a']] []) :=
    @Built.call .allow .initial _ ['a'] ⟨"sin".toList, .scalar⟩ [(['a'], .leaf ['a'])] (by decide +kernel)
      (by decide +kernel) (List.forall_mem_singleton.2 (by decide +kernel))
      (List.forall_mem_singleton.2 (.leaf (by decide +kernel) (by decide)))
  have hproduct : Built .allow .initial "2*b".toList (.binary .multiply (.leaf ['2']) (.leaf ['b'])) :=
    .binary (by decide +kernel : decompose .initial "2*b".toList = .ok (.binary .multiply ['2'] ['b']))
      (.leaf (by decide +kernel) (by decide)) (.leaf (by decide +kernel) (by decide))
  have hcos : Built .allow .initial " cos(2*b)".toList
      (.call ⟨"cos".toList, .scalar⟩ [.binary .multiply (.leaf ['2']) (.leaf ['b'])] []) :=
    @Built.call .allow .initial _ "2*b".toList ⟨"cos".toList, .scalar⟩
      [("2*b".toList, .binary .multiply (.leaf ['2']) (.leaf ['b']))] (by decide +kernel) (by decide +kernel)
      (List.forall_mem_singleton.2 (by decide +kernel)) (List.forall_mem_singleton.2 hproduct)
  have hbuild := built_iff.1 (Built.binary hlevel hsin hcos)
  exact ⟨hbuild, ((build_reject _ _).2.1 _ hbuild).2.1 rfl⟩

end MissionScript
