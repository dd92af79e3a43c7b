/-
The form of the trees that are built.

A tree is `WellFormed` when its leaves are operands that stand for themselves and its calls are calls: of a function that is
known, with as many arguments as it takes, and with the texts of the arguments if and only if the function comes with the
script.

- `decompose_leaf`: an operand that a text is reduced to cannot be reduced further.
- `Spelled.callee`: a call is refused unless the function is known and takes so many arguments.
- `wellFormed_of_build`: whatever is built is well-formed.
-/
import MissionScript.Proofs.Expression.Built
import MissionScript.Proofs.Expression.Spelling

namespace MissionScript

open Expression

variable {voc : Vocabulary} {nesting : Nesting} {t : Text}

/-- The leaves stand for themselves and the calls are calls of known functions. -/
inductive Expression.WellFormed (nesting : Nesting) (voc : Vocabulary) : Expression → Prop where
  | leaf {text : Text} (hne : text ≠ []) (htrim : Text.trim text = text)
    (hself : build nesting voc text = .ok (.leaf text)) : WellFormed nesting voc (.leaf text)
  | unary {op : UnaryOp} {operand : Expression} (h : WellFormed nesting voc operand) :
    WellFormed nesting voc (.unary op operand)
  | binary {op : BinaryOp} {left right : Expression} (hleft : WellFormed nesting voc left)
    (hright : WellFormed nesting voc right) : WellFormed nesting voc (.binary op left right)
  | call {callee : Callee} {arity : Arity} {arguments : List Expression} {inputs : List Text}
    (hkind : voc.kind? callee.name = some callee.kind) (harity : voc.arity? callee.name = some arity)
    (haccepts : arity.accepts arguments.length = true)
    (hbuiltin : callee.kind ≠ .userDefined → inputs = [])
    (hown : callee.kind = .userDefined →
      List.Forall₂ (fun input argument => build nesting voc input = .ok argument) inputs arguments)
    (harguments : ∀ a ∈ arguments, WellFormed nesting voc a) :
    WellFormed nesting voc (.call callee arguments inputs)

/-! ## Leaves -/

theorem Operation.hasOperator {d : Decomposition} (h : Operation voc t d) : d.hasOperator = true := by
  cases h <;> rfl

theorem decomposeBy_leaf {stages : List Stage} {text : Text} (h : decomposeBy stages voc t = .ok (.leaf text)) :
    Text.trim text = text ∧ decomposeBy stages voc text = .ok (.leaf text) := by
  fun_induction decomposeBy stages voc t with
  | case1 => exact absurd h (by simp)
  | case2 t found hstep =>
    obtain rfl := Except.ok.inj h
    obtain rfl : text = Text.trim t := by
      rcases stepBy_cases hstep with hleaf | hoperation
      · exact Decomposition.leaf.inj (Step.decide.inj hleaf)
      · exact absurd (Operation.hasOperator hoperation) (by simp [Decomposition.hasOperator])
    refine ⟨Text.trim_trim t, ?_⟩
    rw [decomposeBy_eq, Text.trim_trim, hstep]
  | case3 t inner hstep ih => exact ih h

theorem decompose_leaf {text : Text} (h : decompose voc t = .ok (.leaf text)) :
    Text.trim text = text ∧ decompose voc text = .ok (.leaf text) := decomposeBy_leaf h

/-! ## Calls -/

/-- A call is of a function that is known and takes so many arguments. -/
theorem Spelled.callee {callee : Callee} {inside : Text} (h : Spelled voc t (.call callee inside)) :
    voc.kind? callee.name = some callee.kind ∧
      ∃ arity, voc.arity? callee.name = some arity ∧ arity.accepts (argumentTexts inside).length = true := by
  generalize hd : Decomposition.call callee inside = d at h
  induction h with
  | leaf t => exact absurd hd (by simp)
  | operation h =>
    subst hd
    cases h with
    | call head inside hkind harity haccepts => exact ⟨hkind, _, harity, haccepts⟩
  | blanks _ _ _ ih => exact ih hd
  | plus _ ih => exact ih hd
  | group _ ih => exact ih hd

/-- **Every tree that is built is well-formed.** -/
theorem wellFormed_of_build {x : Expression} (h : build nesting voc t = .ok x) : x.WellFormed nesting voc := by
  have hbuilt := built_iff.2 h
  clear h
  induction hbuilt with
  | leaf hlevel hne =>
    obtain ⟨htrim, hself⟩ := decompose_leaf hlevel
    exact .leaf hne htrim (build_leaf hself hne)
  | unary _ _ ih => exact .unary ih
  | binary _ _ _ ihx ihy => exact .binary ihx ihy
  | @call t inside callee items hlevel hitems hadmitted hbuilt ih =>
    obtain ⟨hkind, arity, harity, haccepts⟩ := (spelled_of_decompose hlevel).callee
    rw [hitems, List.length_map] at haccepts
    refine .call hkind harity (by rwa [List.length_map]) (fun hother => if_neg hother) (fun hown => ?_) ?_
    · rw [if_pos hown, List.forall₂_map_left_iff, List.forall₂_map_right_iff, List.forall₂_same]
      exact fun i hi => built_iff.1 (hbuilt i hi)
    · intro a ha
      obtain ⟨i, hi, rfl⟩ := List.mem_map.1 ha
      exact ih i hi

/-- A call of a function of the script, with a group and a sum as its arguments, keeps their texts. -/
theorem wellFormed_own_call :
    build .allow ⟨.ofList [['F']]⟩ "F( (a) , b + 1 )".toList =
        .ok (.call ⟨['F'], .userDefined⟩ [.leaf ['a'], .binary .add (.leaf ['b']) (.leaf ['1'])]
          ["(a)".toList, "b + 1".toList]) ∧
      (Expression.call ⟨['F'], .userDefined⟩ [.leaf ['a'], .binary .add (.leaf ['b']) (.leaf ['1'])]
        ["(a)".toList, "b + 1".toList]).WellFormed .allow ⟨.ofList [['F']]⟩ := by
  have hcall : decompose ⟨.ofList [['F']]⟩ "F( (a) , b + 1 )".toList =
      .ok (.call ⟨['F'], .userDefined⟩ " (a) , b + 1 ".toList) := by decide +kernel
  have harguments : argumentTexts " (a) , b + 1 ".toList =
      [("(a)".toList, .leaf ['a']), ("b + 1".toList, Expression.binary .add (.leaf ['b']) (.leaf ['1']))].map
        Prod.fst := by decide +kernel
  have hgroup : Built .allow ⟨.ofList [['F']]⟩ "(a)".toList (.leaf ['a']) :=
    .leaf (by decide +kernel) (by decide)
  have hlevel : decompose ⟨.ofList [['F']]⟩ "b + 1".toList = .ok (.binary .add "b ".toList " 1".toList) := by
    decide +kernel
  have hsum : Built .allow ⟨.ofList [['F']]⟩ "b + 1".toList (.binary .add (.leaf ['b']) (.leaf ['1'])) :=
    .binary hlevel (.leaf (by decide +kernel) (by decide)) (.leaf (by decide +kernel) (by decide))
  have hbuilt : Built .allow ⟨.ofList [['F']]⟩ "F( (a) , b + 1 )".toList
      (.call ⟨['F'], .userDefined⟩ [.leaf ['a'], .binary .add (.leaf ['b']) (.leaf ['1'])]
        ["(a)".toList, "b + 1".toList]) :=
    .call hcall harguments
      (List.forall_mem_cons.2 ⟨by decide +kernel, List.forall_mem_singleton.2 (by decide +kernel)⟩)
      (List.forall_mem_cons.2 ⟨hgroup, List.forall_mem_singleton.2 hsum⟩)
  have hbuild := built_iff.1 hbuilt
  exact ⟨hbuild, wellFormed_of_build hbuild⟩

end MissionScript
