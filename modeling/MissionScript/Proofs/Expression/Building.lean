/-
From decompositions to trees.

A tree is built from the decomposition of the text and the trees of the operands. `build_congr`: texts with the same
decomposition have the same tree, so blanks around a text do not matter (`build_pad`).
-/
import MissionScript.Expression.Build
import MissionScript.Proofs.Expression.Decomposition

namespace MissionScript.Expression

variable {voc : Vocabulary} {t : Text} {nesting : Nesting}

theorem build_congr {u : Text} (h : decompose voc t = decompose voc u) : build nesting voc t = build nesting voc u := by
  rw [build, build, buildWith_eq, buildWith_eq _ _ _ u, h]

theorem build_pad {b₁ b₂ : Text} (h₁ : Text.Blank b₁) (h₂ : Text.Blank b₂) :
    build nesting voc (b₁ ++ (t ++ b₂)) = build nesting voc t := by
  refine build_congr ?_
  rw [← decompose_trim voc (b₁ ++ (t ++ b₂)), Text.trim_append_append h₁ h₂, decompose_trim]

theorem build_append_blank {b : Text} (h : Text.Blank b) (t : Text) :
    build nesting voc (t ++ b) = build nesting voc t := by
  have hnil : Text.Blank [] := by simp [Text.Blank]
  exact build_pad hnil h

theorem build_blank_append {b : Text} (h : Text.Blank b) (t : Text) :
    build nesting voc (b ++ t) = build nesting voc t := by
  have hnil : Text.Blank [] := by simp [Text.Blank]
  have hpad : build nesting voc (b ++ (t ++ [])) = build nesting voc t := build_pad h hnil
  rwa [List.append_nil] at hpad

theorem build_leaf {text : Text} (h : decompose voc t = .ok (.leaf text)) (hne : text ≠ []) :
    build nesting voc t = .ok (.leaf text) := by
  rw [build, buildWith_eq, h]
  simp [hne, builder]

theorem build_error {e : ParseError} (h : decompose voc t = .error e) : build nesting voc t = .error e := by
  rw [build, buildWith_eq, h]
  rfl

theorem build_unary_error {op : UnaryOp} {operand : Text} {e : ParseError}
    (h : decompose voc t = .ok (.unary op operand)) (hvisible : Text.isVisible operand = true)
    (he : build nesting voc operand = .error e) : build nesting voc t = .error e := by
  have hoperand : requireOperand (.unary op) operand = .ok () := by simp [requireOperand, hvisible]
  have he' : buildWith builder nesting voc operand = .error e := he
  rw [build, buildWith_eq, h]
  simp only [hoperand, he']
  rfl

theorem build_left_error {op : BinaryOp} {left right : Text} {e : ParseError}
    (h : decompose voc t = .ok (.binary op left right)) (hleft : Text.isVisible left = true)
    (hright : Text.isVisible right = true) (he : build nesting voc left = .error e) : build nesting voc t = .error e := by
  have hl : requireOperand (.binary op) left = .ok () := by simp [requireOperand, hleft]
  have hr : requireOperand (.binary op) right = .ok () := by simp [requireOperand, hright]
  have he' : buildWith builder nesting voc left = .error e := he
  rw [build, buildWith_eq, h]
  simp only [hl, hr, he']
  rfl

theorem build_right_error {op : BinaryOp} {left right : Text} {x : Expression} {e : ParseError}
    (h : decompose voc t = .ok (.binary op left right)) (hleft : Text.isVisible left = true)
    (hright : Text.isVisible right = true) (hx : build nesting voc left = .ok x)
    (he : build nesting voc right = .error e) : build nesting voc t = .error e := by
  have hl : requireOperand (.binary op) left = .ok () := by simp [requireOperand, hleft]
  have hr : requireOperand (.binary op) right = .ok () := by simp [requireOperand, hright]
  have hx' : buildWith builder nesting voc left = .ok x := hx
  have he' : buildWith builder nesting voc right = .error e := he
  rw [build, buildWith_eq, h]
  simp only [hl, hr, hx', he']
  rfl

theorem build_call_error {callee : Callee} {inside : Text} {e : ParseError}
    (h : decompose voc t = .ok (.call callee inside))
    (he : buildArguments builder nesting voc callee.name (argumentTexts inside) = .error e) :
    build nesting voc t = .error e := by
  rw [build, buildWith_eq, h]
  simp only [he]
  rfl

theorem isVisible_of_build {x : Expression} (h : build nesting voc t = .ok x) : Text.isVisible t = true := by
  by_contra hvisible
  have hblank : Text.Blank t := Text.isVisible_eq_false_iff.1 (by simpa using hvisible)
  have hnil : Text.Blank [] := by simp [Text.Blank]
  have hpad : build nesting voc (t ++ ([] ++ [])) = build nesting voc [] := build_pad hblank hnil
  have hleaf : decompose voc [] = .ok (.leaf []) := decompose_of_isOperand rfl rfl
  rw [List.append_nil, List.append_nil, h, build, buildWith_eq, hleaf] at hpad
  simp [throw, throwThe, MonadExceptOf.throw] at hpad

theorem build_unary {op : UnaryOp} {operand : Text} {x : Expression} (h : decompose voc t = .ok (.unary op operand))
    (hvisible : Text.isVisible operand = true) (hx : build nesting voc operand = .ok x) :
    build nesting voc t = .ok (.unary op x) := by
  have hoperand : requireOperand (.unary op) operand = .ok () := by simp [requireOperand, hvisible]
  have hx' : buildWith builder nesting voc operand = .ok x := hx
  rw [build, buildWith_eq, h]
  simp only [hoperand, hx']
  rfl

theorem build_binary {op : BinaryOp} {left right : Text} {x y : Expression}
    (h : decompose voc t = .ok (.binary op left right))
    (hleft : Text.isVisible left = true) (hright : Text.isVisible right = true) (hx : build nesting voc left = .ok x)
    (hy : build nesting voc right = .ok y) : build nesting voc t = .ok (.binary op x y) := by
  have hl : requireOperand (.binary op) left = .ok () := by simp [requireOperand, hleft]
  have hr : requireOperand (.binary op) right = .ok () := by simp [requireOperand, hright]
  have hx' : buildWith builder nesting voc left = .ok x := hx
  have hy' : buildWith builder nesting voc right = .ok y := hy
  rw [build, buildWith_eq, h]
  simp only [hl, hr, hx', hy']
  rfl

theorem buildArguments_eq_ok {α : Type} (name : Text) {items : List α} {text : α → Text} {tree : α → Expression}
    (hvisible : ∀ a ∈ items, Text.isVisible (text a) = true)
    (h : ∀ a ∈ items, build .allow voc (text a) = .ok (tree a)) :
    buildArguments builder .allow voc name (items.map text) = .ok (items.map tree) := by
  induction items with
  | nil =>
    rw [List.map_nil, buildArguments]
    rfl
  | cons a rest ih =>
    have hargument : requireArgument .allow voc name (text a) = .ok () := by
      simp [requireArgument, requireOperand, hvisible a List.mem_cons_self, bind, Except.bind, pure, Except.pure]
    have ha : buildWith builder .allow voc (text a) = .ok (tree a) := h a List.mem_cons_self
    have hrest := ih (fun x hx => hvisible x (List.mem_cons_of_mem _ hx)) fun x hx => h x (List.mem_cons_of_mem _ hx)
    rw [List.map_cons, buildArguments]
    simp only [hargument, ha, hrest]
    rfl

theorem build_call {callee : Callee} {inside : Text} {trees : List Expression}
    (h : decompose voc t = .ok (.call callee inside))
    (htrees : buildArguments builder nesting voc callee.name (argumentTexts inside) = .ok trees) :
    build nesting voc t =
      .ok (.call callee trees (if callee.kind = .userDefined then argumentTexts inside else [])) := by
  rw [build, buildWith_eq, h]
  simp only [htrees]
  rfl

end MissionScript.Expression
