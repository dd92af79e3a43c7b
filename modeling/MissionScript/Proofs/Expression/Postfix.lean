/-
Which postfix operators a text may have behind it.

- `build_name_written`: behind a name every row of postfix operators is built, the first one innermost.
- `build_enclosed_tidy`: behind a closing parenthesis a row is built when no inverse marker comes after a transpose.
- `build_enclosed_untidy`: any other row is refused there.
- `build_postfix_iff`: the three together, for every text that a postfix operator can be meant to apply to.

A text with parentheses is split at its last transpose before its end is looked at, and the inverse marker behind the
transpose is then something that may not follow one.
-/
import MissionScript.Proofs.Cell.Cut
import MissionScript.Proofs.Expression.Operand

namespace MissionScript

open Cell Expression

variable {voc : Vocabulary} {t head name : Text} {cs : List Cell} {w v : List Postfix} {x : Expression}

def Postfix.unary : Postfix → UnaryOp
  | transpose => .transpose
  | inverse => .inverse

/-- a tree with postfix operators applied to it, the first one innermost -/
def wrapped (w : List Postfix) (x : Expression) : Expression := w.foldl (fun x m => .unary m.unary x) x

theorem wrapped_concat (w : List Postfix) (m : Postfix) (x : Expression) :
    wrapped (w ++ [m]) x = .unary m.unary (wrapped w x) := by
  simp [wrapped]

/-- No inverse marker comes after a transpose. -/
def Tidy (w : List Postfix) : Prop := w.Pairwise fun a b => a = .transpose → b = .transpose

instance (w : List Postfix) : Decidable (Tidy w) := inferInstanceAs (Decidable (List.Pairwise _ w))

theorem tidy_concat_transpose : Tidy (w ++ [.transpose]) ↔ Tidy w := by
  simp [Tidy, List.pairwise_append]

theorem tidy_concat_inverse : Tidy (w ++ [.inverse]) ↔ .transpose ∉ w := by
  have hall : Postfix.transpose ∉ w → Tidy w := fun h =>
    List.pairwise_of_forall_mem_list fun a ha b hb hab => absurd (hab ▸ ha) h
  constructor
  · intro h hmem
    have := (List.pairwise_append.1 h).2.2 .transpose hmem .inverse List.mem_cons_self rfl
    exact absurd this (by decide)
  · intro h
    refine List.pairwise_append.2 ⟨hall h, List.pairwise_singleton _ _, ?_⟩
    intro a ha b hb hab
    exact absurd (hab ▸ ha) h

/-! ## One level -/

/-- A text that ends in an inverse marker does not end in a closing parenthesis. -/
theorem enclosed_inverse (cs : List Cell) : enclosed (cs ++ Postfix.inverse.mark) = none := by
  by_contra hsome
  obtain ⟨⟨head, inside⟩, henclosed⟩ := Option.ne_none_iff_exists'.1 hsome
  obtain ⟨front, inner, hcs, -⟩ := exists_of_enclosed henclosed
  have hlast : (cs ++ Postfix.inverse.mark).getLast? = some ⟨')', .inverse 0⟩ := by
    rw [List.getLast?_append]
    rfl
  rw [hcs, ← List.cons_append, ← List.append_assoc, List.getLast?_concat] at hlast
  exact absurd hlast (by decide)

theorem runMarker_inverse (cs : List Cell) :
    Stage.runMarker (cs ++ Postfix.inverse.mark) = some (.decide (.unary .inverse (Cell.text cs))) := by
  have hlast : (cs ++ Postfix.inverse.mark).getLast? = some ⟨')', .inverse 0⟩ := by simp [Postfix.mark]
  have htake : (cs ++ Postfix.inverse.mark).take ((cs ++ Postfix.inverse.mark).length - 5) = cs :=
    List.take_left' (by rw [List.length_append]; rfl)
  rw [Stage.runMarker, hlast, htake]
  rfl

theorem runMarker_written (h : Stem t cs) (w : List Postfix) (m : Postfix) :
    Stage.runMarker (cells (t ++ written (w ++ [m]))) = some (.decide (.unary m.unary (t ++ written w))) := by
  have hcells : cells (t ++ written (w ++ [m])) = (cs ++ marks w) ++ m.mark := by
    rw [h.cells_written, marks_append, List.append_assoc]
    exact congrArg _ (congrArg _ (List.append_nil _))
  have hbefore : Cell.text (cs ++ marks w) = t ++ written w := by rw [← h.cells_written, text_cells]
  rw [hcells]
  cases m with
  | transpose =>
    rw [Stage.runMarker, Postfix.mark, List.getLast?_concat, List.dropLast_concat, hbefore]
    rfl
  | inverse =>
    rw [runMarker_inverse, hbefore]
    rfl

theorem exists_last_transpose (h : .transpose ∈ w) : ∃ u v, w = u ++ .transpose :: v ∧ .transpose ∉ v := by
  obtain ⟨v, u, hw, hv⟩ := List.eq_append_cons_of_mem (List.mem_reverse.2 h)
  refine ⟨u.reverse, v.reverse, ?_, by simpa using hv⟩
  have := congrArg List.reverse hw
  simpa using this

theorem ne_nil_of_concat (w : List Postfix) (m : Postfix) : w ++ [m] ≠ [] := by simp

/-- A name loses its last postfix operator. -/
theorem decompose_name_written (hname : IsIdentifier name) (w : List Postfix) (m : Postfix) :
    decompose voc (name ++ written (w ++ [m])) = .ok (.unary m.unary (name ++ written w)) := by
  have h := Stem.of_identifier hname
  have hparen : ∀ cell ∈ cells (name ++ written (w ++ [m])), cell.holds '(' = false := by
    rw [h.cells_written]
    intro cell hcell
    rcases List.mem_append.1 hcell with hcell | hcell
    · exact (hname.inert cell hcell).not_paren.1
    · exact not_holds_marks hcell (by decide)
  have hany : (cells (name ++ written (w ++ [m]))).any (Cell.holds '(') = false :=
    List.any_eq_false.2 fun cell hcell => by simp [hparen cell hcell]
  have hlow : lowest (cells (name ++ written (w ++ [m]))) = none ∨
      (cells (name ++ written (w ++ [m]))).any (Cell.holds '(') = false ∧
        ∃ left right, lowest (cells (name ++ written (w ++ [m]))) = some ⟨.quote, left, right⟩ := by
    by_cases hmem : .transpose ∈ w ++ [m]
    · obtain ⟨u, v, hw, hv⟩ := exists_last_transpose hmem
      rw [hw] at hany ⊢
      exact .inr ⟨hany, _, _, h.lowest_quote hv⟩
    · exact .inl (h.lowest_none hmem)
  rw [decompose_eq (h.trim_eq _) (h.isOperand (ne_nil_of_concat w m)) (h.checkGroups _),
    Stage.runAll_marker (enclosed_eq_none hparen) (by rw [text_cells]; exact h.isSigned _) hlow
      (runMarker_written h w m)]

theorem any_paren_written (hhead : IsHead head) (h : Enclosable t) (w : List Postfix) :
    (cells (head ++ '(' :: (t ++ [')']) ++ written w)).any (Cell.holds '(') = true := by
  rw [(Stem.of_enclosable hhead h).cells_written, List.any_append, enclosure, List.any_append, List.any_cons]
  simp [holds, opening, isLive]

/-- Without transposes a closing parenthesis loses its last inverse marker. -/
theorem decompose_enclosed_inverse (hhead : IsHead head) (h : Enclosable t) (hw : .transpose ∉ w) :
    decompose voc (head ++ '(' :: (t ++ [')']) ++ written (w ++ [.inverse])) =
      .ok (.unary .inverse (head ++ '(' :: (t ++ [')']) ++ written w)) := by
  have hstem := Stem.of_enclosable hhead h
  have henclosed : enclosed (cells (head ++ '(' :: (t ++ [')']) ++ written (w ++ [.inverse]))) = none := by
    rw [hstem.cells_written, marks_append, ← List.append_assoc]
    exact enclosed_inverse _
  have hlow := hstem.lowest_none (w := w ++ [.inverse]) (by simpa using hw)
  rw [decompose_eq (hstem.trim_eq _) (hstem.isOperand (ne_nil_of_concat w _)) (hstem.checkGroups _),
    Stage.runAll_marker henclosed (by rw [text_cells]; exact hstem.isSigned _) (.inl hlow)
      (runMarker_written hstem w _)]
  rfl

theorem decompose_enclosed_transpose (hhead : IsHead head) (h : Enclosable t) (w : List Postfix) :
    decompose voc (head ++ '(' :: (t ++ [')']) ++ written (w ++ [.transpose])) =
      .ok (.unary .transpose (head ++ '(' :: (t ++ [')']) ++ written w)) := by
  have hstem := Stem.of_enclosable hhead h
  have hlow := hstem.lowest_quote (w := w) (v := []) (by simp)
  have htransposed : ∀ operand, transposed operand (written []) = .ok (some (.decide (.unary .transpose operand))) :=
    fun _ => rfl
  rw [decompose_eq (hstem.trim_eq _) (hstem.isOperand (ne_nil_of_concat w _)) (hstem.checkGroups _), hlow,
    Stage.runAll_transposed (any_paren_written hhead h _) (by rw [text_cells]; exact hstem.isSigned _)
      (by simp [htransposed]),
    htransposed]

/-- An inverse marker somewhere behind the last transpose is refused. -/
theorem decompose_enclosed_stray (hhead : IsHead head) (h : Enclosable t) (w : List Postfix) (hv : .transpose ∉ v)
    (hne : v ≠ []) :
    decompose voc (head ++ '(' :: (t ++ [')']) ++ written (w ++ .transpose :: v)) =
      .error (.operatorAdjacency .transpose '^') := by
  have hstem := Stem.of_enclosable hhead h
  have htransposed : ∀ operand, transposed operand (written v) = .error (.operatorAdjacency .transpose '^') := by
    intro operand
    obtain ⟨m, v, rfl⟩ := List.exists_cons_of_ne_nil hne
    cases m with
    | transpose => exact absurd List.mem_cons_self hv
    | inverse => rfl
  rw [decompose_eq (hstem.trim_eq _) (hstem.isOperand (by simp)) (hstem.checkGroups _), hstem.lowest_quote hv,
    Stage.runAll_transposed (any_paren_written hhead h _) (by rw [text_cells]; exact hstem.isSigned _)
      (by simp [htransposed]),
    htransposed]

/-! ## Rows of postfix operators -/

theorem Stem.isVisible (h : Stem t cs) (w : List Postfix) : Text.isVisible (t ++ written w) = true := by
  obtain ⟨c, hc, hchar⟩ := h.head_written w
  refine Text.isVisible_of_mem (List.mem_of_mem_head? hc) ?_
  rcases hchar with hedge | rfl
  · exact not_isBlank_of_isEdge hedge
  · decide

theorem append_written_nil (t : Text) : t ++ written [] = t := List.append_nil t

/-- Behind a name every row of postfix operators is built. -/
theorem build_name_written (hname : IsIdentifier name) (w : List Postfix) :
    build .allow voc (name ++ written w) = .ok (wrapped w (.leaf name)) := by
  induction w using List.reverseRecOn with
  | nil =>
    rw [append_written_nil]
    exact build_leaf (decompose_operand (.reference (.name hname)))
      fun hnil => absurd (hnil ▸ hname.startsName) (by decide)
  | append_singleton w m ih =>
    rw [wrapped_concat]
    exact build_unary (decompose_name_written hname w m) ((Stem.of_identifier hname).isVisible w) ih

/-- Behind a closing parenthesis a row is built when no inverse marker comes after a transpose. -/
theorem build_enclosed_tidy (hhead : IsHead head) (h : Enclosable t)
    (hx : build .allow voc (head ++ '(' :: (t ++ [')'])) = .ok x) (hw : Tidy w) :
    build .allow voc (head ++ '(' :: (t ++ [')']) ++ written w) = .ok (wrapped w x) := by
  have hvisible := (Stem.of_enclosable hhead h).isVisible
  induction w using List.reverseRecOn with
  | nil => rwa [append_written_nil]
  | append_singleton w m ih =>
    have hbefore := ih (List.pairwise_append.1 hw).1
    rw [wrapped_concat]
    cases m with
    | transpose => exact build_unary (decompose_enclosed_transpose hhead h w) (hvisible w) hbefore
    | inverse => exact build_unary (decompose_enclosed_inverse hhead h (tidy_concat_inverse.1 hw)) (hvisible w) hbefore

/-- Any other row is refused there. -/
theorem build_enclosed_untidy (hhead : IsHead head) (h : Enclosable t) (hw : ¬Tidy w) :
    build .allow voc (head ++ '(' :: (t ++ [')']) ++ written w) = .error (.operatorAdjacency .transpose '^') := by
  induction w using List.reverseRecOn with
  | nil => exact absurd List.Pairwise.nil hw
  | append_singleton w m ih =>
    cases m with
    | transpose =>
      exact build_unary_error (decompose_enclosed_transpose hhead h w) ((Stem.of_enclosable hhead h).isVisible w)
        (ih fun htidy => hw (tidy_concat_transpose.2 htidy))
    | inverse =>
      obtain ⟨u, v, rfl, hv⟩ := exists_last_transpose (not_not.1 fun hmem => hw (tidy_concat_inverse.2 hmem))
      rw [show u ++ Postfix.transpose :: v ++ [.inverse] = u ++ .transpose :: (v ++ [.inverse]) by simp]
      have hv' : .transpose ∉ v ++ [Postfix.inverse] := by simpa using hv
      exact build_error (decompose_enclosed_stray hhead h u hv' (ne_nil_of_concat v _))

/-! ## Bases -/

/-- the texts that a postfix operator can be meant to apply to: a name, an expression in parentheses, a reference with
an index, or a call -/
inductive Base (voc : Vocabulary) : Text → Prop where
  | name {name : Text} : IsIdentifier name → Base voc name
  | group {t : Text} {x : Expression} : build .allow voc t = .ok x → Base voc ('(' :: (t ++ [')']))
  | indexed {name t : Text} : IsIdentifier name → voc.kind? name = none → checkGroups t = .ok () →
      Base voc (name ++ '(' :: (t ++ [')']))
  | call {name t : Text} {kind : FunctionKind} {arity : Arity} : IsIdentifier name → voc.kind? name = some kind →
      voc.arity? name = some arity → arity.accepts (argumentTexts t).length = true → checkGroups t = .ok () →
      (∀ a ∈ argumentTexts t, ∃ x, build .allow voc a = .ok x) → Base voc (name ++ '(' :: (t ++ [')']))

/-- A base is a name, or parentheses with something before them that passes the checks. -/
theorem Base.cases (h : Base voc t) :
    IsIdentifier t ∨ ∃ head inside, IsHead head ∧ checkGroups inside = .ok () ∧ t = head ++ '(' :: (inside ++ [')']) ∧
      ((voc.kind? [] = none) → Enclosable inside → ∃ x, build .allow voc t = .ok x) := by
  cases h with
  | name hname => exact .inl hname
  | @group t x hx =>
    refine .inr ⟨[], t, .inl rfl, checkGroups_of_build hx, rfl, fun hnil h => ⟨x, ?_⟩⟩
    rw [← hx]
    exact build_congr (decompose_group hnil h)
  | indexed hname hkind hchecked =>
    refine .inr ⟨_, _, .inr hname, hchecked, rfl,
      fun _ h => ⟨_, build_leaf (decompose_indexed hname hkind h) (by simp)⟩⟩
  | @call name t kind arity hname hkind harity haccepts hchecked hargs =>
    refine .inr ⟨_, _, .inr hname, hchecked, rfl, ?_⟩
    intro _ h
    have : Nonempty Expression := ⟨.leaf []⟩
    choose! tree htree using hargs
    have htrees := buildArguments_eq_ok name (fun a ha => isVisible_of_build (htree a ha)) htree
    rw [List.map_id'] at htrees
    exact ⟨_, build_call (decompose_call hname hkind harity haccepts h) htrees⟩

/-- **Which postfix operators apply to any operand.** A base is built with a row of postfix operators behind it, the
first one innermost, exactly when it is a name, or its parentheses balance and no inverse marker of the row comes after
a transpose. -/
theorem build_postfix_iff (hvoc : voc.Reachable) (h : Base voc t) (w : List Postfix) :
    (∃ x, build .allow voc t = .ok x ∧ build .allow voc (t ++ written w) = .ok (wrapped w x)) ↔
      IsIdentifier t ∨ Level (cells t) ∧ Tidy w := by
  have hnil : voc.kind? [] = none := hvoc.kind?_eq_none (by simp)
  rcases h.cases with hname | ⟨head, inside, hhead, hchecked, rfl, hbuild⟩
  · have hleaf : build .allow voc t = .ok (.leaf t) := by
      have hempty : build .allow voc (t ++ written []) = .ok (wrapped [] (.leaf t)) := build_name_written hname []
      rwa [append_written_nil] at hempty
    exact ⟨fun _ => .inl hname, fun _ => ⟨.leaf t, hleaf, build_name_written hname w⟩⟩
  · constructor
    · rintro ⟨x, hx, hwritten⟩
      have hlevel := (checkGroups_eq_ok_iff.1 (checkGroups_of_build hx)).1
      have henclosable := (enclosable_iff hhead hchecked).2 hlevel
      refine .inr ⟨hlevel, ?_⟩
      by_contra htidy
      rw [build_enclosed_untidy hhead henclosable htidy] at hwritten
      simp at hwritten
    · rintro (hname | ⟨hlevel, htidy⟩)
      · exact absurd (hname.isWordChar '(' (by simp)) (by decide)
      · have henclosable := (enclosable_iff hhead hchecked).2 hlevel
        obtain ⟨x, hx⟩ := hbuild hnil henclosable
        exact ⟨x, hx, build_enclosed_tidy hhead henclosable hx htidy⟩

theorem base_group_name : Base .initial ['(', 'A', ')'] := by
  have hname : IsIdentifier ['A'] := by decide
  have hleaf : build .allow .initial ['A'] = .ok (.leaf ['A']) :=
    build_leaf (decompose_operand (.reference (.name hname))) (by simp)
  exact .group hleaf

/-- `(A)^(-1)'` is the transpose of an inverse. -/
theorem build_group_inverse_transpose :
    Vocabulary.initial.Reachable ∧ Base .initial ['(', 'A', ')'] ∧
      ∃ x, build .allow .initial ['(', 'A', ')'] = .ok x ∧
        build .allow .initial (['(', 'A', ')'] ++ written [.inverse, .transpose]) =
          .ok (.unary .transpose (.unary .inverse x)) := by
  have hiff := build_postfix_iff .initial base_group_name [.inverse, .transpose]
  exact ⟨.initial, base_group_name, hiff.2 (.inr ⟨by decide, by decide⟩)⟩

/-- **Not every row applies to every operand.** `(A)'^(-1)` is refused. -/
theorem exists_refused_row :
    ¬∀ (voc : Vocabulary) (t : Text) (w : List Postfix), voc.Reachable → Base voc t →
      ∃ x, build .allow voc t = .ok x ∧ build .allow voc (t ++ written w) = .ok (wrapped w x) := by
  intro h
  obtain ⟨x, -, hx⟩ := h .initial ['(', 'A', ')'] [.transpose, .inverse] .initial base_group_name
  have hname : IsIdentifier ['A'] := by decide
  have hpart : Part 3 ['A'] := .of_operand (.reference (.name hname))
  have hnil : IsHead [] := .inl rfl
  have hrefused : build .allow .initial (['(', 'A', ')'] ++ written [.transpose, .inverse]) =
      .error (.operatorAdjacency .transpose '^') := build_enclosed_untidy hnil hpart.toSound.enclosable (by decide)
  rw [hrefused] at hx
  simp at hx

end MissionScript
