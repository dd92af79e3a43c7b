/-
What stands between operators: operands, groups, calls and indexed references.

- `decompose_operand`: an operand is a leaf.
- `decompose_group`: a group stands for what it encloses.
- `decompose_call`: a name that stands for a function makes a call of the parentheses behind it.
- `decompose_indexed`: any other name leaves the whole a leaf.
-/
import MissionScript.Proofs.Cell.Postfix
import MissionScript.Proofs.Expression.Building

namespace MissionScript

open Cell

variable {voc : Vocabulary} {t head name : Text}

theorem decompose_operand (h : Operand t) : decompose voc t = .ok (.leaf t) := by
  rcases h.isReference_or_isOperand with href | hoperand
  · by_cases hoperand : isOperand t = true
    · exact decompose_of_isOperand h.trim_eq hoperand
    · obtain ⟨cs, hreads, hinert⟩ := h.reads
      have hpart : Part 3 t := .of_operand h
      have hsign : isSigned t = false := by
        obtain ⟨⟨c, hc, hedge⟩, -⟩ := h.edges
        obtain ⟨rest, rfl⟩ := List.head?_eq_some_iff.1 hc
        have hplus : c ≠ '+' := ne_of_isEdge hedge (by decide)
        have hminus : c ≠ '-' := ne_of_isEdge hedge (by decide)
        simp [isSigned, hplus, hminus]
      have hparen : ∀ cell ∈ cells t, cell.holds '(' = false := by
        rw [hreads.cells_eq]
        exact fun cell hcell => (hinert cell hcell).not_paren.1
      have hrow : ∀ cell ∈ cells t, cell.NoPostfix := by
        rw [hreads.cells_eq]
        exact fun cell hcell => (hinert cell hcell).noPostfix
      rw [decompose_eq h.trim_eq (by simpa using hoperand) hpart.clean.checkGroups, hpart.lowest_eq_none,
        Stage.runAll_leaf hparen (by rwa [text_cells]) (Stage.runMarker_eq_none hrow)]
  · exact decompose_of_isOperand h.trim_eq hoperand

theorem checkGroups_of_isOperand (ht : Text.trim t = t) (h : isOperand t = true) : checkGroups t = .ok () := by
  rcases inert_of_isOperand ht h with hinert | ⟨sign, cs, hsign, hcells, hinert⟩
  · exact (Clean.of_inert hinert).checkGroups
  · have hnil : Clean [] := .of_inert (by simp)
    have hmem : sign ∉ ['(', ')', '\''] ∧ isBlank sign = false ∧ sign ∈ postfixFollowers := by
      rcases hsign with rfl | rfl <;> decide
    have hclean : Clean (cells t) := hcells ▸ hnil.binary (Clean.of_inert hinert) hmem.1 hmem.2.1 hmem.2.2
    exact hclean.checkGroups

/-- A text that does not pass the checks is refused for that. -/
theorem build_of_checkGroups {nesting : Nesting} {e : ParseError} (he : checkGroups (Text.trim t) = .error e) :
    Expression.build nesting voc t = .error e := by
  have hoperand : isOperand (Text.trim t) = false := by
    by_contra hoperand
    rw [checkGroups_of_isOperand (Text.trim_trim t) (by simpa using hoperand)] at he
    exact absurd he (by simp)
  have hstep : stepBy Stage.order voc (Text.trim t) = .error e := by
    rw [stepBy, if_neg (by simp [hoperand]), he]
    rfl
  apply Expression.build_error
  rw [decompose, decomposeBy_eq, hstep]

/-- What is built passes the checks. -/
theorem checkGroups_of_build {nesting : Nesting} {x : Expression} (h : Expression.build nesting voc t = .ok x) :
    checkGroups t = .ok () := by
  refine checkGroups_of_trim ?_
  cases hchecked : checkGroups (Text.trim t) with
  | ok u => rfl
  | error e =>
    rw [build_of_checkGroups hchecked] at h
    exact absurd h (by simp)

/-! ## Parentheses -/

theorem not_holds_paren_of_isOperand (ht : Text.trim t = t) (h : isOperand t = true) :
    ∀ cell ∈ cells t, cell.holds '(' = false := by
  intro cell hcell
  rcases inert_of_isOperand ht h with hinert | ⟨sign, cs, hsign, hcells, hinert⟩
  · exact (hinert cell hcell).not_paren.1
  · rw [hcells] at hcell
    rcases List.mem_cons.1 hcell with rfl | hcell
    · rcases hsign with rfl | rfl <;> rfl
    · exact (hinert cell hcell).not_paren.1

/-- what the stages are given for a text in parentheses -/
structure EnclosedFacts (head t : Text) : Prop where
  trim : Text.trim (head ++ '(' :: (t ++ [')'])) = head ++ '(' :: (t ++ [')'])
  not_operand : isOperand (head ++ '(' :: (t ++ [')'])) = false
  checked : checkGroups (head ++ '(' :: (t ++ [')'])) = .ok ()
  lowest : lowest (cells (head ++ '(' :: (t ++ [')']))) = none
  paren : (cells (head ++ '(' :: (t ++ [')']))).any (Cell.holds '(') = true
  enclosed : enclosed (cells (head ++ '(' :: (t ++ [')']))) = some (head, t)
  unsigned : isSigned (Cell.text (cells (head ++ '(' :: (t ++ [')'])))) = false

theorem Enclosable.facts (hhead : IsHead head) (h : Enclosable t) : EnclosedFacts head t := by
  have hstem := Stem.of_enclosable hhead h
  have htrim := hstem.trim_eq []
  have hchecked := hstem.checkGroups []
  have hlow := hstem.lowest_none (w := []) (by simp)
  have hunsigned := hstem.isSigned []
  rw [written, List.flatMap_nil, List.append_nil] at htrim hchecked hlow hunsigned
  have hcells := hstem.reads.cells_eq
  have hmem : opening ∈ cells (head ++ '(' :: (t ++ [')'])) := by
    rw [hcells, enclosure]
    exact List.mem_append_right _ List.mem_cons_self
  refine ⟨htrim, ?_, hchecked, hlow, List.any_eq_true.2 ⟨opening, hmem, rfl⟩, ?_, by rwa [text_cells]⟩
  · by_contra hoperand
    have hparen := not_holds_paren_of_isOperand htrim (by simpa using hoperand) opening hmem
    exact absurd hparen (by decide)
  · have hlive : ∀ cell ∈ live head, cell.holds '(' = false := fun cell hcell => (hhead.inert cell hcell).not_paren.1
    have hclose := enclosed_group hlive (checkGroups_eq_ok_iff.1 h.checked).1
    rwa [text_cells, text_live, show live head ++ opening :: (cells t ++ [closing]) = enclosure head t from rfl,
      ← hcells] at hclose

theorem decompose_group (hvoc : voc.kind? [] = none) (h : Enclosable t) :
    decompose voc ('(' :: (t ++ [')'])) = decompose voc t := by
  have hnil : IsHead [] := .inl rfl
  obtain ⟨htrim, hoperand, hchecked, hlow, hparen, henclosed, -⟩ := h.facts hnil
  rw [List.nil_append] at htrim hoperand hchecked hlow hparen henclosed
  rw [decompose_eq htrim hoperand hchecked, hlow, Stage.runAll_group hparen henclosed hvoc]

theorem decompose_call {kind : FunctionKind} {arity : Arity} (hname : IsIdentifier name)
    (hkind : voc.kind? name = some kind) (harity : voc.arity? name = some arity)
    (haccepts : arity.accepts (argumentTexts t).length = true) (h : Enclosable t) :
    decompose voc (name ++ '(' :: (t ++ [')'])) = .ok (.call ⟨name, kind⟩ t) := by
  have hfacts := h.facts (.inr hname)
  rw [decompose_eq hfacts.trim hfacts.not_operand hfacts.checked, hfacts.lowest, Stage.runAll_call hfacts.paren
    hfacts.enclosed (Operand.reference (.name hname)).trim_eq hkind harity haccepts]

theorem decompose_indexed (hname : IsIdentifier name) (hkind : voc.kind? name = none) (h : Enclosable t) :
    decompose voc (name ++ '(' :: (t ++ [')'])) = .ok (.leaf (name ++ '(' :: (t ++ [')']))) := by
  have hfacts := h.facts (.inr hname)
  have htrim : Text.trim name = name := (Operand.reference (.name hname)).trim_eq
  have hne : name ≠ [] := by
    rintro rfl
    exact absurd hname.startsName (by decide)
  have hmarker : Stage.runMarker (cells (name ++ '(' :: (t ++ [')']))) = none := by
    rw [(Stem.of_enclosable (.inr hname) h).reads.cells_eq, enclosure, ← List.cons_append, ← List.append_assoc,
      Stage.runMarker, List.getLast?_concat]
    rfl
  rw [decompose_eq hfacts.trim hfacts.not_operand hfacts.checked, hfacts.lowest,
    Stage.runAll_indexed hfacts.enclosed hne
    (by rwa [htrim]) hfacts.unsigned hmarker]

end MissionScript
