/-
What an expression asks of a vocabulary.

A vocabulary is only asked for the names that stand before a parenthesis. `Heads` says where such a name may stand in a text:
never in the middle of a longer name, since a text is only cut behind operators, parentheses, commas and blanks.
- `cutOf_operand`: the operands of a text are cut out of it in this way.
- `decompose_congr`, `buildWith_congr`: vocabularies that agree on the names before the parentheses of a text make the same
  of it, whoever makes the nodes.
-/
import MissionScript.Proofs.Expression.Pieces
import MissionScript.Proofs.Function.Discovery
import MissionScript.Proofs.Lexeme.Standing

namespace MissionScript

open Cell

variable {voc later : Vocabulary} {s t u l r : Text} {name : Text}

/-! ## Parts of a text -/

/-- The text is a part of another one that does not begin within a name. -/
def CutOf (s t : Text) : Prop := ∃ l r, EndsApart l ∧ t = l ++ (s ++ r)

namespace CutOf

theorem refl (t : Text) : CutOf t t := ⟨[], [], .nil, by simp⟩

theorem trans (hs : CutOf s t) (ht : CutOf t u) : CutOf s u := by
  obtain ⟨l, r, hl, rfl⟩ := hs
  obtain ⟨l', r', hl', rfl⟩ := ht
  exact ⟨l' ++ l, r ++ r', hl'.append hl, by simp⟩

theorem trim (t : Text) : CutOf (Text.trim t) t := by
  obtain ⟨b₁, b₂, h₁, -, ht⟩ := Text.exists_eq_append_trim t
  exact ⟨b₁, b₂, .blank h₁, ht⟩

/-- Separated parts begin behind a separator or with the whole. -/
theorem of_mem_intercalate {sep : Char} (hsep : isWordChar sep = false ∧ sep ≠ '.') {parts : List Text}
    (h : s ∈ parts) : CutOf s ([sep].intercalate parts) := by
  induction parts with
  | nil => exact absurd h List.not_mem_nil
  | cons part parts ih =>
    cases parts with
    | nil =>
      obtain rfl := List.mem_singleton.1 h
      rw [List.intercalate_singleton]
      exact refl s
    | cons next parts =>
      rw [List.intercalate_cons_cons]
      rcases List.mem_cons.1 h with rfl | h
      · exact ⟨[], [sep] ++ [sep].intercalate (next :: parts), .nil, by simp⟩
      · have hrest : CutOf ([sep].intercalate (next :: parts))
            (part ++ [sep] ++ [sep].intercalate (next :: parts)) :=
          ⟨part ++ [sep], [], .concat hsep part, by simp⟩
        exact (ih h).trans hrest

end CutOf

/-! ## Operands -/

theorem cutOf_of_mem_argumentTexts {inside argument : Text} (h : argument ∈ argumentTexts inside) :
    CutOf argument inside := by
  unfold argumentTexts at h
  split_ifs at h
  · obtain ⟨part, hpart, rfl⟩ := List.mem_map.1 h
    have hcut : CutOf part ([','].intercalate (splitFrom ',' 0 (cells inside))) :=
      .of_mem_intercalate (by decide) hpart
    rw [splitFrom_intercalate, text_cells] at hcut
    exact (CutOf.trim part).trans hcut
  · exact absurd h List.not_mem_nil

theorem BinaryOp.sign_apart (op : BinaryOp) : isWordChar op.sign = false ∧ op.sign ≠ '.' := by
  cases op <;> decide

theorem Operation.cutOf {d : Decomposition} (h : Operation voc t d) : ∀ operand ∈ d.operands, CutOf operand t := by
  intro x hx
  cases h with
  | negate operand =>
    obtain rfl := List.mem_singleton.1 hx
    exact ⟨['-'], [], .concat (by decide) [], by simp⟩
  | transpose operand hb =>
    obtain rfl := List.mem_singleton.1 hx
    exact ⟨[], _, .nil, rfl⟩
  | inverse operand =>
    obtain rfl := List.mem_singleton.1 hx
    exact ⟨[], _, .nil, rfl⟩
  | binary op left right =>
    rcases List.mem_pair.1 hx with rfl | rfl
    · exact ⟨[], _, .nil, rfl⟩
    · exact ⟨left ++ [op.sign], [], .concat op.sign_apart left, by simp⟩
  | @folded subtracts negates left right b hb =>
    rcases List.mem_pair.1 hx with rfl | rfl
    · exact ⟨[], _, .nil, rfl⟩
    · exact ⟨left ++ (sumOf subtracts).sign :: b ++ [(sumOf negates).sign], [], .concat (BinaryOp.sign_apart _) _, by simp⟩
  | call head inside =>
    have hinside : CutOf inside (head ++ '(' :: (inside ++ [')'])) :=
      ⟨head ++ ['('], [')'], .concat (by decide) head, by simp⟩
    exact (cutOf_of_mem_argumentTexts hx).trans hinside

theorem CutOf.group (t : Text) : CutOf t ('(' :: (t ++ [')'])) := ⟨['('], [')'], .concat (by decide) [], by simp⟩

theorem CutOf.plus (t : Text) : CutOf t ('+' :: t) := ⟨['+'], [], .concat (by decide) [], by simp⟩

theorem Spelled.cutOf {d : Decomposition} (h : Spelled voc t d) : ∀ operand ∈ d.operands, CutOf operand t := by
  induction h with
  | leaf t => exact fun _ hx => absurd hx List.not_mem_nil
  | operation h => exact h.cutOf
  | blanks h₁ h₂ _ ih => exact fun x hx => (ih x hx).trans ⟨_, _, .blank h₁, rfl⟩
  | plus _ ih => exact fun x hx => (ih x hx).trans (.plus _)
  | group _ ih => exact fun x hx => (ih x hx).trans (.group _)

/-- **Operands are cut out of the text.** -/
theorem cutOf_operand {d : Decomposition} (h : decompose voc t = .ok d) : ∀ operand ∈ d.operands, CutOf operand t :=
  (spelled_of_decompose h).cutOf

/-! ## Names before parentheses -/

/-- The name stands in the text before a parenthesis, and not as the end of a longer name. -/
def Heads (name t : Text) : Prop := ∃ blanks, Text.Blank blanks ∧ CutOf (name ++ (blanks ++ ['('])) t

theorem Heads.of_cutOf (h : Heads name s) (hst : CutOf s t) : Heads name t := by
  obtain ⟨blanks, hblanks, hcut⟩ := h
  exact ⟨blanks, hblanks, hcut.trans hst⟩

theorem heads_of_enclosed {cs : List Cell} {head inside : Text} (h : enclosed cs = some (head, inside)) :
    Heads (Text.trim head) (text cs) := by
  obtain ⟨b₁, b₂, h₁, h₂, hhead⟩ := Text.exists_eq_append_trim head
  refine ⟨b₂, h₂, b₁, inside ++ [')'], .blank h₁, ?_⟩
  rw [text_enclosed h]
  conv_lhs => rw [hhead]
  simp

/-- Two vocabularies say the same of every name that stands before a parenthesis of the text. -/
def AgreeOn (voc later : Vocabulary) (t : Text) : Prop := ∀ name, Heads name t → voc.kind? name = later.kind? name

theorem AgreeOn.of_cutOf (h : AgreeOn voc later t) (hst : CutOf s t) : AgreeOn voc later s :=
  fun name hname => h name (hname.of_cutOf hst)

/-! ## Levels -/

namespace Stage

theorem callForm_congr (admits : FunctionKind → Bool) {cs : List Cell} (h : AgreeOn voc later (text cs)) :
    callForm voc admits cs = callForm later admits cs := by
  unfold callForm
  cases henc : enclosed cs with
  | none => rfl
  | some parts =>
    obtain ⟨head, inside⟩ := parts
    have hkind := h (Text.trim head) (heads_of_enclosed henc)
    simp only [hkind, Vocabulary.arity?_congr hkind]

theorem run_congr (stage : Stage) {cs : List Cell} (lowest : Option Split) (h : AgreeOn voc later (text cs)) :
    stage.run voc cs lowest = stage.run later cs lowest := by
  cases stage with
  | group => simp only [run, runGroup, callForm_congr (fun _ => true) h]
  | call kinds => exact callForm_congr kinds.contains h
  | _ => rfl

theorem runAll_congr (stages : List Stage) {cs : List Cell} (lowest : Option Split) (h : AgreeOn voc later (text cs)) :
    runAll voc cs lowest stages = runAll later cs lowest stages := by
  induction stages with
  | nil => rfl
  | cons stage rest ih => rw [runAll, runAll, run_congr stage lowest h, ih]

end Stage

theorem stepBy_congr (stages : List Stage) (h : AgreeOn voc later t) : stepBy stages voc t = stepBy stages later t := by
  unfold stepBy
  rw [Stage.runAll_congr stages _ ((text_cells t).symm ▸ h)]

theorem decomposeBy_congr (stages : List Stage) (h : AgreeOn voc later t) :
    decomposeBy stages voc t = decomposeBy stages later t := by
  fun_induction decomposeBy stages voc t with
  | case1 t e hstep =>
    rw [decomposeBy_eq stages later t, ← stepBy_congr stages (h.of_cutOf (.trim t)), hstep]
  | case2 t found hstep =>
    rw [decomposeBy_eq stages later t, ← stepBy_congr stages (h.of_cutOf (.trim t)), hstep]
  | case3 t inner hstep ih =>
    rw [decomposeBy_eq stages later t, ← stepBy_congr stages (h.of_cutOf (.trim t)), hstep]
    -- what a text is narrowed to is cut out of it
    have hinner : CutOf inner (Text.trim t) := by
      rcases stepBy_cases hstep with hleaf | hplus | hgroup
      · exact absurd hleaf (by simp)
      · exact hplus ▸ .plus inner
      · exact hgroup ▸ .group inner
    exact ih (h.of_cutOf (hinner.trans (.trim t)))

/-- **A level depends on the names before parentheses only.** -/
theorem decompose_congr (h : AgreeOn voc later t) : decompose voc t = decompose later t := decomposeBy_congr _ h

/-! ## Whole expressions -/

theorem requireArgument_congr (nesting : Nesting) (function : Text) (h : AgreeOn voc later t) :
    requireArgument nesting voc function t = requireArgument nesting later function t := by
  unfold requireArgument isEquation
  rw [decompose_congr h]

variable {m : Type → Type} {α : Type} [Monad m] [MonadExcept ParseError m]

theorem buildArguments_congr (b : Builder m α) (nesting : Nesting) (function : Text) {arguments : List Text}
    (h : ∀ argument ∈ arguments, AgreeOn voc later argument ∧
      buildWith b nesting voc argument = buildWith b nesting later argument) :
    buildArguments b nesting voc function arguments = buildArguments b nesting later function arguments := by
  induction arguments with
  | nil => rw [buildArguments, buildArguments]
  | cons argument rest ih =>
    obtain ⟨hagree, hargument⟩ := h argument List.mem_cons_self
    rw [buildArguments, buildArguments, requireArgument_congr nesting function hagree, hargument,
      ih fun a ha => h a (List.mem_cons_of_mem argument ha)]

/-- **An expression depends on the names before its parentheses only.** -/
theorem buildWith_congr (b : Builder m α) (nesting : Nesting) (h : AgreeOn voc later t) :
    buildWith b nesting voc t = buildWith b nesting later t := by
  induction t using operand_induction voc with
  | _ t ih =>
    rw [buildWith_eq, buildWith_eq, ← decompose_congr h]
    cases hlevel : decompose voc t with
    | error e => rfl
    | ok d =>
      have hagree : ∀ operand ∈ d.operands, AgreeOn voc later operand := fun x hx => h.of_cutOf (cutOf_operand hlevel x hx)
      have hsame : ∀ operand ∈ d.operands, buildWith b nesting voc operand = buildWith b nesting later operand :=
        fun x hx => ih d hlevel x hx (hagree x hx)
      cases d with
      | leaf text => rfl
      | unary op operand => simp only [hsame operand List.mem_cons_self]
      | binary op left right =>
        simp only [hsame left List.mem_cons_self, hsame right (List.mem_cons_of_mem left List.mem_cons_self)]
      | call callee inside =>
        have hnodes : buildArguments b nesting voc callee.name (argumentTexts inside) =
            buildArguments b nesting later callee.name (argumentTexts inside) :=
          buildArguments_congr b nesting callee.name fun a ha => ⟨hagree a ha, hsame a ha⟩
        simp only [hnodes]

end MissionScript
