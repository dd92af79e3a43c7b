/-
Expressions with their blanks written as spaces.

Whatever takes an expression apart looks for blanks in the same places, but a sign or a group is recognised across some
blanks only. Where this makes no difference, the whole expression is built as it is with spaces.

- `Stage.run_spaced`: a stage makes the same of a text with spaces for blanks.
- `stepBy_spaced`: so does a step, where no sign is missed and the groups of the text are apart.
- `MissesSign`: somewhere in the expression a sign is missed.
- `Expression.build_spaced`: anywhere else blanks are blanks.
-/
import MissionScript.Proofs.Cell.Spaced
import MissionScript.Proofs.Expression.Structure
import MissionScript.Proofs.Function.Kinds

namespace MissionScript

open Text Cell

variable {voc : Vocabulary} {nesting : Nesting} {t u b left right name : Text} {c : Char}

/-! ## Operands -/

theorem not_isBlank_of_isNumeral (h : IsNumeral t) : ∀ c ∈ t, isBlank c = false := by
  intro c hc
  rcases Numeral.char_of_isNumeral h c hc with (hword | rfl) | rfl | rfl
  · exact not_isBlank_of_isWordChar hword
  all_goals rfl

theorem isNumeral_spaced_iff : IsNumeral (spaced t) ↔ IsNumeral t := by
  constructor
  · intro h
    rwa [spaced_eq_self (isBlank_of_mem_spaced (not_isBlank_of_isNumeral h))] at h
  · intro h
    rwa [spaced_eq_self (not_isBlank_of_isNumeral h)]

namespace Text

theorem spanSign_spaced (t : Text) : (Numeral.spanSign (spaced t)).2 = spaced (Numeral.spanSign t).2 := by
  cases t with
  | nil => rfl
  | cons c t =>
    by_cases hplus : c = '+'
    · subst hplus
      rfl
    · by_cases hminus : c = '-'
      · subst hminus
        rfl
      · have hplus' : spacedChar c ≠ '+' := fun h => hplus ((spacedChar_eq_iff rfl).1 h)
        have hminus' : spacedChar c ≠ '-' := fun h => hminus ((spacedChar_eq_iff rfl).1 h)
        simp [Numeral.spanSign, hplus, hminus, hplus', hminus']

theorem isNumeral_spaced (t : Text) : isNumeral (spaced t) = isNumeral t := by
  rw [Bool.eq_iff_iff, isNumeral, isNumeral, trim_spaced, spanSign_spaced]
  exact Numeral.isNumeral_iff_span.trans (isNumeral_spaced_iff.trans Numeral.isNumeral_iff_span.symm)

theorem quotation_span_spaced (t : Text) :
    Quotation.span (spaced t) = (Quotation.span t).map fun parts => (spaced parts.1, spaced parts.2) := by
  cases t with
  | nil => rfl
  | cons quote t =>
    have hquote : BlankBlind Quotation.isQuote := (BlankBlind.beq rfl).or (.beq rfl)
    rw [spaced_cons, Quotation.span, Quotation.span, hquote.apply quote]
    split_ifs with hopens
    · have hvisible : isBlank quote = false := by
        rcases Bool.or_eq_true_iff.1 hopens with h | h <;> rw [beq_iff_eq.1 h] <;> rfl
      have hbody : BlankBlind fun c => c != quote := (BlankBlind.beq hvisible).not
      rw [spacedChar_of_visible hvisible, takeWhile_spaced hbody, dropWhile_spaced hbody]
      cases t.dropWhile fun c => c != quote with
      | nil => rfl
      | cons closer after => simp [spacedChar_of_visible hvisible]
    · rfl

theorem isQuoted_spaced (t : Text) : isQuoted (spaced t) = isQuoted t := by
  rw [isQuoted, isQuoted, trim_spaced, quotation_span_spaced, Option.any_map]
  congr 1
  funext parts
  exact isEmpty_spaced parts.2

end Text

theorem isOperand_spaced (t : Text) : isOperand (spaced t) = isOperand t := by
  rw [isOperand, isOperand, isEmpty_spaced, isNumeral_spaced, isQuoted_spaced, cells_spaced, isBracketLiteral_spaced]

/-! ## Names of functions -/

namespace Vocabulary

theorem not_isBlank_of_named {f : Builtin} (h : Builtin.named name = some f) : ∀ c ∈ name, isBlank c = false := by
  obtain ⟨hmem, rfl⟩ := Builtin.mem_of_named h
  have hall : ∀ f ∈ Builtin.all, (f.name.all fun c => isBlank c == false) = true := by decide
  exact fun c hc => beq_iff_eq.1 (List.all_eq_true.1 (hall f hmem) c hc)

/-- A name is lowered to one that has as few blanks. -/
theorem not_isBlank_of_lowerFirst {lower : Text} (h : lowerFirst name = some lower)
    (hlower : ∀ c ∈ lower, isBlank c = false) : ∀ c ∈ name, isBlank c = false := by
  cases name with
  | nil => exact fun c hc => absurd hc List.not_mem_nil
  | cons c rest =>
    simp only [lowerFirst] at h
    split_ifs at h with hupper hkelvin
    · obtain rfl := Option.some.inj h
      have hletter : c.isAlpha = true := Bool.or_eq_true_iff.2 (.inl hupper)
      have hword : isWordChar c = true := by simp [isWordChar, Char.isAlphanum, hletter]
      exact List.forall_mem_cons.2 ⟨not_isBlank_of_isWordChar hword, (List.forall_mem_cons.1 hlower).2⟩
    · obtain rfl := Option.some.inj h
      rw [beq_iff_eq.1 hkelvin]
      exact List.forall_mem_cons.2 ⟨by decide, (List.forall_mem_cons.1 hlower).2⟩

theorem not_isBlank_of_kind? (hvoc : voc.Reachable) {kind : FunctionKind} (h : voc.kind? name = some kind) :
    ∀ c ∈ name, isBlank c = false := by
  have huser : ∀ name, voc.userDefined.contains name = true → ∀ c ∈ name, isBlank c = false :=
    fun name hname c hc => not_isBlank_of_isWordChar ((hvoc.hasIdentifiers name hname).isWordChar c hc)
  unfold kind? at h
  split at h
  · next f hlookup =>
    rw [Builtin.lookup, Option.orElse_eq_orElse, Option.orElse_eq_or, Option.or_eq_some_iff] at hlookup
    rcases hlookup with hnamed | ⟨-, hlower⟩
    · exact not_isBlank_of_named hnamed
    · obtain ⟨lower, hlower, hnamed⟩ := Option.bind_eq_some_iff.1 hlower
      exact not_isBlank_of_lowerFirst hlower (not_isBlank_of_named hnamed)
  · split_ifs at h with hknown
    rcases hasUserDefined_iff.1 hknown with hname | ⟨lower, hlower, hname⟩
    · exact huser name hname
    · exact not_isBlank_of_lowerFirst hlower (huser lower hname)

theorem kind?_spaced (hvoc : voc.Reachable) (name : Text) : voc.kind? (spaced name) = voc.kind? name := by
  cases hkind : voc.kind? name with
  | some kind => rw [spaced_eq_self (not_isBlank_of_kind? hvoc hkind), hkind]
  | none =>
    cases hspaced : voc.kind? (spaced name) with
    | none => rfl
    | some kind =>
      have hvisible := isBlank_of_mem_spaced (not_isBlank_of_kind? hvoc hspaced)
      rw [spaced_eq_self hvisible, hkind] at hspaced
      exact absurd hspaced (by simp)

end Vocabulary

/-! ## Stages -/

def Decomposition.spaced : Decomposition → Decomposition
  | .leaf text => .leaf (Text.spaced text)
  | .unary op operand => .unary op (Text.spaced operand)
  | .binary op left right => .binary op (Text.spaced left) (Text.spaced right)
  | .call callee arguments => .call callee (Text.spaced arguments)

def Step.spaced : Step → Step
  | .decide found => .decide found.spaced
  | .narrow inner => .narrow (Text.spaced inner)

def ParseError.spaced : ParseError → ParseError
  | .unbalancedParenthesis text => .unbalancedParenthesis (Text.spaced text)
  | .missingOperator text => .missingOperator (Text.spaced text)
  | .equationArgument function argument => .equationArgument function (Text.spaced argument)
  | e => e

/-- the same outcome with spaces for blanks -/
def spacedOutcome {α : Type} (f : α → α) (outcome : Except ParseError α) : Except ParseError α :=
  (outcome.map f).mapError ParseError.spaced

section

variable {α β : Type} {f : α → α} {g : β → β} {x y : Except ParseError α} {k l : α → Except ParseError β}

@[simp] theorem spacedOutcome_ok (a : α) : spacedOutcome f (.ok a) = .ok (f a) := rfl

@[simp] theorem spacedOutcome_error (e : ParseError) : spacedOutcome f (.error e) = .error e.spaced := rfl

/-- Two steps have the same outcome with spaces for blanks when each of them has. -/
theorem spacedOutcome_bind (hx : y = spacedOutcome f x) (hk : ∀ a, l (f a) = spacedOutcome g (k a)) :
    y >>= l = spacedOutcome g (x >>= k) := by
  subst hx
  cases x with
  | error e => rfl
  | ok a => exact hk a

end

/-- what a stage makes of a text, with spaces for blanks -/
abbrev spacedVerdict (verdict : Except ParseError (Option Step)) : Except ParseError (Option Step) :=
  spacedOutcome (Option.map Step.spaced) verdict

theorem additive_spaced (subtracts : Bool) (left right : Text) :
    additive subtracts (spaced left) (spaced right) = (additive subtracts left right).spaced := by
  unfold additive
  rw [trimStart_spaced]
  cases trimStart right with
  | nil => rfl
  | cons c rest =>
    by_cases hplus : c = '+'
    · subst hplus
      rfl
    · by_cases hminus : c = '-'
      · subst hminus
        rfl
      · have hplus' : spacedChar c ≠ '+' := fun h => hplus ((spacedChar_eq_iff rfl).1 h)
        have hminus' : spacedChar c ≠ '-' := fun h => hminus ((spacedChar_eq_iff rfl).1 h)
        simp [hplus, hminus, hplus', hminus', Decomposition.spaced]

theorem multiplicative_spaced (op : BinaryOp) (left right : Text) :
    multiplicative op (spaced left) (spaced right) = spacedVerdict (multiplicative op left right) := by
  unfold multiplicative
  rw [isVisible_spaced, isVisible_spaced]
  split_ifs <;> rfl

theorem transposed_spaced (operand after : Text) :
    transposed (spaced operand) (spaced after) = spacedVerdict (transposed operand after) := by
  unfold transposed
  rw [find?_spaced BlankBlind.isBlank.not]
  cases hfind : after.find? fun c => !isBlank c with
  | none => rfl
  | some found =>
    have hvisible : isBlank found = false := by simpa using List.find?_some hfind
    simp [spacedChar_of_visible hvisible, ParseError.spaced]

theorem isSigned_spaced (t : Text) : isSigned (spaced t) = isSigned t := by
  cases t with
  | nil => rfl
  | cons c t =>
    have hsign : BlankBlind fun c => c == '+' || c == '-' := (BlankBlind.beq rfl).or (.beq rfl)
    exact hsign.apply c

theorem argumentTexts_spaced (inside : Text) : argumentTexts (spaced inside) = (argumentTexts inside).map Text.spaced := by
  unfold argumentTexts
  rw [isVisible_spaced, cells_spaced, split_spaced rfl]
  split_ifs
  · rw [List.map_map, List.map_map]
    exact List.map_congr_left fun part _ => trim_spaced part
  · rfl

namespace Stage

variable {cs : List Cell} {split : Option Split}

theorem callForm_spaced (hvoc : voc.Reachable) (admits : FunctionKind → Bool) (cs : List Cell) :
    callForm voc admits (cs.map Cell.spaced) = spacedVerdict (callForm voc admits cs) := by
  unfold callForm
  rw [enclosed_spaced]
  cases enclosed cs with
  | none => rfl
  | some parts =>
    obtain ⟨head, inside⟩ := parts
    simp only [Option.map_some, trim_spaced, Vocabulary.kind?_spaced hvoc, argumentTexts_spaced, List.length_map]
    cases hkind : (voc.kind? (trim head)).filter admits with
    | none => rfl
    | some kind =>
      have hvisible := Vocabulary.not_isBlank_of_kind? hvoc (Option.filter_eq_some_iff.1 hkind).1
      simp only [spaced_eq_self hvisible]
      cases voc.arity? (trim head) with
      | none => rfl
      | some arity =>
        cases arity with
        | variadic => rfl
        | exact expected =>
          simp only
          split_ifs
          · rfl
          · unfold arityFault
            split_ifs <;> rfl

theorem runPower_spaced (left right : Text) :
    Except.ok (if isSigned (text (cs.map Cell.spaced)) then none
      else some (Step.decide (.binary .power (spaced left) (spaced right)))) =
      spacedVerdict (.ok (if isSigned (text cs) then none else some (.decide (.binary .power left right)))) := by
  rw [text_map_spaced, isSigned_spaced]
  split_ifs <;> rfl

theorem runGroup_spaced (hvoc : voc.Reachable) (cs : List Cell) (split : Option Split) :
    runGroup voc (cs.map Cell.spaced) (split.map Split.spaced) = spacedVerdict (runGroup voc cs split) := by
  unfold runGroup
  rw [any_holds_spaced rfl]
  cases cs.any (Cell.holds '(') with
  | false => rfl
  | true =>
    simp only [Bool.not_true, Bool.false_eq_true, if_false]
    cases split with
    | none =>
      simp only [Option.map_none, callForm_spaced hvoc, enclosed_spaced]
      cases callForm voc (fun _ => true) cs with
      | error e => rfl
      | ok found =>
        cases found with
        | some step => rfl
        | none =>
          cases enclosed cs with
          | none => rfl
          | some parts =>
            obtain ⟨head, inside⟩ := parts
            cases head <;> rfl
    | some split =>
      obtain ⟨symbol, left, right⟩ := split
      cases symbol with
      | plus => rfl
      | minus => rfl
      | times => exact multiplicative_spaced .multiply left right
      | divide => exact multiplicative_spaced .divide left right
      | caret => exact runPower_spaced left right
      | quote =>
        simp only [Option.map_some, Split.spaced, text_map_spaced, isSigned_spaced, transposed_spaced]
        split_ifs <;> rfl

theorem runMarker_spaced (cs : List Cell) :
    runMarker (cs.map Cell.spaced) = (runMarker cs).map Step.spaced := by
  unfold runMarker
  rw [List.getLast?_map]
  cases cs.getLast? with
  | none => rfl
  | some last =>
    simp only [Option.map_some, Option.bind_some, holds_spaced (c := '\'') rfl, List.length_map, ← List.map_take,
      ← List.map_dropLast, text_map_spaced, show last.spaced.role = last.role from rfl]
    split_ifs <;> rfl

theorem run_spaced (hvoc : voc.Reachable) (cs : List Cell) (split : Option Split) (stage : Stage) :
    stage.run voc (cs.map Cell.spaced) (split.map Split.spaced) = spacedVerdict (stage.run voc cs split) := by
  cases stage with
  | group => exact runGroup_spaced hvoc cs split
  | call kinds => exact callForm_spaced hvoc _ cs
  | marker => simp only [run, runMarker_spaced, spacedOutcome_ok]
  | sign =>
    simp only [run, text_map_spaced]
    cases text cs with
    | nil => rfl
    | cons c rest =>
      by_cases hplus : c = '+'
      · subst hplus
        rfl
      · by_cases hminus : c = '-'
        · subst hminus
          rfl
        · have hplus' : spacedChar c ≠ '+' := fun h => hplus ((spacedChar_eq_iff rfl).1 h)
          have hminus' : spacedChar c ≠ '-' := fun h => hminus ((spacedChar_eq_iff rfl).1 h)
          simp [hplus, hminus, hplus', hminus']
  | sum | product | power =>
    cases split with
    | none => rfl
    | some split =>
      obtain ⟨symbol, left, right⟩ := split
      cases symbol <;> simp [run, Split.spaced, additive_spaced, multiplicative_spaced, runPower_spaced, Step.spaced]

theorem runAll_spaced (hvoc : voc.Reachable) (cs : List Cell) (split : Option Split) (stages : List Stage) :
    runAll voc (cs.map Cell.spaced) (split.map Split.spaced) stages = spacedVerdict (runAll voc cs split stages) := by
  induction stages with
  | nil => rfl
  | cons stage rest ih =>
    rw [runAll, runAll, run_spaced hvoc]
    cases stage.run voc cs split with
    | error e => rfl
    | ok found =>
      cases found with
      | none => exact ih
      | some step => rfl

end Stage

/-! ## Levels -/

/-- Groups that meet also meet with spaces for blanks. -/
theorem juxtaposed_of_spaced {cs : List Cell} (h : juxtaposed (cs.map Cell.spaced) = false) : juxtaposed cs = false := by
  by_contra hmeet
  obtain ⟨before, between, after, rfl, hblank⟩ := juxtaposed_iff.1 (by simpa using hmeet)
  have hmeet' : GroupsMeet isAsciiBlank ((before ++ closing :: (between ++ opening :: after)).map Cell.spaced) := by
    refine ⟨before.map Cell.spaced, between.map Cell.spaced, after.map Cell.spaced, by simp; exact ⟨rfl, rfl⟩, ?_⟩
    intro cell hcell hlive
    obtain ⟨x, hx, rfl⟩ := List.mem_map.1 hcell
    exact (isAsciiBlank_spacedChar x.char).trans (isBlank_of_isAsciiBlank (hblank x hx hlive))
  rw [juxtaposed_iff.2 hmeet'] at h
  exact absurd h (by decide)

theorem checkGroups_spaced (h : Grouped (cells (spaced t))) :
    checkGroups (spaced t) = spacedOutcome id (checkGroups t) := by
  have hspaced := h
  rw [cells_spaced] at hspaced
  have hlevel : balanced (cells t) = true := balanced_iff.2 (level_spaced_iff.1 hspaced.level)
  unfold checkGroups
  rw [balanced_iff.2 h.level, hlevel, h.apart, juxtaposed_of_spaced hspaced.apart, cells_spaced, clash_spaced]
  cases clash (cells t) with
  | none => rfl
  | some found => rfl

/-- **One step.** Where no sign is missed, the same step is taken. -/
theorem stepBy_spaced (hvoc : voc.Reachable) (h : Grouped (cells (spaced t)))
    (hsigns : ∀ s ∈ outside (cells t), ¬s.Missed) (stages : List Stage) :
    stepBy stages voc (spaced t) = spacedOutcome Step.spaced (stepBy stages voc t) := by
  have hlevel : Level (cells t) := by
    have hspaced := h.level
    rwa [cells_spaced, level_spaced_iff] at hspaced
  unfold stepBy
  rw [isOperand_spaced, checkGroups_spaced h, cells_spaced, lowest_spaced hlevel hsigns, Stage.runAll_spaced hvoc]
  split_ifs
  · rfl
  · cases checkGroups t with
    | error e => rfl
    | ok u =>
      cases Stage.runAll voc (cells t) (lowest (cells t)) stages with
      | error e => rfl
      | ok found => cases found <;> rfl

/-! ## Texts in which blanks do not matter -/

theorem Decomposition.operands_spaced (d : Decomposition) : d.spaced.operands = d.operands.map Text.spaced := by
  cases d with
  | leaf text => rfl
  | unary op operand => rfl
  | binary op left right => rfl
  | call callee inside => exact argumentTexts_spaced inside

theorem Step.parts_spaced (step : Step) : step.spaced.parts = step.parts.map Text.spaced := by
  cases step with
  | decide found => exact found.operands_spaced
  | narrow inner => rfl

/-- In a text that is read when the text is built, a sign is missed outside all parentheses. -/
def MissesSign (voc : Vocabulary) (t : Text) : Prop :=
  ∃ u, ReadIn voc u t ∧ ∃ s ∈ outside (cells (trim u)), s.Missed

theorem MissesSign.of_part {part : Text} {step : Step} (hstep : stepBy Stage.order voc (trim t) = .ok step)
    (hmem : part ∈ step.parts) (h : MissesSign voc part) : MissesSign voc t := by
  obtain ⟨u, hread, hmissed⟩ := h
  exact ⟨u, .part hstep hmem hread, hmissed⟩

/-- Blanks do not matter: with spaces for them the groups of the text are apart, and no sign is missed without. -/
structure Settled (voc : Vocabulary) (t : Text) : Prop where
  grouped : Grouped (cells (spaced (trim t)))
  signs : ¬MissesSign voc t

namespace Settled

theorem stepBy (hvoc : voc.Reachable) (h : Settled voc t) :
    stepBy Stage.order voc (spaced (trim t)) = spacedOutcome Step.spaced (stepBy Stage.order voc (trim t)) :=
  stepBy_spaced hvoc h.grouped (fun s hs hmissed => h.signs ⟨t, .whole t, s, hs, hmissed⟩) Stage.order

theorem part {step : Step} (hvoc : voc.Reachable) (h : Settled voc t)
    (hstep : MissionScript.stepBy Stage.order voc (trim t) = .ok step) : ∀ part ∈ step.parts, Settled voc part := by
  intro part hmem
  refine ⟨?_, fun hmissed => h.signs (hmissed.of_part hstep hmem)⟩
  have hspaced : MissionScript.stepBy Stage.order voc (spaced (trim t)) = .ok step.spaced := by
    rw [h.stepBy hvoc, hstep, spacedOutcome_ok]
  have hmem' : spaced part ∈ step.spaced.parts := by
    rw [step.parts_spaced]
    exact List.mem_map_of_mem hmem
  rw [← trim_spaced]
  exact Grouped.passes.trim (Grouped.passes.parts h.grouped hspaced _ hmem')

end Settled

/-- **One level.** Where blanks do not matter, the text has the same decomposition with spaces for blanks. -/
theorem decompose_spaced (hvoc : voc.Reachable) (h : Settled voc t) :
    decompose voc (spaced t) = spacedOutcome Decomposition.spaced (decompose voc t) := by
  induction t using part_induction voc with
  | _ t ih =>
    have hstep := h.stepBy hvoc
    rw [decompose, decompose, decomposeBy_eq, decomposeBy_eq _ _ t, trim_spaced, hstep]
    cases htaken : stepBy Stage.order voc (trim t) with
    | error e => rfl
    | ok step =>
      cases step with
      | decide found => rfl
      | narrow inner => exact ih _ htaken inner List.mem_cons_self (h.part hvoc htaken inner List.mem_cons_self)

/-! ## Trees -/

def Expression.spaced : Expression → Expression
  | .leaf text => .leaf (Text.spaced text)
  | .unary op operand => .unary op operand.spaced
  | .binary op left right => .binary op left.spaced right.spaced
  | .call callee arguments inputs => .call callee (arguments.map Expression.spaced) (inputs.map Text.spaced)

namespace Expression

theorem requireOperand_spaced (consumer : Consumer) (operand : Text) :
    requireOperand consumer (Text.spaced operand) = spacedOutcome id (requireOperand consumer operand) := by
  unfold requireOperand
  rw [isVisible_spaced]
  split_ifs <;> rfl

theorem isEquation_spaced (hvoc : voc.Reachable) (h : Settled voc t) :
    isEquation voc (Text.spaced t) = spacedOutcome id (isEquation voc t) := by
  unfold isEquation
  rw [isQuoted_spaced, decompose_spaced hvoc h]
  split_ifs
  · rfl
  · cases decompose voc t with
    | error e => rfl
    | ok d => cases d <;> rfl

theorem requireArgument_spaced (hvoc : voc.Reachable) (function : Text) (h : Settled voc t) :
    requireArgument nesting voc function (Text.spaced t) = spacedOutcome id (requireArgument nesting voc function t) := by
  unfold requireArgument
  refine spacedOutcome_bind (requireOperand_spaced _ t) fun _ => ?_
  cases nesting with
  | allow => rfl
  | reject =>
    refine spacedOutcome_bind (isEquation_spaced hvoc h) fun nested => ?_
    cases nested <;> rfl

theorem buildArguments_spaced (hvoc : voc.Reachable) (function : Text) {arguments : List Text}
    (h : ∀ argument ∈ arguments, Settled voc argument)
    (hbuilt : ∀ argument ∈ arguments, build nesting voc (Text.spaced argument) =
      spacedOutcome Expression.spaced (build nesting voc argument)) :
    buildArguments builder nesting voc function (arguments.map Text.spaced) =
      spacedOutcome (List.map Expression.spaced) (buildArguments builder nesting voc function arguments) := by
  induction arguments with
  | nil =>
    rw [List.map_nil, buildArguments]
    rfl
  | cons argument rest ih =>
    obtain ⟨hfirst, hrest⟩ := List.forall_mem_cons.1 h
    obtain ⟨hbuiltFirst, hbuiltRest⟩ := List.forall_mem_cons.1 hbuilt
    rw [List.map_cons, buildArguments, buildArguments, ofExcept_eq, ofExcept_eq]
    refine spacedOutcome_bind (requireArgument_spaced hvoc function hfirst) fun _ => ?_
    refine spacedOutcome_bind hbuiltFirst fun node => ?_
    refine spacedOutcome_bind (ih hrest hbuiltRest) fun nodes => ?_
    rfl

/-- A tree is put together in the same way. -/
theorem build_spaced_of_operands (hvoc : voc.Reachable) {d : Decomposition} (hlevel : decompose voc t = .ok d)
    (hlevel' : decompose voc (Text.spaced t) = .ok d.spaced) (h : ∀ operand ∈ d.operands, Settled voc operand)
    (hbuilt : ∀ operand ∈ d.operands, build nesting voc (Text.spaced operand) =
      spacedOutcome Expression.spaced (build nesting voc operand)) :
    build nesting voc (Text.spaced t) = spacedOutcome Expression.spaced (build nesting voc t) := by
  rw [build, build, buildWith_eq, buildWith_eq _ _ _ t, hlevel, hlevel']
  cases d with
  | leaf text =>
    simp only [Decomposition.spaced, isEmpty_spaced]
    split_ifs
    · rfl
    · simp [builder, Expression.spaced]
  | unary op operand =>
    simp only [Decomposition.spaced, ofExcept_eq]
    refine spacedOutcome_bind (requireOperand_spaced _ operand) fun _ => ?_
    refine spacedOutcome_bind (hbuilt operand List.mem_cons_self) fun x => ?_
    simp [builder, Expression.spaced]
  | binary op left right =>
    simp only [Decomposition.spaced, ofExcept_eq]
    refine spacedOutcome_bind (requireOperand_spaced _ left) fun _ => ?_
    refine spacedOutcome_bind (requireOperand_spaced _ right) fun _ => ?_
    refine spacedOutcome_bind (hbuilt left List.mem_cons_self) fun x => ?_
    refine spacedOutcome_bind (hbuilt right (List.mem_cons_of_mem _ List.mem_cons_self)) fun y => ?_
    simp [builder, Expression.spaced]
  | call callee inside =>
    simp only [Decomposition.spaced, argumentTexts_spaced]
    refine spacedOutcome_bind (buildArguments_spaced hvoc callee.name h hbuilt) fun nodes => ?_
    by_cases huser : callee.kind = .userDefined <;> simp [builder, huser, Expression.spaced]

/-- **Blanks are blanks.** Where no sign is missed, an expression makes the same tree with spaces for blanks, or is refused
for the same fault. -/
theorem build_spaced (hvoc : voc.Reachable) (h : Settled voc t) :
    build nesting voc (Text.spaced t) = spacedOutcome Expression.spaced (build nesting voc t) := by
  induction t using part_induction voc with
  | _ t ih =>
    have hstep := h.stepBy hvoc
    cases htaken : stepBy Stage.order voc (trim t) with
    | error e =>
      have hlevel : decompose voc t = .error e := by rw [decompose, decomposeBy_eq, htaken]
      have hlevel' : decompose voc (Text.spaced t) = .error e.spaced := by rw [decompose_spaced hvoc h, hlevel]; rfl
      rw [build_error hlevel, build_error hlevel']
      rfl
    | ok step =>
      have hparts := h.part hvoc htaken
      have hbuilt := fun part hmem => ih step htaken part hmem (hparts part hmem)
      cases step with
      | narrow inner =>
        have hlevel : decompose voc t = decompose voc inner := by
          rw [decompose, decomposeBy_eq, htaken]
          rfl
        have hlevel' : decompose voc (Text.spaced t) = decompose voc (Text.spaced inner) := by
          rw [decompose_spaced hvoc h, hlevel, decompose_spaced hvoc (hparts inner List.mem_cons_self)]
        rw [build_congr hlevel, build_congr hlevel']
        exact hbuilt inner List.mem_cons_self
      | decide found =>
        have hlevel : decompose voc t = .ok found := by rw [decompose, decomposeBy_eq, htaken]
        have hlevel' : decompose voc (Text.spaced t) = .ok found.spaced := by rw [decompose_spaced hvoc h, hlevel]; rfl
        exact build_spaced_of_operands hvoc hlevel hlevel' hparts hbuilt

end Expression

end MissionScript
