/-
What a level of an expression is written as.

`Operation` relates a text to the operator or call that it is split into, character by character. `Spelled` adds what a
level leaves out: blanks around the text, a plus before it, parentheses around it.

- `Stage.describes_run`: whatever a stage decides is written in the text that it was given.
- `spelled_of_decompose`: a text is written as what it is decomposed into.
-/
import MissionScript.Proofs.Cell.Postfix
import MissionScript.Proofs.Expression.Decomposition

namespace MissionScript

open Cell

variable {voc : Vocabulary} {t u left right operand head inside : Text} {cs : List Cell}

/-! ## Texts of cells -/

namespace Symbol

def char : Symbol → Char
  | plus => '+'
  | minus => '-'
  | times => '*'
  | divide => '/'
  | caret => '^'
  | quote => '\''

theorem eq_char {c : Char} {symbol : Symbol} (h : ofChar? c = some symbol) : c = symbol.char := by
  unfold ofChar? at h
  split at h <;> cases h <;> rfl

end Symbol

namespace Cell

theorem closesAtEnd_text {depth : Nat} (h : closesAtEnd (depth + 1) cs = true) : text cs = text cs.dropLast ++ [')'] := by
  induction cs generalizing depth with
  | nil => exact absurd h (by simp [closesAtEnd])
  | cons cell cs ih =>
    rw [closesAtEnd] at h
    split_ifs at h with hdepth
    · -- only a closing parenthesis leads out of all parentheses
      obtain rfl : cs = [] := List.isEmpty_iff.1 h
      have hclose : cell.holds ')' = true := by
        by_contra hclose
        simp only [depthAfter, hclose, if_false] at hdepth
        split_ifs at hdepth
      have hchar : cell.char = ')' := beq_iff_eq.1 (Bool.and_eq_true_iff.1 hclose).2
      simp [text, hchar]
    · obtain ⟨next, hnext⟩ := Nat.exists_eq_succ_of_ne_zero hdepth
      rw [hnext] at h
      have hne : cs ≠ [] := by
        rintro rfl
        exact absurd h (by simp [closesAtEnd])
      rw [List.dropLast_cons_of_ne_nil hne]
      exact congrArg (List.cons cell.char) (ih h)

theorem text_enclosed (h : enclosed cs = some (head, inside)) : text cs = head ++ '(' :: (inside ++ [')']) := by
  have hwhole := List.takeWhile_append_dropWhile (p := fun cell : Cell => !cell.holds '(') (l := cs)
  unfold enclosed at h
  split at h
  · exact absurd h (by simp)
  · next opening inner hdrop =>
    split_ifs at h with hclose
    obtain ⟨rfl, rfl⟩ := Prod.mk.inj (Option.some.inj h)
    have hopen : opening.char = '(' := by
      have hhead := List.head?_dropWhile_not (fun cell : Cell => !cell.holds '(') cs
      rw [hdrop] at hhead
      have hholds : opening.holds '(' = true := by simpa using hhead
      exact beq_iff_eq.1 (Bool.and_eq_true_iff.1 hholds).2
    rw [hdrop] at hwhole
    have htext := congrArg text hwhole
    simp only [text, List.map_append, List.map_cons, hopen] at htext ⊢
    rw [← htext, show inner.map Cell.char = _ from closesAtEnd_text hclose]
    rfl

theorem text_lowest {split : Split} (h : lowest cs = some split) :
    text cs = split.left ++ split.symbol.char :: split.right := by
  obtain ⟨s, hmem, hsplit⟩ := exists_site_of_lowest h
  obtain ⟨symbol, hsymbol, rfl⟩ := Option.map_eq_some_iff.1 hsplit
  have hchar : s.cell.char = symbol.char := by
    unfold Site.operator? at hsymbol
    split_ifs at hsymbol
    exact Symbol.eq_char (Option.filter_eq_some_iff.1 hsymbol).1
  rw [← Site.text_eq hmem, hchar]

end Cell

/-! ## Operations -/

def BinaryOp.sign : BinaryOp → Char
  | .add => '+'
  | .subtract => '-'
  | .multiply => '*'
  | .divide => '/'
  | .power => '^'

/-- the sum or the difference that a sign stands for -/
def sumOf (subtracts : Bool) : BinaryOp := if subtracts then .subtract else .add

/-- The text is this operator with its operands, or this call. -/
inductive Operation (voc : Vocabulary) : Text → Decomposition → Prop where
  | negate (operand : Text) : Operation voc ('-' :: operand) (.unary .negate operand)
  | transpose (operand : Text) {b : Text} (hb : Text.Blank b) :
    Operation voc (operand ++ '\'' :: b) (.unary .transpose operand)
  | inverse (operand : Text) : Operation voc (operand ++ Postfix.inverse.written) (.unary .inverse operand)
  | binary (op : BinaryOp) (left right : Text) : Operation voc (left ++ op.sign :: right) (.binary op left right)
  /-- a sum or a difference with a sign before the right operand -/
  | folded (subtracts negates : Bool) (left right : Text) {b : Text} (hb : Text.Blank b) :
    Operation voc (left ++ (sumOf subtracts).sign :: (b ++ (sumOf negates).sign :: right))
      (.binary (sumOf (subtracts != negates)) left right)
  | call (head inside : Text) {kind : FunctionKind} {arity : Arity} (hkind : voc.kind? (Text.trim head) = some kind)
    (harity : voc.arity? (Text.trim head) = some arity)
    (haccepts : arity.accepts (argumentTexts inside).length = true) :
    Operation voc (head ++ '(' :: (inside ++ [')'])) (.call ⟨Text.trim head, kind⟩ inside)

/-- what a step that a stage takes says about the text -/
def Step.Describes (voc : Vocabulary) (t : Text) : Step → Prop
  | .decide d => Operation voc t d
  | .narrow inner => t = '+' :: inner ∨ t = '(' :: (inner ++ [')'])

theorem operation_additive (subtracts : Bool) (left right : Text) :
    Operation voc (left ++ (sumOf subtracts).sign :: right) (additive subtracts left right) := by
  obtain ⟨b, hb, hright⟩ := Text.exists_eq_append_trimStart right
  unfold additive
  split
  · next rest hrest =>
    rw [hright, hrest]
    have h : Operation voc _ _ := .folded subtracts false left rest hb
    rwa [Bool.bne_false] at h
  · next rest hrest =>
    rw [hright, hrest]
    have h : Operation voc _ _ := .folded subtracts true left rest hb
    rwa [Bool.bne_true] at h
  · exact .binary _ left right

theorem describes_multiplicative {op : BinaryOp} {step : Step} (h : multiplicative op left right = .ok (some step)) :
    step.Describes voc (left ++ op.sign :: right) := by
  unfold multiplicative at h
  split_ifs at h
  obtain rfl : Step.decide (.binary op left right) = step := by simpa using h
  exact Operation.binary op left right

theorem describes_transposed {step : Step} (h : transposed left right = .ok (some step)) :
    step.Describes voc (left ++ '\'' :: right) := by
  unfold transposed at h
  split at h
  · next hblank =>
    obtain rfl : Step.decide (.unary .transpose left) = step := by simpa using h
    have hb : Text.Blank right := fun c hc => by simpa using List.find?_eq_none.1 hblank c hc
    exact Operation.transpose left hb
  · exact absurd h (by simp)

theorem describes_power {cs : List Cell} {step : Step} (hlow : lowest cs = some ⟨.caret, left, right⟩)
    (h : (.ok (if isSigned (text cs) then none else some (.decide (.binary .power left right))) :
      Except ParseError (Option Step)) = .ok (some step)) : step.Describes voc (text cs) := by
  split_ifs at h
  · exact absurd h (by simp)
  · obtain rfl : Step.decide (.binary .power left right) = step := by simpa using h
    rw [text_lowest hlow]
    exact Operation.binary .power left right

theorem exists_arity {name : Text} {kind : FunctionKind} (h : voc.kind? name = some kind) :
    ∃ arity, voc.arity? name = some arity := by
  unfold Vocabulary.kind? at h
  unfold Vocabulary.arity?
  split at h
  · exact ⟨_, rfl⟩
  · split_ifs at h with hknown
    exact ⟨.variadic, if_pos hknown⟩

namespace Stage

theorem describes_callForm {admits : FunctionKind → Bool} {step : Step}
    (h : callForm voc admits cs = .ok (some step)) : step.Describes voc (text cs) := by
  unfold callForm at h
  split at h
  · exact absurd h (by simp)
  · next head inside henc =>
    rw [text_enclosed henc]
    simp only at h
    split at h
    · exact absurd h (by simp)
    · next kind hfilter =>
      have hkind : voc.kind? (Text.trim head) = some kind := (Option.filter_eq_some_iff.1 hfilter).1
      split at h
      · next expected harity =>
        split_ifs at h with hcount
        obtain rfl : Step.decide (.call ⟨Text.trim head, kind⟩ inside) = step := by simpa using h
        exact Operation.call head inside hkind harity (beq_iff_eq.2 hcount)
      · next hvariadic =>
        obtain rfl : Step.decide (.call ⟨Text.trim head, kind⟩ inside) = step := by simpa using h
        obtain ⟨arity, harity⟩ := exists_arity hkind
        refine Operation.call head inside hkind harity ?_
        cases arity with
        | exact n => exact absurd harity (hvariadic n)
        | variadic => rfl

theorem describes_runGroup {step : Step} (h : runGroup voc cs (lowest cs) = .ok (some step)) :
    step.Describes voc (text cs) := by
  unfold runGroup at h
  split at h
  · exact absurd h (by simp)
  · split at h
    · exact absurd h (by simp)
    · exact absurd h (by simp)
    · next left right hlow => exact text_lowest hlow ▸ describes_multiplicative h
    · next left right hlow => exact text_lowest hlow ▸ describes_multiplicative h
    · next left right hlow => exact describes_power hlow h
    · next left right hlow =>
      split at h
      · exact absurd h (by simp)
      · exact text_lowest hlow ▸ describes_transposed h
    · split at h
      · split at h
        · next inside henc =>
          obtain rfl : Step.narrow inside = step := by simpa using h
          exact .inr (text_enclosed henc)
        · exact absurd h (by simp)
      · exact describes_callForm h

theorem describes_runMarker {step : Step} (h : runMarker (cells t) = some step) : step.Describes voc t := by
  obtain ⟨last, hlast, h⟩ := Option.bind_eq_some_iff.1 h
  split_ifs at h with hmarker hquote
  · obtain rfl := Option.some.inj h
    obtain ⟨operand, rfl⟩ := exists_eq_append_inverse hlast (beq_iff_eq.1 hmarker)
    rw [text_take_inverse]
    exact Operation.inverse operand
  · obtain rfl := Option.some.inj h
    obtain ⟨cs, hcs⟩ := List.getLast?_eq_some_iff.1 hlast
    have htext : text (cells t) = text cs ++ ['\''] := by
      rw [hcs, text, List.map_append]
      exact congrArg (fun c => cs.map Cell.char ++ [c]) (beq_iff_eq.1 (Bool.and_eq_true_iff.1 hquote).2)
    have hdrop : text (cells t).dropLast = text cs := by rw [hcs, List.dropLast_concat]
    rw [hdrop]
    rw [text_cells] at htext
    rw [htext]
    exact Operation.transpose _ (by simp [Text.Blank])

/-- **What a stage decides is written in the text.** -/
theorem describes_run {stage : Stage} {step : Step}
    (h : stage.run voc (cells t) (lowest (cells t)) = .ok (some step)) : step.Describes voc t := by
  have htext := text_cells t
  cases stage with
  | group => exact htext ▸ describes_runGroup h
  | sum =>
    simp only [run] at h
    split at h
    · next left right hlow =>
      obtain rfl : Step.decide (additive false left right) = step := by simpa using h
      rw [← htext, text_lowest hlow]
      exact operation_additive false left right
    · next left right hlow =>
      obtain rfl : Step.decide (additive true left right) = step := by simpa using h
      rw [← htext, text_lowest hlow]
      exact operation_additive true left right
    · exact absurd h (by simp)
  | product =>
    simp only [run] at h
    split at h
    · next left right hlow => exact htext ▸ text_lowest hlow ▸ describes_multiplicative h
    · next left right hlow => exact htext ▸ text_lowest hlow ▸ describes_multiplicative h
    · exact absurd h (by simp)
  | power =>
    simp only [run] at h
    split at h
    · next left right hlow => exact htext ▸ describes_power hlow h
    · exact absurd h (by simp)
  | sign =>
    simp only [run, htext] at h
    split at h
    · next rest =>
      obtain rfl : Step.decide (.unary .negate rest) = step := by simpa using h
      exact Operation.negate rest
    · next rest =>
      -- the text behind a plus is taken apart in place of the whole
      obtain rfl : Step.narrow rest = step := by simpa using h
      exact .inl rfl
    · exact absurd h (by simp)
  | call kinds => exact htext ▸ describes_callForm h
  | marker => exact describes_runMarker (by simpa [run] using h)

theorem describes_runAll {stages : List Stage} {step : Step}
    (h : runAll voc (cells t) (lowest (cells t)) stages = .ok (some step)) : step.Describes voc t := by
  induction stages with
  | nil => exact absurd h (by simp [runAll])
  | cons stage rest ih =>
    unfold runAll at h
    split at h
    · exact ih h
    · exact describes_run h

end Stage

/-! ## Levels -/

/-- The text is this level: an operand, or an operation, with blanks, pluses and parentheses around it. -/
inductive Spelled (voc : Vocabulary) : Text → Decomposition → Prop where
  | leaf (t : Text) : Spelled voc t (.leaf t)
  | operation {t : Text} {d : Decomposition} (h : Operation voc t d) : Spelled voc t d
  | blanks {t b₁ b₂ : Text} {d : Decomposition} (h₁ : Text.Blank b₁) (h₂ : Text.Blank b₂) (h : Spelled voc t d) :
    Spelled voc (b₁ ++ (t ++ b₂)) d
  | plus {t : Text} {d : Decomposition} (h : Spelled voc t d) : Spelled voc ('+' :: t) d
  | group {t : Text} {d : Decomposition} (h : Spelled voc t d) : Spelled voc ('(' :: (t ++ [')'])) d

/-- What is decided at a text is the text itself or an operation that is written there. -/
theorem stepBy_cases {stages : List Stage} {step : Step} (h : stepBy stages voc t = .ok step) :
    step = .decide (.leaf t) ∨ step.Describes voc t := by
  unfold stepBy at h
  split at h
  · exact .inl (Except.ok.inj h).symm
  · cases hcheck : checkGroups t with
    | error e => simp [hcheck, bind, Except.bind] at h
    | ok u =>
      cases hrun : Stage.runAll voc (cells t) (lowest (cells t)) stages with
      | error e => simp [hcheck, hrun, bind, Except.bind] at h
      | ok found =>
        obtain rfl : found.getD (.decide (.leaf t)) = step := by
          simpa [hcheck, hrun, bind, Except.bind, pure, Except.pure] using h
        cases found with
        | none => exact .inl rfl
        | some step => exact .inr (Stage.describes_runAll hrun)

theorem spelled_of_decomposeBy {stages : List Stage} {d : Decomposition} (h : decomposeBy stages voc t = .ok d) :
    Spelled voc t d := by
  fun_induction decomposeBy stages voc t with
  | case1 => exact absurd h (by simp)
  | case2 t found hstep =>
    obtain rfl := Except.ok.inj h
    obtain ⟨b₁, b₂, h₁, h₂, ht⟩ := Text.exists_eq_append_trim t
    rw [ht]
    refine .blanks h₁ h₂ ?_
    rcases stepBy_cases hstep with hleaf | hoperation
    · rw [(Step.decide.inj hleaf)]
      exact .leaf _
    · exact .operation hoperation
  | case3 t inner hstep ih =>
    obtain ⟨b₁, b₂, h₁, h₂, ht⟩ := Text.exists_eq_append_trim t
    rw [ht]
    refine .blanks h₁ h₂ ?_
    rcases stepBy_cases hstep with hleaf | hplus | hgroup
    · exact absurd hleaf (by simp)
    · exact hplus ▸ .plus (ih h)
    · exact hgroup ▸ .group (ih h)

/-- **A text is written as what it is decomposed into.** -/
theorem spelled_of_decompose {d : Decomposition} (h : decompose voc t = .ok d) : Spelled voc t d :=
  spelled_of_decomposeBy h

end MissionScript
