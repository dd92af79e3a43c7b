/-
The infix language is parsed.

- `build_of_derives`: every text the grammar derives is built, and to the tree it was derived with.

The grammar works outwards from operands while the parser splits from the outside in. What joins the two is that a
phrase shows no operator looser than its category, so that the operator a text is split on is the one that was put in
last.
-/
import MissionScript.Proofs.Expression.Grammar
import MissionScript.Proofs.Expression.Operand

namespace MissionScript

open Cell

variable {voc : Vocabulary} {category small large left right : Category} {t l r b₁ b₂ : Text} {c : Char} {op : BinaryOp}

/-! ## Texts that are not split -/

theorem lowest_eq_none_of_isOperand (ht : Text.trim t = t) (h : isOperand t = true) : lowest (cells t) = none := by
  have key : ∀ cs : List Cell, (∀ cell ∈ cs, cell.Inert) → ∀ s ∈ outside cs, s.cell.Quiet := fun cs hinert s hs =>
    (hinert _ (mem_of_mem_outside hs)).quiet
  rcases inert_of_isOperand ht h with hinert | ⟨sign, cs, hsign, hcells, hinert⟩
  · exact Cell.lowest_eq_none (Clean.of_inert hinert).level fun s hs => (key _ hinert s hs).operator?
  · have hparen : Cell.holds '(' ⟨sign, .live⟩ = false ∧ Cell.holds ')' ⟨sign, .live⟩ = false := by
      rcases hsign with rfl | rfl <;> exact ⟨rfl, rfl⟩
    have hone : Level [⟨sign, .live⟩] := .of_no_paren (by simp [hparen])
    have hlevel : Level (⟨sign, .live⟩ :: cs) := hone.append (Clean.of_inert hinert).level
    rw [hcells]
    apply Cell.lowest_eq_none hlevel
    intro s hs
    rw [outside_cons hparen.1 hparen.2] at hs
    rcases List.mem_cons.1 hs with rfl | hs
    · -- nothing stands before the first character, so it is a sign
      rcases hsign with rfl | rfl <;> rfl
    · obtain ⟨x, hx, rfl⟩ := List.mem_map.1 hs
      exact Quiet.operator? (key _ hinert x hx)

/-- A text that is split is what the stages make of the split. -/
theorem decompose_of_lowest {split : Split} {d : Decomposition} (htrim : Text.trim t = t)
    (hchecked : checkGroups t = .ok ()) (hlow : lowest (cells t) = some split)
    (hstages : Stage.runAll voc (cells t) (some split) Stage.order = .ok (some (.decide d))) : decompose voc t = .ok d := by
  have hoperand : isOperand t = false := by
    by_contra hoperand
    rw [lowest_eq_none_of_isOperand htrim (by simpa using hoperand)] at hlow
    exact absurd hlow (by simp)
  rw [decompose_eq htrim hoperand hchecked, hlow, hstages]

/-! ## One level of a phrase -/

theorem Phrase.isSigned (h : Phrase category t) (hc : category.maySign = false) : isSigned t = false := by
  obtain ⟨d, hd, hchar⟩ := h.head
  obtain ⟨rest, rfl⟩ := List.head?_eq_some_iff.1 hd
  have hne : d ≠ '+' ∧ d ≠ '-' := by
    rcases hchar with hedge | rfl | ⟨-, hsign⟩
    · exact ⟨ne_of_isEdge hedge (by decide), ne_of_isEdge hedge (by decide)⟩
    · decide
    · rw [hc] at hsign
      exact absurd hsign (by decide)
  simp [MissionScript.isSigned, hne.1, hne.2]

theorem additive_of_unsigned (subtracts : Bool) (left : Text) {right : Text}
    (h : ∀ c ∈ (Text.trimStart right).head?, c ≠ '+' ∧ c ≠ '-') :
    additive subtracts left right = .binary (if subtracts then .subtract else .add) left right := by
  unfold additive
  cases hright : Text.trimStart right with
  | nil => rfl
  | cons d rest =>
    have hd := h d (by simp [hright])
    split
    · next heq => exact absurd (List.cons.inj heq).1 hd.1
    · next heq => exact absurd (List.cons.inj heq).1 hd.2
    · rfl

/-- The right side of a `+` or `-` shows no sign that could be taken into the operator. -/
theorem Phrase.unsigned_right (hr : Phrase category r) (h₂ : Gap b₂) (hsign : r.head? ≠ some '-') :
    ∀ c ∈ (Text.trimStart (b₂ ++ r)).head?, c ≠ '+' ∧ c ≠ '-' := by
  obtain ⟨d, hd, hchar⟩ := hr.head
  have htrim : Text.trimStart (b₂ ++ r) = r := by
    rw [Text.trimStart_append h₂.blank]
    obtain ⟨d', hd', hblank⟩ := hr.not_isBlank_head
    obtain ⟨rest, rfl⟩ := List.head?_eq_some_iff.1 hd'
    exact List.dropWhile_cons_of_neg (by simp [hblank])
  rw [htrim, hd]
  rintro c hc
  obtain rfl : d = c := Option.some.inj hc
  rcases hchar with hedge | rfl | ⟨rfl, -⟩
  · exact ⟨ne_of_isEdge hedge (by decide), ne_of_isEdge hedge (by decide)⟩
  · decide
  · exact absurd hd hsign

/-- A text of two parts is split at the operator between them. -/
theorem decompose_at {symbol : Symbol} {k : Nat} {d : Decomposition} (hl : Part k l) (hr : Part (k + 1) r)
    (hrank : symbol.tier.rank = k) (hsymbol : Symbol.ofChar? c = some symbol) (hc : c ∈ infixes)
    (hmarker : NoMarker c r) (htrim : Text.trim (l ++ c :: r) = l ++ c :: r)
    (hstages : Stage.runAll voc (cells (l ++ c :: r)) (some ⟨symbol, l, r⟩) Stage.order = .ok (some (.decide d))) :
    decompose voc (l ++ c :: r) = .ok d := by
  subst hrank
  have hwhole : Part symbol.tier.rank (l ++ c :: r) := by
    refine hl.binary (hr.mono (Nat.le_succ _)) hc hmarker fun other hother => ?_
    obtain rfl : symbol = other := Option.some.inj (hsymbol.symm.trans hother)
    exact le_rfl
  have hlow : lowest (cells (l ++ c :: r)) = some ⟨symbol, l, r⟩ := Part.lowest_binary hl hr hc hsymbol hmarker
  exact decompose_of_lowest htrim hwhole.clean.checkGroups hlow hstages

theorem decompose_sum (subtracts : Bool) (hl : Part 0 l) (hr : Part 1 r)
    (htrim : Text.trim (l ++ (if subtracts then '-' else '+') :: r) = l ++ (if subtracts then '-' else '+') :: r) :
    decompose voc (l ++ (if subtracts then '-' else '+') :: r) = .ok (additive subtracts l r) := by
  have hsymbol : Symbol.ofChar? (if subtracts then '-' else '+') = some (if subtracts then .minus else .plus) := by
    cases subtracts <;> rfl
  have hrank : (if subtracts then Symbol.minus else .plus).tier.rank = 0 := by cases subtracts <;> rfl
  have hmem : (if subtracts then '-' else '+') ∈ infixes := by cases subtracts <;> decide
  have hmarker : NoMarker (if subtracts then '-' else '+') r := noMarker_of_sign (by cases subtracts <;> simp) r
  exact decompose_at hl hr hrank hsymbol hmem hmarker htrim (Stage.runAll_sum subtracts)

theorem decompose_product (divides : Bool) (hl : Part 1 l) (hr : Part 2 r) (hleft : Text.isVisible l = true)
    (hright : Text.isVisible r = true)
    (htrim : Text.trim (l ++ (if divides then '/' else '*') :: r) = l ++ (if divides then '/' else '*') :: r) :
    decompose voc (l ++ (if divides then '/' else '*') :: r) = .ok (.binary (Stage.productOf divides) l r) := by
  have hsymbol : Symbol.ofChar? (if divides then '/' else '*') = some (if divides then .divide else .times) := by
    cases divides <;> rfl
  have hrank : (if divides then Symbol.divide else .times).tier.rank = 1 := by cases divides <;> rfl
  have hmem : (if divides then '/' else '*') ∈ infixes := by cases divides <;> decide
  have hmarker : NoMarker (if divides then '/' else '*') r := by cases divides <;> exact fun h => absurd h (by decide)
  exact decompose_at hl hr hrank hsymbol hmem hmarker htrim (Stage.runAll_product divides hleft hright)

/-- A sum, product or power is decomposed where it was joined. -/
theorem decompose_joined (hj : left.Joined c op right) (hl : Phrase left l) (hr : Phrase right r) (h₁ : Gap b₁)
    (h₂ : Gap b₂)
    (hsign : left = .sum → r.head? ≠ some '-')
    (hmarker : c = '^' → ['(', '-', '1', ')'].isPrefixOf (b₂ ++ r) = false) :
    decompose voc (l ++ b₁ ++ c :: (b₂ ++ r)) = .ok (.binary op (l ++ b₁) (b₂ ++ r)) := by
  have hwhole := hl.binary hj hr h₁ h₂ hmarker
  have hleft := hl.left_part h₁
  have hright := hr.right_part h₂
  have hvisible₁ := hl.isVisible_left b₁
  have hvisible₂ := hr.isVisible_right b₂
  cases hj with
  | add =>
    have hunfolded := additive_of_unsigned false (l ++ b₁) (hr.unsigned_right h₂ (hsign rfl))
    exact (decompose_sum false hleft hright hwhole.trim_eq).trans (congrArg _ hunfolded)
  | subtract =>
    have hunfolded := additive_of_unsigned true (l ++ b₁) (hr.unsigned_right h₂ (hsign rfl))
    exact (decompose_sum true hleft hright hwhole.trim_eq).trans (congrArg _ hunfolded)
  | multiply => exact decompose_product false hleft hright hvisible₁ hvisible₂ hwhole.trim_eq
  | divide => exact decompose_product true hleft hright hvisible₁ hvisible₂ hwhole.trim_eq
  | power =>
    have hcaret : Symbol.ofChar? '^' = some .caret := rfl
    have hsigned : isSigned (Cell.text (cells (l ++ b₁ ++ '^' :: (b₂ ++ r)))) = false := by
      rw [text_cells]
      exact hwhole.isSigned rfl
    exact decompose_at hleft hright rfl hcaret (by decide) (hr.noMarker hmarker) hwhole.trim_eq
      (Stage.runAll_power hsigned)

/-! ## Signs -/

/-- A part without sums and products is split at a power, if at all. -/
theorem Part.lowest_power (h : Part 2 t) :
    lowest (cells t) = none ∨ ∃ left right, lowest (cells t) = some ⟨.caret, left, right⟩ := by
  rcases lowest_cases h.clean.level with ⟨hnone, -⟩ | ⟨s, hmem, symbol, hop, hsplit⟩
  · exact .inl hnone
  · have hrank := (h.atLeast s hmem).2 symbol hop
    right
    cases symbol with
    | caret => exact ⟨s.left, s.right, hsplit⟩
    | quote =>
      -- a live quote would be a transpose
      have hquote := h.clean.noTranspose _ (mem_of_mem_outside hmem)
      have hholds : s.cell.holds '\'' = true := by
        unfold Site.operator? at hop
        split_ifs at hop with hlive
        have hchar : Symbol.ofChar? s.cell.char = some .quote := (Option.filter_eq_some_iff.1 hop).1
        have : s.cell.char = '\'' := by
          revert hchar
          unfold Symbol.ofChar?
          split <;> simp_all
        simp [holds, hlive, this]
      rw [hholds] at hquote
      exact absurd hquote (by decide)
    | plus => exact absurd hrank (by decide)
    | minus => exact absurd hrank (by decide)
    | times => exact absurd hrank (by decide)
    | divide => exact absurd hrank (by decide)

theorem isOperand_signed (hc : c = '+' ∨ c = '-') (h : Sound t) (htrim : Text.trim (c :: t) = c :: t) :
    isOperand (c :: t) = Text.isNumeral (c :: t) := by
  have hquoted : Text.isQuoted (c :: t) = false := by
    by_contra hquoted
    obtain ⟨quote, body, hquote, -, heq⟩ := (Text.isQuoted_iff htrim).1 (by simpa using hquoted)
    obtain rfl : c = quote := (List.cons.inj heq).1
    rcases hc with rfl | rfl <;> exact absurd hquote (by decide)
  have hliteral : isBracketLiteral (cells (c :: t)) = false := by
    rw [(h.reads_signed hc).cells_eq]
    rcases hc with rfl | rfl <;> rfl
  simp [isOperand, hquoted, hliteral]

theorem enclosed_signed (hvoc : voc.Reachable) (hc : c = '+' ∨ c = '-') {head inside : Text} {cs : List Cell}
    (h : enclosed (⟨c, .live⟩ :: cs) = some (head, inside)) : head ≠ [] ∧ voc.kind? (Text.trim head) = none := by
  have hsign : Cell.holds '(' ⟨c, .live⟩ = false ∧ isBlank c = false ∧ isNameStart c = false ∧ c ≠ '\u212a' := by
    rcases hc with rfl | rfl <;> decide
  obtain ⟨rest, rfl⟩ : ∃ rest, head = c :: rest := by
    unfold enclosed at h
    split at h
    · simp at h
    · split_ifs at h
      obtain ⟨rfl, -⟩ := Prod.mk.inj (Option.some.inj h)
      rw [List.takeWhile_cons_of_pos (by simp [hsign.1])]
      exact ⟨_, rfl⟩
  refine ⟨by simp, hvoc.kind?_eq_none fun d hd => ?_⟩
  rw [Text.head?_trim_cons hsign.2.1] at hd
  obtain rfl : c = d := Option.some.inj hd
  exact hsign.2.2

/-- Behind a sign no power is split off what is no numeral. -/
theorem decompose_signed_of_lowest (hvoc : voc.Reachable) (hc : c = '+' ∨ c = '-') (h : Sound t)
    (htrim : Text.trim (c :: t) = c :: t) (hnumeral : Text.isNumeral (c :: t) = false)
    (hlow : lowest (cells (c :: t)) = none ∨ ∃ left right, lowest (cells (c :: t)) = some ⟨.caret, left, right⟩) :
    decompose voc (c :: t) = if c = '-' then .ok (.unary .negate t) else decompose voc t := by
  have hcells : cells (c :: t) = ⟨c, .live⟩ :: cells t := (h.reads_signed hc).cells_eq
  have htext : Cell.text (cells (c :: t)) = c :: t := text_cells _
  have hsign : isSigned (Cell.text (cells (c :: t))) = true := by
    rw [htext]
    rcases hc with rfl | rfl <;> rfl
  have hchecked : checkGroups (c :: t) = .ok () := (h.signed hc).clean.checkGroups
  have hstages : ∀ step, Stage.run voc (cells (c :: t)) (lowest (cells (c :: t))) .sign = .ok (some step) →
      Stage.runAll voc (cells (c :: t)) (lowest (cells (c :: t))) Stage.order = .ok (some step) := fun step =>
    Stage.runAll_signed hsign (fun head inside henclosed => enclosed_signed hvoc hc (hcells ▸ henclosed)) hlow
  rw [decompose_eq htrim ((isOperand_signed hc h htrim).trans hnumeral) hchecked]
  rcases hc with rfl | rfl
  · rw [hstages (.narrow t) (by simp only [Stage.run, htext]), if_neg (by decide)]
  · rw [hstages (.decide (.unary .negate t)) (by simp only [Stage.run, htext]), if_pos rfl]

/-- Behind a sign nothing is split off what is no numeral. -/
theorem decompose_signed (hvoc : voc.Reachable) (hc : c = '+' ∨ c = '-') (h : Part 2 t)
    (htrim : Text.trim (c :: t) = c :: t) (hnumeral : Text.isNumeral (c :: t) = false) :
    decompose voc (c :: t) = if c = '-' then .ok (.unary .negate t) else decompose voc t :=
  decompose_signed_of_lowest hvoc hc h.toSound htrim hnumeral (h.signed hc).lowest_power

/-- A minus is the sign of what is a numeral without it. -/
theorem isOperand_negated (hn : small.Negated large) (h : Phrase small t) :
    isOperand ('-' :: t) = Text.isNumeral t := by
  have hnegated := h.negate hn
  have hsigned : isSigned t = false := h.isSigned (by cases hn <;> rfl)
  have hnumeral : Text.isNumeral ('-' :: t) = Text.isNumeral t := by
    have hsign : Numeral.spanSign t = ([], t) := by
      cases t with
      | nil => rfl
      | cons d rest =>
        simp only [isSigned, Bool.or_eq_false_iff, beq_eq_false_iff_ne] at hsigned
        unfold Numeral.spanSign
        split <;> simp_all
    simp only [Text.isNumeral, hnegated.trim_eq, h.trim_eq, hsign]
    rfl
  rw [isOperand_signed (.inr rfl) h.toSound hnegated.trim_eq, hnumeral]

theorem decompose_negated (hvoc : voc.Reachable) (hn : small.Negated large) (h : Phrase small t)
    (hnumeral : Text.isNumeral t = false) : decompose voc ('-' :: t) = .ok (.unary .negate t) := by
  have hnegated := h.negate hn
  have hpart : Part 2 t := h.toPart.mono (by cases hn <;> decide)
  have hsigned : Text.isNumeral ('-' :: t) = false := by
    rw [← isOperand_signed (.inr rfl) h.toSound hnegated.trim_eq, isOperand_negated hn h, hnumeral]
  rw [decompose_signed hvoc (.inr rfl) hpart hnegated.trim_eq hsigned, if_pos rfl]

/-! ## Whole expressions -/

open Expression

/-- **The infix language is parsed.** For every vocabulary, every text the grammar derives is built, and to the tree it
was derived with. -/
theorem build_of_derives (hvoc : voc.Reachable) {e : Expression} (h : Derives voc category t e) :
    build .allow voc t = .ok e := by
  induction h with
  | operand h => exact build_leaf (decompose_operand h) (Phrase.operand h).ne_nil
  | @group b₁ t b₂ e h₁ h₂ ht ih =>
    have hnil : voc.kind? [] = none := hvoc.kind?_eq_none (by simp)
    rw [build_congr (decompose_group hnil (ht.phrase.toSound.pad h₁ h₂).enclosable), build_pad h₁.blank h₂.blank]
    exact ih
  | @call name gap args kind arity hname hkind harity haccepts hgap hgaps hargs ih =>
    have hphrases : ∀ a ∈ args, Phrase .sum a.text := fun a ha => (hargs a ha).phrase
    have htexts := argumentTexts_joined hgap hgaps hphrases
    have hcall := decompose_call hname hkind harity (by rwa [htexts, List.length_map])
      (sound_joined hgap hgaps hphrases).enclosable
    have htrees := buildArguments_eq_ok name (fun a ha => (hphrases a ha).isVisible) ih
    rw [← htexts] at htrees ⊢
    exact build_call hcall htrees
  | lift _ _ ih => exact ih
  | @negate small large t e hn ht ih =>
    unfold negation
    split_ifs with hnumeral
    · have hwhole := ht.phrase.negate hn
      exact build_leaf (decompose_of_isOperand hwhole.trim_eq ((isOperand_negated hn ht.phrase).trans hnumeral))
        (by simp)
    · exact build_unary (decompose_negated hvoc hn ht.phrase (by simpa using hnumeral)) ht.phrase.isVisible ih
  | @binary left right c op l b₁ b₂ r x y hj hl hr h₁ h₂ hsign hmarker ihl ihr =>
    have hnil : Text.Blank [] := by simp [Text.Blank]
    have hleft : build .allow voc (l ++ b₁) = .ok x := by
      rw [← ihl]
      exact build_pad hnil h₁.blank
    have hright : build .allow voc (b₂ ++ r) = .ok y := by
      have hpad : build .allow voc (b₂ ++ (r ++ [])) = build .allow voc r := build_pad h₂.blank hnil
      rwa [List.append_nil, ihr] at hpad
    exact build_binary (decompose_joined hj hl.phrase hr.phrase h₁ h₂ hsign hmarker) (hl.phrase.isVisible_left b₁)
      (hr.phrase.isVisible_right b₂) hleft hright

/-- `-a + 2 * sin( x )` is a sum of a negation and a product with a call. -/
theorem build_negation_plus_product :
    Vocabulary.initial.Reachable ∧
      Derives .initial .sum "-a + 2 * sin( x )".toList
        (.binary .add (.unary .negate (.leaf ['a']))
          (.binary .multiply (.leaf ['2']) (.call ⟨['s', 'i', 'n'], .scalar⟩ [.leaf ['x']] []))) ∧
      build .allow .initial "-a + 2 * sin( x )".toList =
        .ok (.binary .add (.unary .negate (.leaf ['a']))
          (.binary .multiply (.leaf ['2']) (.call ⟨['s', 'i', 'n'], .scalar⟩ [.leaf ['x']] []))) := by
  have hspace : Gap [' '] := by simp [Gap]
  have hidentifier : ∀ name ∈ [['a'], ['x'], ['s', 'i', 'n']], IsIdentifier name := by decide
  have hnegation : Derives .initial .sum ['-', 'a'] (.unary .negate (.leaf ['a'])) :=
    .lift .product
      (.lift .signed (.negate .power (.lift .base (.operand (.reference (.name (hidentifier _ (by simp))))))))
  have htwo : Derives .initial .product ['2'] (.leaf ['2']) := by
    have hnumeral : IsNumeral ['2'] := ⟨['2'], [], .whole (by simp) (by simp [IsDigits]), .none, rfl⟩
    exact .lift .signed (.lift .power (.lift .base (.operand (.numeral hnumeral))))
  have hcall : Derives .initial .signed ['s', 'i', 'n', '(', ' ', 'x', ' ', ')']
      (.call ⟨['s', 'i', 'n'], .scalar⟩ [.leaf ['x']] []) := by
    have hx : Derives .initial .sum ['x'] (.leaf ['x']) :=
      .lift .product
        (.lift .signed (.lift .power (.lift .base (.operand (.reference (.name (hidentifier _ (by simp))))))))
    have hatom := @Derives.call .initial ['s', 'i', 'n'] [] [⟨[' '], ['x'], [' '], .leaf ['x']⟩] .scalar (.exact 1)
      (hidentifier _ (by simp)) (by decide) (by decide) rfl (by simp [Gap]) (by simp [hspace]) (by simpa using hx)
    exact .lift .power (.lift .base hatom)
  have hproduct := Derives.binary .multiply htwo hcall hspace hspace (by simp) (by decide)
  have hsum := Derives.binary .add hnegation hproduct hspace hspace (by decide) (by decide)
  exact ⟨.initial, hsum, build_of_derives .initial hsum⟩

end MissionScript
