/-
Operators without a right operand.

An operator is stranded when nothing stands behind it that it could take: the text ends, or blanks stand there that keep the
`+` or `-` behind them from being a sign, so that the text is divided between the two. Wherever such a text is divided, a
part is left that has a stranded operator again, until nothing is left at all.

- `Stranded.exists_lost`: a step leads from such a text to another one, or to a blank text.
- `not_built_of_stranded`: so nothing is built from it.
-/
import MissionScript.Proofs.Cell.Spaced
import MissionScript.Proofs.Expression.Chain
import MissionScript.Proofs.Expression.Orderly

namespace MissionScript

open Cell Posture

variable {voc : Vocabulary} {nesting : Nesting} {t left right rest : Text} {as bs cs tail : List Cell} {x : Cell}
  {c sign : Char}

/-- An operator outside all parentheses has nothing to its right, or a `+` or `-` that is no sign. -/
inductive Stranded : List Cell → Prop where
  | dangling {as bs : List Cell} {c : Char} (ha : Level as) (hc : c ∈ infixes)
    (hblank : ∀ cell ∈ bs, isBlank cell.char = true) : Stranded (as ++ ⟨c, .live⟩ :: bs)
  | missed {as bs cs : List Cell} {c sign : Char} (ha : Level as) (hc : c ∈ infixes)
    (hblank : ∀ cell ∈ bs, isBlank cell.char = true) (hkept : ∃ cell ∈ bs, isAsciiBlank cell.char = false)
    (hsign : sign = '+' ∨ sign = '-') : Stranded (as ++ ⟨c, .live⟩ :: (bs ++ ⟨sign, .live⟩ :: cs))

/-! ## Blanks around -/

theorem exists_of_append_cons_left (h : as ++ x :: tail = bs ++ cs) (hx : x ∉ bs) :
    ∃ m, as = bs ++ m ∧ cs = m ++ x :: tail := by
  rcases List.append_eq_append_iff.1 h with ⟨m, rfl, hm⟩ | ⟨m, rfl, hm⟩
  · cases m with
    | nil => exact ⟨[], by simp, by simpa using hm.symm⟩
    | cons d m =>
      obtain ⟨rfl, -⟩ := List.cons.inj hm
      exact absurd (List.mem_append_right as List.mem_cons_self) hx
  · exact ⟨m, rfl, hm⟩

theorem exists_of_append_cons_right (h : as ++ x :: tail = bs ++ cs) (hx : x ∉ cs) :
    ∃ m, bs = as ++ x :: m ∧ tail = m ++ cs := by
  rcases List.append_eq_append_iff.1 h with ⟨m, rfl, hm⟩ | ⟨m, rfl, rfl⟩
  · cases m with
    | nil =>
      obtain rfl : x :: tail = cs := hm
      exact absurd List.mem_cons_self hx
    | cons d m =>
      obtain ⟨rfl, rfl⟩ := List.cons.inj hm
      exact ⟨m, rfl, rfl⟩
  · exact absurd (List.mem_append_right m List.mem_cons_self) hx

theorem not_isBlank_of_mem_infixes (hc : c ∈ infixes) : isBlank c = false := by
  exact (separates_of_mem (List.mem_cons_of_mem _ hc)).2.2.1

theorem not_isBlank_of_sign (hsign : sign = '+' ∨ sign = '-') : isBlank sign = false := by
  rcases hsign with rfl | rfl <;> rfl

namespace Stranded

theorem of_blank_append (hb : ∀ cell ∈ bs, isBlank cell.char = true) (hlevel : Level bs)
    (h : Stranded (bs ++ cs)) : Stranded cs := by
  generalize hwhole : bs ++ cs = whole at h
  cases h with
  | dangling ha hc hblank =>
    obtain ⟨m, rfl, rfl⟩ :=
      exists_of_append_cons_left hwhole.symm (not_mem_of_blank (not_isBlank_of_mem_infixes hc) hb)
    exact .dangling (ha.of_append hlevel) hc hblank
  | missed ha hc hblank hkept hsign =>
    obtain ⟨m, rfl, rfl⟩ :=
      exists_of_append_cons_left hwhole.symm (not_mem_of_blank (not_isBlank_of_mem_infixes hc) hb)
    exact .missed (ha.of_append hlevel) hc hblank hkept hsign

theorem of_append_blank (hb : ∀ cell ∈ bs, isBlank cell.char = true) (h : Stranded (cs ++ bs)) : Stranded cs := by
  generalize hwhole : cs ++ bs = whole at h
  cases h with
  | dangling ha hc hblank =>
    obtain ⟨m, rfl, rfl⟩ :=
      exists_of_append_cons_right hwhole.symm (not_mem_of_blank (not_isBlank_of_mem_infixes hc) hb)
    exact .dangling ha hc fun cell hcell => hblank cell (List.mem_append_left _ hcell)
  | @missed as bs' cs' c sign ha hc hblank hkept hsign =>
    rw [← List.cons_append, ← List.append_assoc] at hwhole
    obtain ⟨m, rfl, rfl⟩ := exists_of_append_cons_right hwhole.symm (not_mem_of_blank (not_isBlank_of_sign hsign) hb)
    rw [List.append_assoc, List.cons_append]
    exact .missed ha hc hblank hkept hsign

theorem trim (h : Stranded (cells t)) : Stranded (cells (Text.trim t)) := by
  obtain ⟨b₁, b₂, h₁, h₂, ht⟩ := Text.exists_eq_append_trim t
  obtain ⟨cs, hcells, hblank⟩ := cells_blank_append h₁ (Text.trim t ++ b₂)
  have hbehind : cells (Text.trim t ++ b₂) =
      cells (Text.trim t) ++ cellsFrom (Posture.start.after (Text.trim t)) b₂ := cellsFrom_append_blank _ h₂
  have hblank₂ := blank_cellsFrom (pending_after (p := Posture.start) (t := Text.trim t) (Nat.zero_le _)) h₂
  rw [ht, hcells] at h
  have hrest := h.of_blank_append (fun cell hcell => (hblank cell hcell).1) (Clean.of_blank hblank).level
  rw [hbehind] at hrest
  exact hrest.of_append_blank fun cell hcell => (hblank₂ cell hcell).1

end Stranded

theorem nil_of_blank_before (htrim : Text.trim t = t) (hcells : cells t = bs ++ cs)
    (hblank : ∀ cell ∈ bs, isBlank cell.char = true) : bs = [] := by
  have htext : t = text bs ++ text cs := by rw [← text_cells t, hcells, text, List.map_append]; rfl
  rw [htext] at htrim
  exact List.map_eq_nil_iff.1 (Text.eq_nil_of_blank_append htrim (List.forall_mem_map.2 hblank))

theorem nil_of_blank_behind (htrim : Text.trim t = t) (hcells : cells t = cs ++ bs)
    (hblank : ∀ cell ∈ bs, isBlank cell.char = true) : bs = [] := by
  have htext : t = text cs ++ text bs := by rw [← text_cells t, hcells, text, List.map_append]; rfl
  rw [htext] at htrim
  exact List.map_eq_nil_iff.1 (Text.eq_nil_of_append_blank htrim (List.forall_mem_map.2 hblank))

/-! ## Signs at the beginning -/

theorem not_paren_of_mem_infixes (hc : c ∈ infixes) :
    Cell.holds '(' ⟨c, .live⟩ = false ∧ Cell.holds ')' ⟨c, .live⟩ = false := by
  have hall : ∀ c ∈ infixes, Cell.holds '(' ⟨c, .live⟩ = false ∧ Cell.holds ')' ⟨c, .live⟩ = false :=
    List.all_iff_forall_prop.1 (by decide)
  exact hall c hc

/-- An operator that divides nothing is a sign. -/
theorem isSign_of_operator? {s : Site} (hs : s.cell = ⟨c, .live⟩) (hc : c ∈ infixes) (hnone : s.operator? = none) :
    (c = '+' ∨ c = '-') ∧ s.isSign = true := by
  obtain ⟨symbol, hsymbol⟩ := exists_symbol hc
  have hlive : s.cell.isLive = true := by rw [hs]; rfl
  have hchar : Symbol.ofChar? s.cell.char = some symbol := by rw [hs]; exact hsymbol
  rw [Site.operator?, if_pos hlive, hchar, Option.filter_some] at hnone
  split_ifs at hnone with hadditive
  · simp only [Bool.not_eq_true', Bool.not_eq_false, Bool.and_eq_true, beq_iff_eq] at hadditive
    exact ⟨Symbol.char_of_additive hsymbol hadditive.1, hadditive.2⟩

/-- **What stands before a sign** of a trimmed text is an operator with blanks behind it, or nothing. -/
theorem Orderly.before_sign (h : Orderly (cells t)) (htrim : Text.trim t = t) (hcells : cells t = as ++ x :: bs)
    (ha : Level as) (hlive : x.isLive = true) (hadditive : x.char = '+' ∨ x.char = '-')
    (hsign : Site.isSign (Site.spaced ⟨as.reverse, x, bs⟩) = true) :
    as = [] ∨ ∃ front c gap, as = front ++ ⟨c, .live⟩ :: gap ∧ Level front ∧ c ∈ infixes ∧
      ∀ cell ∈ gap, isBlank cell.char = true := by
  rw [Site.isSign_spaced_eq] at hsign
  cases hfind : as.reverse.find? fun cell => !isBlank cell.char with
  | none =>
    have hblank : ∀ cell ∈ as, isBlank cell.char = true := by
      intro cell hcell
      simpa using List.find?_eq_none.1 hfind cell (List.mem_reverse.2 hcell)
    exact .inl (nil_of_blank_before htrim hcells hblank)
  | some y =>
    simp only [hfind] at hsign
    obtain ⟨-, later, earlier, hreverse, hlater⟩ := List.find?_eq_some_iff_append.1 hfind
    have has : as = earlier.reverse ++ y :: later.reverse := by
      rw [← List.reverse_reverse as, hreverse]
      simp
    have hblank : ∀ cell ∈ later.reverse, isBlank cell.char = true := by
      intro cell hcell
      simpa using hlater cell (List.mem_reverse.1 hcell)
    subst has
    have hcells' : cells t = earlier.reverse ++ y :: (later.reverse ++ x :: bs) := by simpa using hcells
    obtain ⟨hy, hinfix⟩ := h.opener hcells' ha hblank hlive hadditive (List.contains_iff_mem.1 hsign)
    have hlevel : Level earlier.reverse := by
      refine ha.of_append_right (List.forall_mem_cons.2 ⟨?_, not_paren_of_blank hblank⟩)
      rw [hy]
      exact not_paren_of_mem_infixes hinfix
    exact .inr ⟨earlier.reverse, y.char, later.reverse, by rw [← hy], hlevel, hinfix, hblank⟩

/-- **A text without operators begins with a sign** when there is an operator in it at all: before that one stands a sign
again, or nothing. -/
theorem isSigned_of_quiet (h : Orderly (cells t)) (htrim : Text.trim t = t)
    (hquiet : ∀ s ∈ outside (cells t), s.operator? = none) (hcells : cells t = as ++ ⟨c, .live⟩ :: bs) (ha : Level as)
    (hc : c ∈ infixes) : isSigned t = true := by
  induction hlength : as.length using Nat.strong_induction_on generalizing as bs c with
  | _ n ih =>
    obtain ⟨hopen, hclose⟩ := not_paren_of_mem_infixes hc
    have hmem : ⟨as.reverse, ⟨c, .live⟩, bs⟩ ∈ outside (cells t) := by
      rw [hcells, outside_join ha hopen hclose]
      exact List.mem_append_right _ List.mem_cons_self
    obtain ⟨hadditive, hsign⟩ := isSign_of_operator? rfl hc (hquiet _ hmem)
    rcases h.before_sign htrim hcells ha rfl hadditive (Site.isSign_spaced_of_isSign hsign) with
      rfl | ⟨front, d, gap, rfl, hfront, hd, -⟩
    · obtain rfl : t = c :: text bs := by rw [← text_cells t, hcells]; rfl
      simpa [isSigned] using hadditive
    · rw [List.append_assoc, List.cons_append] at hcells
      refine ih _ ?_ hcells hfront hd rfl
      rw [← hlength, List.length_append, List.length_cons]
      omega

/-! ## Texts that end in an operator -/

/-- The text is blank, or an operator outside all parentheses is its last character. -/
def EndsOpen (t : Text) : Prop :=
  Text.isVisible t = false ∨ ∃ as c, Level as ∧ c ∈ infixes ∧ cells t = as ++ [⟨c, .live⟩]

namespace EndsOpen

theorem nil : EndsOpen [] := .inl rfl

theorem lost (h : EndsOpen t) : Stranded (cells t) ∨ Text.isVisible t = false := by
  rcases h with hblank | ⟨as, c, ha, hc, hcells⟩
  · exact .inr hblank
  · rw [hcells]
    exact .inl (.dangling ha hc (by simp))

theorem of_sign (hsign : sign = '+' ∨ sign = '-') (h : EndsOpen (sign :: rest)) : EndsOpen rest := by
  have hmem : sign ∈ separators ∧ sign ≠ '^' := by rcases hsign with rfl | rfl <;> decide
  have hbehind : cells (sign :: rest) = ⟨sign, .live⟩ :: cells rest :=
    Reads.nil.cells_append hmem.1 fun h => absurd h hmem.2
  have hlevel : Level [⟨sign, .live⟩] := by rcases hsign with rfl | rfl <;> rfl
  rcases h with hblank | ⟨as, c, ha, hc, hcells⟩
  · rw [Text.isVisible_of_mem List.mem_cons_self (not_isBlank_of_sign hsign)] at hblank
    exact absurd hblank (by decide)
  · rw [hbehind] at hcells
    cases as with
    | nil =>
      have hrest : cells rest = [] := (List.cons.inj hcells).2
      obtain rfl : rest = [] := by rw [← text_cells rest, hrest]; rfl
      exact nil
    | cons x as =>
      obtain ⟨rfl, hrest⟩ := List.cons.inj hcells
      have hwhole : Level ([⟨sign, .live⟩] ++ as) := ha
      exact .inr ⟨as, c, hwhole.of_append hlevel, hc, hrest⟩

theorem trimStart (h : EndsOpen t) : EndsOpen (Text.trimStart t) := by
  rcases h with hblank | ⟨as, c, ha, hc, hcells⟩
  · rw [Text.trimStart_eq_nil (Text.isVisible_eq_false_iff.1 hblank)]
    exact nil
  · obtain ⟨b, hb, ht⟩ := Text.exists_eq_append_trimStart t
    obtain ⟨bs, hbehind, hblank⟩ := cells_blank_append hb (Text.trimStart t)
    rw [ht, hbehind] at hcells
    have hnone := not_mem_of_blank (not_isBlank_of_mem_infixes hc) fun cell hcell => (hblank cell hcell).1
    obtain ⟨m, rfl, hrest⟩ := exists_of_append_cons_left hcells.symm hnone
    exact .inr ⟨m, c, ha.of_append (Clean.of_blank hblank).level, hc, hrest⟩

/-- Of a sum whose right side is open an operand is open. -/
theorem additive (subtracts : Bool) (left : Text) (h : EndsOpen right) :
    ∃ part ∈ (additive subtracts left right).operands, EndsOpen part := by
  have hstart := h.trimStart
  unfold MissionScript.additive
  split
  · next rest hrest =>
    rw [hrest] at hstart
    exact ⟨rest, by simp [Decomposition.operands], hstart.of_sign (.inl rfl)⟩
  · next rest hrest =>
    rw [hrest] at hstart
    exact ⟨rest, by simp [Decomposition.operands], hstart.of_sign (.inr rfl)⟩
  · exact ⟨right, by simp [Decomposition.operands], h⟩

end EndsOpen

namespace Stage

theorem enclosed_of_infix (hc : c ∈ infixes) : Cell.enclosed (as ++ [⟨c, .live⟩]) = none := by
  by_contra hsome
  obtain ⟨⟨head, inside⟩, henc⟩ := Option.ne_none_iff_exists'.1 hsome
  obtain ⟨front, inner, hcells, -⟩ := exists_of_enclosed henc
  have hlast := congrArg List.getLast? hcells
  rw [List.getLast?_concat, ← List.cons_append, ← List.append_assoc, List.getLast?_concat] at hlast
  obtain ⟨-, hclose⟩ := not_paren_of_mem_infixes hc
  rw [Option.some.inj hlast] at hclose
  exact absurd hclose (by decide)

end Stage

theorem Stranded.isOperand_eq_false (htrim : Text.trim t = t) (h : Stranded (cells t)) : isOperand t = false := by
  by_contra hoperand
  have hinert : ∀ {c : Char}, c ∈ infixes → ¬Inert ⟨c, .live⟩ := by
    intro c hc hinert
    have hall : ∀ c ∈ infixes, ¬(isWordChar c = true ∨ c = '.') := List.all_iff_forall_prop.1 (by decide)
    exact hall c hc (hinert.1 rfl)
  have hsigned : ∀ {sign : Char}, sign = '+' ∨ sign = '-' → sign ∈ infixes := by
    rintro sign (rfl | rfl) <;> decide
  obtain ⟨as, c, tail, hcells, hc, htail⟩ : ∃ as c tail, cells t = as ++ ⟨c, .live⟩ :: tail ∧ c ∈ infixes ∧
      ((∀ cell ∈ tail, isBlank cell.char = true) ∨ ∃ sign, (sign = '+' ∨ sign = '-') ∧ ⟨sign, .live⟩ ∈ tail) := by
    generalize hwhole : cells t = whole at h
    cases h with
    | dangling ha hc hblank => exact ⟨_, _, _, rfl, hc, .inl hblank⟩
    | missed ha hc hblank hkept hsign => exact ⟨_, _, _, rfl, hc, .inr ⟨_, hsign, by simp⟩⟩
  rcases inert_of_isOperand htrim (by simpa using hoperand) with hall | ⟨sign, cs, hsign, hread, hall⟩
  · exact hinert hc (hall _ (by simp [hcells]))
  · rw [hread] at hcells
    cases as with
    | cons x as =>
      obtain ⟨-, rfl⟩ := List.cons.inj hcells
      exact hinert hc (hall _ (by simp))
    | nil =>
      obtain ⟨-, rfl⟩ := List.cons.inj hcells
      rcases htail with hblank | ⟨other, hother, hmem⟩
      · have hcells : cells t = [⟨sign, .live⟩] ++ cs := hread
        obtain rfl : cs = [] := nil_of_blank_behind htrim hcells hblank
        obtain rfl : t = [sign] := by rw [← text_cells t, hread]; rfl
        rcases hsign with rfl | rfl <;> exact absurd hoperand (by decide)
      · exact hinert (hsigned hother) (hall _ hmem)

/-! ## Steps -/

variable {step : Step}

/-- The step of a text that is no operand is what the stages make of it. -/
theorem run_of_stepBy {stages : List Stage} (hoperand : isOperand t = false) (hstep : stepBy stages voc t = .ok step) :
    ∃ found, Stage.runAll voc (cells t) (lowest (cells t)) stages = .ok found ∧ step = found.getD (.decide (.leaf t)) := by
  rw [stepBy, if_neg (by simp [hoperand])] at hstep
  obtain ⟨⟨⟩, -, hstep⟩ := bind_eq_ok_iff.1 hstep
  obtain ⟨found, hrun, hstep⟩ := bind_eq_ok_iff.1 hstep
  exact ⟨found, hrun, (Except.ok.inj hstep).symm⟩

/-- A sign before everything leads to what stands behind it. -/
theorem open_of_signed (hopen : EndsOpen t) (hsigned : isSigned t = true) (henc : enclosed (cells t) = none)
    {split : Option Split} (hlow : split = none ∨ ∃ left right, split = some ⟨.caret, left, right⟩) :
    ∃ found, Stage.runAll voc (cells t) split Stage.order = .ok (some found) ∧ ∃ part ∈ found.parts, EndsOpen part := by
  obtain ⟨sign, rest, rfl, hsign⟩ : ∃ sign rest, t = sign :: rest ∧ (sign = '+' ∨ sign = '-') := by
    cases t with
    | nil => exact absurd hsigned (by simp [isSigned])
    | cons sign rest => exact ⟨sign, rest, rfl, by simpa [isSigned] using hsigned⟩
  have hrest : EndsOpen rest := hopen.of_sign hsign
  have hhead : ∀ head inside, enclosed (cells (sign :: rest)) = some (head, inside) →
      head ≠ [] ∧ voc.kind? (Text.trim head) = none := fun head inside hsome => absurd (hsome.symm.trans henc) (by simp)
  have hunsigned : isSigned (text (cells (sign :: rest))) = true := by rwa [text_cells]
  rcases hsign with rfl | rfl
  · refine ⟨.narrow rest, Stage.runAll_signed hunsigned hhead hlow ?_, rest, List.mem_cons_self, hrest⟩
    simp [Stage.run, text_cells]
  · refine ⟨.decide (.unary .negate rest), Stage.runAll_signed hunsigned hhead hlow ?_, rest, List.mem_cons_self, hrest⟩
    simp [Stage.run, text_cells]

theorem Orderly.operator_ne_quote (h : Orderly cs) {s : Site} (hs : s ∈ outside cs) : s.operator? ≠ some .quote := by
  intro hop
  unfold Site.operator? at hop
  split_ifs at hop
  have hchar : s.cell.char = '\'' := Symbol.eq_char (Option.filter_eq_some_iff.1 hop).1
  have hplain := h.plain s.cell (mem_of_mem_outside hs)
  rw [hchar] at hplain
  exact hplain (by decide)

theorem Site.cell_eq {s : Site} {symbol : Symbol} (hop : s.operator? = some symbol) : s.cell = ⟨symbol.char, .live⟩ := by
  unfold Site.operator? at hop
  split_ifs at hop with hlive
  rw [← Symbol.eq_char (Option.filter_eq_some_iff.1 hop).1,
    ← beq_iff_eq.1 (show (s.cell.role == .live) = true from hlive)]

/-- What stands to the right of an operator ends as the text does. -/
theorem open_right (h : Orderly (cells t)) {s : Site} {symbol : Symbol} (hs : s ∈ outside (cells t))
    (hop : s.operator? = some symbol) (hcells : cells t = as ++ [⟨c, .live⟩]) (hc : c ∈ infixes) : EndsOpen s.right := by
  obtain ⟨hsite, -, hafter⟩ := exists_of_mem_outside h.level hs
  have hfollows : ∀ u, followsOperand (symbol.char :: u) = false := by
    have hne := h.operator_ne_quote hs
    cases symbol with
    | quote => exact absurd hop hne
    | _ => exact fun _ => rfl
  rw [Site.cell_eq hop] at hsite
  have hbehind : cells s.right = s.after := cells_behind hsite hfollows
  cases hrest : s.after using List.reverseRecOn with
  | nil =>
    rw [Site.right, hrest]
    exact .nil
  | append_singleton m x =>
    rw [hrest] at hsite hafter hbehind
    have hlast := congrArg List.getLast? (hcells.symm.trans hsite)
    rw [List.getLast?_concat, ← List.cons_append, ← List.append_assoc, List.getLast?_concat] at hlast
    obtain rfl := Option.some.inj hlast
    have hm : Level m := hafter.of_append_right (List.forall_mem_singleton.2 (not_paren_of_mem_infixes hc))
    exact .inr ⟨m, c, hm, hc, hbehind⟩

theorem open_of_sum {found : Option Step} (subtracts : Bool) (hright : EndsOpen right)
    (hrun : Stage.runAll voc cs (some ⟨if subtracts then .minus else .plus, left, right⟩) Stage.order = .ok found) :
    ∃ part ∈ (found.getD (.decide (.leaf t))).parts, EndsOpen part := by
  rw [Stage.runAll_sum] at hrun
  obtain rfl := Except.ok.inj hrun
  exact hright.additive subtracts left

theorem open_of_product {found : Option Step} (divides : Bool) (hright : EndsOpen right)
    (hrun : Stage.runAll voc cs (some ⟨if divides then .divide else .times, left, right⟩) Stage.order = .ok found) :
    ∃ part ∈ (found.getD (.decide (.leaf t))).parts, EndsOpen part := by
  rw [Stage.runAll_multiplicative] at hrun
  unfold multiplicative at hrun
  split_ifs at hrun
  obtain rfl := Except.ok.inj hrun
  exact ⟨right, by simp [Step.parts, Decomposition.operands], hright⟩

/-- **A text that ends in an operator** leads to one that does again, or to a blank one. -/
theorem exists_open_part (h : Orderly (cells t)) (htrim : Text.trim t = t) (ha : Level as) (hc : c ∈ infixes)
    (hcells : cells t = as ++ [⟨c, .live⟩]) (hstep : stepBy Stage.order voc t = .ok step) :
    ∃ part ∈ step.parts, EndsOpen part := by
  have hopen : EndsOpen t := .inr ⟨as, c, ha, hc, hcells⟩
  have hstranded : Stranded (cells t) := by
    rw [hcells]
    exact .dangling ha hc (by simp)
  have henc : enclosed (cells t) = none := by
    rw [hcells]
    exact Stage.enclosed_of_infix hc
  obtain ⟨found, hrun, rfl⟩ := run_of_stepBy (hstranded.isOperand_eq_false htrim) hstep
  -- a sign in front is the operator when there is none outside it, or only powers
  have hsigned : isSigned t = true →
      (lowest (cells t) = none ∨ ∃ left right, lowest (cells t) = some ⟨.caret, left, right⟩) →
      ∃ part ∈ (found.getD (.decide (.leaf t))).parts, EndsOpen part := by
    intro hsigned hlow
    obtain ⟨step, hother, hpart⟩ := open_of_signed hopen hsigned henc hlow
    obtain rfl := Except.ok.inj (hrun.symm.trans hother)
    exact hpart
  rcases lowest_cases h.level with ⟨hnone, hquiet⟩ | ⟨s, hs, symbol, hop, hlow⟩
  · exact hsigned (isSigned_of_quiet h htrim hquiet hcells ha hc) (.inl hnone)
  · have hright : EndsOpen s.right := open_right h hs hop hcells hc
    rw [hlow] at hrun
    cases symbol with
    | plus => exact open_of_sum false hright hrun
    | minus => exact open_of_sum true hright hrun
    | times => exact open_of_product false hright hrun
    | divide => exact open_of_product true hright hrun
    | caret =>
      cases hsign : isSigned t with
      | true => exact hsigned hsign (.inr ⟨_, _, hlow⟩)
      | false =>
        rw [Stage.runAll_power (by rwa [text_cells])] at hrun
        obtain rfl := Except.ok.inj hrun
        exact ⟨s.right, by simp [Step.parts, Decomposition.operands], hright⟩
    | quote => exact absurd hop (h.operator_ne_quote hs)

/-- A `+` or `-` behind blanks that keep it from being a sign divides the text. -/
theorem operator?_of_kept (hblank : ∀ cell ∈ bs, isBlank cell.char = true)
    (hkept : ∃ cell ∈ bs, isAsciiBlank cell.char = false) (hsign : sign = '+' ∨ sign = '-') (before after : List Cell) :
    ∃ symbol, Site.operator? ⟨bs.reverse ++ before, ⟨sign, .live⟩, after⟩ = some symbol ∧ symbol.tier = .additive := by
  have hnone : Site.isSign ⟨bs.reverse ++ before, ⟨sign, .live⟩, after⟩ = false := by
    obtain ⟨b, hb, hascii⟩ := hkept
    obtain ⟨x, hx⟩ : ∃ x, bs.reverse.find? (fun cell => !isAsciiBlank cell.char) = some x := by
      apply Option.isSome_iff_exists.1
      rw [List.find?_isSome]
      exact ⟨b, List.mem_reverse.2 hb, by simp [hascii]⟩
    have hxblank : isBlank x.char = true := hblank x (List.mem_reverse.1 (List.mem_of_find?_eq_some hx))
    rw [Site.isSign, List.find?_append, hx]
    by_contra hopens
    have hvisible := Site.not_isBlank_of_opens (by simpa using hopens)
    exact absurd (hxblank.symm.trans hvisible) (by decide)
  rcases hsign with rfl | rfl
  · exact ⟨.plus, by simp [Site.operator?, isLive, Symbol.ofChar?, hnone], rfl⟩
  · exact ⟨.minus, by simp [Site.operator?, isLive, Symbol.ofChar?, hnone], rfl⟩

theorem mem_operands_additive (subtracts : Bool) (left right : Text) :
    left ∈ (additive subtracts left right).operands := by
  unfold additive
  split <;> exact List.mem_cons_self

/-- Where a site does not stand before that of a character, it is this one or stands behind the character. -/
theorem at_or_behind {y : Site} {before after : List Site} (ha : Level as) (hopen : x.holds '(' = false)
    (hclose : x.holds ')' = false) (hsites : outside (as ++ x :: cs) = before ++ y :: after)
    (hafter : ⟨as.reverse, x, cs⟩ ∉ after) :
    y.before.reverse = as ∨ ∃ later, y.before.reverse = as ++ x :: later := by
  have hhere : y = ⟨as.reverse, x, cs⟩ → y.before.reverse = as := by
    rintro rfl
    exact List.reverse_reverse as
  rw [outside_join ha hopen hclose] at hsites
  rcases List.append_eq_append_iff.1 hsites with ⟨m, rfl, hm⟩ | ⟨m, -, hm⟩
  · cases m with
    | nil => exact .inl (hhere (List.cons.inj hm).1.symm)
    | cons d m =>
      right
      have hbehind : y ∈ (outside cs).map (Site.among (x :: as.reverse) []) := by
        rw [(List.cons.inj hm).2]
        exact List.mem_append_right _ List.mem_cons_self
      obtain ⟨z, -, rfl⟩ := List.mem_map.1 hbehind
      exact ⟨z.before.reverse, by simp [Site.among]⟩
  · cases m with
    | nil => exact .inl (hhere (List.cons.inj hm).1)
    | cons d m =>
      refine absurd ?_ hafter
      rw [(List.cons.inj hm).2]
      exact List.mem_append_right _ List.mem_cons_self

/-- A text is divided at a sum outside all parentheses or behind it. -/
theorem exists_sum_of_operator? (h : Orderly (cells t)) (hcells : cells t = as ++ ⟨sign, .live⟩ :: cs) (ha : Level as)
    (hsign : sign = '+' ∨ sign = '-')
    (hop : ∃ symbol, Site.operator? ⟨as.reverse, ⟨sign, .live⟩, cs⟩ = some symbol ∧ symbol.tier = .additive) :
    ∃ (subtracts : Bool) (left right : Text), lowest (cells t) = some ⟨if subtracts then .minus else .plus, left, right⟩ ∧
      (cells left = as ∨ ∃ later, cells left = as ++ ⟨sign, .live⟩ :: later) := by
  obtain ⟨symbol, hop, htier⟩ := hop
  have hparen : Cell.holds '(' ⟨sign, .live⟩ = false ∧ Cell.holds ')' ⟨sign, .live⟩ = false := by
    rcases hsign with rfl | rfl <;> exact ⟨rfl, rfl⟩
  have hmem : ⟨as.reverse, ⟨sign, .live⟩, cs⟩ ∈ outside (cells t) := by
    rw [hcells, outside_join ha hparen.1 hparen.2]
    exact List.mem_append_right _ List.mem_cons_self
  obtain ⟨y, loosest, hloosest, hy, hrank⟩ := Site.exists_loosest_le hmem hop
  have hlow : lowest (cells t) = some ⟨loosest, y.left, y.right⟩ := by
    rw [lowest_eq h.level, hloosest, Option.bind_some, Site.split?, hy]
    rfl
  have hadditive : loosest.tier = .additive := by
    rw [htier] at hrank
    revert hrank
    cases loosest.tier <;> simp [Tier.rank]
  obtain ⟨hsite, -, -⟩ := exists_of_mem_outside h.level (Site.mem_of_loosest hloosest)
  have hleft : cells y.left = y.before.reverse := by
    rw [Site.cell_eq hy] at hsite
    exact cells_before hsite (by cases loosest <;> rfl)
  -- no sum stands behind the one that divides the text
  obtain ⟨before, symbol', after, hsites, hleast⟩ := Site.exists_isLoosest hloosest
  have hafter : ⟨as.reverse, ⟨sign, .live⟩, cs⟩ ∉ after := by
    intro hlater
    have hlt := hleast.after_lt _ hlater symbol hop
    rw [htier] at hlt
    exact absurd hlt (Nat.not_lt_zero _)
  rw [hcells] at hsites
  refine ⟨loosest == .minus, y.left, y.right, ?_, ?_⟩
  · rw [hlow]
    cases loosest with
    | plus => rfl
    | minus => rfl
    | times | divide | caret | quote => exact absurd hadditive (by decide)
  · rw [hleft]
    exact at_or_behind ha hparen.1 hparen.2 hsites hafter

/-- A text with a missed sign is divided there or behind it, so that the operator before is left stranded. -/
theorem exists_stranded_part (h : Orderly (cells t)) (htrim : Text.trim t = t) (ha : Level as) (hc : c ∈ infixes)
    (hblank : ∀ cell ∈ bs, isBlank cell.char = true) (hkept : ∃ cell ∈ bs, isAsciiBlank cell.char = false)
    (hsign : sign = '+' ∨ sign = '-') (hcells : cells t = as ++ ⟨c, .live⟩ :: (bs ++ ⟨sign, .live⟩ :: cs))
    (hstep : stepBy Stage.order voc t = .ok step) : ∃ part ∈ step.parts, Stranded (cells part) := by
  have hstranded : Stranded (cells t) := by
    rw [hcells]
    exact .missed ha hc hblank hkept hsign
  obtain ⟨found, hrun, rfl⟩ := run_of_stepBy (hstranded.isOperand_eq_false htrim) hstep
  have hlevel : Level (as ++ ⟨c, .live⟩ :: bs) :=
    ha.append (.of_no_paren (List.forall_mem_cons.2 ⟨not_paren_of_mem_infixes hc, not_paren_of_blank hblank⟩))
  have hop : ∃ symbol, Site.operator? ⟨(as ++ ⟨c, .live⟩ :: bs).reverse, ⟨sign, .live⟩, cs⟩ = some symbol ∧
      symbol.tier = .additive := by
    have hreverse : (as ++ ⟨c, .live⟩ :: bs).reverse = bs.reverse ++ ⟨c, .live⟩ :: as.reverse := by simp
    rw [hreverse]
    exact operator?_of_kept hblank hkept hsign _ cs
  have hcells' : cells t = (as ++ ⟨c, .live⟩ :: bs) ++ ⟨sign, .live⟩ :: cs := by simpa using hcells
  obtain ⟨subtracts, left, right, hlow, hleft⟩ := exists_sum_of_operator? h hcells' hlevel hsign hop
  rw [hlow, Stage.runAll_sum] at hrun
  obtain rfl := Except.ok.inj hrun
  refine ⟨left, mem_operands_additive subtracts left right, ?_⟩
  rcases hleft with hleft | ⟨later, hleft⟩
  · rw [hleft]
    exact .dangling ha hc hblank
  · rw [hleft, List.append_assoc, List.cons_append]
    exact .missed ha hc hblank hkept hsign

/-! ## Trees -/

/-- A step leads from a text with a stranded operator to another one, or to a blank text. -/
theorem Stranded.exists_lost (h : Orderly (cells t)) (htrim : Text.trim t = t) (hs : Stranded (cells t))
    (hstep : stepBy Stage.order voc t = .ok step) :
    ∃ part ∈ step.parts, Stranded (cells part) ∨ Text.isVisible part = false := by
  generalize hcells : cells t = whole at hs
  cases hs with
  | @dangling as bs c ha hc hblank =>
    have hcells' : cells t = (as ++ [⟨c, .live⟩]) ++ bs := by rw [hcells, List.append_assoc]; rfl
    obtain rfl : bs = [] := nil_of_blank_behind htrim hcells' hblank
    obtain ⟨part, hmem, hopen⟩ := exists_open_part h htrim ha hc hcells hstep
    exact ⟨part, hmem, hopen.lost⟩
  | missed ha hc hblank hkept hsign =>
    obtain ⟨part, hmem, hstranded⟩ := exists_stranded_part h htrim ha hc hblank hkept hsign hcells hstep
    exact ⟨part, hmem, .inl hstranded⟩

/-- **Nothing is built** from a text with a stranded operator. -/
theorem not_built_of_stranded (h : Orderly (cells (Text.trim t))) (hs : Stranded (cells (Text.trim t))) (x : Expression) :
    Expression.build nesting voc t ≠ .ok x := by
  induction t using part_induction voc generalizing x with
  | _ t ih =>
    intro hx
    cases hstep : stepBy Stage.order voc (Text.trim t) with
    | error e =>
      have hlevel : decompose voc t = .error e := by rw [decompose, decomposeBy_eq, hstep]
      rw [Expression.build_error hlevel] at hx
      exact absurd hx (by simp)
    | ok step =>
      obtain ⟨part, hmem, hlost⟩ := hs.exists_lost h (Text.trim_trim t) hstep
      obtain ⟨y, hy⟩ := Expression.build_part hx hstep hmem
      rcases hlost with hlost | hblank
      · have hpart : Orderly (cells part) := Orderly.passes.parts h hstep part hmem
        exact ih step hstep part hmem (Orderly.passes.trim hpart) hlost.trim y hy
      · rw [Expression.isVisible_of_build hy] at hblank
        exact absurd hblank (by decide)

end MissionScript
