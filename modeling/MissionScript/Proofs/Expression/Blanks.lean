/-
Which blanks make a difference.

A row with spaces in its gaps is given other blanks. Between an operator and a sign behind it a blank that is not one of
ASCII keeps the sign from being one; any other blank makes no difference.

- `exists_of_missed`: a sign is missed only behind an operator and such a blank.
- `MissesSign.torn`, `MissesSign.not_built`: so it is in the expression as a whole, and then nothing is built from it.
- `build_row_spaced`: where no sign is missed, the expression makes the same tree, or has the same fault.
- `exists_lost_factor`: and one that is missed where it should not be.
-/
import MissionScript.Proofs.Expression.Row
import MissionScript.Proofs.Expression.Spaced
import MissionScript.Proofs.Expression.Stranded

namespace MissionScript

open Cell Text

variable {voc : Vocabulary} {nesting : Nesting} {t r : Text} {as bs cs : List Cell} {s : Site}

/-! ## Spaces for blanks -/

theorem Cell.eq_of_spaced {cell : Cell} {c : Char} (hc : isBlank c = false) (h : cell.spaced = ⟨c, .live⟩) :
    cell = ⟨c, .live⟩ := by
  obtain ⟨d, role⟩ := cell
  obtain ⟨hchar, rfl⟩ := Cell.mk.inj h
  obtain rfl : d = c := (spacedChar_eq_iff hc).1 hchar
  rfl

theorem InCall.of_spaced (h : InCall (as.map Cell.spaced)) : InCall as := by
  obtain ⟨front, inner, heq, hlevel, cell, hcell, hword⟩ := h
  obtain ⟨front, rest, rfl, rfl, hrest⟩ := List.map_eq_append_iff.1 heq
  obtain ⟨x, inner, rfl, hx, rfl⟩ := List.map_eq_cons_iff.1 hrest
  obtain rfl : x = opening := Cell.eq_of_spaced rfl hx
  rw [List.getLast?_map] at hcell
  obtain ⟨last, hlast, rfl⟩ := Option.map_eq_some_iff.1 hcell
  exact ⟨front, inner, rfl, level_spaced_iff.1 hlevel, last, hlast, (blankBlind_isWordChar.apply last.char).symm.trans hword⟩

theorem Orderly.of_spaced (h : Orderly (cs.map Cell.spaced)) : Orderly cs where
  level := level_spaced_iff.1 h.level
  commas := by
    rintro as bs rfl
    refine .of_spaced (h.commas (as.map Cell.spaced) (bs.map Cell.spaced) ?_)
    rw [List.map_append, List.map_cons]
    rfl
  plain := by
    intro cell hcell hmem
    have hvisible : ∀ c ∈ strangers, isBlank c = false := List.all_iff_forall_prop.1 (by decide)
    have hspaced : cell.spaced.char ∉ strangers := h.plain cell.spaced (List.mem_map_of_mem hcell)
    rw [show cell.spaced.char = cell.char from spacedChar_of_visible (hvisible _ hmem)] at hspaced
    exact hspaced hmem

/-! ## Where a sign is missed -/

/-- Behind an operator stand blanks that are not all of ASCII, and then a `+` or `-`. -/
def Torn (t : Text) : Prop :=
  ∃ l c b sign r, t = l ++ c :: (b ++ sign :: r) ∧ c ∈ infixes ∧ Text.Blank b ∧ (∃ d ∈ b, isAsciiBlank d = false) ∧
    (sign = '+' ∨ sign = '-')

theorem Torn.among (h : Torn t) (l r : Text) : Torn (l ++ (t ++ r)) := by
  obtain ⟨l', c, b, sign, r', rfl, hc, hb, hkept, hsign⟩ := h
  exact ⟨l ++ l', c, b, sign, r' ++ r, by simp, hc, hb, hkept, hsign⟩

/-- A sign is missed only behind an operator and a blank that is not one of ASCII. -/
theorem exists_of_missed (h : Orderly (cells t)) (htrim : trim t = t) (hs : s ∈ outside (cells t)) (hmissed : s.Missed) :
    ∃ as c bs sign cs, cells t = as ++ ⟨c, .live⟩ :: (bs ++ ⟨sign, .live⟩ :: cs) ∧ Level as ∧ c ∈ infixes ∧
      (∀ cell ∈ bs, isBlank cell.char = true) ∧ (∃ cell ∈ bs, isAsciiBlank cell.char = false) ∧
      (sign = '+' ∨ sign = '-') := by
  obtain ⟨hcells, hlevel, -⟩ := exists_of_mem_outside h.level hs
  have hplain := hmissed.isSign
  have hcell : s.cell = ⟨s.cell.char, .live⟩ := by
    rw [← beq_iff_eq.1 (show (s.cell.role == .live) = true from hmissed.isLive)]
  have hsign : Site.isSign (Site.spaced ⟨s.before.reverse.reverse, s.cell, s.after⟩) = true := by
    rw [List.reverse_reverse]
    exact hmissed.isSign_spaced
  rcases h.before_sign htrim hcells hlevel hmissed.isLive hmissed.isAdditive hsign with
    hnil | ⟨front, c, gap, hbefore, hfront, hc, hblank⟩
  · rw [Site.isSign, List.reverse_eq_nil_iff.1 hnil] at hplain
    exact absurd hplain (by decide)
  · have hkept : ∃ cell ∈ gap, isAsciiBlank cell.char = false := by
      by_contra hnone
      have hgap : gap.reverse.find? (fun cell => !isAsciiBlank cell.char) = none := by
        rw [List.find?_eq_none]
        intro cell hmem hcell
        exact hnone ⟨cell, List.mem_reverse.1 hmem, by simpa using hcell⟩
      obtain ⟨-, hopens, hvisible⟩ := opens_of_mem_infixes hc
      have hreverse : s.before = gap.reverse ++ ⟨c, .live⟩ :: front.reverse := by
        rw [← List.reverse_reverse s.before, hbefore]
        simp
      rw [Site.isSign, hreverse, List.find?_append, hgap, Option.none_or,
        List.find?_cons_of_pos (by simp [hvisible])] at hplain
      exact absurd (List.contains_iff_mem.2 hopens) (by simpa using hplain)
    rw [hbefore, hcell, List.append_assoc, List.cons_append] at hcells
    exact ⟨front, c, gap, s.cell.char, s.after, hcells, hfront, hc, hblank, hkept, hmissed.isAdditive⟩

/-- The operator before a missed sign is stranded. -/
theorem stranded_of_missed (h : Orderly (cells t)) (htrim : trim t = t) (hs : s ∈ outside (cells t)) (hmissed : s.Missed) :
    Stranded (cells t) := by
  obtain ⟨as, c, bs, sign, cs, hcells, ha, hc, hblank, hkept, hsign⟩ := exists_of_missed h htrim hs hmissed
  rw [hcells]
  exact .missed ha hc hblank hkept hsign

theorem torn_of_missed (h : Orderly (cells t)) (htrim : trim t = t) (hs : s ∈ outside (cells t)) (hmissed : s.Missed) :
    Torn t := by
  obtain ⟨as, c, bs, sign, cs, hcells, -, hc, hblank, ⟨x, hx, hascii⟩, hsign⟩ := exists_of_missed h htrim hs hmissed
  refine ⟨text as, c, text bs, sign, text cs, ?_, hc, ?_, ⟨x.char, List.mem_map_of_mem hx, hascii⟩, hsign⟩
  · rw [← text_cells t, hcells]
    simp [text]
  · intro d hd
    obtain ⟨cell, hcell, rfl⟩ := List.mem_map.1 hd
    exact hblank cell hcell

/-- What is torn nowhere has parts that are torn nowhere. -/
theorem passes_whole : Passes fun cs => Orderly cs ∧ ¬Torn (text cs) where
  level h := h.1.level
  cut h hlevel hlast hcut := by
    refine ⟨Orderly.passes.cut h.1 hlevel hlast hcut, fun htorn => h.2 ?_⟩
    simpa [text] using htorn.among _ _
  group h hlevel := by
    refine ⟨Orderly.passes.group h.1 hlevel, fun htorn => h.2 ?_⟩
    simpa [text] using htorn.among [opening.char] [closing.char]

namespace MissesSign

theorem torn (h : Orderly (cells t)) (hmisses : MissesSign voc t) : Torn t := by
  by_contra hwhole
  obtain ⟨u, hread, s, hs, hmissed⟩ := hmisses
  have htrim := passes_whole.trim (t := t) ⟨h, by rwa [text_cells]⟩
  obtain ⟨hu, hnot⟩ := passes_whole.readIn hread htrim
  rw [text_cells] at hnot
  exact hnot (torn_of_missed hu (trim_trim u) hs hmissed)

/-- **Nothing is built** where a sign is missed. -/
theorem not_built (h : Orderly (cells t)) (hmisses : MissesSign voc t) : ∃ e, Expression.build nesting voc t = .error e := by
  obtain ⟨u, hread, s, hs, hmissed⟩ := hmisses
  have hu : Orderly (cells (trim u)) := Orderly.passes.readIn hread (Orderly.passes.trim h)
  have hstranded := stranded_of_missed hu (trim_trim u) hs hmissed
  cases hbuild : Expression.build nesting voc t with
  | error e => exact ⟨e, rfl⟩
  | ok x =>
    obtain ⟨y, hy⟩ := Expression.build_readIn hread hbuild
    exact absurd hy (not_built_of_stranded hu hstranded y)

end MissesSign

/-! ## Rows -/

theorem Row.settled (h : Row .sum (spaced t)) (hsigns : ¬MissesSign voc t) : Settled voc t := by
  refine ⟨?_, hsigns⟩
  rw [← trim_spaced]
  exact Grouped.passes.trim ⟨h.sound.clean.level, h.sound.clean.apart⟩

theorem Row.orderly_of_spaced {category : Category} (h : Row category (spaced t)) : Orderly (cells t) := by
  have hspaced := h.orderly
  rw [cells_spaced] at hspaced
  exact hspaced.of_spaced

/-- **Which blanks make a difference.** A row with other blanks for its spaces makes the same tree as with the spaces, or
has the same fault, unless a sign is missed in it. In that case an operator, other blanks than those of ASCII and a `+` or
`-` stand one behind the other in it, and nothing is built from it. -/
theorem build_row_spaced (nesting : Nesting) (hvoc : voc.Reachable) (h : Row .sum (spaced t)) :
    (¬MissesSign voc t →
        Expression.build nesting voc (spaced t) = spacedOutcome Expression.spaced (Expression.build nesting voc t)) ∧
      (MissesSign voc t → Torn t ∧ ∃ e, Expression.build nesting voc t = .error e) :=
  ⟨fun hsigns => Expression.build_spaced hvoc (h.settled hsigns),
    fun hmisses => ⟨hmisses.torn h.orderly_of_spaced, hmisses.not_built h.orderly_of_spaced⟩⟩

theorem Row.product (hr : Row .sum r) : Row .sum ('a' :: ' ' :: '*' :: ' ' :: r) := by
  have hname : Row .atom ['a'] := .reference (.name (by decide))
  have hgap : Gap [' '] := by simp [Gap]
  exact .binary (by decide) hname hr hgap hgap fun hc => absurd hc (by decide)

/-- A blank that is not one of ASCII makes no difference before a factor, but it does before the sign of one. -/
theorem build_row_spaced_factor :
    Row .sum (spaced "a *\u00a0b".toList) ∧ Row .sum (spaced "a *\u00a0-b".toList) ∧
      Expression.build .allow .initial "a * b".toList =
        spacedOutcome Expression.spaced (Expression.build .allow .initial "a *\u00a0b".toList) ∧
      Torn "a *\u00a0-b".toList ∧ ∃ e, Expression.build .allow .initial "a *\u00a0-b".toList = .error e := by
  have hb : Row .sum ['b'] := .last (.reference (.name (by decide)))
  have hfactor : Row .sum (spaced "a *\u00a0b".toList) := hb.product
  have hsigned : Row .sum (spaced "a *\u00a0-b".toList) := (Row.sign (.inr rfl) .nil hb).product
  have hplain : ¬MissesSign .initial "a *\u00a0b".toList := by
    intro hmisses
    obtain ⟨l, c, b, sign, r, htext, -, -, -, hsign⟩ := ((build_row_spaced .allow .initial hfactor).2 hmisses).1
    have hmem : sign ∈ "a *\u00a0b".toList := by rw [htext]; simp
    rcases hsign with rfl | rfl <;> exact absurd hmem (by decide)
  have hmisses : MissesSign .initial "a *\u00a0-b".toList := by
    have hcells : cells (trim "a *\u00a0-b".toList) = cells "a *\u00a0".toList ++ ⟨'-', .live⟩ :: cells ['b'] := by decide
    refine ⟨_, .whole _, ⟨(cells "a *\u00a0".toList).reverse, ⟨'-', .live⟩, cells ['b']⟩, ?_, rfl, .inr rfl, ?_, ?_⟩
    · rw [hcells, outside_join (by decide) rfl rfl]
      exact List.mem_append_right _ List.mem_cons_self
    · decide
    · decide
  obtain ⟨htorn, herror⟩ := (build_row_spaced .allow .initial hsigned).2 hmisses
  exact ⟨hfactor, hsigned, (build_row_spaced .allow .initial hfactor).1 hplain, htorn, herror⟩

/-- **A lost factor.** With a space before its sign a factor is built, with another blank the product lacks an operand. -/
theorem exists_lost_factor :
    Row .sum "a * -b".toList ∧ spaced "a *\u00a0-b".toList = "a * -b".toList ∧
      Expression.build .allow .initial "a * -b".toList =
        .ok (.binary .multiply (.leaf ['a']) (.unary .negate (.leaf ['b']))) ∧
      Expression.build .allow .initial "a *\u00a0-b".toList = .error (.missingOperand (.binary .multiply)) := by
  have hb : Row .sum ['b'] := .last (.reference (.name (by decide)))
  have hrow : Row .sum "a * -b".toList := (Row.sign (.inr rfl) .nil hb).product
  have hproduct : decompose .initial "a * -b".toList = .ok (.binary .multiply "a ".toList " -b".toList) := by decide +kernel
  have hfactor : decompose .initial " -b".toList = .ok (.unary .negate ['b']) := by decide +kernel
  have hleft : Built .allow .initial "a ".toList (.leaf ['a']) := .leaf (by decide +kernel) (by simp)
  have hright : Built .allow .initial ['b'] (.leaf ['b']) := .leaf (by decide +kernel) (by simp)
  have hdifference : decompose .initial "a *\u00a0-b".toList = .ok (.binary .subtract "a *\u00a0".toList ['b']) := by
    decide +kernel
  have hlost : decompose .initial "a *\u00a0".toList = .error (.missingOperand (.binary .multiply)) := by decide +kernel
  refine ⟨hrow, rfl, Expression.built_iff.1 (.binary hproduct hleft (.unary hfactor hright)), ?_⟩
  exact Expression.build_left_error hdifference (by decide) (by decide) (Expression.build_error hlost)

end MissionScript
