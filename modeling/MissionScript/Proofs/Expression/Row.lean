/-
Rows of operands.

A row is an expression as it is read from left to right: references, numerals, groups and calls with signs before them and
operators between them. Nothing is said about precedence, about which names stand for functions or about how many arguments
those take. Gaps stand beside operators and commas, behind signs and just inside parentheses.

- `Row.sound`: a row can be read in its place; its parentheses balance and no groups meet.
- `Row.orderly`: commas stand in its calls only.
-/
import MissionScript.Proofs.Expression.Chain
import MissionScript.Proofs.Expression.Orderly

namespace MissionScript

open Cell

variable {category : Category} {t name gap : Text} {as bs cs inner : List Cell} {c : Char} {args : List Argument}

/-- atoms, and sums of them with operators between them and signs before them -/
inductive Row : Category → Text → Prop where
  | reference {t : Text} (h : IsReference t) : Row .atom t
  | numeral {t : Text} (h : IsNumeral t) : Row .atom t
  | group {b₁ t b₂ : Text} (h₁ : Gap b₁) (h₂ : Gap b₂) (h : Row .sum t) : Row .atom ('(' :: (b₁ ++ (t ++ b₂) ++ [')']))
  | call {name gap : Text} {args : List Argument} (hname : IsIdentifier name) (hgap : Gap gap)
    (hgaps : ∀ a ∈ args, Gap a.before ∧ Gap a.after) (h : ∀ a ∈ args, Row .sum a.text) :
    Row .atom (name ++ '(' :: (joined gap args ++ [')']))
  /-- a power of `(-1)` that no gap stands in is an inverse marker -/
  | inverse {t b : Text} (hb : Gap b) (h : Row .atom t) : Row .atom (t ++ b ++ Postfix.inverse.written)
  | last {t : Text} (h : Row .atom t) : Row .sum t
  | sign {c : Char} {b t : Text} (hc : c = '+' ∨ c = '-') (hb : Gap b) (h : Row .sum t) : Row .sum (c :: (b ++ t))
  | binary {c : Char} {l b₁ b₂ r : Text} (hc : c ∈ infixes) (hl : Row .atom l) (hr : Row .sum r) (h₁ : Gap b₁)
    (h₂ : Gap b₂) (hmarker : NoMarker c (b₂ ++ r)) : Row .sum (l ++ b₁ ++ c :: (b₂ ++ r))

/-! ## Reading -/

theorem Sound.append_gap {b : Text} (h : Sound t) (hb : Gap b) : Sound (t ++ b) := h.pad .nil hb

theorem Sound.gap_append {b : Text} (h : Sound t) (hb : Gap b) : Sound (b ++ t) := by
  have hpad := h.pad hb .nil
  rwa [List.append_nil] at hpad

theorem Sound.call (hname : IsIdentifier name) (h : Sound t) : Sound (name ++ '(' :: (t ++ [')'])) :=
  (Part.call (k := 0) hname h).toSound

/-- **Rows can be read** in their place, and pass the checks there. -/
theorem Row.sound (h : Row category t) : Sound t := by
  induction h with
  | reference h => exact (Part.of_operand (k := 0) (.reference h)).toSound
  | numeral h => exact (Part.of_operand (k := 0) (.numeral h)).toSound
  | group h₁ h₂ _ ih => exact (ih.pad h₁ h₂).group
  | call hname hgap hgaps _ ih => exact .call hname (.joined hgap fun a ha => (ih a ha).pad (hgaps a ha).1 (hgaps a ha).2)
  | inverse hb _ ih => exact (ih.append_gap hb).inverse
  | last _ ih => exact ih
  | sign hc hb _ ih => exact (ih.gap_append hb).signed hc
  | binary hc _ _ h₁ h₂ hmarker ihl ihr =>
    exact (ihl.append_gap h₁).binary (ihr.gap_append h₂) (List.mem_cons_of_mem _ hc) hmarker

/-! ## Commas -/

theorem InCall.append_left (h : InCall bs) (as : List Cell) : InCall (as ++ bs) := by
  obtain ⟨front, inner, rfl, hinner, cell, hcell, hword⟩ := h
  refine ⟨as ++ front, inner, by simp, hinner, cell, ?_, hword⟩
  rw [Option.mem_def] at hcell ⊢
  rw [List.getLast?_append, hcell]
  rfl

/-- What stands before each comma has the property. -/
def CommasAt (P : List Cell → Prop) (cs : List Cell) : Prop := ∀ as bs, cs = as ++ ⟨',', .live⟩ :: bs → P as

theorem CommasAt.of_none {P : List Cell → Prop} (h : ∀ cell ∈ cs, cell.holds ',' = false) : CommasAt P cs := by
  rintro as bs rfl
  exact absurd (h ⟨',', .live⟩ (by simp)) (by decide)

theorem CommasAt.append {P R : List Cell → Prop} (ha : CommasAt P as) (hb : CommasAt R bs)
    (h : ∀ cs, R cs → P (as ++ cs)) : CommasAt P (as ++ bs) := by
  intro xs ys hcs
  rcases List.append_eq_append_iff.1 hcs with ⟨m, rfl, hm⟩ | ⟨m, rfl, hm⟩
  · exact h m (hb m ys hm)
  · cases m with
    | nil =>
      have hempty : R [] := hb [] ys hm.symm
      have hwhole := h [] hempty
      rwa [List.append_nil, List.append_nil] at hwhole
    | cons d m =>
      obtain ⟨rfl, -⟩ := List.cons.inj hm
      exact ha xs m rfl

theorem not_stranger_of_word (h : isWordChar c = true ∨ c = '.') : c ∉ strangers := by
  have hall : ∀ c ∈ strangers, ¬(isWordChar c = true ∨ c = '.') := List.all_iff_forall_prop.1 (by decide)
  exact fun hc => hall c hc h

/-- What stands between the parentheses of a call: commas stand in calls or outside all parentheses. -/
structure Listed (cs : List Cell) : Prop where
  level : Level cs
  commas : CommasAt (fun as => InCall as ∨ Level as) cs
  plain : ∀ cell ∈ cs, cell.char ∉ strangers

namespace Listed

theorem of_orderly (h : Orderly cs) : Listed cs := ⟨h.level, fun as bs hcs => .inl (h.commas as bs hcs), h.plain⟩

theorem append (ha : Listed as) (hb : Listed bs) : Listed (as ++ bs) where
  level := ha.level.append hb.level
  commas := ha.commas.append hb.commas fun _ h => h.imp (fun hcall => hcall.append_left as) ha.level.append
  plain := List.forall_mem_append.2 ⟨ha.plain, hb.plain⟩

theorem comma : Listed [⟨',', .live⟩] where
  level := rfl
  commas := by
    intro as bs hcs
    obtain rfl : as = [] := by
      cases as with
      | nil => rfl
      | cons x as => exact absurd (List.cons.inj hcs).2 (by simp)
    exact .inr rfl
  plain := List.forall_mem_singleton.2 (by decide)

end Listed

namespace Orderly

theorem append (ha : Orderly as) (hb : Orderly bs) : Orderly (as ++ bs) where
  level := ha.level.append hb.level
  commas := CommasAt.append (P := InCall) ha.commas hb.commas fun _ hcall => hcall.append_left as
  plain := List.forall_mem_append.2 ⟨ha.plain, hb.plain⟩

theorem of_quiet (hlevel : Level cs) (hcomma : ∀ cell ∈ cs, cell.holds ',' = false)
    (hplain : ∀ cell ∈ cs, cell.char ∉ strangers) : Orderly cs := ⟨hlevel, CommasAt.of_none hcomma, hplain⟩

theorem of_operand (h : Operand t) (hplain : ∀ c ∈ t, c ∉ strangers) : Orderly (cells t) := by
  obtain ⟨cs, hreads, hinert⟩ := h.reads
  rw [hreads.cells_eq]
  refine .of_quiet (Clean.of_inert hinert).level ?_ ?_
  · exact fun cell hcell => (hinert cell hcell).not_holds (by decide) (by decide)
  · intro cell hcell
    rw [← hreads.cells_eq] at hcell
    apply hplain
    rw [← text_cells t]
    exact List.mem_map_of_mem hcell

theorem of_gap (hb : Gap gap) : Orderly (live gap) := by
  refine .of_quiet hb.clean.level (fun cell hcell => (hb.quiet cell hcell).1) fun cell hcell => ?_
  obtain ⟨c, hc, rfl⟩ := List.mem_map.1 hcell
  rcases hb c hc with rfl | rfl <;> decide

theorem of_infix (hc : c ∈ infixes) : Orderly [⟨c, .live⟩] := by
  have hall : ∀ c ∈ infixes, Level [⟨c, .live⟩] ∧ Cell.holds ',' ⟨c, .live⟩ = false ∧ c ∉ strangers :=
    List.all_iff_forall_prop.1 (by decide)
  obtain ⟨hlevel, hcomma, hplain⟩ := hall c hc
  exact .of_quiet hlevel (List.forall_mem_singleton.2 hcomma) (List.forall_mem_singleton.2 hplain)

theorem of_inverse : Orderly Postfix.inverse.mark := .of_quiet rfl (by decide) (by decide)

theorem pad {b₁ b₂ : Text} (hsound : Sound t) (h₁ : Gap b₁) (h₂ : Gap b₂) (h : Orderly (cells t)) :
    Orderly (cells (b₁ ++ (t ++ b₂))) := by
  rw [(hsound.reads_pad h₁ h₂).cells_eq]
  exact (of_gap h₁).append (h.append (of_gap h₂))

theorem append_gap (hsound : Sound t) (hb : Gap gap) (h : Orderly (cells t)) : Orderly (cells (t ++ gap)) :=
  h.pad hsound .nil hb

theorem gap_append (hsound : Sound t) (hb : Gap gap) (h : Orderly (cells t)) : Orderly (cells (gap ++ t)) := by
  have hpad := h.pad hsound hb .nil
  rwa [List.append_nil] at hpad

/-! ### Parentheses -/

theorem plain_group (h : ∀ cell ∈ inner, cell.char ∉ strangers) :
    ∀ cell ∈ opening :: (inner ++ [closing]), cell.char ∉ strangers := by
  have hopening : opening.char ∉ strangers := by decide
  have hclosing : closing.char ∉ strangers := by decide
  exact List.forall_mem_cons.2 ⟨hopening, List.forall_mem_append.2 ⟨h, List.forall_mem_singleton.2 hclosing⟩⟩

theorem group (h : Orderly inner) : Orderly (opening :: (inner ++ [closing])) where
  level := h.level.group
  commas := by
    have hopen : CommasAt InCall [opening] := .of_none (by simp [holds, opening])
    have hclose : CommasAt InCall [closing] := .of_none (by simp [holds, closing])
    have hinner : CommasAt InCall (inner ++ [closing]) :=
      CommasAt.append h.commas hclose fun _ hcall => hcall.append_left inner
    exact hopen.append hinner fun _ hcall => hcall.append_left [opening]
  plain := plain_group h.plain

theorem call (hname : IsIdentifier name) (h : Listed inner) : Orderly (live name ++ opening :: (inner ++ [closing])) where
  level := (Clean.of_inert hname.inert).level.append h.level.group
  commas := by
    have hopen : CommasAt InCall (live name ++ [opening]) := by
      refine .of_none (List.forall_mem_append.2 ⟨fun cell hcell => ?_, by simp [holds, opening]⟩)
      exact (hname.inert cell hcell).not_holds (by decide) (by decide)
    have hinner : CommasAt (fun as => InCall as ∨ Level as) (inner ++ [closing]) := by
      have hclose : CommasAt (fun _ => False) [closing] := .of_none (by simp [holds, closing])
      exact h.commas.append hclose fun _ hfalse => hfalse.elim
    have hword : ∃ cell ∈ (live name).getLast?, isWordChar cell.char = true := by
      obtain ⟨-, c, hc, -⟩ := (Operand.reference (.name hname)).edges
      exact ⟨⟨c, .live⟩, by rw [live, List.getLast?_map, hc]; rfl, hname.isWordChar c (List.mem_of_getLast? hc)⟩
    have hwhole := hopen.append hinner (P := InCall) fun as has => ?_
    · rwa [List.append_assoc] at hwhole
    · rcases has with hcall | hlevel
      · exact hcall.append_left _
      · exact ⟨live name, as, by simp, hlevel, hword⟩
  plain := by
    refine List.forall_mem_append.2 ⟨fun cell hcell => ?_, plain_group h.plain⟩
    obtain ⟨c, hc, rfl⟩ := List.mem_map.1 hcell
    exact not_stranger_of_word (.inl (hname.isWordChar c hc))

end Orderly

theorem Listed.joined (hgap : Gap gap) (hsound : ∀ a ∈ args, Sound a.whole) (h : ∀ a ∈ args, Orderly (cells a.whole)) :
    Listed (cells (joined gap args)) := by
  induction args with
  | nil =>
    have hreads : Reads gap (live gap) := Reads.nil.append_gap hgap
    rw [MissionScript.joined, hreads.cells_eq]
    exact .of_orderly (.of_gap hgap)
  | cons a rest ih =>
    obtain ⟨hsoundFirst, hsoundRest⟩ := List.forall_mem_cons.1 hsound
    obtain ⟨hfirst, hrest⟩ := List.forall_mem_cons.1 h
    cases rest with
    | nil => exact .of_orderly hfirst
    | cons b rest =>
      have hreads := hsoundFirst.reads_binary (.joined hgap hsoundRest) List.mem_cons_self fun h => absurd h (by decide)
      rw [joined_cons_cons, hreads.cells_eq]
      exact (Listed.of_orderly hfirst).append (Listed.comma.append (ih hsoundRest hrest))

/-- **Rows are orderly.** Their parentheses balance, and commas stand in their calls only. -/
theorem Row.orderly (h : Row category t) : Orderly (cells t) := by
  induction h with
  | reference h => exact .of_operand (.reference h) fun c hc => not_stranger_of_word (h.char c hc)
  | numeral h =>
    refine .of_operand (.numeral h) fun c hc => ?_
    rcases Numeral.char_of_isNumeral h c hc with hword | rfl | rfl
    · exact not_stranger_of_word hword
    all_goals decide
  | group h₁ h₂ hrow ih =>
    rw [(hrow.sound.pad h₁ h₂).reads_group.cells_eq]
    exact .group (ih.pad hrow.sound h₁ h₂)
  | call hname hgap hgaps hrows ih =>
    have hsound := fun a ha => (hrows a ha).sound.pad (hgaps a ha).1 (hgaps a ha).2
    rw [(Sound.reads_call hname (.joined hgap hsound)).cells_eq]
    exact .call hname (.joined hgap hsound fun a ha => (ih a ha).pad (hrows a ha).sound (hgaps a ha).1 (hgaps a ha).2)
  | inverse hb hrow ih =>
    rw [(hrow.sound.append_gap hb).reads.inverse.cells_eq]
    exact (ih.append_gap hrow.sound hb).append .of_inverse
  | last _ ih => exact ih
  | @sign c b t hc hb hrow ih =>
    rw [((hrow.sound.gap_append hb).reads_signed hc).cells_eq]
    have hsign : c ∈ infixes := by rcases hc with rfl | rfl <;> decide
    exact (Orderly.of_infix hsign).append (ih.gap_append hrow.sound hb)
  | binary hc hl hr h₁ h₂ hmarker ihl ihr =>
    have hreads := (hl.sound.append_gap h₁).reads_binary (hr.sound.gap_append h₂) (List.mem_cons_of_mem _ hc) hmarker
    rw [hreads.cells_eq]
    exact (ihl.append_gap hl.sound h₁).append ((Orderly.of_infix hc).append (ihr.gap_append hr.sound h₂))

end MissionScript
