/-
The parts of an expression.

A `Part k` is a text that is read in one way whatever follows it, passes the checks wherever it stands, and has no comma
and no operator looser than rank `k` outside its parentheses. Operands are parts, and parts are put together by gaps
(`Part.pad`), operators (`Part.binary`), signs (`Part.signed`), groups and calls (`Part.call`).

`Part.lowest_binary` says that parts are split again where they were put together.
-/
import MissionScript.Proofs.Cell.Neighbours
import MissionScript.Proofs.Cell.Operand

namespace MissionScript

namespace Cell

variable {as bs cs inner : List Cell} {cell : Cell} {k : Nat}

/-! ## Passing the checks -/

/-- cells that pass the checks of a text as a whole and have no transposes -/
structure Clean (cs : List Cell) : Prop where
  level : Level cs
  clash : clash cs = none
  noTranspose : ∀ cell ∈ cs, cell.holds '\'' = false
  apart : juxtaposed cs = false

theorem Clean.append (ha : Clean as) (hb : Clean bs)
    (hfollow : (∀ cell ∈ as, cell.NoPostfix) ∨ ∀ c ∈ firstShown bs, postfixFollowers.contains c = true)
    (h : (shown as).getLast? ≠ some ')' ∨ (shown bs).head? ≠ some '(') : Clean (as ++ bs) where
  level := ha.level.append hb.level
  clash := clash_append ha.clash hb.clash hfollow
  noTranspose cell hcell := (List.mem_append.1 hcell).elim (ha.noTranspose cell) (hb.noTranspose cell)
  apart := by
    rw [juxtaposed_append, ha.apart, hb.apart, Bool.or_false, Bool.false_or, Bool.and_eq_false_iff]
    exact h.imp beq_eq_false_iff_ne.2 beq_eq_false_iff_ne.2

theorem Clean.of_no_paren (h : ∀ cell ∈ cs, cell.holds '(' = false ∧ cell.holds ')' = false)
    (hrow : ∀ cell ∈ cs, cell.NoPostfix) : Clean cs where
  level := .of_no_paren h
  clash := clash_of_noPostfix hrow
  noTranspose cell hcell := (hrow cell hcell).1
  apart := juxtaposed_of_no_paren fun cell hcell => (h cell hcell).1

theorem Inert.noPostfix (h : cell.Inert) : cell.NoPostfix := ⟨h.not_holds (by decide) (by decide), h.2 0⟩

theorem Clean.of_inert (h : ∀ cell ∈ cs, cell.Inert) : Clean cs :=
  .of_no_paren (fun cell hcell => (h cell hcell).not_paren) fun cell hcell => (h cell hcell).noPostfix

theorem firstShown_cons {c : Char} (hblank : isBlank c = false) (cs : List Cell) :
    firstShown (⟨c, .live⟩ :: cs) = some c := by
  rw [firstShown, List.find?_cons_of_pos (by simp [hblank])]
  rfl

theorem clash_group (h : clash inner = none) : clash (opening :: (inner ++ [closing])) = none := by
  have hfollows : ∀ c ∈ firstShown [closing], postfixFollowers.contains c = true := by
    intro c hc
    obtain rfl : ')' = c := Option.some.inj hc
    decide
  have hclose : clash (inner ++ [closing]) = none := clash_append h (by decide) (.inr hfollows)
  have hopen : clash [opening] = none := by decide
  exact clash_append hopen hclose (.inl (by simp [NoPostfix, opening, holds]))

theorem Clean.group (h : Clean inner) : Clean (opening :: (inner ++ [closing])) where
  level := h.level.group
  clash := clash_group h.clash
  noTranspose cell hcell := by
    rcases List.mem_cons.1 hcell with rfl | hcell
    · rfl
    · rcases List.mem_append.1 hcell with hcell | hcell
      · exact h.noTranspose cell hcell
      · obtain rfl := List.mem_singleton.1 hcell
        rfl
  apart := by rw [juxtaposed_group, h.apart]

theorem Clean.binary (ha : Clean as) (hb : Clean bs) {c : Char} (hc : c ∉ ['(', ')', '\''])
    (hblank : isBlank c = false) (hfollows : c ∈ postfixFollowers) :
    Clean (as ++ ⟨c, .live⟩ :: bs) := by
  have hne : c ≠ '(' ∧ c ≠ ')' ∧ c ≠ '\'' := by simpa using hc
  have hrow : ∀ cell ∈ [(⟨c, .live⟩ : Cell)], cell.NoPostfix := by simp [NoPostfix, holds, hne]
  have hone : Clean [⟨c, .live⟩] := .of_no_paren (by simp [holds, hne]) hrow
  have hascii : isAsciiBlank c = false := by
    by_contra hascii
    rw [isBlank_of_isAsciiBlank (by simpa using hascii)] at hblank
    exact absurd hblank (by decide)
  have hshown : shown [⟨c, .live⟩] = [c] := by simp [shown, text, isLive, hascii]
  rw [show as ++ ⟨c, .live⟩ :: bs = as ++ ([⟨c, .live⟩] ++ bs) from rfl]
  refine ha.append (hone.append hb (.inl hrow) (.inl ?_)) (.inr ?_) (.inr ?_)
  · rw [hshown]
    simpa using hne.2.1
  · intro d hd
    rw [List.singleton_append, firstShown_cons hblank] at hd
    obtain rfl : c = d := Option.some.inj hd
    exact List.contains_iff_mem.2 hfollows
  · rw [shown_append, hshown]
    simpa using hne.1

theorem Clean.checkGroups {t : Text} (h : Clean (cells t)) : checkGroups t = .ok () :=
  checkGroups_eq_ok_iff.2 ⟨h.level, h.clash, h.apart⟩

/-! ## Operators outside parentheses -/

/-- no comma and no operator looser than the rank stands outside parentheses -/
def AtLeast (k : Nat) (cs : List Cell) : Prop :=
  ∀ s ∈ outside cs, s.cell.holds ',' = false ∧ ∀ symbol, s.operator? = some symbol → k ≤ symbol.tier.rank

/-- a cell that is no operator -/
def Quiet (cell : Cell) : Prop := cell.isLive = true → Symbol.ofChar? cell.char = none

theorem Quiet.operator? {s : Site} (h : s.cell.Quiet) : s.operator? = none := by
  unfold Site.operator?
  split_ifs with hlive
  · rw [h hlive]
    rfl
  · rfl

theorem ofChar?_eq_none {c : Char} (h : c ∉ ['+', '-', '*', '/', '^', '\'']) : Symbol.ofChar? c = none := by
  simp only [List.mem_cons, List.not_mem_nil, or_false, not_or] at h
  unfold Symbol.ofChar?
  split <;> simp_all

theorem Inert.quiet (h : cell.Inert) : cell.Quiet := by
  intro hlive
  refine ofChar?_eq_none fun hmem => ?_
  have hall : ∀ c ∈ ['+', '-', '*', '/', '^', '\''], ¬(isWordChar c = true ∨ c = '.') :=
    List.all_iff_forall_prop.1 (by decide)
  exact hall _ hmem (h.1 hlive)

theorem AtLeast.mono {k' : Nat} (h : AtLeast k cs) (hk : k' ≤ k) : AtLeast k' cs :=
  fun s hs => ⟨(h s hs).1, fun symbol hsymbol => hk.trans ((h s hs).2 symbol hsymbol)⟩

theorem AtLeast.of_quiet (h : ∀ cell ∈ cs, cell.holds ',' = false ∧ cell.Quiet) : AtLeast k cs := by
  intro s hs
  obtain ⟨hcomma, hquiet⟩ := h _ (mem_of_mem_outside hs)
  exact ⟨hcomma, fun symbol hsymbol => absurd (hquiet.operator?.symm.trans hsymbol) (by simp)⟩

/-- What stands before makes a `+` or `-` behind it a sign, as the beginning of a text does. -/
def OpensSign (before : List Cell) : Prop :=
  ∀ cell ∈ before.find? fun cell => !isAsciiBlank cell.char, cell.char ∈ Site.signOpeners

theorem operator?_among {before after : List Cell} (h : OpensSign before) (s : Site) :
    (s.among before after).operator? = s.operator? := by
  have hsign : (s.among before after).isSign = s.isSign := by
    unfold Site.isSign Site.among
    rw [List.find?_append]
    cases hfind : s.before.find? fun cell => !isAsciiBlank cell.char with
    | some cell => rfl
    | none =>
      cases hbefore : before.find? fun cell => !isAsciiBlank cell.char with
      | none => rfl
      | some cell => exact List.contains_iff_mem.2 (h cell hbefore)
  simp only [Site.operator?, hsign]
  rfl

theorem operator?_among_nil (after : List Cell) (s : Site) : (s.among [] after).operator? = s.operator? :=
  operator?_among (by simp [OpensSign]) s

theorem AtLeast.append (ha : AtLeast k as) (hb : AtLeast k bs) (hlevel : Level as)
    (h : OpensSign as.reverse ∨ ∀ s ∈ outside bs, s.cell.Quiet) : AtLeast k (as ++ bs) := by
  intro x hx
  rw [outside_append hlevel] at hx
  rcases List.mem_append.1 hx with hx | hx
  · obtain ⟨s, hs, rfl⟩ := List.mem_map.1 hx
    rw [operator?_among_nil]
    exact ha s hs
  · obtain ⟨s, hs, rfl⟩ := List.mem_map.1 hx
    refine ⟨(hb s hs).1, ?_⟩
    intro symbol hsymbol
    rcases h with hopens | hquiet
    · rw [operator?_among hopens] at hsymbol
      exact (hb s hs).2 symbol hsymbol
    · have hcell : (s.among as.reverse []).cell.Quiet := hquiet s hs
      exact absurd (hcell.operator?.symm.trans hsymbol) (by simp)

theorem AtLeast.concat (ha : AtLeast k as) (hlevel : Level as) {c : Char} (hc : c ∉ ['(', ')', ','])
    (hop : ∀ symbol, Site.operator? ⟨as.reverse, ⟨c, .live⟩, []⟩ = some symbol → k ≤ symbol.tier.rank) :
    AtLeast k (as ++ [⟨c, .live⟩]) := by
  have hne : c ≠ '(' ∧ c ≠ ')' ∧ c ≠ ',' := by simpa using hc
  intro x hx
  rw [outside_append hlevel, outside_cons (by simp [holds, hne]) (by simp [holds, hne])] at hx
  rcases List.mem_append.1 hx with hx | hx
  · obtain ⟨s, hs, rfl⟩ := List.mem_map.1 hx
    rw [operator?_among_nil]
    exact ha s hs
  · obtain rfl : x = ⟨as.reverse, ⟨c, .live⟩, []⟩ := by
      simpa [outside, sites, Site.along, Site.topFrom, Site.among] using hx
    exact ⟨by simp [holds, hne], hop⟩

theorem AtLeast.binary (ha : AtLeast k as) (hb : AtLeast k bs) (hlevel : Level as) {c : Char} (hc : c ∉ ['(', ')', ','])
    (hop : ∀ symbol, Site.operator? ⟨as.reverse, ⟨c, .live⟩, []⟩ = some symbol → k ≤ symbol.tier.rank)
    (hopens : c ∈ Site.signOpeners) (hblank : isAsciiBlank c = false) : AtLeast k (as ++ ⟨c, .live⟩ :: bs) := by
  have hne : c ≠ '(' ∧ c ≠ ')' ∧ c ≠ ',' := by simpa using hc
  have hlevel' : Level (as ++ [⟨c, .live⟩]) := hlevel.append (.of_no_paren (by simp [holds, hne]))
  have happ := (ha.concat hlevel hc hop).append hb hlevel' (.inl (by simp [OpensSign, hblank, hopens]))
  rwa [List.append_assoc] at happ

end Cell

/-! ## Texts that may stand between separators -/

open Cell

variable {t l r b b₁ b₂ : Text} {c : Char} {k : Nat} {symbol : Symbol}

/-- spaces and tabs -/
def Gap (b : Text) : Prop := ∀ c ∈ b, c = ' ' ∨ c = '\t'

theorem Gap.nil : Gap [] := by simp [Gap]

theorem Gap.blank (h : Gap b) : Text.Blank b := by
  intro c hc
  rcases h c hc with rfl | rfl <;> decide

theorem Gap.asciiBlank (h : Gap b) : ∀ c ∈ b, isAsciiBlank c = true := by
  intro c hc
  rcases h c hc with rfl | rfl <;> decide

/-- a text that is read in one way whatever follows it and passes the checks wherever it stands -/
structure Sound (t : Text) : Prop where
  reads : Reads t (cells t)
  clean : Clean (cells t)

def infixes : Text := ['+', '-', '*', '/', '^']

/-- What stands behind an operator does not make it an inverse marker. -/
def NoMarker (c : Char) (r : Text) : Prop := c = '^' → r ≠ [] ∧ ['(', '-', '1', ')'].isPrefixOf r = false

theorem NoMarker.append (h : NoMarker c r) (hlevel : Level (cells r)) (hc : c = '^') (rest : Text) :
    ['(', '-', '1', ')'].isPrefixOf (r ++ rest) = false := by
  obtain ⟨hne, hmarker⟩ := h hc
  by_contra hpresent
  have hwhole : ['(', '-', '1', ')'] <+: r ++ rest := by simpa using hpresent
  rcases List.prefix_or_prefix_of_prefix hwhole (List.prefix_append r rest) with hmem | hmem
  · rw [List.isPrefixOf_iff_prefix.2 hmem] at hmarker
    exact absurd hmarker (by decide)
  · -- a beginning of the marker has a parenthesis open, or is the marker
    have hall : ∀ u ∈ List.inits ['(', '-', '1', ')'], u = [] ∨ depthFrom 0 (cells u) ≠ some 0 ∨
        ['(', '-', '1', ')'].isPrefixOf u = true := by decide
    rcases hall r ((List.mem_inits _ _).2 hmem) with h | h | h
    · exact hne h
    · exact h hlevel
    · rw [hmarker] at h
      exact absurd h (by decide)

theorem Sound.of_reads {cs : List Cell} (h : Reads t cs) (hclean : Clean cs) : Sound t := by
  have hcells := h.cells_eq
  subst hcells
  exact ⟨h, hclean⟩

/-- A comma or an operator separates, is no parenthesis, transpose or blank, and may follow a postfix operator. -/
theorem separates_of_mem (hc : c ∈ ',' :: infixes) :
    c ∈ separators ∧ c ∉ ['(', ')', '\''] ∧ isBlank c = false ∧ c ∈ postfixFollowers := by
  have hall : ∀ c ∈ ',' :: infixes,
      c ∈ separators ∧ c ∉ ['(', ')', '\''] ∧ isBlank c = false ∧ c ∈ postfixFollowers :=
    List.all_iff_forall_prop.1 (by decide)
  exact hall c hc

theorem opens_of_mem_infixes (hc : c ∈ infixes) :
    c ∉ ['(', ')', ','] ∧ c ∈ Site.signOpeners ∧ isAsciiBlank c = false := by
  have hall : ∀ c ∈ infixes, c ∉ ['(', ')', ','] ∧ c ∈ Site.signOpeners ∧ isAsciiBlank c = false :=
    List.all_iff_forall_prop.1 (by decide)
  exact hall c hc

theorem Sound.reads_binary (hl : Sound l) (hr : Sound r) (hc : c ∈ ',' :: infixes) (hmarker : NoMarker c r) :
    Reads (l ++ c :: r) (cells l ++ ⟨c, .live⟩ :: cells r) :=
  hl.reads.join hr.reads (separates_of_mem hc).1 (hmarker.append hr.clean.level)

theorem Sound.binary (hl : Sound l) (hr : Sound r) (hc : c ∈ ',' :: infixes) (hmarker : NoMarker c r) :
    Sound (l ++ c :: r) := by
  obtain ⟨-, hplain, hblank, hfollows⟩ := separates_of_mem hc
  exact .of_reads (hl.reads_binary hr hc hmarker) (hl.clean.binary hr.clean hplain hblank hfollows)

/-- A sign makes no inverse marker of what stands behind it. -/
theorem noMarker_of_sign (hc : c = '+' ∨ c = '-') (r : Text) : NoMarker c r := by
  rcases hc with rfl | rfl <;> exact fun h => absurd h (by decide)

theorem Sound.reads_signed (hc : c = '+' ∨ c = '-') (h : Sound t) : Reads (c :: t) (⟨c, .live⟩ :: cells t) := by
  rcases hc with rfl | rfl <;> exact Reads.nil.join h.reads (by decide) fun h => absurd h (by decide)

theorem Sound.signed (hc : c = '+' ∨ c = '-') (h : Sound t) : Sound (c :: t) := by
  have hnil : Sound [] := .of_reads .nil (.of_inert (by simp))
  exact hnil.binary h (by rcases hc with rfl | rfl <;> decide) (noMarker_of_sign hc t)

theorem Sound.reads_group (h : Sound t) : Reads ('(' :: (t ++ [')'])) (opening :: (cells t ++ [closing])) :=
  Reads.nil.join h.reads.close (by decide) fun h => absurd h (by decide)

theorem Sound.group (h : Sound t) : Sound ('(' :: (t ++ [')'])) := .of_reads h.reads_group h.clean.group

/-! ### Gaps -/

theorem Reads.gap_append {cs : List Cell} (h : Reads t cs) (hb : Gap b) : Reads (b ++ t) (live b ++ cs) := by
  induction b with
  | nil => exact h
  | cons c b ih =>
    have hc : c ∈ separators ∧ c ≠ '^' := by rcases hb c List.mem_cons_self with rfl | rfl <;> decide
    exact Reads.nil.join (ih fun d hd => hb d (List.mem_cons_of_mem _ hd)) hc.1 fun h => absurd h hc.2

theorem Reads.append_gap {cs : List Cell} (h : Reads t cs) (hb : Gap b) : Reads (t ++ b) (cs ++ live b) := by
  induction b generalizing t cs with
  | nil => simpa [live] using h
  | cons c b ih =>
    have hc : c ∈ separators ∧ c ≠ '^' := by rcases hb c List.mem_cons_self with rfl | rfl <;> decide
    have hone : Reads (t ++ [c]) (cs ++ [⟨c, .live⟩]) := h.join .nil hc.1 fun h => absurd h hc.2
    have := ih hone fun d hd => hb d (List.mem_cons_of_mem _ hd)
    rw [List.append_assoc, List.append_assoc] at this
    exact this

theorem Gap.quiet (h : Gap b) : ∀ cell ∈ live b, cell.holds ',' = false ∧ cell.Quiet := by
  intro cell hcell
  obtain ⟨c, hc, rfl⟩ := List.mem_map.1 hcell
  rcases h c hc with rfl | rfl
  · exact ⟨rfl, fun _ => rfl⟩
  · exact ⟨rfl, fun _ => rfl⟩

/-- A gap at the start of a text leaves a sign behind it a sign. -/
theorem Gap.opensSign (h : Gap b) : OpensSign (live b).reverse := by
  intro cell hcell
  obtain ⟨c, hc, rfl⟩ := List.mem_map.1 (List.mem_reverse.1 (List.mem_of_find?_eq_some hcell))
  have hshown := List.find?_some hcell
  simp [h.asciiBlank c hc] at hshown

theorem Gap.noPostfix (h : Gap b) : ∀ cell ∈ live b, cell.NoPostfix := by
  intro cell hcell
  obtain ⟨c, hc, rfl⟩ := List.mem_map.1 hcell
  rcases h c hc with rfl | rfl <;> exact ⟨rfl, by decide⟩

theorem Gap.clean (h : Gap b) : Clean (live b) := by
  refine .of_no_paren ?_ h.noPostfix
  intro cell hcell
  obtain ⟨c, hc, rfl⟩ := List.mem_map.1 hcell
  rcases h c hc with rfl | rfl <;> exact ⟨rfl, rfl⟩

theorem Gap.firstShown (h : Gap b) : Cell.firstShown (live b) = none := by
  rw [Cell.firstShown, Option.map_eq_none_iff, List.find?_eq_none]
  intro cell hcell
  obtain ⟨c, hc, rfl⟩ := List.mem_map.1 hcell
  simp [h.blank c hc]

theorem Gap.shown (h : Gap b) : Cell.shown (live b) = [] := by
  have hfilter : (live b).filter (fun cell => cell.isLive && !isAsciiBlank cell.char) = [] := by
    apply List.filter_eq_nil_iff.2
    intro cell hcell
    obtain ⟨c, hc, rfl⟩ := List.mem_map.1 hcell
    simp [h.asciiBlank c hc]
  rw [Cell.shown, hfilter]
  rfl

theorem Sound.reads_pad (h : Sound t) (h₁ : Gap b₁) (h₂ : Gap b₂) :
    Reads (b₁ ++ (t ++ b₂)) (live b₁ ++ (cells t ++ live b₂)) := (h.reads.append_gap h₂).gap_append h₁

theorem Sound.pad (h : Sound t) (h₁ : Gap b₁) (h₂ : Gap b₂) : Sound (b₁ ++ (t ++ b₂)) := by
  have hright : Clean (cells t ++ live b₂) :=
    h.clean.append h₂.clean (.inr (by simp [h₂.firstShown])) (.inr (by simp [h₂.shown]))
  exact .of_reads (h.reads_pad h₁ h₂) (h₁.clean.append hright (.inl h₁.noPostfix) (.inl (by simp [h₁.shown])))

/-! ### Signs -/

/-- The last character that is not blank makes no sign of what follows. -/
def Closes (t : Text) : Prop := ∃ c, t.reverse.find? (fun c => !isAsciiBlank c) = some c ∧ c ∉ Site.signOpeners

theorem Closes.append (h : Closes r) (l : Text) : Closes (l ++ r) := by
  obtain ⟨c, hc, hopener⟩ := h
  refine ⟨c, ?_, hopener⟩
  rw [List.reverse_append, List.find?_append, hc]
  rfl

theorem Closes.append_gap (h : Closes t) (hb : Gap b) : Closes (t ++ b) := by
  obtain ⟨c, hc, hopener⟩ := h
  have hnone : b.reverse.find? (fun c => !isAsciiBlank c) = none :=
    List.find?_eq_none.2 fun d hd => by simp [hb.asciiBlank d (List.mem_reverse.1 hd)]
  refine ⟨c, ?_, hopener⟩
  rw [List.reverse_append, List.find?_append, hnone, hc]
  rfl

theorem Closes.of_getLast? (h : t.getLast? = some c) (hblank : isAsciiBlank c = false) (hc : c ∉ Site.signOpeners) :
    Closes t := by
  refine ⟨c, ?_, hc⟩
  rw [List.getLast?_eq_head?_reverse] at h
  obtain ⟨rest, hrest⟩ := List.head?_eq_some_iff.1 h
  rw [hrest, List.find?_cons_of_pos (by simp [hblank])]

/-- Behind a text that closes a `+` or `-` is an operator. -/
theorem Closes.isSign (h : Closes t) (cell : Cell) (after : List Cell) :
    Site.isSign ⟨(cells t).reverse, cell, after⟩ = false := by
  obtain ⟨c, hc, hopener⟩ := h
  rw [← text_cells t, Cell.text, ← List.map_reverse, List.find?_map] at hc
  obtain ⟨last, hlast, rfl⟩ := Option.map_eq_some_iff.1 hc
  have hfind : (cells t).reverse.find? (fun cell => !isAsciiBlank cell.char) = some last := hlast
  simp only [Site.isSign, hfind]
  by_contra hsign
  exact hopener (by simpa using hsign)

theorem Closes.operator? (h : Closes t) (hsymbol : Symbol.ofChar? c = some symbol) (after : List Cell) :
    Site.operator? ⟨(cells t).reverse, ⟨c, .live⟩, after⟩ = some symbol := by
  have hlive : Cell.isLive ⟨c, .live⟩ = true := rfl
  rw [Site.operator?, if_pos hlive, hsymbol, h.isSign]
  simp

/-! ## Parts -/

/-- a sound text without a comma and without operators looser than the rank outside its parentheses -/
structure Part (k : Nat) (t : Text) : Prop extends Sound t where
  atLeast : AtLeast k (cells t)
  closes : Closes t

theorem Part.mono {k' : Nat} (h : Part k t) (hk : k' ≤ k) : Part k' t := ⟨h.toSound, h.atLeast.mono hk, h.closes⟩

theorem Part.of_operand (h : Operand t) : Part k t := by
  obtain ⟨cs, hreads, hinert⟩ := h.reads
  have hquiet : AtLeast k cs := .of_quiet fun cell hcell =>
    ⟨(hinert cell hcell).not_holds (by decide) (by decide), (hinert cell hcell).quiet⟩
  obtain ⟨-, c, hlast, hedge⟩ := h.edges
  have hblank : isAsciiBlank c = false := by
    by_contra hblank
    exact absurd ((not_isBlank_of_isEdge hedge).symm.trans (isBlank_of_isAsciiBlank (by simpa using hblank)))
      (by decide)
  refine ⟨.of_reads hreads (.of_inert hinert), by rwa [hreads.cells_eq], .of_getLast? hlast hblank ?_⟩
  intro hmem
  have hall : ∀ c ∈ Site.signOpeners, isEdge c = false := List.all_iff_forall_prop.1 (by decide)
  exact absurd (hedge.symm.trans (hall c hmem)) (by decide)

theorem Part.pad (h : Part k t) (h₁ : Gap b₁) (h₂ : Gap b₂) : Part k (b₁ ++ (t ++ b₂)) where
  toSound := h.toSound.pad h₁ h₂
  atLeast := by
    have hright : AtLeast k (cells t ++ live b₂) := h.atLeast.append (.of_quiet h₂.quiet) h.clean.level
      (.inr fun s hs => (h₂.quiet _ (mem_of_mem_outside hs)).2)
    rw [(h.reads_pad h₁ h₂).cells_eq]
    exact AtLeast.append (.of_quiet h₁.quiet) hright h₁.clean.level (.inl h₁.opensSign)
  closes := (h.closes.append_gap h₂).append b₁

theorem Part.append_gap (h : Part k t) (hb : Gap b) : Part k (t ++ b) := h.pad .nil hb

theorem Part.gap_append (h : Part k t) (hb : Gap b) : Part k (b ++ t) := by
  have hpad := h.pad hb .nil
  rwa [List.append_nil] at hpad

theorem Part.binary (hl : Part k l) (hr : Part k r) (hc : c ∈ infixes) (hmarker : NoMarker c r)
    (hrank : ∀ symbol, Symbol.ofChar? c = some symbol → k ≤ symbol.tier.rank) : Part k (l ++ c :: r) where
  toSound := hl.toSound.binary hr.toSound (List.mem_cons_of_mem _ hc) hmarker
  atLeast := by
    obtain ⟨hparen, hopener, hblank⟩ := opens_of_mem_infixes hc
    rw [(hl.toSound.reads_binary hr.toSound (List.mem_cons_of_mem _ hc) hmarker).cells_eq]
    refine hl.atLeast.binary hr.atLeast hl.clean.level hparen ?_ hopener hblank
    intro symbol hsymbol
    cases hother : Symbol.ofChar? c with
    | none => simp [Site.operator?, hother] at hsymbol
    | some other =>
      rw [hl.closes.operator? hother] at hsymbol
      obtain rfl := Option.some.inj hsymbol
      exact hrank _ hother
  closes := by
    rw [show l ++ c :: r = (l ++ [c]) ++ r by simp]
    exact hr.closes.append _

theorem Part.signed (hc : c = '+' ∨ c = '-') (h : Part k t) : Part k (c :: t) where
  toSound := h.toSound.signed hc
  atLeast := by
    have hreads : Reads (c :: t) ([] ++ ⟨c, .live⟩ :: cells t) := h.toSound.reads_signed hc
    have hnil : Level [] := rfl
    -- nothing stands before the sign, so that it is no operator
    have hsign : Site.operator? ⟨[], ⟨c, .live⟩, []⟩ = none := by rcases hc with rfl | rfl <;> rfl
    rw [hreads.cells_eq]
    rcases hc with rfl | rfl <;>
      exact AtLeast.binary (.of_quiet (by simp)) h.atLeast hnil (by decide) (by simp [hsign]) (by decide) (by decide)
  closes := h.closes.append [c]

theorem Part.group (h : Sound t) : Part k ('(' :: (t ++ [')'])) where
  toSound := h.group
  atLeast := by
    rw [h.reads_group.cells_eq, AtLeast, outside_group h.clean.level]
    simp
  closes := .of_getLast? (by rw [← List.cons_append]; exact List.getLast?_concat) (by decide) (by decide)

/-- Nothing is split inside a part of the tightest rank. -/
theorem Part.lowest_eq_none (h : Part 3 t) : lowest (cells t) = none := by
  apply Cell.lowest_eq_none h.clean.level
  intro s hs
  by_contra hsome
  obtain ⟨symbol, hsymbol⟩ := Option.ne_none_iff_exists'.1 hsome
  have hrank := (h.atLeast s hs).2 symbol hsymbol
  have : symbol.tier.rank ≤ 2 := by cases symbol <;> decide
  omega

theorem IsIdentifier.inert {name : Text} (h : IsIdentifier name) : ∀ cell ∈ live name, cell.Inert :=
  inert_live fun c hc => .inl (h.isWordChar c hc)

theorem Sound.reads_call {name : Text} (hname : IsIdentifier name) (h : Sound t) :
    Reads (name ++ '(' :: (t ++ [')'])) (live name ++ opening :: (cells t ++ [closing])) :=
  (Reads.name hname.startsName fun c hc => .inl (hname.isWordChar c hc)).join h.reads.close (by decide)
    fun h => absurd h (by decide)

/-- A name does not end like a group. -/
theorem getLast?_shown_live_ne (h : ∀ c ∈ t, isWordChar c = true) : (shown (live t)).getLast? ≠ some ')' := by
  intro hlast
  obtain ⟨cell, hcell, hchar⟩ := List.mem_map.1 (List.mem_of_getLast? hlast)
  obtain ⟨c, hc, rfl⟩ := List.mem_map.1 (List.mem_filter.1 hcell).1
  obtain rfl : c = ')' := hchar
  exact absurd (h _ hc) (by decide)

theorem Part.call {name : Text} (hname : IsIdentifier name) (h : Sound t) : Part k (name ++ '(' :: (t ++ [')'])) where
  toSound := .of_reads (Sound.reads_call hname h)
    ((Clean.of_inert hname.inert).append h.clean.group (.inl fun cell hcell => (hname.inert cell hcell).noPostfix)
      (.inl (getLast?_shown_live_ne hname.isWordChar)))
  atLeast := by
    have hquiet : AtLeast k (live name) := .of_quiet fun cell hcell =>
      ⟨(hname.inert cell hcell).not_holds (by decide) (by decide), (hname.inert cell hcell).quiet⟩
    have hgroup : outside (opening :: (cells t ++ [closing])) = [] := outside_group h.clean.level
    rw [(Sound.reads_call hname h).cells_eq]
    exact hquiet.append (by simp [AtLeast, hgroup]) (Clean.of_inert hname.inert).level (.inr (by simp [hgroup]))
  closes := Closes.append
    (.of_getLast? (by rw [← List.cons_append]; exact List.getLast?_concat) (by decide) (by decide)) _

/-- **Parts come apart where they were joined.** An operator between parts, none looser before it and none as loose
behind it, is the operator the text is split on. -/
theorem Part.lowest_binary (hl : Part symbol.tier.rank l) (hr : Part (symbol.tier.rank + 1) r) (hc : c ∈ infixes)
    (hsymbol : Symbol.ofChar? c = some symbol) (hmarker : NoMarker c r) :
    lowest (cells (l ++ c :: r)) = some ⟨symbol, l, r⟩ := by
  obtain ⟨hparen, hopener, hblank⟩ := opens_of_mem_infixes hc
  simp only [List.mem_cons, not_or] at hparen
  obtain ⟨h₁, h₂, -⟩ := hparen
  have hopens : OpensSign (⟨c, .live⟩ :: (cells l).reverse) := by simp [OpensSign, hblank, hopener]
  rw [(hl.toSound.reads_binary hr.toSound (List.mem_cons_of_mem _ hc) hmarker).cells_eq,
    lowest_split hl.clean.level hr.clean.level (by simp [holds, h₁]) (by simp [holds, h₂])
      (hl.closes.operator? hsymbol _)
      (fun s hs => (hl.atLeast s hs).2) fun s hs other hother => ?_, text_cells, text_cells]
  rw [operator?_among hopens] at hother
  exact (hr.atLeast s hs).2 other hother

end MissionScript
