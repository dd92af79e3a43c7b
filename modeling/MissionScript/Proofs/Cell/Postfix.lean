/-
Postfix operators behind a text.

A `Stem` is a text that postfix operators can be written behind: it ends where an operand ends, passes the checks,
begins without a sign, and shows no operator outside its parentheses.

- `exists_eq_append_inverse`: a text whose last character ends a marker ends in a marker.
- `Stem.cells_written`: behind a stem every quote is a transpose and every `^(-1)` is hidden.
- `Part.inverse`: a part with an inverse marker behind it is a part.
- `Stem.checkGroups`: stems with postfix operators behind them pass the checks.
- `Stem.lowest_none`, `Stem.lowest_quote`: such a text is split at its last transpose, if it has one.
-/
import MissionScript.Proofs.Cell.Enclosure

namespace MissionScript

open Cell Posture

namespace Postfix

def written : Postfix → Text
  | transpose => ['\'']
  | inverse => ['^', '(', '-', '1', ')']

/-- the characters of the operator with their roles behind an operand -/
def mark : Postfix → List Cell
  | transpose => [⟨'\'', .live⟩]
  | inverse => [⟨'^', .inverse 4⟩, ⟨'(', .inverse 3⟩, ⟨'-', .inverse 2⟩, ⟨'1', .inverse 1⟩, ⟨')', .inverse 0⟩]

end Postfix

def written (w : List Postfix) : Text := w.flatMap Postfix.written

def marks (w : List Postfix) : List Cell := w.flatMap Postfix.mark

variable {w v : List Postfix} {m : Postfix} {t : Text} {cs : List Cell} {cell : Cell}

theorem written_append (w v : List Postfix) : written (w ++ v) = written w ++ written v := List.flatMap_append

theorem marks_append (w v : List Postfix) : marks (w ++ v) = marks w ++ marks v := List.flatMap_append

theorem text_marks (w : List Postfix) : Cell.text (marks w) = written w := by
  induction w with
  | nil => rfl
  | cons m w ih =>
    rw [← List.singleton_append, marks_append, written_append, Cell.text, List.map_append]
    exact congrArg₂ _ (by cases m <;> rfl) ih

/-- An inverse marker is read as one wherever nothing is open. -/
theorem cellsFrom_inverse (u rest : Text) :
    cellsFrom ⟨.code, 0, u⟩ (Postfix.inverse.written ++ rest) =
      Postfix.inverse.mark ++ cellsFrom ⟨.code, 0, Postfix.inverse.written.reverse ++ u⟩ rest := by
  have hstep : advance ⟨.code, 0, u⟩ '^' (['(', '-', '1', ')'] ++ rest) = (.inverse 4, ⟨.marker 3, 0, '^' :: u⟩) := by
    simp [advance]
  rw [Postfix.written, List.cons_append, cellsFrom, hstep]
  rfl

/-- Behind an operand a postfix operator is read as one, and a further one may follow. -/
theorem cellsFrom_written {u : Text} (hu : followsOperand u = true) (m : Postfix) (rest : Text) :
    cellsFrom ⟨.code, 0, u⟩ (m.written ++ rest) = m.mark ++ cellsFrom ⟨.code, 0, m.written.reverse ++ u⟩ rest := by
  cases m with
  | transpose =>
    have hstep : advance ⟨.code, 0, u⟩ '\'' rest = (.live, ⟨.code, 0, '\'' :: u⟩) := by simp [advance, hu]
    rw [Postfix.written, List.singleton_append, cellsFrom, hstep]
    rfl
  | inverse => exact cellsFrom_inverse u rest

theorem cellsFrom_writtenAll {u : Text} (hu : followsOperand u = true) (w : List Postfix) :
    cellsFrom ⟨.code, 0, u⟩ (written w) = marks w := by
  induction w generalizing u with
  | nil => rfl
  | cons m w ih =>
    have hnext : followsOperand (m.written.reverse ++ u) = true := by cases m <;> rfl
    have hone : marks [m] = m.mark := List.append_nil _
    have hwritten : written [m] = m.written := List.append_nil _
    rw [← List.singleton_append, written_append, marks_append, hone, hwritten, cellsFrom_written hu, ih hnext]

/-! ## Markers at the end of a text -/

/-- A marker ends where nothing is left of it. -/
theorem context_of_inverse {p : Posture} {c : Char} (h : (p.advance c t).1 = .inverse 0) : p.context = .marker 0 := by
  obtain ⟨context, depth, before⟩ := p
  cases context with
  | string quote => simp [advance] at h
  | exponent => simp [advance] at h
  | marker n =>
    cases n with
    | zero => rfl
    | succ n => simp [advance] at h
  | code =>
    cases depth with
    | succ depth =>
      simp only [advance] at h
      split_ifs at h
    | zero =>
      simp only [advance] at h
      split_ifs at h
      simp at h

/-- Behind a character a marker goes on, or has just begun. -/
theorem context_of_marker {p : Posture} {c : Char} {n : Nat} (h : (p.advance c t).2.context = .marker n) :
    p.context = .marker (n + 1) ∨ n = 3 ∧ c = '^' ∧ ['(', '-', '1', ')'] <+: t := by
  obtain ⟨context, depth, before⟩ := p
  cases context with
  | string quote =>
    simp only [advance] at h
    split_ifs at h
  | exponent => simp [advance] at h
  | marker m =>
    cases m with
    | zero => simp [advance] at h
    | succ m =>
      obtain rfl : m = n := by simpa [advance] using h
      exact .inl rfl
  | code =>
    cases depth with
    | succ depth =>
      simp only [advance] at h
      split_ifs at h
    | zero =>
      simp only [advance] at h
      split_ifs at h with h₁ h₂ h₃ h₄
      obtain rfl : 3 = n := by simpa using h
      obtain ⟨hcaret, hprefix⟩ := Bool.and_eq_true_iff.1 h₃
      exact .inr ⟨rfl, beq_iff_eq.1 hcaret, List.isPrefixOf_iff_prefix.1 hprefix⟩

/-- The last character of a marker ends a whole marker, or what was left of one. -/
theorem ends_marker {p : Posture} (hlast : (cellsFrom p t).getLast? = some cell) (hrole : cell.role = .inverse 0) :
    (∃ u, t = u ++ Postfix.inverse.written) ∨ ∃ n, p.context = .marker n ∧ t.length = n + 1 := by
  induction t generalizing p with
  | nil => exact absurd hlast (by simp [cellsFrom])
  | cons c t ih =>
    by_cases ht : t = []
    · subst ht
      obtain rfl : ⟨c, (p.advance c []).1⟩ = cell := by simpa [cellsFrom] using hlast
      exact .inr ⟨0, context_of_inverse hrole, rfl⟩
    · have hcells : cellsFrom (p.advance c t).2 t ≠ [] := by
        obtain ⟨d, t, rfl⟩ := List.exists_cons_of_ne_nil ht
        simp [cellsFrom]
      rw [cellsFrom, List.getLast?_cons_of_ne_nil hcells] at hlast
      rcases ih hlast with ⟨u, hu⟩ | ⟨n, hcontext, hlength⟩
      · exact .inl ⟨c :: u, congrArg (List.cons c) hu⟩
      · rcases context_of_marker hcontext with hmore | ⟨rfl, rfl, hprefix⟩
        · exact .inr ⟨n + 1, hmore, congrArg Nat.succ hlength⟩
        · have hwhole : ['(', '-', '1', ')'] = t := hprefix.eq_of_length hlength.symm
          exact .inl ⟨[], by rw [← hwhole]; rfl⟩

/-- A text that ends in the last character of a marker ends in a marker. -/
theorem exists_eq_append_inverse (hlast : (cells t).getLast? = some cell) (hrole : cell.role = .inverse 0) :
    ∃ u, t = u ++ Postfix.inverse.written := by
  rcases ends_marker (p := Posture.start) hlast hrole with hmarker | ⟨n, hcontext, -⟩
  · exact hmarker
  · exact absurd hcontext (by simp [Posture.start])

theorem text_take_inverse (t : Text) :
    Cell.text ((cells (t ++ Postfix.inverse.written)).take ((cells (t ++ Postfix.inverse.written)).length - 5)) = t := by
  rw [length_cells, Cell.text, List.map_take, ← Cell.text, text_cells]
  simp [Postfix.written]

/-! ## Stems -/

/-- a text that postfix operators can be written behind -/
structure Stem (t : Text) (cs : List Cell) : Prop where
  reads : Reads t cs
  follows : followsOperand t.reverse = true
  level : Level cs
  clash : clash cs = none
  apart : juxtaposed cs = false
  quiet : ∀ s ∈ outside cs, s.cell.Quiet
  head : ∃ c, t.head? = some c ∧ (isEdge c = true ∨ c = '(')

/-- Every quote behind a stem is a transpose and every `^(-1)` is hidden. -/
theorem Stem.cells_written (h : Stem t cs) (w : List Postfix) : cells (t ++ written w) = cs ++ marks w := by
  rw [h.reads, cellsFrom_writtenAll h.follows]

theorem mem_marks (h : cell ∈ marks w) : cell = ⟨'\'', .live⟩ ∧ .transpose ∈ w ∨ cell.isLive = false := by
  obtain ⟨m, hm, hcell⟩ := List.mem_flatMap.1 h
  cases m with
  | transpose => exact .inl ⟨List.mem_singleton.1 hcell, hm⟩
  | inverse =>
    right
    have hall : ∀ cell ∈ Postfix.inverse.mark, cell.isLive = false := by decide
    exact hall cell hcell

theorem not_holds_marks (h : cell ∈ marks w) {c : Char} (hc : c ≠ '\'') : cell.holds c = false := by
  rcases mem_marks h with ⟨rfl, -⟩ | hlive
  · simp [holds, Ne.symm hc]
  · simp [holds, hlive]

theorem level_marks (w : List Postfix) : Level (marks w) :=
  .of_no_paren fun _ hcell => ⟨not_holds_marks hcell (by decide), not_holds_marks hcell (by decide)⟩

theorem firstShown_marks (w : List Postfix) : ∀ c ∈ firstShown (marks w), postfixFollowers.contains c = true := by
  cases w with
  | nil => simp [firstShown, marks]
  | cons m w =>
    intro c hc
    cases m with
    | transpose =>
      obtain rfl : '\'' = c := Option.some.inj hc
      decide
    | inverse =>
      obtain rfl : '^' = c := Option.some.inj hc
      decide

theorem clash_marks (w : List Postfix) : clash (marks w) = none := by
  induction w with
  | nil => rfl
  | cons m w ih =>
    rw [← List.singleton_append, marks_append]
    refine clash_append ?_ ih (.inr (firstShown_marks w))
    cases m <;> decide

theorem juxtaposed_marks (w : List Postfix) : juxtaposed (marks w) = false :=
  juxtaposed_of_no_paren fun _ hcell => not_holds_marks hcell (by decide)

theorem Stem.checkGroups (h : Stem t cs) (w : List Postfix) : checkGroups (t ++ written w) = .ok () := by
  refine checkGroups_eq_ok_iff.2 ?_
  rw [h.cells_written]
  refine ⟨h.level.append (level_marks w), clash_append h.clash (clash_marks w) (.inr (firstShown_marks w)), ?_⟩
  have hhead : (shown (marks w)).head? ≠ some '(' := by
    intro hhead
    obtain ⟨cell, hcell, hchar⟩ := List.mem_map.1 (List.mem_of_mem_head? hhead)
    obtain ⟨hcell, hlive⟩ := List.mem_filter.1 hcell
    have hparen : cell.holds '(' = false := not_holds_marks hcell (by decide)
    simp only [Bool.and_eq_true] at hlive
    simp [holds, hchar, hlive.1] at hparen
  rw [juxtaposed_append, h.apart, juxtaposed_marks, beq_eq_false_iff_ne.2 hhead]
  simp

theorem Stem.head_written (h : Stem t cs) (w : List Postfix) :
    ∃ c, (t ++ written w).head? = some c ∧ (isEdge c = true ∨ c = '(') := by
  obtain ⟨c, hc, hchar⟩ := h.head
  exact ⟨c, by rw [List.head?_append, hc]; rfl, hchar⟩

/-! ## Where the text is split -/

theorem quiet_marks (h : .transpose ∉ w) : ∀ cell ∈ marks w, cell.Quiet := by
  intro cell hcell hlive
  rcases mem_marks hcell with ⟨-, hmem⟩ | hhidden
  · exact absurd hmem h
  · rw [hhidden] at hlive
    exact absurd hlive (by decide)

theorem Stem.lowest_none (h : Stem t cs) (hw : .transpose ∉ w) : lowest (cells (t ++ written w)) = none := by
  rw [h.cells_written]
  apply Cell.lowest_eq_none (h.level.append (level_marks w))
  intro x hx
  rw [outside_append h.level] at hx
  rcases List.mem_append.1 hx with hx | hx
  · obtain ⟨s, hs, rfl⟩ := List.mem_map.1 hx
    exact Quiet.operator? (h.quiet s hs)
  · obtain ⟨s, hs, rfl⟩ := List.mem_map.1 hx
    have hquiet : (s.among cs.reverse []).cell.Quiet := quiet_marks hw s.cell (mem_of_mem_outside hs)
    exact hquiet.operator?

theorem operator?_marks {s : Site} (h : s.cell ∈ marks w) : s.operator? = none ∨ s.operator? = some .quote := by
  rcases mem_marks h with ⟨hcell, -⟩ | hhidden
  · right
    rw [Site.operator?, hcell]
    rfl
  · left
    rw [Site.operator?, hhidden]
    rfl

/-- The text is split at its last transpose. -/
theorem Stem.lowest_quote (h : Stem t cs) (hv : .transpose ∉ v) :
    lowest (cells (t ++ written (w ++ .transpose :: v))) = some ⟨.quote, t ++ written w, written v⟩ := by
  have hcells : cells (t ++ written (w ++ .transpose :: v)) = (cs ++ marks w) ++ ⟨'\'', .live⟩ :: marks v := by
    rw [h.cells_written, marks_append, ← List.append_assoc]
    rfl
  have hbefore : ∀ x ∈ outside (cs ++ marks w), ∀ other, x.operator? = some other →
      Symbol.quote.tier.rank ≤ other.tier.rank := by
    intro x hx other hother
    rw [outside_append h.level] at hx
    rcases List.mem_append.1 hx with hx | hx
    · obtain ⟨s, hs, rfl⟩ := List.mem_map.1 hx
      have hquiet : (s.among [] (marks w)).cell.Quiet := h.quiet s hs
      rw [hquiet.operator?] at hother
      simp at hother
    · obtain ⟨s, hs, rfl⟩ := List.mem_map.1 hx
      have hmark : s.cell ∈ marks w := mem_of_mem_outside hs
      rcases operator?_marks (s := s.among cs.reverse []) hmark with hnone | hquote
      · rw [hnone] at hother
        simp at hother
      · obtain rfl : .quote = other := Option.some.inj (hquote.symm.trans hother)
        exact le_rfl
  -- behind the last transpose stand inverse markers only
  have hafter : ∀ s ∈ outside (marks v), ∀ other,
      (s.among (⟨'\'', .live⟩ :: (cs ++ marks w).reverse) []).operator? = some other →
        Symbol.quote.tier.rank < other.tier.rank := by
    intro s hs other hother
    have hquiet : (s.among (⟨'\'', .live⟩ :: (cs ++ marks w).reverse) []).cell.Quiet :=
      quiet_marks hv s.cell (mem_of_mem_outside hs)
    rw [hquiet.operator?] at hother
    simp at hother
  rw [hcells, lowest_split (h.level.append (level_marks w)) (level_marks v) rfl rfl rfl hbefore hafter, text_marks,
    ← h.cells_written, text_cells]

/-! ## Markers behind a part -/

theorem Reads.inverse (h : Reads t cs) : Reads (t ++ Postfix.inverse.written) (cs ++ Postfix.inverse.mark) := by
  intro rest
  rw [List.append_assoc, h, cellsFrom_inverse, List.reverse_append, List.append_assoc]

theorem clean_inverse : Clean Postfix.inverse.mark where
  level := rfl
  clash := by decide
  noTranspose := by decide
  apart := rfl

theorem Sound.inverse (h : Sound t) : Sound (t ++ Postfix.inverse.written) := by
  have hfollows : ∀ c ∈ firstShown Postfix.inverse.mark, postfixFollowers.contains c = true :=
    firstShown_marks [.inverse]
  exact .of_reads h.reads.inverse (h.clean.append clean_inverse (.inr hfollows) (.inr (by decide)))

theorem Part.inverse {k : Nat} (h : Part k t) : Part k (t ++ Postfix.inverse.written) where
  toSound := h.toSound.inverse
  atLeast := by
    have hquiet : ∀ cell ∈ Postfix.inverse.mark, cell.holds ',' = false ∧ cell.Quiet := by
      have hhidden : ∀ cell ∈ Postfix.inverse.mark, cell.isLive = false ∧ cell.holds ',' = false := by decide
      intro cell hcell
      obtain ⟨hlive, hcomma⟩ := hhidden cell hcell
      refine ⟨hcomma, fun h => ?_⟩
      rw [hlive] at h
      exact absurd h (by decide)
    rw [h.reads.inverse.cells_eq]
    exact h.atLeast.append (.of_quiet hquiet) h.clean.level (.inr fun s hs => (hquiet _ (mem_of_mem_outside hs)).2)
  closes := by
    have hlast : (t ++ Postfix.inverse.written).getLast? = some ')' := by
      rw [List.getLast?_append]
      rfl
    exact .of_getLast? hlast (by decide) (by decide)

/-! ## Which texts are stems -/

theorem followsOperand_of_isWordChar {c : Char} (h : isWordChar c = true) (u : Text) :
    followsOperand (c :: u) = true := by
  simp [followsOperand, h]

theorem Stem.of_identifier (h : IsIdentifier t) : Stem t (live t) where
  reads := .name h.startsName fun c hc => .inl (h.isWordChar c hc)
  follows := by
    obtain ⟨-, c, hlast, -⟩ := (Operand.reference (.name h)).edges
    obtain ⟨rest, hrest⟩ := List.head?_eq_some_iff.1 (List.getLast?_eq_head?_reverse ▸ hlast)
    rw [hrest]
    exact followsOperand_of_isWordChar (h.isWordChar c (List.mem_of_getLast? hlast)) rest
  level := (Clean.of_inert h.inert).level
  clash := (Clean.of_inert h.inert).clash
  apart := (Clean.of_inert h.inert).apart
  quiet s hs := (h.inert _ (mem_of_mem_outside hs)).quiet
  head := by
    obtain ⟨⟨c, hc, hedge⟩, -⟩ := (Operand.reference (.name h)).edges
    exact ⟨c, hc, .inl hedge⟩

/-- the cells of a group, or of a call -/
def enclosure (head t : Text) : List Cell := live head ++ opening :: (cells t ++ [closing])

theorem outside_enclosure {head : Text} (hhead : IsHead head) (hlevel : Level (cells t)) :
    ∀ s ∈ outside (enclosure head t), s.cell.Quiet := by
  intro x hx
  rw [enclosure, outside_append (Clean.of_inert hhead.inert).level, outside_group hlevel, List.map_nil,
    List.append_nil] at hx
  obtain ⟨s, hs, rfl⟩ := List.mem_map.1 hx
  have hinert : s.cell.Inert := hhead.inert s.cell (mem_of_mem_outside hs)
  exact hinert.quiet

theorem Stem.of_enclosable {head : Text} (hhead : IsHead head) (h : Enclosable t) :
    Stem (head ++ '(' :: (t ++ [')'])) (enclosure head t) := by
  obtain ⟨hlevel, hclash, hapart⟩ := checkGroups_eq_ok_iff.1 h.checked
  have hclean := Clean.of_inert hhead.inert
  refine ⟨hhead.reads.join h.reads (by decide) fun h => absurd h (by decide), ?_, hclean.level.append hlevel.group,
    ?_, ?_, outside_enclosure hhead hlevel, ?_⟩
  · simp [followsOperand]
  · exact clash_append hclean.clash (clash_group hclash) (.inl fun cell hcell => (hhead.inert cell hcell).noPostfix)
  · rw [enclosure, juxtaposed_append, hclean.apart, juxtaposed_group, hapart,
      beq_eq_false_iff_ne.2 (getLast?_shown_live_ne hhead.isWordChar)]
    simp
  · rcases hhead with rfl | hname
    · exact ⟨'(', rfl, .inr rfl⟩
    · obtain ⟨⟨c, hc, hedge⟩, -⟩ := (Operand.reference (.name hname)).edges
      exact ⟨c, by rw [List.head?_append, hc]; rfl, .inl hedge⟩

/-! ## The text as a whole -/

theorem not_isBlank_of_followsOperand {c : Char} {u : Text} (h : followsOperand (c :: u) = true) :
    isBlank c = false := by
  simp only [followsOperand, Bool.or_eq_true, beq_iff_eq, or_assoc] at h
  rcases h with h | rfl | rfl | rfl | rfl | rfl
  · exact not_isBlank_of_isWordChar h
  all_goals decide

theorem Stem.follows_written (h : Stem t cs) (w : List Postfix) : followsOperand (t ++ written w).reverse = true := by
  induction w using List.reverseRecOn with
  | nil =>
    rw [written, List.flatMap_nil, List.append_nil]
    exact h.follows
  | append_singleton w m =>
    rw [written_append, List.reverse_append, List.reverse_append]
    cases m <;> rfl

theorem Stem.trim_eq (h : Stem t cs) (w : List Postfix) : Text.trim (t ++ written w) = t ++ written w := by
  refine Text.trim_eq_self ?_ ?_
  · intro d hd
    obtain ⟨c, hc, hchar⟩ := h.head_written w
    obtain rfl : c = d := Option.some.inj (hc.symm.trans hd)
    rcases hchar with hedge | rfl
    · exact not_isBlank_of_isEdge hedge
    · decide
  · intro d hd
    have hfollows := h.follows_written w
    obtain ⟨rest, hrest⟩ := List.head?_eq_some_iff.1 (List.getLast?_eq_head?_reverse ▸ Option.mem_def.1 hd)
    rw [hrest] at hfollows
    exact not_isBlank_of_followsOperand hfollows

theorem Stem.isSigned (h : Stem t cs) (w : List Postfix) : isSigned (t ++ written w) = false := by
  obtain ⟨c, hc, hchar⟩ := h.head_written w
  obtain ⟨rest, hrest⟩ := List.head?_eq_some_iff.1 hc
  have hne : c ≠ '+' ∧ c ≠ '-' := by
    rcases hchar with hedge | rfl
    · exact ⟨ne_of_isEdge hedge (by decide), ne_of_isEdge hedge (by decide)⟩
    · decide
  rw [hrest]
  simp [MissionScript.isSigned, hne.1, hne.2]

theorem Stem.isOperand (h : Stem t cs) (hw : w ≠ []) : isOperand (t ++ written w) = false := by
  by_contra hoperand
  rcases inert_of_isOperand (h.trim_eq w) (by simpa using hoperand) with hinert | ⟨sign, rest, hsign, hcells, -⟩
  · obtain ⟨m, w, rfl⟩ := List.exists_cons_of_ne_nil hw
    rw [h.cells_written] at hinert
    cases m with
    | transpose => exact absurd ((hinert ⟨'\'', .live⟩ (by simp [marks, Postfix.mark])).1 rfl) (by decide)
    | inverse => exact (hinert ⟨'^', .inverse 4⟩ (by simp [marks, Postfix.mark])).2 4 rfl
  · obtain ⟨c, hc, hchar⟩ := h.head_written w
    rw [← text_cells (t ++ written w), hcells] at hc
    obtain rfl : sign = c := Option.some.inj hc
    rcases hsign with rfl | rfl <;> exact absurd hchar (by decide)

end MissionScript
