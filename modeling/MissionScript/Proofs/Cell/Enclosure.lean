/-
What parentheses enclose.

A text is `Enclosable` when parentheses around it close where they should: it passes the checks and leaves no string or
bracket literal open that would hide the closing parenthesis.

- `Closed.enclosable`: a closed text that passes the checks is enclosable.
- `enclosable_iff`: of the texts that pass the checks those are enclosable that leave the parentheses around them
  balanced.
- `checkGroups_of_trim`: blanks around a text have no effect on the checks.
-/
import MissionScript.Proofs.Cell.Part

namespace MissionScript

open Cell Posture

variable {t : Text}

/-- Half an inverse marker has a parenthesis open. -/
theorem depthFrom_half_marker (depth : Nat) (u : Text) :
    depthFrom depth (cellsFrom ⟨.code, 0, u⟩ ['^', '(', '-', '1']) = some (depth + 1) := by
  have hcells : cellsFrom ⟨.code, 0, u⟩ ['^', '(', '-', '1'] = live ['^', '(', '-', '1'] := by
    simp [cellsFrom, advance, live, List.isPrefixOf, followsOperand]
  rw [hcells]
  rfl

/-- A text is read before a closing parenthesis as it is read on its own when its parentheses balance. -/
theorem cellsFrom_append_paren {p : Posture} {depth : Nat} (h : depthFrom depth (cellsFrom p t) = some 0)
    (rest : Text) : cellsFrom p (t ++ ')' :: rest) = cellsFrom p t ++ cellsFrom (p.after t) (')' :: rest) := by
  induction t generalizing p depth with
  | nil => rfl
  | cons c t ih =>
    have hadvance : p.advance c (t ++ ')' :: rest) = p.advance c t := by
      by_cases hhalf : t = ['(', '-', '1']
      · subst hhalf
        obtain ⟨context, brackets, u⟩ := p
        have hsigns : ∀ rest, signsDigit (['(', '-', '1'] ++ rest) = false := fun rest => rfl
        cases context with
        | string _ => rfl
        | marker n => cases n <;> rfl
        | exponent => rfl
        | code =>
          cases brackets with
          | succ _ => rfl
          | zero =>
            have hcaret : c ≠ '^' := by
              rintro rfl
              rw [depthFrom_half_marker] at h
              simp at h
            have hcaret' : (c == '^') = false := beq_eq_false_iff_ne.2 hcaret
            have hend : signsDigit ['(', '-', '1'] = false := rfl
            simp only [advance, hcaret', hsigns, hend, Bool.false_and]
      · exact advance_append ⟨by decide, by decide, by decide, fun _ => ⟨rfl, hhalf⟩⟩ rest
    obtain ⟨next, -, hrest⟩ := Option.bind_eq_some_iff.1 h
    rw [List.cons_append, cellsFrom, hadvance, ih hrest, cellsFrom, after]
    rfl

/-! ## Blanks -/

theorem ne_of_isBlank {c d : Char} (hc : isBlank c = true) (hd : isBlank d = false) : c ≠ d := by
  rintro rfl
  exact absurd (hc.symm.trans hd) (by decide)

/-- A blank is no part of a marker, and none begins with it. -/
theorem advance_blank {p : Posture} (hp : p.pending = 0) {c : Char} (hc : isBlank c = true) (rest : Text) :
    (∀ n, (p.advance c rest).1 ≠ .inverse n) ∧ (p.advance c rest).2.pending = 0 := by
  obtain ⟨context, depth, u⟩ := p
  cases context with
  | string quote =>
    refine ⟨fun n => by simp [advance], ?_⟩
    simp only [advance, pending]
    split_ifs <;> rfl
  | marker _ => simp [pending] at hp
  | exponent => simp [pending] at hp
  | code =>
    cases depth with
    | succ depth =>
      simp only [advance]
      split_ifs <;> exact ⟨fun n => by simp, rfl⟩
    | zero =>
      have hcaret : (c == '^') = false := beq_eq_false_iff_ne.2 (ne_of_isBlank hc (by decide))
      have he : (c == 'e') = false := beq_eq_false_iff_ne.2 (ne_of_isBlank hc (by decide))
      have hE : (c == 'E') = false := beq_eq_false_iff_ne.2 (ne_of_isBlank hc (by decide))
      simp only [advance, hcaret, he, hE, Bool.false_and, Bool.or_self, Bool.false_eq_true, if_false]
      split_ifs <;> exact ⟨fun n => by simp, rfl⟩

/-- a blank, perhaps in a string or a bracket literal -/
def Cell.Blank (cell : Cell) : Prop := isBlank cell.char = true ∧ ∀ n, cell.role ≠ .inverse n

theorem blank_cellsFrom {p : Posture} (hp : p.pending = 0) {b : Text} (hb : Text.Blank b) :
    ∀ cell ∈ cellsFrom p b, cell.Blank := by
  induction b generalizing p with
  | nil => simp [cellsFrom]
  | cons c b ih =>
    obtain ⟨hrole, hnext⟩ := advance_blank hp (hb c List.mem_cons_self) b
    intro cell hcell
    rcases List.mem_cons.1 hcell with rfl | hcell
    · exact ⟨hb c List.mem_cons_self, hrole⟩
    · exact ih hnext (fun d hd => hb d (List.mem_cons_of_mem _ hd)) cell hcell

theorem stops_of_isBlank {d : Char} (hd : isBlank d = true) (t : Text) : Stops d t := by
  have hdigit : d.isDigit = false := by
    by_contra hdigit
    rw [not_isBlank_of_isWordChar (isWordChar_of_isDigit (by simpa using hdigit))] at hd
    exact absurd hd (by decide)
  refine ⟨ne_of_isBlank hd (by decide), ne_of_isBlank hd (by decide), hdigit, ?_⟩
  intro hparen
  have hall : ∀ c ∈ ['(', ')'], isBlank c = false := List.all_iff_forall_prop.1 (by decide)
  rw [hall d hparen] at hd
  exact absurd hd (by decide)

theorem cellsFrom_append_blank (p : Posture) {b : Text} (hb : Text.Blank b) :
    cellsFrom p (t ++ b) = cellsFrom p t ++ cellsFrom (p.after t) b := by
  cases b with
  | nil => rw [List.append_nil, cellsFrom, List.append_nil]
  | cons d b => exact Posture.cellsFrom_append (stops_of_isBlank (hb d List.mem_cons_self)) p t b

theorem cells_blank_append {b : Text} (hb : Text.Blank b) (t : Text) :
    ∃ cs, cells (b ++ t) = cs ++ cells t ∧ ∀ cell ∈ cs, cell.Blank := by
  -- the induction goes over texts that no operand ends; blanks behind such a text leave it one
  have key : ∀ u, followsOperand u = false →
      ∃ cs, cellsFrom ⟨.code, 0, u⟩ (b ++ t) = cs ++ cells t ∧ ∀ cell ∈ cs, cell.Blank := by
    induction b with
    | nil => exact fun u hu => ⟨[], cellsFrom_behind hu [] t, by simp⟩
    | cons c b ih =>
      intro u hu
      have hc := hb c List.mem_cons_self
      have hplain : ∀ d, isBlank d = false → c ≠ d := fun d hd => ne_of_isBlank hc hd
      have hfollows : followsOperand (c :: u) = false := by
        have hword : isWordChar c = false := by
          by_contra hword
          rw [not_isBlank_of_isWordChar (by simpa using hword)] at hc
          exact absurd hc (by decide)
        simp [followsOperand, hword, hplain '.' (by decide), hplain ')' (by decide), hplain ']' (by decide),
          hplain '}' (by decide), hplain '\'' (by decide)]
      obtain ⟨cs, hcs, hblank⟩ := ih (fun d hd => hb d (List.mem_cons_of_mem _ hd)) (c :: u) hfollows
      have hencloser : isEncloser c = false := by
        simp [isEncloser, Quotation.isQuote, hplain '[' (by decide), hplain ']' (by decide), hplain '{' (by decide),
          hplain '}' (by decide), hplain '\'' (by decide), hplain '"' (by decide)]
      refine ⟨⟨c, .live⟩ :: cs, ?_, ?_⟩
      · rw [List.cons_append, cellsFrom_live hencloser (fun h => absurd h (hplain '^' (by decide)))
          (fun h => (h.elim (hplain 'e' (by decide)) (hplain 'E' (by decide))).elim), hcs]
        rfl
      · intro cell hcell
        rcases List.mem_cons.1 hcell with rfl | hcell
        · exact ⟨hc, fun n => by simp⟩
        · exact hblank cell hcell
  exact key [] rfl

theorem Cell.Blank.not_holds {cell : Cell} (h : cell.Blank) {c : Char} (hc : isBlank c = false) :
    cell.holds c = false := by
  have hne : (cell.char == c) = false := beq_eq_false_iff_ne.2 (ne_of_isBlank h.1 hc)
  rw [holds, hne, Bool.and_false]

theorem Cell.Blank.noPostfix {cell : Cell} (h : cell.Blank) : cell.NoPostfix := ⟨h.not_holds (by decide), h.2 0⟩

theorem Cell.Clean.of_blank {cs : List Cell} (h : ∀ cell ∈ cs, cell.Blank) : Clean cs :=
  .of_no_paren (fun cell hcell => ⟨(h cell hcell).not_holds (by decide), (h cell hcell).not_holds (by decide)⟩)
    fun cell hcell => (h cell hcell).noPostfix

theorem Cell.not_mem_shown_of_blank {cs : List Cell} (h : ∀ cell ∈ cs, cell.Blank) {c : Char} (hc : isBlank c = false) :
    c ∉ shown cs := by
  intro hmem
  obtain ⟨cell, hcell, rfl⟩ := List.mem_map.1 hmem
  rw [(h cell (List.mem_filter.1 hcell).1).1] at hc
  exact absurd hc (by decide)

theorem checkGroups_of_trim (h : checkGroups (Text.trim t) = .ok ()) : checkGroups t = .ok () := by
  obtain ⟨hlevel, hclash, hapart⟩ := checkGroups_eq_ok_iff.1 h
  obtain ⟨b₁, b₂, h₁, h₂, ht⟩ := Text.exists_eq_append_trim t
  generalize Text.trim t = u at *
  subst ht
  obtain ⟨cs, hcs, hbefore⟩ := cells_blank_append h₁ (u ++ b₂)
  have hafter : ∀ cell ∈ cellsFrom (Posture.start.after u) b₂, cell.Blank :=
    blank_cellsFrom (pending_after (Nat.zero_le _)) h₂
  rw [show cells (u ++ b₂) = cells u ++ cellsFrom (Posture.start.after u) b₂ from cellsFrom_append_blank _ h₂] at hcs
  generalize cellsFrom (Posture.start.after u) b₂ = ds at *
  have hclean₁ := Clean.of_blank hbefore
  have hclean₂ := Clean.of_blank hafter
  have hright : clash (cells u ++ ds) = none := by
    refine clash_append hclash hclean₂.clash (.inr ?_)
    intro c hc
    obtain ⟨cell, hcell, -⟩ := Option.map_eq_some_iff.1 (Option.mem_def.1 hc)
    have hvisible := List.find?_some hcell
    simp [(hafter cell (List.mem_of_find?_eq_some hcell)).1] at hvisible
  refine checkGroups_eq_ok_iff.2 ?_
  rw [hcs]
  refine ⟨hclean₁.level.append (hlevel.append hclean₂.level),
    clash_append hclean₁.clash hright (.inl fun cell hcell => (hbefore cell hcell).noPostfix), ?_⟩
  have hlast : (shown cs).getLast? ≠ some ')' := fun hlast =>
    not_mem_shown_of_blank hbefore (by decide) (List.mem_of_getLast? hlast)
  have hhead : (shown ds).head? ≠ some '(' := fun hhead =>
    not_mem_shown_of_blank hafter (by decide) (List.mem_of_mem_head? hhead)
  rw [juxtaposed_append, juxtaposed_append, hclean₁.apart, hapart, hclean₂.apart, beq_eq_false_iff_ne.2 hlast,
    beq_eq_false_iff_ne.2 hhead]
  simp

/-! ## Parentheses around a text -/

/-- Parentheses around the text close where they should. -/
structure Enclosable (t : Text) : Prop where
  reads : Reads (t ++ [')']) (cells t ++ [closing])
  checked : checkGroups t = .ok ()

theorem Sound.enclosable (h : Sound t) : Enclosable t := ⟨h.reads.close, h.clean.checkGroups⟩

/-- the name of a call, or nothing in front of a group -/
def IsHead (head : Text) : Prop := head = [] ∨ IsIdentifier head

theorem IsHead.isWordChar {head : Text} (h : IsHead head) : ∀ c ∈ head, isWordChar c = true := by
  rcases h with rfl | h
  · simp
  · exact h.isWordChar

theorem IsHead.reads {head : Text} (h : IsHead head) : Reads head (live head) := by
  rcases h with rfl | h
  · exact .nil
  · exact .name h.startsName fun c hc => .inl (h.isWordChar c hc)

theorem IsHead.inert {head : Text} (h : IsHead head) : ∀ cell ∈ live head, cell.Inert :=
  inert_live fun c hc => .inl (h.isWordChar c hc)

/-- A closing parenthesis counts only where nothing is open. -/
theorem eq_code_of_close {p : Posture} (h : depthFrom 1 (cellsFrom p [')']) = some 0) : p = ⟨.code, 0, p.before⟩ := by
  obtain ⟨context, depth, u⟩ := p
  cases context with
  | code =>
    cases depth with
    | zero => rfl
    | succ depth => simp [cellsFrom, advance, depthFrom, depthStep, holds, isLive] at h
  | string _ => simp [cellsFrom, advance, depthFrom, depthStep, holds, isLive] at h
  | marker n => cases n <;> simp [cellsFrom, advance, depthFrom, depthStep, holds, isLive] at h
  | exponent => simp [cellsFrom, advance, depthFrom, depthStep, holds, isLive] at h

/-- Closed texts that pass the checks are enclosable. -/
theorem Closed.enclosable (hclosed : Closed t) (h : checkGroups t = .ok ()) : Enclosable t where
  reads := by
    have hlevel : Level (cells t) := (checkGroups_eq_ok_iff.1 h).1
    have hclose : ∀ rest, cellsFrom ⟨.code, 0, t.reverse⟩ (')' :: rest) =
        closing :: cellsFrom ⟨.code, 0, ')' :: t.reverse⟩ rest :=
      fun rest => cellsFrom_live (by decide) (fun h => absurd h (by decide)) fun h => absurd h (by decide)
    intro rest
    calc cells (t ++ [')'] ++ rest)
        = cells t ++ cellsFrom (start.after t) (')' :: rest) := by
          rw [List.append_assoc]
          exact cellsFrom_append_paren hlevel rest
      _ = _ := by rw [hclosed.after_eq, hclose]; simp
  checked := h

/-- **What may be enclosed.** A text that passes the checks is enclosable exactly when parentheses around it balance, so
when it leaves nothing open that hides the closing one. -/
theorem enclosable_iff {head : Text} (hhead : IsHead head) (h : checkGroups t = .ok ()) :
    Enclosable t ↔ Level (cells (head ++ '(' :: (t ++ [')']))) := by
  have hlevel : Level (cells t) := (checkGroups_eq_ok_iff.1 h).1
  have hcells : cells (head ++ '(' :: (t ++ [')'])) =
      live head ++ opening :: (cells t ++ cellsFrom (Posture.start.after t) [')']) := by
    rw [hhead.reads.cells_append (by decide) fun h => absurd h (by decide)]
    have hinner : cells (t ++ [')']) = cells t ++ cellsFrom (Posture.start.after t) [')'] :=
      cellsFrom_append_paren hlevel []
    rw [hinner]
    rfl
  constructor
  · intro henclosable
    have hclose : cells t ++ cellsFrom (Posture.start.after t) [')'] = cells t ++ [closing] :=
      (cellsFrom_append_paren hlevel []).symm.trans henclosable.reads.cells_eq
    rw [hcells, hclose]
    exact (Clean.of_inert hhead.inert).level.append hlevel.group
  · intro hwhole
    have hopen : depthFrom 0 (live head ++ opening :: (cells t ++ cellsFrom (Posture.start.after t) [')'])) =
        depthFrom 1 (cellsFrom (Posture.start.after t) [')']) := by
      have hinner : depthFrom 1 (cells t) = some 1 := depthFrom_add hlevel 1
      have hstep : depthStep 0 opening = some 1 := rfl
      rw [depthFrom_append, (Clean.of_inert hhead.inert).level, Option.bind_some, depthFrom, hstep, Option.bind_some,
        depthFrom_append, hinner, Option.bind_some]
    rw [hcells, Level, hopen] at hwhole
    have hcode := eq_code_of_close hwhole
    have hclosed : Closed t := ⟨by rw [hcode], by rw [hcode]⟩
    exact hclosed.enclosable h

end MissionScript
