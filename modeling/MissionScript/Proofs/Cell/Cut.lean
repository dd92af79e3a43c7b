/-
Texts that are cut where a character is live.

Whatever an expression is divided at is live: an operator, a comma or a parenthesis. No string, bracket literal, marker or
exponent goes on across it, so that both sides are read on their own as they are read in the whole.

- `cells_before`: what stands before a live character, if that is no digit.
- `cells_behind`: what stands behind a live character that no operand ends in.
- `exists_of_mem_outside`: outside all parentheses a text comes apart into two texts whose parentheses balance.
- `exists_of_enclosed`: what parentheses enclose stands between them, and its own parentheses balance.
-/
import MissionScript.Proofs.Cell.Reading
import MissionScript.Proofs.Cell.Outside

namespace MissionScript

open Cell

variable {t u rest : Text} {as bs cs : List Cell} {c : Char}

namespace Posture

variable {p : Posture} {x : Char}

/-! ## Before a live character -/

/-- Only in code and outside bracket literals a character is live. -/
theorem code_of_live (h : (p.advance c rest).1 = .live) : p = ⟨.code, 0, p.before⟩ := by
  obtain ⟨context, depth, before⟩ := p
  cases context with
  | string quote => exact absurd h (by simp [advance])
  | marker n => cases n <;> exact absurd h (by simp [advance])
  | exponent => exact absurd h (by simp [advance])
  | code =>
    cases depth with
    | zero => rfl
    | succ depth =>
      simp only [advance] at h
      split_ifs at h

/-- What a marker or an exponent still takes is not live. -/
theorem pending_le (h : cellsFrom p t = as ++ ⟨c, .live⟩ :: bs) : p.pending ≤ as.length := by
  induction as generalizing p t with
  | nil =>
    cases t with
    | nil => exact absurd h (by simp [cellsFrom])
    | cons x t =>
      have hrole : (p.advance x t).1 = .live := by
        rw [cellsFrom, List.nil_append] at h
        exact congrArg Cell.role (List.cons.inj h).1
      rw [code_of_live hrole]
      exact Nat.zero_le _
  | cons cell as ih =>
    cases t with
    | nil => exact absurd h (by simp [cellsFrom])
    | cons x t =>
      rw [cellsFrom, List.cons_append] at h
      have hnext : (p.advance x t).2.pending ≤ as.length := ih (List.cons.inj h).2
      obtain ⟨context, depth, before⟩ := p
      cases context with
      | string quote => exact Nat.zero_le _
      | code => exact Nat.zero_le _
      | exponent => exact Nat.succ_le_succ (Nat.zero_le _)
      | marker n =>
        cases n with
        | zero => exact Nat.succ_le_succ (Nat.zero_le _)
        | succ n => exact Nat.succ_le_succ hnext

theorem signsDigit_append_of_ne_nil (hne : u ≠ []) (hdigit : c.isDigit = false) :
    signsDigit (u ++ c :: rest) = signsDigit u := by
  match u with
  | [a] => simp [signsDigit, hdigit]
  | a :: b :: u => rfl

/-- A character has the role it has at the end of the text when no marker and no exponent reaches beyond. -/
theorem advance_of_pending (h : (p.advance x (u ++ c :: rest)).2.pending ≤ u.length) (hdigit : c.isDigit = false) :
    p.advance x (u ++ c :: rest) = p.advance x u := by
  obtain ⟨context, depth, before⟩ := p
  cases context with
  | string quote => rfl
  | exponent => rfl
  | marker n => cases n <;> rfl
  | code =>
    cases depth with
    | succ depth => rfl
    | zero =>
      -- a marker has four characters, and the text still has all of them
      have hmarker : (x == '^' && ['(', '-', '1', ')'].isPrefixOf (u ++ c :: rest)) =
          (x == '^' && ['(', '-', '1', ')'].isPrefixOf u) := by
        rw [Bool.eq_iff_iff, Bool.and_eq_true, Bool.and_eq_true, beq_iff_eq]
        apply and_congr_right
        rintro rfl
        rw [List.isPrefixOf_iff_prefix, List.isPrefixOf_iff_prefix]
        constructor
        · intro hwhole
          have hlength : 4 ≤ u.length := by
            rw [← List.isPrefixOf_iff_prefix] at hwhole
            simpa [advance, hwhole, pending] using h
          exact List.prefix_of_prefix_length_le hwhole (List.prefix_append u _) hlength
        · intro hu
          exact hu.trans (List.prefix_append u _)
      have hexponent : ((x == 'e' || x == 'E') && endsNumeral before && signsDigit (u ++ c :: rest)) =
          ((x == 'e' || x == 'E') && endsNumeral before && signsDigit u) := by
        rcases eq_or_ne u [] with rfl | hne
        · -- with an exponent begun something would be pending
          rw [show signsDigit [] = false from rfl, Bool.and_false]
          by_contra hsigned
          rw [List.nil_append, Bool.not_eq_false] at hsigned
          obtain ⟨hnumeral, hdigits⟩ := Bool.and_eq_true_iff.1 hsigned
          obtain ⟨hletter, hends⟩ := Bool.and_eq_true_iff.1 hnumeral
          have hnext : (advance ⟨.code, 0, before⟩ x (c :: rest)).2 = ⟨.exponent, 0, x :: before⟩ := by
            rcases Bool.or_eq_true_iff.1 hletter with hx | hx
            · obtain rfl := beq_iff_eq.1 hx
              simp [advance, hends, hdigits]
            · obtain rfl := beq_iff_eq.1 hx
              simp [advance, hends, hdigits]
          rw [List.nil_append, hnext] at h
          exact absurd h (Nat.not_succ_le_zero 0)
        · rw [signsDigit_append_of_ne_nil hne hdigit]
      simp only [advance, hmarker, hexponent]

/-- Before a live character that is no digit a text is read as it is read on its own. -/
theorem cellsFrom_before (h : cellsFrom p t = as ++ ⟨c, .live⟩ :: bs) (hdigit : c.isDigit = false) :
    cellsFrom p (text as) = as ∧ cellsFrom (p.after (text as)) (c :: text bs) = ⟨c, .live⟩ :: bs := by
  induction as generalizing p t with
  | nil =>
    have htext : t = c :: text bs := by rw [← text_cellsFrom t p, h]; rfl
    refine ⟨rfl, ?_⟩
    rw [← htext]
    exact h
  | cons cell as ih =>
    cases t with
    | nil => exact absurd h (by simp [cellsFrom])
    | cons x t =>
      rw [cellsFrom, List.cons_append] at h
      obtain ⟨hcell, hlater⟩ := List.cons.inj h
      have htext : t = text as ++ c :: text bs := by
        rw [← text_cellsFrom t (p.advance x t).2, hlater]
        simp [text]
      have hpending : (p.advance x (text as ++ c :: text bs)).2.pending ≤ (text as).length := by
        rw [length_text, ← htext]
        exact pending_le hlater
      have hadvance : p.advance x t = p.advance x (text as) := by
        rw [htext]
        exact advance_of_pending hpending hdigit
      rw [hadvance] at hcell hlater
      obtain ⟨hleft, hright⟩ := ih hlater
      obtain rfl : x = cell.char := congrArg Cell.char hcell
      refine ⟨?_, hright⟩
      change cellsFrom p (cell.char :: text as) = cell :: as
      rw [cellsFrom, hleft, hcell]

/-- Behind a live character that is no letter of an exponent a text goes on outside everything. -/
theorem advance_of_live {before : Text} (h : (advance ⟨.code, 0, before⟩ c rest).1 = .live)
    (hletter : c ≠ 'e' ∧ c ≠ 'E') : (advance ⟨.code, 0, before⟩ c rest).2 = ⟨.code, 0, c :: before⟩ := by
  simp only [advance] at h ⊢
  split_ifs at h ⊢ with hquote hopen hmarker hexponent
  · simp [hletter] at hexponent
  · rfl

end Posture

open Posture

/-! ## Both sides of a live character -/

theorem cells_before (h : cells t = as ++ ⟨c, .live⟩ :: bs) (hdigit : c.isDigit = false) : cells (text as) = as :=
  (cellsFrom_before h hdigit).1

/-- What stands behind a live character that ends no operand is read as it is read on its own. -/
theorem cells_behind (h : cells t = as ++ ⟨c, .live⟩ :: bs) (hfollows : ∀ u, followsOperand (c :: u) = false) :
    cells (text bs) = bs := by
  obtain ⟨hword, -⟩ := not_isWordChar_of_followsOperand (hfollows [])
  have hplain : ∀ d, isWordChar d = true → c ≠ d := by
    rintro d hd rfl
    exact absurd (hd.symm.trans hword) (by decide)
  have hdigit : c.isDigit = false := by
    by_contra hdigit
    exact hplain c (isWordChar_of_isDigit (by simpa using hdigit)) rfl
  obtain ⟨-, hsecond⟩ := cellsFrom_before h hdigit
  generalize Posture.start.after (text as) = p at hsecond
  rw [cellsFrom] at hsecond
  obtain ⟨hcell, hrest⟩ := List.cons.inj hsecond
  have hlive : (p.advance c (text bs)).1 = .live := congrArg Cell.role hcell
  have hcode := code_of_live hlive
  rw [hcode] at hlive hrest
  rw [advance_of_live hlive ⟨hplain 'e' (by decide), hplain 'E' (by decide)⟩] at hrest
  calc cells (text bs)
      = cellsFrom ⟨.code, 0, [] ++ c :: p.before⟩ (text bs) := (cellsFrom_behind (hfollows p.before) [] _).symm
    _ = bs := hrest

/-! ## Cuts outside all parentheses -/

namespace Cell

variable {cell : Cell} {depth : Nat} {sep : Char}

theorem eq_of_holds (h : cell.holds c = true) : cell = ⟨c, .live⟩ := by
  obtain ⟨hlive, hchar⟩ := Bool.and_eq_true_iff.1 h
  rw [← beq_iff_eq.1 hchar, ← beq_iff_eq.1 (show (cell.role == .live) = true from hlive)]

theorem Level.of_append (h : Level (as ++ bs)) (ha : Level as) : Level bs := by
  rwa [Level, depthFrom_append, show depthFrom 0 as = some 0 from ha] at h

theorem Level.of_cons (h : Level (cell :: bs)) (h₁ : cell.holds '(' = false) (h₂ : cell.holds ')' = false) :
    Level bs := by
  have hcell : Level [cell] := Level.of_no_paren (by simp [h₁, h₂])
  exact Level.of_append h hcell

theorem Level.of_append_right (h : Level (as ++ bs))
    (hb : ∀ cell ∈ bs, cell.holds '(' = false ∧ cell.holds ')' = false) : Level as := by
  rw [Level, depthFrom_append, Option.bind_eq_some_iff] at h
  obtain ⟨depth, hdepth, hrest⟩ := h
  rw [depthFrom_of_no_paren hb] at hrest
  obtain rfl : depth = 0 := Option.some.inj hrest
  exact hdepth

theorem exists_of_mem_topFrom {before : List Cell} {s : Site} (h : depthFrom depth cs = some 0)
    (hs : s ∈ Site.topFrom depth (Site.along before cs)) :
    ∃ as, cs = as ++ s.cell :: s.after ∧ s.before = as.reverse ++ before ∧ depthFrom depth as = some 0 ∧
      s.cell.holds '(' = false ∧ s.cell.holds ')' = false := by
  induction cs generalizing depth before with
  | nil => exact absurd hs (by simp [Site.along, Site.topFrom])
  | cons cell cs ih =>
    obtain ⟨next, hstep, hrest⟩ := Option.bind_eq_some_iff.1 h
    rw [Site.along, Site.topFrom, depthAfter_of_depthStep hstep] at hs
    have hlater : s ∈ Site.topFrom next (Site.along (cell :: before) cs) →
        ∃ as, cell :: cs = as ++ s.cell :: s.after ∧ s.before = as.reverse ++ before ∧ depthFrom depth as = some 0 ∧
          s.cell.holds '(' = false ∧ s.cell.holds ')' = false := by
      intro hs
      obtain ⟨as, hcs, hbefore, hdepth, hparen⟩ := ih hrest hs
      refine ⟨cell :: as, congrArg (List.cons cell) hcs, by simp [hbefore], ?_, hparen⟩
      rw [depthFrom, hstep]
      exact hdepth
    cases htop : Site.isTop depth cell with
    | false =>
      rw [htop] at hs
      exact hlater hs
    | true =>
      rw [htop] at hs
      rcases List.mem_cons.1 hs with rfl | hs
      · simp only [Site.isTop, Bool.and_eq_true, beq_iff_eq, Bool.not_eq_true'] at htop
        obtain ⟨⟨rfl, h₁⟩, h₂⟩ := htop
        exact ⟨[], rfl, rfl, rfl, h₁, h₂⟩
      · exact hlater hs

/-- Outside all parentheses a text comes apart into two texts whose parentheses balance. -/
theorem exists_of_mem_outside {s : Site} (h : Level cs) (hs : s ∈ outside cs) :
    cs = s.before.reverse ++ s.cell :: s.after ∧ Level s.before.reverse ∧ Level s.after := by
  obtain ⟨as, hcs, hbefore, hlevel, h₁, h₂⟩ := exists_of_mem_topFrom h hs
  have has : s.before.reverse = as := by rw [hbefore, List.append_nil, List.reverse_reverse]
  rw [has]
  refine ⟨hcs, hlevel, ?_⟩
  rw [hcs] at h
  exact (h.of_append hlevel).of_cons h₁ h₂

theorem exists_of_lowest {split : Split} (h : Level cs) (hlow : lowest cs = some split) :
    ∃ as bs c, cs = as ++ ⟨c, .live⟩ :: bs ∧ Symbol.ofChar? c = some split.symbol ∧ split.left = text as ∧
      split.right = text bs ∧ Level as ∧ Level bs := by
  rw [lowest_eq h] at hlow
  obtain ⟨s, hloosest, hsplit⟩ := Option.bind_eq_some_iff.1 hlow
  obtain ⟨symbol, hsymbol, rfl⟩ := Option.map_eq_some_iff.1 hsplit
  obtain ⟨hcs, hbefore, hafter⟩ := exists_of_mem_outside h (Site.mem_of_loosest hloosest)
  unfold Site.operator? at hsymbol
  split_ifs at hsymbol with hlive
  have hcell : s.cell = ⟨s.cell.char, .live⟩ := by
    rw [← beq_iff_eq.1 (show (s.cell.role == .live) = true from hlive)]
  refine ⟨s.before.reverse, s.after, s.cell.char, ?_, (Option.filter_eq_some_iff.1 hsymbol).1, rfl, rfl, hbefore, hafter⟩
  rwa [← hcell]

/-- No separator stands outside all parentheses, from a given depth on. -/
def Undivided (sep : Char) (depth : Nat) (cs : List Cell) : Prop :=
  ∀ as bs, cs = as ++ ⟨sep, .live⟩ :: bs → depthFrom depth as ≠ some 0

theorem Undivided.cons {sep : Char} {next : Nat} (hstep : depthStep depth cell = some next)
    (hsep : (depth == 0 && cell.holds sep) = false) (h : Undivided sep next cs) : Undivided sep depth (cell :: cs) := by
  intro as bs hcs hdepth
  cases as with
  | nil =>
    obtain ⟨rfl, -⟩ := List.cons.inj hcs
    obtain rfl : depth = 0 := Option.some.inj hdepth
    exact absurd hsep (by simp [holds, isLive])
  | cons x as =>
    obtain ⟨rfl, hrest⟩ := List.cons.inj hcs
    rw [depthFrom, hstep] at hdepth
    exact h as bs hrest hdepth

/-- Dividing at separators takes off what stands before the first one outside all parentheses, if there is one. -/
theorem splitFrom_cases (sep : Char) (h : depthFrom depth cs = some 0) :
    Undivided sep depth cs ∧ splitFrom sep depth cs = [text cs] ∨
      ∃ as bs, cs = as ++ ⟨sep, .live⟩ :: bs ∧ depthFrom depth as = some 0 ∧ Undivided sep depth as ∧
        splitFrom sep depth cs = text as :: splitFrom sep 0 bs := by
  have hnil : ∀ depth, Undivided sep depth [] := fun _ as bs hcs => absurd hcs.symm (by simp)
  induction cs generalizing depth with
  | nil => exact .inl ⟨hnil depth, rfl⟩
  | cons cell cs ih =>
    obtain ⟨next, hstep, hrest⟩ := Option.bind_eq_some_iff.1 h
    rw [splitFrom, depthAfter_of_depthStep hstep]
    split_ifs with hsep
    · obtain ⟨hdepth, hholds⟩ := Bool.and_eq_true_iff.1 hsep
      obtain rfl := beq_iff_eq.1 hdepth
      exact .inr ⟨[], cs, by rw [eq_of_holds hholds]; rfl, rfl, hnil 0, rfl⟩
    · have hother : (depth == 0 && cell.holds sep) = false := by simpa using hsep
      rcases ih hrest with ⟨hnone, hsplit⟩ | ⟨as, bs, rfl, hdepth, hnone, hsplit⟩
      · left
        refine ⟨hnone.cons hstep hother, ?_⟩
        rw [hsplit]
        rfl
      · right
        refine ⟨cell :: as, bs, rfl, ?_, hnone.cons hstep hother, ?_⟩
        · rw [depthFrom, hstep]
          exact hdepth
        · rw [hsplit]
          rfl

/-! ## Groups -/

/-- The parenthesis that closes at the end closes what balances. -/
theorem exists_of_closesAtEnd (h : closesAtEnd (depth + 1) cs = true) :
    ∃ inner, cs = inner ++ [closing] ∧ depthFrom depth inner = some 0 := by
  induction cs generalizing depth with
  | nil => exact absurd h (by simp [closesAtEnd])
  | cons cell cs ih =>
    rw [closesAtEnd] at h
    split_ifs at h with hend
    · obtain rfl : cs = [] := List.isEmpty_iff.1 h
      unfold depthAfter at hend
      split_ifs at hend with h₁ h₂
      obtain rfl : depth = 0 := hend
      exact ⟨[], by rw [eq_of_holds h₂]; rfl, rfl⟩
    · obtain ⟨next, hnext⟩ := Nat.exists_eq_succ_of_ne_zero hend
      rw [hnext] at h
      obtain ⟨inner, rfl, hinner⟩ := ih h
      have hstep : depthStep depth cell = some next := by
        unfold depthAfter at hnext
        unfold depthStep
        split_ifs at hnext ⊢ with h₁ h₂ h₃
        · exact congrArg some (by omega)
        · exact absurd hnext (by omega)
        · exact congrArg some (by omega)
        · exact congrArg some (by omega)
      refine ⟨cell :: inner, rfl, ?_⟩
      rw [depthFrom, hstep]
      exact hinner

/-- What is enclosed stands between a parenthesis and its partner at the end, and balances. -/
theorem exists_of_enclosed {head inside : Text} (h : enclosed cs = some (head, inside)) :
    ∃ front inner, cs = front ++ opening :: (inner ++ [closing]) ∧ head = text front ∧ inside = text inner ∧
      Level inner := by
  have hwhole := List.takeWhile_append_dropWhile (p := fun cell : Cell => !cell.holds '(') (l := cs)
  unfold enclosed at h
  split at h
  · exact absurd h (by simp)
  · next first rest hdrop =>
    split_ifs at h with hclose
    obtain ⟨rfl, rfl⟩ := Prod.mk.inj (Option.some.inj h)
    obtain ⟨inner, rfl, hinner⟩ := exists_of_closesAtEnd hclose
    have hfirst : first = opening := by
      have hhead := List.head?_dropWhile_not (fun cell : Cell => !cell.holds '(') cs
      rw [hdrop] at hhead
      exact eq_of_holds (by simpa using hhead)
    refine ⟨cs.takeWhile fun cell => !cell.holds '(', inner, ?_, rfl, by rw [List.dropLast_concat], hinner⟩
    rw [hdrop, hfirst] at hwhole
    exact hwhole.symm

end Cell

end MissionScript
