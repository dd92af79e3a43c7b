/-
What a text is scanned for, and what a part of it is.

`scan` sums up the roles of the characters of a text: which of them are hidden, where inverse markers begin, and where the
outermost bracket literals lie. A part reads alike in a text when its characters have the roles that they have on their own.
Then whatever it is scanned for is found in it as in the text.

- `ReadsAlike.scan_eq`: the scan of a part that reads alike is that of the text, restricted to the part.
- `ReadsAlike.before_live`, `ReadsAlike.behind_live`: what stands on the sides of a live character reads alike.
- `ReadsAlike.trimmed`: so does a text without the blanks around it.
- `isBracketLiteral_iff`: a text is one bracket literal when its scan finds one that begins and ends with it.
-/
import MissionScript.Proofs.Cell.Cut
import MissionScript.Proofs.Cell.Enclosure

namespace MissionScript

open Cell

variable {t u v part whole : Text} {as bs cs : List Cell} {c : Char} {start : Nat}

/-- what a text is scanned for -/
structure Scan where
  /-- for each character, true when it is hidden -/
  mask : List Bool
  /-- where the inverse markers begin -/
  markers : List Nat
  /-- where the outermost bracket literals that close begin and end -/
  groups : List (Nat × Nat)
  deriving DecidableEq, Repr

/-- what is found in a part, counted from where it begins -/
def Scan.restrict (s : Scan) (start length : Nat) : Scan where
  mask := (s.mask.drop start).take length
  markers := (s.markers.filter fun i => start ≤ i && i < start + length).map (· - start)
  groups := (s.groups.filter fun g => start ≤ g.1 && g.2 ≤ start + length).map fun g => (g.1 - start, g.2 - start)

namespace Cell

/-- where the inverse markers begin, the first cell being counted as given -/
def markersFrom (k : Nat) : List Cell → List Nat
  | [] => []
  | cell :: rest => if cell.role = .inverse 4 then k :: markersFrom (k + 1) rest else markersFrom (k + 1) rest

/-- the length of the outermost bracket literal that begins with a cell, given the cells behind it -/
def literal? (cell : Cell) (rest : List Cell) : Option Nat :=
  if cell.role = .bracket 1 ∧ (cell.char = '[' ∨ cell.char = '{') then
    (rest.findIdx? fun cell => cell.role == .bracket 0).map (· + 2)
  else none

/-- where the outermost bracket literals begin and end, the first cell being counted as given -/
def groupsFrom (k : Nat) : List Cell → List (Nat × Nat)
  | [] => []
  | cell :: rest =>
    match literal? cell rest with
    | some n => (k, k + n) :: groupsFrom (k + 1) rest
    | none => groupsFrom (k + 1) rest

end Cell

/-- what a text is scanned for, by the roles of its characters -/
def scan (t : Text) : Scan := ⟨(cells t).map fun cell => !cell.isLive, markersFrom 0 (cells t), groupsFrom 0 (cells t)⟩

/-! ## Markers and literals of a part -/

namespace Cell

variable {k n : Nat}

theorem markersFrom_append (k : Nat) (as bs : List Cell) :
    markersFrom k (as ++ bs) = markersFrom k as ++ markersFrom (k + as.length) bs := by
  induction as generalizing k with
  | nil => rfl
  | cons cell as ih =>
    have hlength : k + (cell :: as).length = k + 1 + as.length := by rw [List.length_cons]; omega
    rw [List.cons_append, markersFrom, markersFrom, ih, hlength]
    split_ifs <;> rfl

theorem of_mem_markersFrom {i : Nat} (h : i ∈ markersFrom k cs) : k ≤ i ∧ i < k + cs.length := by
  induction cs generalizing k with
  | nil => exact absurd h List.not_mem_nil
  | cons cell cs ih =>
    rw [markersFrom] at h
    rw [List.length_cons]
    have hlater : i ∈ markersFrom (k + 1) cs → k ≤ i ∧ i < k + (cs.length + 1) := by
      intro hi
      have hbounds := ih hi
      omega
    split_ifs at h
    · rcases List.mem_cons.1 h with rfl | h
      · omega
      · exact hlater h
    · exact hlater h

theorem markersFrom_add (k n : Nat) (cs : List Cell) : markersFrom (k + n) cs = (markersFrom k cs).map (· + n) := by
  induction cs generalizing k with
  | nil => rfl
  | cons cell cs ih =>
    rw [markersFrom, markersFrom, Nat.add_right_comm, ih]
    split_ifs <;> rfl

/-- Of the markers of the whole those that begin in a part are those of the part. -/
theorem markersFrom_restrict (as cs bs : List Cell) :
    ((markersFrom 0 (as ++ (cs ++ bs))).filter fun i => as.length ≤ i && i < as.length + cs.length).map
        (· - as.length) = markersFrom 0 cs := by
  have hbefore : (markersFrom 0 as).filter (fun i => as.length ≤ i && i < as.length + cs.length) = [] := by
    refine List.filter_eq_nil_iff.2 fun i hi => ?_
    have hbounds := of_mem_markersFrom hi
    simp only [Bool.and_eq_true, decide_eq_true_eq]
    omega
  have hinside : (markersFrom (0 + as.length) cs).filter (fun i => as.length ≤ i && i < as.length + cs.length) =
      markersFrom (0 + as.length) cs := by
    refine List.filter_eq_self.2 fun i hi => ?_
    have hbounds := of_mem_markersFrom hi
    simp only [Bool.and_eq_true, decide_eq_true_eq]
    omega
  have hbehind : (markersFrom (0 + as.length + cs.length) bs).filter
      (fun i => as.length ≤ i && i < as.length + cs.length) = [] := by
    refine List.filter_eq_nil_iff.2 fun i hi => ?_
    have hbounds := of_mem_markersFrom hi
    simp only [Bool.and_eq_true, decide_eq_true_eq]
    omega
  rw [markersFrom_append, markersFrom_append, List.filter_append, List.filter_append, hbefore, hinside, hbehind,
    List.nil_append, List.append_nil, markersFrom_add, List.map_map]
  simp [Function.comp_def]

theorem literal?_le {cell : Cell} (h : literal? cell cs = some n) : 0 < n ∧ n ≤ cs.length + 1 := by
  unfold literal? at h
  split_ifs at h
  obtain ⟨i, hi, rfl⟩ := Option.map_eq_some_iff.1 h
  obtain ⟨hlt, -⟩ := List.findIdx?_eq_some_iff_getElem.1 hi
  omega

/-- A literal that begins in a part is one of the part, or it ends behind the part. -/
theorem literal?_append (cell : Cell) (cs bs : List Cell) :
    literal? cell (cs ++ bs) = literal? cell cs ∨
      literal? cell cs = none ∧ ∃ n, literal? cell (cs ++ bs) = some n ∧ cs.length + 1 < n := by
  unfold literal?
  split_ifs
  · rw [List.findIdx?_append]
    cases cs.findIdx? fun cell => cell.role == .bracket 0 with
    | some i => exact .inl rfl
    | none =>
      cases bs.findIdx? fun cell => cell.role == .bracket 0 with
      | some i => exact .inr ⟨rfl, i + cs.length + 2, rfl, by omega⟩
      | none => exact .inl rfl
  · exact .inl rfl

theorem of_mem_groupsFrom {g : Nat × Nat} (h : g ∈ groupsFrom k cs) : k ≤ g.1 ∧ g.1 < g.2 := by
  induction cs generalizing k with
  | nil => exact absurd h List.not_mem_nil
  | cons cell cs ih =>
    have hlater : g ∈ groupsFrom (k + 1) cs → k ≤ g.1 ∧ g.1 < g.2 := by
      intro hg
      have hbounds := ih hg
      omega
    rw [groupsFrom] at h
    split at h
    · next n hn =>
      rcases List.mem_cons.1 h with rfl | h
      · have hpositive := (literal?_le hn).1
        simp only
        omega
      · exact hlater h
    · exact hlater h

theorem groupsFrom_add (k n : Nat) (cs : List Cell) :
    groupsFrom (k + n) cs = (groupsFrom k cs).map fun g => (g.1 + n, g.2 + n) := by
  induction cs generalizing k with
  | nil => rfl
  | cons cell cs ih =>
    rw [groupsFrom, groupsFrom, Nat.add_right_comm, ih]
    cases literal? cell cs with
    | none => rfl
    | some m => simp only [List.map_cons, Nat.add_right_comm k n m]

/-- Of the literals of the whole those that begin where a part does, or behind, are those of the rest. -/
theorem groupsFrom_drop (k : Nat) (as cs : List Cell) :
    (groupsFrom k (as ++ cs)).filter (fun g => k + as.length ≤ g.1) = groupsFrom (k + as.length) cs := by
  induction as generalizing k with
  | nil =>
    refine List.filter_eq_self.2 fun g hg => ?_
    simpa using (of_mem_groupsFrom hg).1
  | cons cell as ih =>
    have hlength : k + (cell :: as).length = k + 1 + as.length := by rw [List.length_cons]; omega
    rw [List.cons_append, groupsFrom, hlength, ← ih]
    cases literal? cell (as ++ cs) with
    | none => rfl
    | some n => exact List.filter_cons_of_neg (by simp only [decide_eq_true_eq]; omega)

/-- Of the literals of the whole those that end where a part does, or before, are those of the part. -/
theorem groupsFrom_take (k : Nat) (cs bs : List Cell) :
    (groupsFrom k (cs ++ bs)).filter (fun g => g.2 ≤ k + cs.length) = groupsFrom k cs := by
  induction cs generalizing k with
  | nil =>
    refine List.filter_eq_nil_iff.2 fun g hg => ?_
    have hbounds := of_mem_groupsFrom hg
    simp only [List.length_nil, decide_eq_true_eq]
    omega
  | cons cell cs ih =>
    have hlength : k + (cell :: cs).length = k + 1 + cs.length := by rw [List.length_cons]; omega
    rw [List.cons_append, groupsFrom, groupsFrom, hlength, ← ih]
    rcases literal?_append cell cs bs with hsame | ⟨hnone, n, hn, hlt⟩
    · rw [hsame]
      cases hliteral : literal? cell cs with
      | none => rfl
      | some n =>
        have hle := (literal?_le hliteral).2
        exact List.filter_cons_of_pos (by simp only [decide_eq_true_eq]; omega)
    · rw [hnone, hn]
      exact List.filter_cons_of_neg (by simp only [decide_eq_true_eq]; omega)

/-- Of the literals of the whole those that lie in a part are those of the part. -/
theorem groupsFrom_restrict (as cs bs : List Cell) :
    ((groupsFrom 0 (as ++ (cs ++ bs))).filter fun g => as.length ≤ g.1 && g.2 ≤ as.length + cs.length).map
        (fun g => (g.1 - as.length, g.2 - as.length)) = groupsFrom 0 cs := by
  have hdrop := groupsFrom_drop 0 as (cs ++ bs)
  have htake := groupsFrom_take (0 + as.length) cs bs
  simp only [Nat.zero_add] at hdrop htake
  have hsplit : (groupsFrom 0 (as ++ (cs ++ bs))).filter
      (fun g => as.length ≤ g.1 && g.2 ≤ as.length + cs.length) = groupsFrom as.length cs := by
    rw [← htake, ← hdrop, List.filter_filter]
    simp only [Bool.and_comm]
  have hshift := groupsFrom_add 0 as.length cs
  rw [Nat.zero_add] at hshift
  rw [hsplit, hshift, List.map_map]
  simp [Function.comp_def]

theorem closesBracketAtEnd_iff : closesBracketAtEnd cs = true ↔
    ∃ i, cs.findIdx? (fun cell => cell.role == .bracket 0) = some i ∧ i + 1 = cs.length := by
  induction cs with
  | nil => simp [closesBracketAtEnd]
  | cons cell cs ih =>
    rw [closesBracketAtEnd, List.findIdx?_cons]
    cases cell.role == .bracket 0 with
    | true =>
      cases cs with
      | nil => exact iff_of_true rfl ⟨0, rfl, rfl⟩
      | cons next cs => exact iff_of_false (by simp) (by simp)
    | false =>
      rw [if_neg (by decide), if_neg (by decide), ih]
      constructor
      · rintro ⟨i, hi, hlength⟩
        exact ⟨i + 1, by rw [hi]; rfl, congrArg (· + 1) hlength⟩
      · rintro ⟨_, hi, hlength⟩
        obtain ⟨i, hfound, rfl⟩ := Option.map_eq_some_iff.1 hi
        exact ⟨i, hfound, Nat.succ.inj hlength⟩

/-- The first cell of a text belongs to a bracket literal only if it opens one. -/
theorem opens_of_bracket {d : Nat} {rest : Text} (h : (Posture.start.advance c rest).1 = .bracket d) :
    d = 1 ∧ (c = '[' ∨ c = '{') := by
  change (Posture.advance ⟨.code, 0, []⟩ c rest).1 = .bracket d at h
  simp only [Posture.advance] at h
  split at h
  · exact absurd h (by simp)
  · split at h
    · next hopens =>
      obtain rfl : 0 + 1 = d := by simpa using h
      exact ⟨rfl, by simpa using hopens⟩
    · split at h
      · exact absurd h (by simp)
      · split at h <;> exact absurd h (by simp)

/-- **A text is one bracket literal** when the first that is found begins and ends with it. -/
theorem isBracketLiteral_iff (t : Text) :
    isBracketLiteral (cells t) = true ↔ (scan t).groups.head? = some (0, t.length) := by
  cases t with
  | nil => simp [cells, cellsFrom, isBracketLiteral, scan, groupsFrom]
  | cons c rest =>
    have hlength := length_cells (c :: rest)
    obtain ⟨cs, hcells⟩ : ∃ cs, cells (c :: rest) = ⟨c, (Posture.start.advance c rest).1⟩ :: cs := ⟨_, rfl⟩
    have hlater : (groupsFrom (0 + 1) cs).head? ≠ some (0, (c :: rest).length) := by
      intro hhead
      have hbounds := of_mem_groupsFrom (List.mem_of_head? hhead)
      omega
    rw [scan, hcells, groupsFrom, literal?]
    rw [hcells, List.length_cons] at hlength
    cases hrole : (Posture.start.advance c rest).1 with
    | bracket d =>
      obtain ⟨rfl, hopens⟩ := opens_of_bracket hrole
      rw [isBracketLiteral, closesBracketAtEnd_iff, if_pos ⟨rfl, hopens⟩]
      cases hfind : cs.findIdx? fun cell => cell.role == .bracket 0 with
      | none => exact iff_of_false (by simp) hlater
      | some i =>
        simp only [Option.some.injEq, exists_eq_left', Option.map_some, List.head?_cons, Prod.mk.injEq, true_and]
        omega
    | _ =>
      rw [if_neg (by simp)]
      exact iff_of_false (by simp [isBracketLiteral]) hlater

end Cell

/-! ## Parts that read alike -/

/-- The part stands at the given place of the whole, and its characters have the roles there that they have on their own. -/
def ReadsAlike (whole : Text) (start : Nat) (part : Text) : Prop :=
  ∃ as bs, cells whole = as ++ (cells part ++ bs) ∧ as.length = start

namespace ReadsAlike

theorem refl (t : Text) : ReadsAlike t 0 t := ⟨[], [], by simp, rfl⟩

theorem trans {i j : Nat} (hu : ReadsAlike t i u) (hv : ReadsAlike u j v) : ReadsAlike t (i + j) v := by
  obtain ⟨as, bs, ht, rfl⟩ := hu
  obtain ⟨cs, ds, hu, rfl⟩ := hv
  exact ⟨as ++ cs, ds ++ bs, by rw [ht, hu]; simp, List.length_append⟩

theorem of_front (h : cells t = cells u ++ bs) : ReadsAlike t 0 u := ⟨[], bs, h, rfl⟩

theorem of_suffix (h : cells t = as ++ cells u) : ReadsAlike t (t.length - u.length) u := by
  refine ⟨as, [], by rw [h, List.append_nil], ?_⟩
  have hlength := congrArg List.length h
  rw [List.length_append, length_cells, length_cells] at hlength
  omega

theorem length_le (h : ReadsAlike whole start part) : start + part.length ≤ whole.length := by
  obtain ⟨as, bs, hcells, rfl⟩ := h
  have hlength := congrArg List.length hcells
  rw [List.length_append, List.length_append, length_cells, length_cells] at hlength
  omega

theorem suffix_trans (hu : ReadsAlike t (t.length - u.length) u) (hv : ReadsAlike u (u.length - v.length) v) :
    ReadsAlike t (t.length - v.length) v := by
  have hplace : t.length - v.length = t.length - u.length + (u.length - v.length) := by
    have hu' := hu.length_le
    have hv' := hv.length_le
    omega
  rw [hplace]
  exact hu.trans hv

theorem eq_take (h : ReadsAlike whole start part) : part = (whole.drop start).take part.length := by
  obtain ⟨as, bs, hcells, rfl⟩ := h
  have htext := congrArg text hcells
  rw [text, text, List.map_append, List.map_append, ← text, ← text, ← text, ← text, text_cells, text_cells] at htext
  rw [htext, ← length_text as, List.drop_left, List.take_left]

/-- **A part that reads alike is scanned alike.** What is found in it on its own is what is found in its place. -/
theorem scan_eq (h : ReadsAlike whole start part) : scan part = (scan whole).restrict start part.length := by
  obtain ⟨as, bs, hcells, rfl⟩ := h
  have hlength : (cells part).length = part.length := length_cells part
  have hmask : ((as ++ (cells part ++ bs)).map fun cell => !cell.isLive) =
      (as.map fun cell => !cell.isLive) ++ ((cells part).map (fun cell => !cell.isLive) ++
        bs.map fun cell => !cell.isLive) := by
    rw [List.map_append, List.map_append]
  have hmarkers := markersFrom_restrict as (cells part) bs
  have hgroups := groupsFrom_restrict as (cells part) bs
  rw [hlength] at hmarkers hgroups
  rw [scan, scan, Scan.restrict, hcells, hmarkers, hgroups, hmask]
  congr 1
  rw [List.drop_left' (by simp), List.take_left' (by simp [hlength])]

/-! ### Cuts -/

theorem before_live (h : cells t = as ++ ⟨c, .live⟩ :: bs) (hdigit : c.isDigit = false) : ReadsAlike t 0 (text as) := by
  refine ⟨[], ⟨c, .live⟩ :: bs, ?_, rfl⟩
  rw [cells_before h hdigit, h]
  rfl

theorem behind_live (h : cells t = as ++ ⟨c, .live⟩ :: bs) (hfollows : ∀ u, Posture.followsOperand (c :: u) = false) :
    ReadsAlike t (t.length - (text bs).length) (text bs) := by
  have hcells : cells t = (as ++ [⟨c, .live⟩]) ++ cells (text bs) := by
    rw [cells_behind h hfollows, h, List.append_cons]
  exact of_suffix hcells

theorem trimStart (t : Text) : ReadsAlike t (t.length - (Text.trimStart t).length) (Text.trimStart t) := by
  obtain ⟨b, hb, ht⟩ := Text.exists_eq_append_trimStart t
  obtain ⟨cs, hcells, -⟩ := cells_blank_append hb (Text.trimStart t)
  rw [← ht] at hcells
  exact of_suffix hcells

/-- **A text without the blanks around it reads alike.** -/
theorem trimmed (t : Text) : ReadsAlike t (t.length - (Text.trimStart t).length) (Text.trim t) := by
  obtain ⟨b, hb, ht⟩ := Text.exists_eq_trimEnd_append (Text.trimStart t)
  have hcells := cellsFrom_append_blank Posture.start hb (t := Text.trimEnd (Text.trimStart t))
  rw [← ht] at hcells
  exact (trimStart t).trans (of_front hcells)

theorem of_sign (hc : c = '+' ∨ c = '-') (t : Text) : ReadsAlike (c :: t) ((c :: t).length - t.length) t := by
  have hmem : c ∈ separators := by rcases hc with rfl | rfl <;> decide
  have hcaret : c ≠ '^' := by rcases hc with rfl | rfl <;> decide
  have hcells : cells (c :: t) = [⟨c, .live⟩] ++ cells t := Reads.nil.cells_append hmem fun h => absurd h hcaret
  exact of_suffix hcells

end ReadsAlike

end MissionScript
