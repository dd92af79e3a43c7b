/-
What stands before a sign.

In an orderly text commas stand in calls only, and there are neither strings nor bracket literals nor equals signs. This
passes to the texts that it is divided into (`Orderly.passes`), so that none of them has a comma outside its parentheses.
- `Posture.role_behind`: a hidden character has its successor right behind it.
- `Orderly.opener`: outside all parentheses nothing but an operator makes a `+` or `-` behind it a sign.
-/
import MissionScript.Proofs.Cell.Strings
import MissionScript.Proofs.Expression.Division

namespace MissionScript

open Cell Posture

variable {t : Text} {as bs cs inner front : List Cell} {x y : Cell} {c : Char} {p : Posture}

/-! ## Hidden characters -/

namespace Posture

theorem context_of_exponentSign (h : (p.advance c t).1 = .exponentSign) : p.context = .exponent := by
  obtain ⟨context, depth, before⟩ := p
  cases context with
  | string quote => exact absurd h (by simp [advance])
  | exponent => rfl
  | marker n => cases n <;> exact absurd h (by simp [advance])
  | code =>
    cases depth <;>
    · simp only [advance] at h
      split_ifs at h

/-- Behind a character of a marker that is not the last one the marker goes on. -/
theorem context_behind_inverse {n : Nat} (h : (p.advance c t).1 = .inverse (n + 1)) :
    (p.advance c t).2.context = .marker n := by
  obtain ⟨context, depth, before⟩ := p
  cases context with
  | string quote => exact absurd h (by simp [advance])
  | exponent => exact absurd h (by simp [advance])
  | marker m =>
    cases m with
    | zero => exact absurd h (by simp [advance])
    | succ m =>
      obtain rfl : m = n := by simpa [advance] using h
      rfl
  | code =>
    cases depth with
    | succ depth =>
      simp only [advance] at h
      split_ifs at h
    | zero =>
      simp only [advance] at h ⊢
      split_ifs at h ⊢ with hquote hopen hmarker
      obtain rfl : n = 3 := by simpa using h
      rfl

/-- The sign of an exponent has a digit behind it, and a character of a marker the next one. -/
theorem role_behind (h : p.Due t) (hcells : cellsFrom p t = as ++ x :: y :: bs) :
    (x.role = .exponentSign → y.char.isDigit = true) ∧
      ∀ n, x.role = .inverse (n + 1) → y.role = .inverse n ∧ isBlank y.char = false := by
  induction as generalizing p t with
  | nil =>
    obtain ⟨c, d, t, rfl⟩ : ∃ c d u, t = c :: d :: u := by
      match t with
      | [] => exact absurd hcells (by simp [cellsFrom])
      | [c] => exact absurd hcells (by simp [cellsFrom])
      | c :: d :: u => exact ⟨c, d, u, rfl⟩
    obtain ⟨rfl, hrest⟩ := List.cons.inj hcells
    obtain ⟨rfl, -⟩ := List.cons.inj hrest
    -- what the posture still owes fixes the next character
    have hnext := h.advance
    constructor
    · intro hrole
      have hcontext : p.context = .exponent := context_of_exponentSign hrole
      rw [Due, hcontext] at h
      exact (Bool.and_eq_true_iff.1 h).2
    · intro n hrole
      have hcontext : (p.advance c (d :: t)).2.context = .marker n := context_behind_inverse hrole
      rw [Due, hcontext] at hnext
      obtain ⟨taken, hprefix, hsuffix, hlength⟩ := hnext
      obtain ⟨e, taken, rfl⟩ := List.exists_cons_of_length_eq_add_one hlength
      obtain rfl : e = d := (List.cons_prefix_cons.1 hprefix).1
      exact ⟨role_of_marker hcontext, not_isBlank_of_mem_marker e (hsuffix.subset List.mem_cons_self)⟩
  | cons cell as ih =>
    obtain ⟨c, t, rfl⟩ : ∃ c u, t = c :: u := by
      cases t with
      | nil => exact absurd hcells (by simp [cellsFrom])
      | cons c u => exact ⟨c, u, rfl⟩
    exact ih h.advance (List.cons.inj hcells).2

theorem char_of_inverse (h : p.Due t) (hx : x ∈ cellsFrom p t) (hrole : x.role = .inverse 0) : x.char = ')' := by
  induction t generalizing p with
  | nil => exact absurd hx List.not_mem_nil
  | cons c t ih =>
    rcases List.mem_cons.1 hx with rfl | hx
    · rw [Due, context_of_inverse hrole] at h
      obtain ⟨taken, hprefix, hsuffix, hlength⟩ := h
      obtain ⟨d, rfl⟩ := List.length_eq_one_iff.1 hlength
      obtain rfl : d = c := (List.cons_prefix_cons.1 hprefix).1
      have hlast : [d].getLast? = [')'].getLast? := by
        obtain ⟨u, hu⟩ := hsuffix
        rw [show ['(', '-', '1', ')'] = ['(', '-', '1'] ++ [')'] from rfl] at hu
        rw [(List.append_inj' hu rfl).2]
      exact Option.some.inj hlast
    · exact ih h.advance hx

/-- Where no quote and no bracket opens, all is live but exponents and markers. -/
theorem role_of_plain (hcontext : ∀ quote, p.context ≠ .string quote) (hdepth : p.depth = 0)
    (ht : ∀ c ∈ t, c ∉ ['"', '\'', '[', '{']) (hx : x ∈ cellsFrom p t) :
    x.role = .live ∨ x.role = .exponentSign ∨ ∃ n, x.role = .inverse n := by
  induction t generalizing p with
  | nil => exact absurd hx List.not_mem_nil
  | cons c t ih =>
    have hstep : (∀ quote, (p.advance c t).2.context ≠ .string quote) ∧ (p.advance c t).2.depth = 0 ∧
        ((p.advance c t).1 = .live ∨ (p.advance c t).1 = .exponentSign ∨ ∃ n, (p.advance c t).1 = .inverse n) := by
      have hc := ht c List.mem_cons_self
      obtain ⟨context, depth, before⟩ := p
      obtain rfl : depth = 0 := hdepth
      cases context with
      | string quote => exact absurd rfl (hcontext quote)
      | exponent => simp [advance]
      | marker n => cases n <;> simp [advance]
      | code =>
        simp only [List.mem_cons, List.not_mem_nil, or_false, not_or] at hc
        simp only [advance, hc, beq_iff_eq, Bool.or_eq_true, Bool.and_eq_true, or_self, false_and, if_false]
        split_ifs <;> simp
    rcases List.mem_cons.1 hx with rfl | hx
    · exact hstep.2.2
    · exact ih hstep.1 hstep.2.1 (fun d hd => ht d (List.mem_cons_of_mem c hd)) hx

end Posture

/-! ## Open parentheses -/

namespace Cell

theorem depthFrom_open (hinner : Level inner) (depth : Nat) (front : List Cell) :
    depthFrom depth (front ++ opening :: inner) = (depthFrom depth front).map (· + 1) := by
  rw [depthFrom_append]
  cases depthFrom depth front with
  | none => rfl
  | some k =>
    have hopen : depthFrom k (opening :: inner) = depthFrom (k + 1) inner := rfl
    have hlevel := depthFrom_add (show depthFrom 0 inner = some 0 from hinner) (k + 1)
    rw [Nat.zero_add] at hlevel
    rw [Option.bind_some, hopen, hlevel]
    rfl

theorem not_level_open (hinner : Level inner) (front : List Cell) : ¬Level (front ++ opening :: inner) := by
  intro hlevel
  rw [Level, depthFrom_open hinner] at hlevel
  obtain ⟨k, -, hk⟩ := Option.map_eq_some_iff.1 hlevel
  exact absurd hk (by omega)

/-- What begins cells that are level has a depth, and cells that it completes to level ones are level before it. -/
theorem Level.of_overlap (h : Level (as ++ bs)) (hoverlap : Level (bs ++ cs)) : Level as ∧ Level bs := by
  rw [Level, depthFrom_append] at h hoverlap
  obtain ⟨d, has, hbs⟩ := Option.bind_eq_some_iff.1 h
  obtain ⟨k, hk, -⟩ := Option.bind_eq_some_iff.1 hoverlap
  have hadd := depthFrom_add hk d
  rw [Nat.zero_add, hbs] at hadd
  have hzero : 0 = k + d := Option.some.inj hadd
  obtain ⟨rfl, rfl⟩ : k = 0 ∧ d = 0 := by omega
  exact ⟨has, hk⟩

end Cell

theorem not_mem_of_blank (hc : isBlank c = false) (hblank : ∀ cell ∈ bs, isBlank cell.char = true) : ⟨c, .live⟩ ∉ bs := by
  intro hmem
  exact absurd ((hblank _ hmem).symm.trans hc) (by decide)

theorem not_paren_of_blank (hblank : ∀ cell ∈ bs, isBlank cell.char = true) :
    ∀ cell ∈ bs, cell.holds '(' = false ∧ cell.holds ')' = false := by
  have hne : ∀ d, isBlank d = false → ∀ cell ∈ bs, cell.holds d = false := by
    intro d hd cell hcell
    by_contra hholds
    obtain rfl : cell = ⟨d, .live⟩ := eq_of_holds (by simpa using hholds)
    exact absurd hcell (not_mem_of_blank hd hblank)
  exact fun cell hcell => ⟨hne '(' rfl cell hcell, hne ')' rfl cell hcell⟩

/-! ## Orderly texts -/

/-- The innermost parenthesis that is open behind the cells has a name before it. -/
def InCall (as : List Cell) : Prop :=
  ∃ front inner, as = front ++ opening :: inner ∧ Level inner ∧ ∃ cell ∈ front.getLast?, isWordChar cell.char = true

theorem InCall.not_level (h : InCall as) : ¬Level as := by
  obtain ⟨front, inner, rfl, hinner, -⟩ := h
  exact not_level_open hinner front

/-- what opens a string or a bracket literal, or separates equations -/
def strangers : Text := ['"', '\'', '[', '{', '=', ';']

/-- The parentheses balance, commas stand in calls only, and nothing opens a string or separates equations. -/
structure Orderly (cs : List Cell) : Prop where
  level : Level cs
  commas : ∀ as bs, cs = as ++ ⟨',', .live⟩ :: bs → InCall as
  plain : ∀ cell ∈ cs, cell.char ∉ strangers

namespace Orderly

/-- A comma in a part is in a call of the part, or the part is not cut out where it may be. -/
theorem inCall_of_cut (h : InCall (as ++ bs)) (hlast : ∀ cell ∈ as.getLast?, isWordChar cell.char = false)
    (hoverlap : Level (bs ++ cs)) : InCall bs ∨ ¬Level as ∧ Level bs := by
  obtain ⟨front, inner, heq, hinner, cell, hcell, hword⟩ := h
  have hstop : front ≠ as := by
    rintro rfl
    exact absurd (hword.symm.trans (hlast cell hcell)) (by decide)
  rcases List.append_eq_append_iff.1 heq with ⟨m, rfl, rfl⟩ | ⟨m, rfl, hm⟩
  · have hm : m ≠ [] := by
      rintro rfl
      exact hstop (List.append_nil as)
    rw [List.getLast?_append_of_ne_nil _ hm] at hcell
    exact .inl ⟨m, inner, rfl, hinner, cell, hcell, hword⟩
  · cases m with
    | nil => exact absurd (List.append_nil front).symm hstop
    | cons d m =>
      obtain ⟨rfl, rfl⟩ := List.cons.inj hm
      obtain ⟨hlevel, hbs⟩ := Level.of_overlap hinner hoverlap
      exact .inr ⟨not_level_open hlevel front, hbs⟩

theorem passes : Passes Orderly where
  level h := h.level
  cut := by
    intro as bs cs h hlevel hlast hcut
    refine ⟨hlevel, ?_, fun cell hcell => h.plain cell (by simp [hcell])⟩
    rintro x y rfl
    have hcall : InCall (as ++ x) := h.commas (as ++ x) (y ++ cs) (by simp)
    rcases inCall_of_cut hcall hlast hlevel with hcall | ⟨has, hx⟩
    · exact hcall
    · rcases hcut with hcut | hcut
      · exact absurd hcut has
      · exact absurd hx (hcut x y rfl)
  group := by
    intro inner h hlevel
    refine ⟨hlevel, ?_, fun cell hcell => h.plain cell (by simp [hcell])⟩
    rintro x y rfl
    obtain ⟨front, inside, heq, hinside, cell, hcell, hword⟩ := h.commas (opening :: x) (y ++ [closing]) (by simp)
    cases front with
    | nil => exact absurd hcell (by simp)
    | cons d front =>
      obtain ⟨rfl, rfl⟩ := List.cons.inj heq
      cases front with
      | nil =>
        obtain rfl := Option.some.inj hcell
        exact absurd hword (by decide)
      | cons e front => exact ⟨e :: front, inside, rfl, hinside, cell, hcell, hword⟩

/-- What makes a sign of the `+` or `-` behind it is no part of an exponent or a marker. -/
theorem role_of_opener (h : Orderly (cells t)) (hcells : cells t = as ++ x :: (bs ++ y :: cs))
    (hblank : ∀ cell ∈ bs, isBlank cell.char = true) (hy : y.isLive = true) (hsign : y.char = '+' ∨ y.char = '-')
    (hopens : x.char ∈ Site.signOpeners) : x.role = .live := by
  have hquotes : ∀ c ∈ t, c ∉ ['"', '\'', '[', '{'] := by
    intro c hc hmem
    rw [← text_cells t] at hc
    obtain ⟨cell, hcell, rfl⟩ := List.mem_map.1 hc
    exact h.plain cell hcell (List.mem_append_left ['=', ';'] hmem)
  -- what stands right behind is a blank or the sign
  obtain ⟨z, zs, hz, hnext⟩ : ∃ z zs, bs ++ y :: cs = z :: zs ∧ (isBlank z.char = true ∨ z = y) := by
    cases bs with
    | nil => exact ⟨y, cs, rfl, .inr rfl⟩
    | cons b bs => exact ⟨b, bs ++ y :: cs, rfl, .inl (hblank b List.mem_cons_self)⟩
  rw [hz] at hcells
  obtain ⟨hexponent, hmarker⟩ := role_behind (p := Posture.start) (t := t) trivial hcells
  have hmem : x ∈ cells t := by simp [hcells]
  have hcontext : ∀ quote, Posture.start.context ≠ .string quote := by simp [Posture.start]
  rcases role_of_plain hcontext rfl hquotes hmem with hrole | hrole | ⟨n, hrole⟩
  · exact hrole
  · exfalso
    have hdigit := hexponent hrole
    rcases hnext with hb | rfl
    · have hvisible := not_isBlank_of_isWordChar (isWordChar_of_isDigit hdigit)
      exact absurd (hb.symm.trans hvisible) (by decide)
    · rcases hsign with hc | hc <;> rw [hc] at hdigit <;> exact absurd hdigit (by decide)
  · exfalso
    cases n with
    | zero =>
      have hchar := char_of_inverse (p := Posture.start) (t := t) trivial hmem hrole
      rw [hchar] at hopens
      exact absurd hopens (by decide)
    | succ n =>
      obtain ⟨hrole', hvisible⟩ := hmarker n hrole
      rcases hnext with hb | rfl
      · exact absurd (hb.symm.trans hvisible) (by decide)
      · simp [isLive, hrole'] at hy

/-- **Before a sign.** Outside the parentheses of an orderly text nothing but an operator makes a `+` or `-` a sign. -/
theorem opener (h : Orderly (cells t)) (hcells : cells t = as ++ x :: (bs ++ y :: cs)) (hlevel : Level (as ++ x :: bs))
    (hblank : ∀ cell ∈ bs, isBlank cell.char = true) (hy : y.isLive = true) (hsign : y.char = '+' ∨ y.char = '-')
    (hopens : x.char ∈ Site.signOpeners) : x = ⟨x.char, .live⟩ ∧ x.char ∈ infixes := by
  have hx : x = ⟨x.char, .live⟩ := by rw [← h.role_of_opener hcells hblank hy hsign hopens]
  refine ⟨hx, ?_⟩
  have hall : ∀ c ∈ Site.signOpeners, c ∈ infixes ∨ c ∈ strangers ∨ c = '(' ∨ c = ',' :=
    List.all_iff_forall_prop.1 (by decide)
  rcases hall _ hopens with hinfix | hstrange | hparen | hcomma
  · exact hinfix
  · exact absurd hstrange (h.plain x (by simp [hcells]))
  · rw [hx, hparen] at hlevel
    exact absurd hlevel (not_level_open (Level.of_no_paren (not_paren_of_blank hblank)) as)
  · rw [hx, hcomma] at hlevel hcells
    have hbefore : Level as := by
      rw [List.append_cons] at hlevel
      exact (hlevel.of_append_right (not_paren_of_blank hblank)).of_append_right (by simp [holds])
    exact absurd hbefore (h.commas _ _ hcells).not_level

end Orderly

end MissionScript
