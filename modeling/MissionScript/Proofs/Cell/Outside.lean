/-
What stands outside all parentheses.

`depthFrom` follows the depth of parentheses and fails at a closer without an opener; cells are `Level` when it comes
back to where it began. `outside` lists the sites that no parentheses enclose.

- `Record.loosest_ofOffers`: although one site is noted for each symbol, the rightmost of the loosest tier is not lost.
- `lowest_eq`: the operator a text is split on is the rightmost of the loosest tier among all sites outside parentheses;
  looking for it run by run loses nothing.
- `lowest_cases`: a text is split at one of them, if there is any.
- `outside_append`: behind level cells the sites outside are those of the two parts.
- `lowest_split`: level cells are split at an operator with none looser before it and none as loose behind it.
- `closesAtEnd_append`, `splitFrom_append`: level cells let a search for the closing parenthesis, or for a separator,
  pass.
-/
import MissionScript.Cell.Operator
import MissionScript.Proofs.Text.Trim

namespace MissionScript

def Tier.rank : Tier → Nat
  | .additive => 0
  | .multiplicative => 1
  | .power => 2

namespace Cell

/-! ## Depth -/

/-- the depth behind a cell, none when it closes a parenthesis that is not open -/
def depthStep (depth : Nat) (cell : Cell) : Option Nat :=
  if cell.holds '(' then some (depth + 1)
  else if cell.holds ')' then (if depth = 0 then none else some (depth - 1))
  else some depth

/-- the depth behind some cells, none when a parenthesis closes that is not open -/
def depthFrom : Nat → List Cell → Option Nat
  | depth, [] => some depth
  | depth, cell :: rest => (depthStep depth cell).bind fun depth => depthFrom depth rest

/-- every parenthesis has its partner -/
def Level (cs : List Cell) : Prop := depthFrom 0 cs = some 0

instance (cs : List Cell) : Decidable (Level cs) := inferInstanceAs (Decidable (depthFrom 0 cs = some 0))

theorem depthFrom_append (depth : Nat) (as bs : List Cell) :
    depthFrom depth (as ++ bs) = (depthFrom depth as).bind fun depth => depthFrom depth bs := by
  induction as generalizing depth with
  | nil => rfl
  | cons cell as ih =>
    rw [List.cons_append, depthFrom, depthFrom, Option.bind_assoc]
    congr 1
    funext depth
    exact ih depth

theorem depthStep_add {depth depth' : Nat} {cell : Cell} (h : depthStep depth cell = some depth') (k : Nat) :
    depthStep (depth + k) cell = some (depth' + k) := by
  unfold depthStep at h ⊢
  split_ifs at h ⊢ with h₁ h₂ h₃ h₄ h₅
  · obtain rfl := Option.some.inj h
    congr 1
    omega
  · omega
  · obtain rfl := Option.some.inj h
    congr 1
    omega
  · obtain rfl := Option.some.inj h
    rfl

theorem depthFrom_add {depth depth' : Nat} {cs : List Cell} (h : depthFrom depth cs = some depth') (k : Nat) :
    depthFrom (depth + k) cs = some (depth' + k) := by
  induction cs generalizing depth with
  | nil =>
    obtain rfl := Option.some.inj h
    rfl
  | cons cell cs ih =>
    obtain ⟨next, hstep, hrest⟩ := Option.bind_eq_some_iff.1 h
    rw [depthFrom, depthStep_add hstep]
    exact ih hrest

theorem depthAfter_of_depthStep {depth depth' : Nat} {cell : Cell} (h : depthStep depth cell = some depth') :
    depthAfter depth cell = depth' := by
  unfold depthStep at h
  unfold depthAfter
  split_ifs at h ⊢ <;> exact Option.some.inj h

theorem Level.append {as bs : List Cell} (ha : Level as) (hb : Level bs) : Level (as ++ bs) := by
  unfold Level
  rw [depthFrom_append, ha]
  exact hb

theorem depthFrom_of_no_paren {cs : List Cell} (h : ∀ cell ∈ cs, cell.holds '(' = false ∧ cell.holds ')' = false)
    (depth : Nat) : depthFrom depth cs = some depth := by
  induction cs with
  | nil => rfl
  | cons cell cs ih =>
    obtain ⟨h₁, h₂⟩ := h cell List.mem_cons_self
    rw [depthFrom, depthStep, if_neg (by simp [h₁]), if_neg (by simp [h₂])]
    exact ih fun cell hcell => h cell (List.mem_cons_of_mem _ hcell)

theorem Level.of_no_paren {cs : List Cell} (h : ∀ cell ∈ cs, cell.holds '(' = false ∧ cell.holds ')' = false) :
    Level cs := depthFrom_of_no_paren h 0

def opening : Cell := ⟨'(', .live⟩

def closing : Cell := ⟨')', .live⟩

theorem depthFrom_group {inner : List Cell} (h : Level inner) (depth : Nat) :
    depthFrom depth (opening :: (inner ++ [closing])) = some depth := by
  have hin : depthFrom (depth + 1) inner = some (depth + 1) := by simpa [Nat.add_comm] using depthFrom_add h (depth + 1)
  have hopen : depthStep depth opening = some (depth + 1) := rfl
  rw [depthFrom, hopen, Option.bind_some, depthFrom_append, hin]
  rfl

theorem Level.group {inner : List Cell} (h : Level inner) : Level (opening :: (inner ++ [closing])) :=
  depthFrom_group h 0

end Cell

/-! ## Sites outside parentheses -/

namespace Site

/-- true at depth zero, except for a parenthesis -/
def isTop (depth : Nat) (cell : Cell) : Bool := depth == 0 && !cell.holds '(' && !cell.holds ')'

/-- the sites outside parentheses, from a given depth on -/
def topFrom : Nat → List Site → List Site
  | _, [] => []
  | depth, s :: rest =>
    match isTop depth s.cell with
    | true => s :: topFrom (Cell.depthAfter depth s.cell) rest
    | false => topFrom (Cell.depthAfter depth s.cell) rest

/-- the site with more cells at both ends of the text -/
def among (before after : List Cell) (s : Site) : Site := ⟨s.before ++ before, s.cell, s.after ++ after⟩

theorem along_append (before as bs : List Cell) :
    along before (as ++ bs) = (along before as).map (among [] bs) ++ along (as.reverse ++ before) bs := by
  induction as generalizing before with
  | nil => rfl
  | cons cell as ih => simp [along, ih, among]

theorem along_below (u before cs : List Cell) : along (u ++ before) cs = (along u cs).map (among before []) := by
  induction cs generalizing u with
  | nil => rfl
  | cons cell cs ih =>
    rw [along, along, List.map_cons, ← ih]
    simp [among]

theorem topFrom_map (before after : List Cell) (depth : Nat) (sites : List Site) :
    topFrom depth (sites.map (among before after)) = (topFrom depth sites).map (among before after) := by
  induction sites generalizing depth with
  | nil => rfl
  | cons s rest ih =>
    rw [List.map_cons, topFrom, topFrom, ih]
    change (match isTop depth s.cell with | true => _ | false => _) = _
    cases isTop depth s.cell <;> rfl

theorem topFrom_append {depth depth' : Nat} {as : List Cell} (h : Cell.depthFrom depth as = some depth')
    (before low high : List Cell) (rest : List Site) :
    topFrom depth ((along before as).map (among low high) ++ rest) =
      (topFrom depth (along before as)).map (among low high) ++ topFrom depth' rest := by
  induction as generalizing depth before with
  | nil =>
    obtain rfl := Option.some.inj h
    rfl
  | cons cell as ih =>
    obtain ⟨next, hstep, hrest⟩ := Option.bind_eq_some_iff.1 h
    have hdepth := Cell.depthAfter_of_depthStep hstep
    rw [along, List.map_cons, List.cons_append, topFrom, topFrom]
    change (match isTop depth cell with | true => _ | false => _) = _
    simp only [show (among low high ⟨before, cell, as⟩).cell = cell from rfl, hdepth, ih hrest]
    cases isTop depth cell <;> rfl

/-- Nothing that stays inside a parenthesis is outside. -/
theorem topFrom_succ {depth depth' : Nat} {cs : List Cell} (h : Cell.depthFrom depth cs = some depth')
    (before : List Cell) :
    topFrom (depth + 1) (along before cs) = [] := by
  induction cs generalizing depth before with
  | nil => rfl
  | cons cell cs ih =>
    obtain ⟨next, hstep, hrest⟩ := Option.bind_eq_some_iff.1 h
    have hdepth := Cell.depthAfter_of_depthStep (Cell.depthStep_add hstep 1)
    rw [along, topFrom, hdepth, ih hrest]
    rfl

theorem mem_of_mem_topFrom {depth : Nat} {sites : List Site} {s : Site} (h : s ∈ topFrom depth sites) : s ∈ sites := by
  induction sites generalizing depth with
  | nil => simp [topFrom] at h
  | cons x rest ih =>
    rw [topFrom] at h
    split at h
    · rcases List.mem_cons.1 h with rfl | h
      · exact List.mem_cons_self
      · exact List.mem_cons_of_mem _ (ih h)
    · exact List.mem_cons_of_mem _ (ih h)

theorem cell_mem_of_mem_along {before cs : List Cell} {s : Site} (h : s ∈ along before cs) : s.cell ∈ cs := by
  induction cs generalizing before with
  | nil => simp [along] at h
  | cons cell rest ih =>
    rcases List.mem_cons.1 h with rfl | h
    · exact List.mem_cons_self
    · exact List.mem_cons_of_mem _ (ih h)

/-- The runs outside parentheses, one after the other, are the sites outside parentheses. -/
theorem map_flatten_segmentsFrom (depth : Nat) (before cs : List Cell) :
    (segmentsFrom depth (along before cs)).map List.flatten =
      if Cell.depthFrom depth cs = some 0 then some (topFrom depth (along before cs)) else none := by
  induction cs generalizing depth before with
  | nil => cases depth <;> simp [along, segmentsFrom, topFrom, Cell.depthFrom]
  | cons cell rest ih =>
    cases depth with
    | zero =>
      simp only [along, segmentsFrom, topFrom, isTop, Cell.depthFrom, Cell.depthStep, Cell.depthAfter]
      by_cases h₁ : cell.holds '(' = true
      · simpa [h₁, Option.map_map, Function.comp_def] using ih 1 (cell :: before)
      · by_cases h₂ : cell.holds ')' = true
        · simp [h₁, h₂]
        · have := ih 0 (cell :: before)
          simp only [h₁, h₂]
          simp only [Bool.false_eq_true, if_false, Option.map_map, Option.bind_some, if_true]
          rw [show (List.flatten ∘ consFirst (⟨before, cell, rest⟩ : Site)) =
            (List.cons ⟨before, cell, rest⟩) ∘ List.flatten from
            funext fun runs => flatten_consFirst _ _, ← Option.map_map, this]
          split_ifs <;> rfl
    | succ depth =>
      simp only [along, segmentsFrom, topFrom, isTop, Cell.depthFrom, Cell.depthStep, Cell.depthAfter]
      by_cases h₁ : cell.holds '(' = true
      · simpa [h₁] using ih (depth + 2) (cell :: before)
      · by_cases h₂ : cell.holds ')' = true
        · simpa [h₁, h₂] using ih depth (cell :: before)
        · simpa [h₁, h₂] using ih (depth + 1) (cell :: before)

/-! ## The loosest operator -/

theorem joins_iff {tier : Tier} {s : Site} :
    joins tier s = true ↔ ∃ symbol, s.operator? = some symbol ∧ symbol.tier = tier := by
  unfold joins
  cases s.operator? <;> simp

/-- The operator of `s` is loosest, and those behind it are all tighter. -/
structure IsLoosest (before : List Site) (s : Site) (symbol : Symbol) (after : List Site) : Prop where
  operator : s.operator? = some symbol
  before_le : ∀ x ∈ before, ∀ other, x.operator? = some other → symbol.tier.rank ≤ other.tier.rank
  after_lt : ∀ x ∈ after, ∀ other, x.operator? = some other → symbol.tier.rank < other.tier.rank

theorem rightmost_eq_none_iff {tier : Tier} {sites : List Site} :
    rightmost tier sites = none ↔ ∀ x ∈ sites, joins tier x = false := by
  rw [rightmost, List.getLast?_eq_none_iff, List.filter_eq_nil_iff]
  simp only [Bool.not_eq_true]

theorem rightmost_eq_some_iff {tier : Tier} {sites : List Site} {s : Site} :
    rightmost tier sites = some s ↔
      joins tier s = true ∧ ∃ before after, sites = before ++ s :: after ∧ ∀ x ∈ after, joins tier x = false := by
  rw [rightmost, List.getLast?_filter, List.find?_eq_some_iff_append]
  refine and_congr_right fun _ => ⟨?_, ?_⟩
  · rintro ⟨as, bs, hsites, has⟩
    refine ⟨bs.reverse, as.reverse, ?_, fun x hx => by simpa using has x (List.mem_reverse.1 hx)⟩
    have := congrArg List.reverse hsites
    simpa using this
  · rintro ⟨before, after, rfl, hafter⟩
    exact ⟨after.reverse, before.reverse, by simp, fun x hx => by simpa using hafter x (List.mem_reverse.1 hx)⟩

theorem IsLoosest.rightmost_eq {before after : List Site} {s : Site} {symbol : Symbol}
    (h : IsLoosest before s symbol after) : rightmost symbol.tier (before ++ s :: after) = some s := by
  refine rightmost_eq_some_iff.2 ⟨joins_iff.2 ⟨symbol, h.operator, rfl⟩, before, after, rfl, ?_⟩
  intro x hx
  by_contra hjoin
  obtain ⟨other, hother, htier⟩ := joins_iff.1 (by simpa using hjoin)
  have := h.after_lt x hx other hother
  rw [htier] at this
  omega

theorem IsLoosest.rightmost_eq_none {before after : List Site} {s : Site} {symbol : Symbol}
    (h : IsLoosest before s symbol after) {tier : Tier} (htier : tier.rank < symbol.tier.rank) :
    rightmost tier (before ++ s :: after) = none := by
  apply rightmost_eq_none_iff.2
  intro x hx
  by_contra hjoin
  obtain ⟨other, hother, rfl⟩ := joins_iff.1 (by simpa using hjoin)
  rcases List.mem_append.1 hx with hx | hx
  · exact absurd (h.before_le x hx other hother) (by omega)
  · rcases List.mem_cons.1 hx with rfl | hx
    · obtain rfl : symbol = other := Option.some.inj (h.operator.symm.trans hother)
      omega
    · exact absurd (h.after_lt x hx other hother) (by omega)

theorem IsLoosest.loosest_eq {before after : List Site} {s : Site} {symbol : Symbol}
    (h : IsLoosest before s symbol after) : loosest (before ++ s :: after) = some s := by
  have hself := h.rightmost_eq
  have hlooser : ∀ tier : Tier, tier.rank < symbol.tier.rank → rightmost tier (before ++ s :: after) = none :=
    fun tier => h.rightmost_eq_none
  simp only [loosest, Option.orElse_eq_orElse, Option.orElse_eq_or]
  cases htier : symbol.tier with
  | additive =>
    rw [htier] at hself
    rw [hself]
    rfl
  | multiplicative =>
    rw [htier] at hself hlooser
    rw [hself, hlooser .additive (by decide)]
    rfl
  | power =>
    rw [htier] at hself hlooser
    rw [hself, hlooser .additive (by decide), hlooser .multiplicative (by decide)]
    rfl

theorem loosest_eq_none_iff {sites : List Site} : loosest sites = none ↔ ∀ x ∈ sites, x.operator? = none := by
  simp only [loosest, Option.orElse_eq_orElse, Option.orElse_eq_or, Option.or_eq_none_iff, rightmost_eq_none_iff]
  constructor
  · rintro ⟨h₁, h₂, h₃⟩ x hx
    cases hop : x.operator? with
    | none => rfl
    | some symbol =>
      have key : ∀ tier, joins tier x = false → symbol.tier ≠ tier := by
        intro tier hj htier
        rw [joins_iff.2 ⟨symbol, hop, htier⟩] at hj
        exact absurd hj (by decide)
      cases htier : symbol.tier with
      | additive => exact absurd htier (key _ (h₁ x hx))
      | multiplicative => exact absurd htier (key _ (h₂ x hx))
      | power => exact absurd htier (key _ (h₃ x hx))
  · intro h
    have key : ∀ tier, ∀ x ∈ sites, joins tier x = false := fun tier x hx => by simp [joins, h x hx]
    exact ⟨key _, key _, key _⟩

theorem exists_isLoosest {sites : List Site} {s : Site} (h : loosest sites = some s) :
    ∃ before symbol after, sites = before ++ s :: after ∧ IsLoosest before s symbol after := by
  -- the tier that `s` is found in has nothing looser anywhere
  have key : ∀ tier, (∀ x ∈ sites, ∀ other, x.operator? = some other → tier.rank ≤ other.tier.rank) →
      rightmost tier sites = some s → ∃ before symbol after, sites = before ++ s :: after ∧
        IsLoosest before s symbol after := by
    intro tier hle hright
    obtain ⟨hjoin, before, after, rfl, hafter⟩ := rightmost_eq_some_iff.1 hright
    obtain ⟨symbol, hop, rfl⟩ := joins_iff.1 hjoin
    refine ⟨before, symbol, after, rfl, hop, fun x hx => hle x (by simp [hx]), ?_⟩
    intro x hx other hother
    have hle' := hle x (by simp [hx]) other hother
    have hne : other.tier ≠ symbol.tier := by
      intro heq
      have := hafter x hx
      rw [joins_iff.2 ⟨other, hother, heq⟩] at this
      exact absurd this (by decide)
    refine lt_of_le_of_ne hle' fun heq => hne ?_
    revert heq
    cases symbol.tier <;> cases other.tier <;> simp [Tier.rank]
  have none_of : ∀ tier, rightmost tier sites = none →
      ∀ x ∈ sites, ∀ other, x.operator? = some other → other.tier ≠ tier :=
    fun tier hnone x hx other hother htier => by
      have := rightmost_eq_none_iff.1 hnone x hx
      rw [joins_iff.2 ⟨other, hother, htier⟩] at this
      exact absurd this (by decide)
  simp only [loosest, Option.orElse_eq_orElse, Option.orElse_eq_or, Option.or_eq_some_iff] at h
  rcases h with h | ⟨h₁, h | ⟨h₂, h⟩⟩
  · exact key .additive (fun x hx other hother => Nat.zero_le _) h
  · refine key .multiplicative ?_ h
    intro x hx other hother
    have := none_of .additive h₁ x hx other hother
    revert this
    cases other.tier <;> simp [Tier.rank]
  · refine key .power ?_ h
    intro x hx other hother
    have h₁' := none_of .additive h₁ x hx other hother
    have h₂' := none_of .multiplicative h₂ x hx other hother
    revert h₁' h₂'
    cases other.tier <;> simp [Tier.rank]

/-- An operator is not looser than the loosest. -/
theorem exists_loosest_le {sites : List Site} {x : Site} {other : Symbol} (hx : x ∈ sites)
    (hother : x.operator? = some other) :
    ∃ y symbol, loosest sites = some y ∧ y.operator? = some symbol ∧ symbol.tier.rank ≤ other.tier.rank := by
  cases h : loosest sites with
  | none =>
    rw [loosest_eq_none_iff.1 h x hx] at hother
    simp at hother
  | some y =>
    obtain ⟨before, symbol, after, rfl, hy⟩ := exists_isLoosest h
    refine ⟨y, symbol, rfl, hy.operator, ?_⟩
    rcases List.mem_append.1 hx with hx | hx
    · exact hy.before_le x hx other hother
    · rcases List.mem_cons.1 hx with rfl | hx
      · obtain rfl : symbol = other := Option.some.inj (hy.operator.symm.trans hother)
        exact le_rfl
      · exact (hy.after_lt x hx other hother).le

/-- Looking for the loosest operator run by run finds the loosest of all. -/
theorem loosest_filterMap (runs : List (List Site)) : loosest (runs.filterMap loosest) = loosest runs.flatten := by
  cases h : loosest (runs.filterMap loosest) with
  | none =>
    refine (loosest_eq_none_iff.2 ?_).symm
    intro x hx
    obtain ⟨run, hrun, hxrun⟩ := List.mem_flatten.1 hx
    cases hloose : loosest run with
    | none => exact loosest_eq_none_iff.1 hloose x hxrun
    | some s =>
      obtain ⟨before, symbol, after, -, hs⟩ := exists_isLoosest hloose
      have hmem : s ∈ runs.filterMap loosest := List.mem_filterMap.2 ⟨run, hrun, hloose⟩
      exact absurd (hs.operator.symm.trans (loosest_eq_none_iff.1 h s hmem)) (by simp)
  | some s =>
    obtain ⟨offersBefore, symbol, offersAfter, hoffers, hs⟩ := exists_isLoosest h
    obtain ⟨runsBefore, later, rfl, hbefore, hlater⟩ := List.filterMap_eq_append_iff.1 hoffers
    obtain ⟨quiet, run, runsAfter, rfl, hquiet, hrun, hafter⟩ := List.filterMap_eq_cons_iff.1 hlater
    obtain ⟨before, symbol', after, rfl, hs'⟩ := exists_isLoosest hrun
    obtain rfl : symbol = symbol' := Option.some.inj (hs.operator.symm.trans hs'.operator)
    have hloosest :
        IsLoosest (runsBefore.flatten ++ quiet.flatten ++ before) s symbol (after ++ runsAfter.flatten) := by
      refine ⟨hs.operator, ?_, ?_⟩
      · intro x hx other hother
        rcases List.mem_append.1 hx with hx | hx
        · rcases List.mem_append.1 hx with hx | hx
          · -- an earlier run holds nothing looser than what it offers
            obtain ⟨r, hr, hxr⟩ := List.mem_flatten.1 hx
            obtain ⟨y, symbol', hy, hop, hle⟩ := exists_loosest_le hxr hother
            have hmem : y ∈ offersBefore := hbefore ▸ List.mem_filterMap.2 ⟨r, hr, hy⟩
            exact (hs.before_le y hmem symbol' hop).trans hle
          · obtain ⟨r, hr, hxr⟩ := List.mem_flatten.1 hx
            obtain ⟨y, symbol', hy, -⟩ := exists_loosest_le hxr hother
            rw [hquiet r hr] at hy
            simp at hy
        · exact hs'.before_le x hx other hother
      · intro x hx other hother
        rcases List.mem_append.1 hx with hx | hx
        · exact hs'.after_lt x hx other hother
        · obtain ⟨r, hr, hxr⟩ := List.mem_flatten.1 hx
          obtain ⟨y, symbol', hy, hop, hle⟩ := exists_loosest_le hxr hother
          have hmem : y ∈ offersAfter := hafter ▸ List.mem_filterMap.2 ⟨r, hr, hy⟩
          exact (hs.after_lt y hmem symbol' hop).trans_le hle
    have := hloosest.loosest_eq
    simpa using this.symm

end Site

/-! ## The record of the offers -/

namespace Site

/-- The sites stand in the order of the text. -/
def Ascending (sites : List Site) : Prop := sites.Pairwise fun x y => x.before.length < y.before.length

theorem positions_along (before cs : List Cell) :
    (along before cs).map (fun s => s.before.length) = List.range' before.length cs.length := by
  induction cs generalizing before with
  | nil => rfl
  | cons cell cs ih => exact congrArg (before.length :: ·) (ih (cell :: before))

theorem ascending_along (before cs : List Cell) : Ascending (along before cs) := by
  have hpositions : ((along before cs).map fun s => s.before.length).Pairwise (· < ·) := by
    rw [positions_along]
    exact List.pairwise_lt_range'
  exact List.pairwise_map.1 hpositions

theorem Ascending.sublist {sites some : List Site} (h : Ascending sites) (hsub : some.Sublist sites) :
    Ascending some := List.Pairwise.sublist hsub h

/-- What runs in the order of the text offer is in the order of the text. -/
theorem Ascending.filterMap_loosest {runs : List (List Site)} (h : Ascending runs.flatten) :
    Ascending (runs.filterMap loosest) := by
  obtain ⟨-, hruns⟩ := List.pairwise_flatten.1 h
  refine List.Pairwise.filterMap loosest ?_ hruns
  intro run run' hlt s hs s' hs'
  exact hlt s (mem_of_loosest hs) s' (mem_of_loosest hs')

theorem exists_foldl_later (best : Site) (sites : List Site) :
    ∃ s, sites.foldl later (some best) = some s ∧ best.before.length ≤ s.before.length ∧
      ∀ x ∈ sites, x.before.length ≤ s.before.length := by
  induction sites generalizing best with
  | nil => exact ⟨best, rfl, le_rfl, by simp⟩
  | cons x sites ih =>
    by_cases hlt : x.before.length < best.before.length
    · obtain ⟨s, hs, hbest, hle⟩ := ih best
      have hfold : (x :: sites).foldl later (some best) = some s := by rw [List.foldl_cons, later, if_pos hlt, hs]
      exact ⟨s, hfold, hbest, List.forall_mem_cons.2 ⟨hlt.le.trans hbest, hle⟩⟩
    · obtain ⟨s, hs, hx, hle⟩ := ih x
      have hfold : (x :: sites).foldl later (some best) = some s := by rw [List.foldl_cons, later, if_neg hlt, hs]
      exact ⟨s, hfold, (Nat.not_lt.1 hlt).trans hx, List.forall_mem_cons.2 ⟨hx, hle⟩⟩

/-- Of some sites the latest is found, and no other is farther to the right. -/
theorem exists_latest {sites : List Site} {x : Site} (h : x ∈ sites) :
    ∃ s, latest sites = some s ∧ ∀ y ∈ sites, y.before.length ≤ s.before.length := by
  cases sites with
  | nil => exact absurd h List.not_mem_nil
  | cons first rest =>
    obtain ⟨s, hs, hfirst, hle⟩ := exists_foldl_later first rest
    exact ⟨s, hs, List.forall_mem_cons.2 ⟨hfirst, hle⟩⟩

end Site

namespace Record

theorem foldl_note_of_ne {record : Record} {offers : List Site} {symbol : Symbol}
    (h : ∀ x ∈ offers, x.operator? ≠ some symbol) : offers.foldl note record symbol = record symbol := by
  induction offers generalizing record with
  | nil => rfl
  | cons x offers ih =>
    obtain ⟨hx, hoffers⟩ := List.forall_mem_cons.1 h
    rw [List.foldl_cons, ih hoffers, note, if_neg hx]

/-- The last offer of a symbol is noted. -/
theorem ofOffers_append {before after : List Site} {s : Site} {symbol : Symbol} (hop : s.operator? = some symbol)
    (hafter : ∀ x ∈ after, x.operator? ≠ some symbol) : ofOffers (before ++ s :: after) symbol = some s := by
  rw [ofOffers, List.foldl_append, List.foldl_cons, foldl_note_of_ne hafter, note, if_pos hop]

/-- What is noted last of the tier of a site is not before the site. -/
theorem exists_latest_ofTier {offers : List Site} {s : Site} {symbol : Symbol}
    (hnoted : ofOffers offers symbol = some s) : ∃ last, Site.latest ((ofOffers offers).ofTier symbol.tier) = some last ∧
      last ∈ offers ∧ Site.joins symbol.tier last = true ∧ s.before.length ≤ last.before.length := by
  have hmem : s ∈ (ofOffers offers).ofTier symbol.tier := by
    refine List.mem_filterMap.2 ⟨symbol, List.mem_filter.2 ⟨?_, beq_self_eq_true _⟩, hnoted⟩
    cases symbol <;> decide
  obtain ⟨last, hlast, hle⟩ := Site.exists_latest hmem
  obtain ⟨hoffered, hjoins⟩ := of_mem_ofTier (Site.mem_of_latest hlast)
  exact ⟨last, hlast, hoffered, Site.joins_iff.2 hjoins, hle s hmem⟩

/-- Although one site is noted for each symbol, the rightmost offer of a tier is not lost. -/
theorem latest_ofTier {offers : List Site} (h : Site.Ascending offers) (tier : Tier) :
    Site.latest ((ofOffers offers).ofTier tier) = Site.rightmost tier offers := by
  cases hright : Site.rightmost tier offers with
  | none =>
    have hnone : (ofOffers offers).ofTier tier = [] := by
      refine List.eq_nil_iff_forall_not_mem.2 ?_
      intro s hs
      obtain ⟨hmem, hjoins⟩ := of_mem_ofTier hs
      have hquiet := Site.rightmost_eq_none_iff.1 hright s hmem
      exact Bool.eq_false_iff.1 hquiet (Site.joins_iff.2 hjoins)
    rw [hnone]
    rfl
  | some s =>
    obtain ⟨hjoins, before, after, rfl, hafter⟩ := Site.rightmost_eq_some_iff.1 hright
    obtain ⟨symbol, hop, rfl⟩ := Site.joins_iff.1 hjoins
    have hnoted : ofOffers (before ++ s :: after) symbol = some s := by
      refine ofOffers_append hop ?_
      intro x hx hsame
      exact Bool.eq_false_iff.1 (hafter x hx) (Site.joins_iff.2 ⟨symbol, hsame, rfl⟩)
    obtain ⟨last, hlast, hoffered, hlastjoins, hle⟩ := exists_latest_ofTier hnoted
    obtain ⟨-, -, hbefore⟩ := List.pairwise_append.1 h
    rcases List.mem_append.1 hoffered with hearlier | hlater
    · have hlt := hbefore last hearlier s List.mem_cons_self
      omega
    · rcases List.mem_cons.1 hlater with rfl | hlater
      · exact hlast
      · exact absurd hlastjoins (Bool.eq_false_iff.1 (hafter last hlater))

/-- **The record holds what is split on**: the rightmost offer of the loosest tier. -/
theorem loosest_ofOffers {offers : List Site} (h : Site.Ascending offers) :
    (ofOffers offers).loosest = Site.loosest offers := by
  rw [loosest, latest_ofTier h, latest_ofTier h, latest_ofTier h]
  rfl

end Record

/-! ## Splitting a text -/

namespace Cell

def outside (cs : List Cell) : List Site := Site.topFrom 0 (sites cs)

theorem mem_of_mem_outside {cs : List Cell} {s : Site} (h : s ∈ outside cs) : s.cell ∈ cs :=
  Site.cell_mem_of_mem_along (Site.mem_of_mem_topFrom h)

/-- The runs of level cells are, one after the other, the sites outside parentheses. -/
theorem exists_segmentsFrom {cs : List Cell} (h : Level cs) :
    ∃ runs, Site.segmentsFrom 0 (sites cs) = some runs ∧ runs.flatten = outside cs := by
  have hmap := Site.map_flatten_segmentsFrom 0 [] cs
  rw [if_pos (show depthFrom 0 cs = some 0 from h)] at hmap
  exact Option.map_eq_some_iff.1 hmap

theorem search_eq {cs : List Cell} (h : Level cs) :
    search cs = some ((Site.loosest (outside cs)).bind Site.split?) := by
  obtain ⟨runs, hruns, hflat⟩ := exists_segmentsFrom h
  have hfilter : (runs.filter fun run => !run.isEmpty).flatten = runs.flatten := List.flatten_filter_not_isEmpty
  have hascending : Site.Ascending (runs.filter fun run => !run.isEmpty).flatten := by
    rw [hfilter]
    exact (Site.ascending_along [] cs).sublist (Site.flatten_segmentsFrom hruns)
  simp only [search, segments, hruns, Option.map_some]
  rw [Record.loosest_ofOffers hascending.filterMap_loosest, Site.loosest_filterMap, hfilter, hflat]

theorem lowest_eq {cs : List Cell} (h : Level cs) : lowest cs = (Site.loosest (outside cs)).bind Site.split? := by
  rw [lowest, search_eq h]
  rfl

theorem balanced_iff {cs : List Cell} : balanced cs = true ↔ Level cs := by
  have h := Site.map_flatten_segmentsFrom 0 [] cs
  unfold balanced segments
  rw [Option.isSome_map]
  constructor
  · intro hsome
    obtain ⟨runs, hruns⟩ := Option.isSome_iff_exists.1 hsome
    by_contra hlevel
    rw [show Site.segmentsFrom 0 (Site.along [] cs) = some runs from hruns,
      if_neg (show ¬depthFrom 0 cs = some 0 from hlevel)] at h
    simp at h
  · intro hlevel
    rw [if_pos (show depthFrom 0 cs = some 0 from hlevel)] at h
    obtain ⟨runs, hruns, -⟩ := Option.map_eq_some_iff.1 h
    exact Option.isSome_iff_exists.2 ⟨runs, hruns⟩

theorem sites_append (as bs : List Cell) :
    sites (as ++ bs) = (sites as).map (Site.among [] bs) ++ (sites bs).map (Site.among as.reverse []) := by
  unfold sites
  rw [Site.along_append, List.append_nil, ← Site.along_below, List.nil_append]

theorem outside_append {as : List Cell} (h : Level as) (bs : List Cell) :
    outside (as ++ bs) = (outside as).map (Site.among [] bs) ++ (outside bs).map (Site.among as.reverse []) := by
  unfold outside
  rw [sites_append, sites, Site.topFrom_append h, Site.topFrom_map]

theorem outside_cons {cell : Cell} (h₁ : cell.holds '(' = false) (h₂ : cell.holds ')' = false) (bs : List Cell) :
    outside (cell :: bs) = ⟨[], cell, bs⟩ :: (outside bs).map (Site.among [cell] []) := by
  have hlevel : Level [cell] := Level.of_no_paren (by simp [h₁, h₂])
  have hone : outside [cell] = [⟨[], cell, []⟩] := by
    simp [outside, sites, Site.along, Site.topFrom, Site.isTop, h₁, h₂]
  rw [show cell :: bs = [cell] ++ bs from rfl, outside_append hlevel, hone]
  rfl

theorem outside_group {inner : List Cell} (h : Level inner) : outside (opening :: (inner ++ [closing])) = [] := by
  have hin := Site.topFrom_succ h [opening]
  have hlevel : depthFrom 1 inner = some 1 := depthFrom_add h 1
  have hsites : Site.along [opening] (inner ++ [closing]) =
      (Site.along [opening] inner).map (Site.among [] [closing]) ++ Site.along (inner.reverse ++ [opening]) [closing] :=
    Site.along_append _ _ _
  simp only [outside, sites, Site.along, Site.topFrom]
  rw [show depthAfter 0 opening = 1 from rfl, hsites, Site.topFrom_append hlevel, hin]
  rfl

/-- Outside parentheses are the sites before a character, the one at it and those behind it. -/
theorem outside_join {as : List Cell} (h : Level as) {cell : Cell} (h₁ : cell.holds '(' = false)
    (h₂ : cell.holds ')' = false) (bs : List Cell) :
    outside (as ++ cell :: bs) = (outside as).map (Site.among [] (cell :: bs)) ++
      ⟨as.reverse, cell, bs⟩ :: (outside bs).map (Site.among (cell :: as.reverse) []) := by
  rw [outside_append h, outside_cons h₁ h₂, List.map_cons, List.map_map]
  congr 2
  · simp [Site.among]
  · apply List.map_congr_left
    intro s _
    simp [Site.among]

/-- Level cells are split at an operator with none looser before it and none as loose behind it. -/
theorem lowest_split {as bs : List Cell} {cell : Cell} {symbol : Symbol} (ha : Level as) (hb : Level bs)
    (h₁ : cell.holds '(' = false) (h₂ : cell.holds ')' = false)
    (hop : Site.operator? ⟨as.reverse, cell, bs⟩ = some symbol)
    (hbefore : ∀ s ∈ outside as, ∀ other, s.operator? = some other → symbol.tier.rank ≤ other.tier.rank)
    (hafter : ∀ s ∈ outside bs, ∀ other, (s.among (cell :: as.reverse) []).operator? = some other →
      symbol.tier.rank < other.tier.rank) :
    lowest (as ++ cell :: bs) = some ⟨symbol, text as, text bs⟩ := by
  have hlevel : Level (as ++ cell :: bs) := ha.append <| by
    have hcell : Level [cell] := Level.of_no_paren (by simp [h₁, h₂])
    exact hcell.append hb
  have hloosest : Site.IsLoosest ((outside as).map (Site.among [] (cell :: bs))) ⟨as.reverse, cell, bs⟩ symbol
      ((outside bs).map (Site.among (cell :: as.reverse) [])) := by
    refine ⟨hop, ?_, ?_⟩
    · intro x hx other hother
      obtain ⟨s, hs, rfl⟩ := List.mem_map.1 hx
      refine hbefore s hs other ?_
      rw [← hother]
      simp [Site.operator?, Site.isSign, Site.among]
    · intro x hx other hother
      obtain ⟨s, hs, rfl⟩ := List.mem_map.1 hx
      exact hafter s hs other hother
  rw [lowest_eq hlevel, outside_join ha h₁ h₂, hloosest.loosest_eq, Option.bind_some, Site.split?, hop]
  simp [Site.left, Site.right]

/-- Without operators outside parentheses a text is not split, and else it is split at one of them. -/
theorem lowest_cases {cs : List Cell} (h : Level cs) :
    lowest cs = none ∧ (∀ s ∈ outside cs, s.operator? = none) ∨
      ∃ s ∈ outside cs, ∃ symbol, s.operator? = some symbol ∧ lowest cs = some ⟨symbol, s.left, s.right⟩ := by
  rw [lowest_eq h]
  cases hloosest : Site.loosest (outside cs) with
  | none => exact .inl ⟨rfl, Site.loosest_eq_none_iff.1 hloosest⟩
  | some s =>
    obtain ⟨before, symbol, after, hsites, hs⟩ := Site.exists_isLoosest hloosest
    refine .inr ⟨s, by simp [hsites], symbol, hs.operator, ?_⟩
    rw [Option.bind_some, Site.split?, hs.operator]
    rfl

theorem lowest_eq_none_iff {cs : List Cell} (h : Level cs) :
    lowest cs = none ↔ ∀ s ∈ outside cs, s.operator? = none := by
  rcases lowest_cases h with ⟨hnone, hquiet⟩ | ⟨s, hs, symbol, hop, hsome⟩
  · exact ⟨fun _ => hquiet, fun _ => hnone⟩
  · constructor
    · intro hnone
      exact absurd (hsome.symm.trans hnone) (by simp)
    · intro hquiet
      exact absurd (hop.symm.trans (hquiet s hs)) (by simp)

theorem lowest_eq_none {cs : List Cell} (h : Level cs) (hnone : ∀ s ∈ outside cs, s.operator? = none) :
    lowest cs = none := (lowest_eq_none_iff h).2 hnone

/-! ## Searches pass level cells -/

theorem closesAtEnd_append {depth depth' : Nat} {as : List Cell} (h : depthFrom depth as = some depth')
    (bs : List Cell) :
    closesAtEnd (depth + 1) (as ++ bs) = closesAtEnd (depth' + 1) bs := by
  induction as generalizing depth with
  | nil =>
    obtain rfl := Option.some.inj h
    rfl
  | cons cell as ih =>
    obtain ⟨next, hstep, hrest⟩ := Option.bind_eq_some_iff.1 h
    have hdepth := depthAfter_of_depthStep (depthStep_add hstep 1)
    rw [List.cons_append, closesAtEnd, hdepth, if_neg (by omega)]
    exact ih hrest

/-- The parenthesis behind a name closes where its level inside ends: at the end of the text, or before it. -/
theorem enclosed_append {head inner rest : List Cell}
    (hhead : ∀ cell ∈ head, cell.holds '(' = false) (h : Level inner) :
    enclosed (head ++ opening :: (inner ++ closing :: rest)) =
      if rest.isEmpty then some (text head, text inner) else none := by
  have hdrop : (head ++ opening :: (inner ++ closing :: rest)).dropWhile (fun cell => !cell.holds '(') =
      opening :: (inner ++ closing :: rest) := by
    rw [List.dropWhile_append_of_pos fun cell hcell => by simp [hhead cell hcell]]
    rfl
  have htake : (head ++ opening :: (inner ++ closing :: rest)).takeWhile (fun cell => !cell.holds '(') = head := by
    rw [List.takeWhile_append_of_pos fun cell hcell => by simp [hhead cell hcell]]
    exact List.append_nil _
  have hclose : closesAtEnd 1 (inner ++ closing :: rest) = rest.isEmpty := by
    exact closesAtEnd_append h _
  unfold enclosed
  simp only [hdrop, hclose, htake]
  cases rest with
  | nil => simp
  | cons cell rest => rfl

theorem enclosed_group {head inner : List Cell} (hhead : ∀ cell ∈ head, cell.holds '(' = false) (h : Level inner) :
    enclosed (head ++ opening :: (inner ++ [closing])) = some (text head, text inner) := by
  rw [enclosed_append hhead h]
  rfl

theorem enclosed_eq_none {cs : List Cell} (h : ∀ cell ∈ cs, cell.holds '(' = false) : enclosed cs = none := by
  have hdrop : cs.dropWhile (fun cell => !cell.holds '(') = [] :=
    List.dropWhile_eq_nil_iff.2 fun cell hcell => by simp [h cell hcell]
  simp only [enclosed, hdrop]

/-- a text put in front of the first part -/
def prependFirst (t : Text) : List Text → List Text
  | [] => [t]
  | part :: parts => (t ++ part) :: parts

theorem consFirst_prependFirst (c : Char) (t : Text) (parts : List Text) :
    consFirst c (prependFirst t parts) = prependFirst (c :: t) parts := by
  cases parts <;> rfl

theorem prependFirst_nil {parts : List Text} (h : parts ≠ []) : prependFirst [] parts = parts := by
  cases parts with
  | nil => exact absurd rfl h
  | cons part parts => rfl

theorem splitFrom_ne_nil (sep : Char) (depth : Nat) (cs : List Cell) : splitFrom sep depth cs ≠ [] := by
  cases cs with
  | nil => simp [splitFrom]
  | cons cell rest =>
    rw [splitFrom]
    split_ifs
    · simp
    · cases splitFrom sep (depthAfter depth cell) rest <;> simp [consFirst]

/-- What has no separator on the outermost level is put in front of the first part of what follows. -/
theorem splitFrom_append_of_cutFrom {sep : Char} {depth : Nat} {as : List Cell} (h : cutFrom sep depth as = none)
    (bs : List Cell) :
    splitFrom sep depth (as ++ bs) = prependFirst (text as) (splitFrom sep (as.foldl depthAfter depth) bs) := by
  induction as generalizing depth with
  | nil =>
    change splitFrom sep depth bs = prependFirst [] (splitFrom sep depth bs)
    rw [prependFirst_nil (splitFrom_ne_nil _ _ _)]
  | cons cell as ih =>
    rw [cutFrom] at h
    split at h
    · exact absurd h (by simp)
    · next hcell =>
      have hrest : cutFrom sep (depthAfter depth cell) as = none := Option.map_eq_none_iff.1 h
      rw [List.cons_append, splitFrom, if_neg hcell, ih hrest, consFirst_prependFirst]
      rfl

theorem splitFrom_append {sep : Char} {depth depth' : Nat} {as : List Cell} (h : depthFrom depth as = some depth')
    (hsep : sep ≠ '(' ∧ sep ≠ ')') (before : List Cell)
    (hnone : ∀ s ∈ Site.topFrom depth (Site.along before as), s.cell.holds sep = false) (bs : List Cell) :
    splitFrom sep depth (as ++ bs) = prependFirst (text as) (splitFrom sep depth' bs) := by
  induction as generalizing depth before with
  | nil =>
    obtain rfl := Option.some.inj h
    rw [List.nil_append, text, List.map_nil, prependFirst_nil (splitFrom_ne_nil _ _ _)]
  | cons cell as ih =>
    obtain ⟨next, hstep, hrest⟩ := Option.bind_eq_some_iff.1 h
    have hdepth := depthAfter_of_depthStep hstep
    rw [Site.along, Site.topFrom, hdepth] at hnone
    have hcell : (depth == 0 && cell.holds sep) = false := by
      by_contra hcell
      simp only [Bool.not_eq_false, Bool.and_eq_true, beq_iff_eq] at hcell
      obtain ⟨rfl, hholds⟩ := hcell
      have hchar : cell.isLive = true ∧ cell.char = sep := by simpa [holds] using hholds
      have htop : Site.isTop 0 cell = true := by simp [Site.isTop, holds, hchar.2, hsep.1, hsep.2]
      rw [htop] at hnone
      rw [hnone _ List.mem_cons_self] at hholds
      exact absurd hholds (by decide)
    have hlater : ∀ s ∈ Site.topFrom next (Site.along (cell :: before) as), s.cell.holds sep = false := by
      intro s hs
      refine hnone s ?_
      cases Site.isTop depth cell with
      | true => exact List.mem_cons_of_mem _ hs
      | false => exact hs
    rw [List.cons_append, splitFrom, hcell, if_neg (by decide), hdepth, ih hrest (cell :: before) hlater,
      consFirst_prependFirst]
    rfl

end Cell

end MissionScript
