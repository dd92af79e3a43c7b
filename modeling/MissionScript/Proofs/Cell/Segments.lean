/-
Segments and the flat scan.

How many parentheses are open before a site says whether it is outside, without following the depth from one segment to
the next. The segments of a text are the runs of these sites, and what is found segment by segment, with one site noted
for each symbol, is what a scan over all of them finds.

- `Cell.level_iff`: the depth comes back to zero exactly when the parentheses pair off, counted in every prefix.
- `Site.topFrom_eq_filter`: the sites outside are those before which as many parentheses open as close.
- `Site.contiguous_segmentsFrom`: every segment is a run of neighbouring sites.
- `Cell.isFlatSplit_iff`: a flat scan has one result, that of the search.
- `Cell.search_flat`: segments and search against the flat scan, for every text.
-/
import MissionScript.Expression.Decomposition
import MissionScript.Proofs.Cell.Cut

namespace MissionScript

theorem Tier.rank_injective : Function.Injective Tier.rank := by
  intro a b
  cases a <;> cases b <;> simp [Tier.rank]

/-! ## Counted parentheses -/

namespace Cell

/-- Up to no place more parentheses close than open, and in the whole as many. -/
structure Paired (cs : List Cell) : Prop where
  opened : ∀ as, as <+: cs → as.countP (holds ')') ≤ as.countP (holds '(')
  closed : cs.countP (holds '(') = cs.countP (holds ')')

theorem forall_prefix_cons {P : List Cell → Prop} {cell : Cell} {cs : List Cell} :
    (∀ as, as <+: cell :: cs → P as) ↔ P [] ∧ ∀ as, as <+: cs → P (cell :: as) := by
  constructor
  · intro h
    exact ⟨h [] List.nil_prefix, fun as has => h (cell :: as) (List.cons_prefix_cons.2 ⟨rfl, has⟩)⟩
  · rintro ⟨hnil, hcons⟩ as has
    rcases List.prefix_cons_iff.1 has with rfl | ⟨as, rfl, hprefix⟩
    · exact hnil
    · exact hcons as hprefix

theorem not_holds_of_holds {c d : Char} {cell : Cell} (h : cell.holds c = true) (hne : c ≠ d) :
    cell.holds d = false := by
  rw [eq_of_holds h]
  simpa [holds, isLive] using hne

theorem countP_cell_cons (p : Cell → Bool) (cell : Cell) (cs : List Cell) :
    (cell :: cs).countP p = [cell].countP p + cs.countP p := by
  rw [← List.countP_append, List.singleton_append]

/-- Behind a cell the depth has changed by the parenthesis that the cell holds. -/
theorem depthStep_eq_some_iff {depth next : Nat} {cell : Cell} :
    depthStep depth cell = some next ↔ depth + [cell].countP (holds '(') = next + [cell].countP (holds ')') := by
  rw [depthStep, List.countP_singleton, List.countP_singleton]
  by_cases hopen : cell.holds '(' = true
  · have hclose : cell.holds ')' = false := not_holds_of_holds hopen (by decide)
    rw [if_pos hopen, if_pos hopen, hclose, Option.some_inj]
    rfl
  · rw [if_neg hopen, if_neg hopen]
    by_cases hclose : cell.holds ')' = true
    · rw [if_pos hclose, if_pos hclose]
      cases depth with
      | zero => simp
      | succ depth => simp
    · rw [if_neg hclose, if_neg hclose, Option.some_inj]
      rfl

/-- A depth is reached when at no place more is closed than is open. -/
theorem depthFrom_eq_some_iff {depth depth' : Nat} {cs : List Cell} :
    depthFrom depth cs = some depth' ↔
      (∀ as, as <+: cs → as.countP (holds ')') ≤ depth + as.countP (holds '(')) ∧
        depth + cs.countP (holds '(') = depth' + cs.countP (holds ')') := by
  induction cs generalizing depth with
  | nil => simp [depthFrom]
  | cons cell cs ih =>
    rw [forall_prefix_cons, countP_cell_cons _ cell cs, countP_cell_cons _ cell cs]
    constructor
    · intro h
      obtain ⟨next, hstep, hrest⟩ := Option.bind_eq_some_iff.1 h
      obtain ⟨hopened, hclosed⟩ := ih.1 hrest
      have hnext := depthStep_eq_some_iff.1 hstep
      refine ⟨⟨Nat.zero_le _, fun as has => ?_⟩, by omega⟩
      have hle := hopened as has
      rw [countP_cell_cons _ cell as, countP_cell_cons _ cell as]
      omega
    · rintro ⟨⟨-, hopened⟩, hclosed⟩
      -- the cell closes nothing that was not open before it
      have hcell : [cell].countP (holds ')') ≤ depth + [cell].countP (holds '(') := hopened [] List.nil_prefix
      obtain ⟨next, hnext⟩ := Nat.exists_eq_add_of_le' hcell
      refine Option.bind_eq_some_iff.2 ⟨next, depthStep_eq_some_iff.2 hnext, ih.2 ⟨fun as has => ?_, by omega⟩⟩
      have hle := hopened as has
      rw [countP_cell_cons _ cell as, countP_cell_cons _ cell as] at hle
      omega

/-- Parentheses pair off in number exactly when the depth comes back to zero. -/
theorem level_iff {cs : List Cell} : Level cs ↔ Paired cs := by
  rw [Level, depthFrom_eq_some_iff]
  simp only [Nat.zero_add]
  exact ⟨fun h => ⟨h.1, h.2⟩, fun h => ⟨h.opened, h.closed⟩⟩

end Cell

/-! ## Sites by number -/

namespace Site

/-- true when no parenthesis is open before the site and none stands at it -/
def isOutside (s : Site) : Bool :=
  !s.cell.holds '(' && !s.cell.holds ')' && s.before.countP (Cell.holds '(') == s.before.countP (Cell.holds ')')

theorem isTop_eq_isOutside {depth : Nat} {before : List Cell}
    (hdepth : depth + before.countP (Cell.holds ')') = before.countP (Cell.holds '(')) (cell : Cell)
    (rest : List Cell) : isTop depth cell = isOutside ⟨before, cell, rest⟩ := by
  have hopen : (depth == 0) = (before.countP (Cell.holds '(') == before.countP (Cell.holds ')')) := by
    rw [Bool.eq_iff_iff, beq_iff_eq, beq_iff_eq]
    omega
  rw [isTop, isOutside, hopen]
  cases cell.holds '(' <;> cases cell.holds ')' <;> simp

theorem depth_step {depth next : Nat} {before : List Cell} {cell : Cell}
    (hdepth : depth + before.countP (Cell.holds ')') = before.countP (Cell.holds '('))
    (hstep : Cell.depthStep depth cell = some next) :
    next + (cell :: before).countP (Cell.holds ')') = (cell :: before).countP (Cell.holds '(') := by
  have hone : Cell.depthFrom depth [cell] = some next := by rw [Cell.depthFrom, hstep]; rfl
  obtain ⟨-, hcount⟩ := Cell.depthFrom_eq_some_iff.1 hone
  simp only [List.countP_cons, List.countP_nil] at hcount ⊢
  omega

/-- The sites outside parentheses are those before which as many parentheses open as close. -/
theorem topFrom_eq_filter {depth depth' : Nat} {before cs : List Cell} (h : Cell.depthFrom depth cs = some depth')
    (hdepth : depth + before.countP (Cell.holds ')') = before.countP (Cell.holds '(')) :
    topFrom depth (along before cs) = (along before cs).filter isOutside := by
  induction cs generalizing depth before with
  | nil => rfl
  | cons cell cs ih =>
    obtain ⟨next, hstep, hrest⟩ := Option.bind_eq_some_iff.1 h
    have hlater := ih hrest (depth_step hdepth hstep)
    rw [along, topFrom, List.filter_cons, Cell.depthAfter_of_depthStep hstep, hlater,
      isTop_eq_isOutside hdepth cell cs]
    cases isOutside ⟨before, cell, cs⟩ <;> rfl

/-! ## Runs of neighbours -/

/-- The sites are neighbours, the first of which stands at the given place. -/
def Contiguous (start : Nat) (run : List Site) : Prop :=
  run.map (fun s => s.before.length) = List.range' start run.length

theorem Contiguous.cons {s : Site} {run : List Site} (h : Contiguous (s.before.length + 1) run) :
    Contiguous s.before.length (s :: run) := congrArg (s.before.length :: ·) h

/-- Every run is one of neighbours; the first one, outside parentheses, begins where the sites do. -/
theorem contiguous_segmentsFrom {depth : Nat} {before cs : List Cell} {runs : List (List Site)}
    (h : segmentsFrom depth (along before cs) = some runs) :
    (depth = 0 → ∃ run ∈ runs.head?, Contiguous before.length run) ∧
      ∀ run ∈ runs, ∃ start, Contiguous start run := by
  induction cs generalizing depth before runs with
  | nil =>
    cases depth with
    | zero =>
      obtain rfl := Option.some.inj h
      exact ⟨fun _ => ⟨[], rfl, rfl⟩, List.forall_mem_singleton.2 ⟨0, rfl⟩⟩
    | succ depth => exact absurd h (by simp [along, segmentsFrom])
  | cons cell cs ih =>
    cases depth with
    | zero =>
      simp only [along, segmentsFrom] at h
      split_ifs at h
      · obtain ⟨later, hlater, rfl⟩ := Option.map_eq_some_iff.1 h
        exact ⟨fun _ => ⟨[], rfl, rfl⟩, List.forall_mem_cons.2 ⟨⟨0, rfl⟩, (ih hlater).2⟩⟩
      · obtain ⟨later, hlater, rfl⟩ := Option.map_eq_some_iff.1 h
        obtain ⟨hfirst, hall⟩ := ih hlater
        obtain ⟨run, hrun, hnext⟩ := hfirst rfl
        obtain ⟨rest, rfl⟩ := List.head?_eq_some_iff.1 hrun
        have hcons : Contiguous before.length (⟨before, cell, cs⟩ :: run) := Contiguous.cons hnext
        exact ⟨fun _ => ⟨_, rfl, hcons⟩, List.forall_mem_cons.2
          ⟨⟨before.length, hcons⟩, fun run' hrun' => hall run' (List.mem_cons_of_mem run hrun')⟩⟩
    | succ depth =>
      simp only [along, segmentsFrom] at h
      split_ifs at h <;> exact ⟨fun hzero => absurd hzero (Nat.succ_ne_zero depth), (ih h).2⟩

end Site

/-! ## The flat scan -/

namespace Cell

variable {cs : List Cell} {s : Site} {symbol : Symbol}

/-- The site is the rightmost of the loosest tier among all operators outside parentheses. -/
structure IsFlatSplit (cs : List Cell) (s : Site) (symbol : Symbol) : Prop where
  mem : s ∈ sites cs
  outside : s.isOutside = true
  operator : s.operator? = some symbol
  le : ∀ x ∈ sites cs, x.isOutside = true → ∀ other, x.operator? = some other →
    symbol.tier.rank < other.tier.rank ∨ symbol.tier = other.tier ∧ x.before.length ≤ s.before.length

theorem outside_eq_filter (h : Level cs) : outside cs = (sites cs).filter Site.isOutside :=
  Site.topFrom_eq_filter h rfl

theorem mem_outside_iff (h : Level cs) : s ∈ outside cs ↔ s ∈ sites cs ∧ s.isOutside = true := by
  rw [outside_eq_filter h, List.mem_filter]

theorem ascending_outside (h : Level cs) : Site.Ascending (outside cs) := by
  rw [outside_eq_filter h]
  exact (Site.ascending_along [] cs).sublist List.filter_sublist

/-- The operator of the flat scan is found. -/
theorem loosest_of_isFlatSplit (h : Level cs) (hs : IsFlatSplit cs s symbol) : Site.loosest (outside cs) = some s := by
  have hascending := ascending_outside h
  have hle : ∀ x ∈ outside cs, ∀ other, x.operator? = some other →
      symbol.tier.rank < other.tier.rank ∨ symbol.tier = other.tier ∧ x.before.length ≤ s.before.length := by
    intro x hx
    obtain ⟨hmem, hout⟩ := (mem_outside_iff h).1 hx
    exact hs.le x hmem hout
  obtain ⟨before, after, hsites⟩ := List.append_of_mem ((mem_outside_iff h).2 ⟨hs.mem, hs.outside⟩)
  rw [hsites] at hascending hle ⊢
  obtain ⟨-, hafter, -⟩ := List.pairwise_append.1 hascending
  have hloosest : Site.IsLoosest before s symbol after := by
    refine ⟨hs.operator, ?_, ?_⟩
    · intro x hx other hother
      rcases hle x (by simp [hx]) other hother with hlt | ⟨htier, -⟩
      · exact hlt.le
      · rw [htier]
    · intro x hx other hother
      rcases hle x (by simp [hx]) other hother with hlt | ⟨-, hplace⟩
      · exact hlt
      · have hright := List.rel_of_pairwise_cons hafter hx
        omega
  exact hloosest.loosest_eq

/-- What is found is the operator of the flat scan. -/
theorem isFlatSplit_of_loosest (h : Level cs) (hloosest : Site.loosest (outside cs) = some s)
    (hop : s.operator? = some symbol) : IsFlatSplit cs s symbol := by
  have hascending := ascending_outside h
  obtain ⟨before, symbol', after, hsites, hs⟩ := Site.exists_isLoosest hloosest
  obtain rfl : symbol' = symbol := Option.some.inj (hs.operator.symm.trans hop)
  obtain ⟨hmem, hout⟩ := (mem_outside_iff h).1 (Site.mem_of_loosest hloosest)
  refine ⟨hmem, hout, hop, ?_⟩
  intro x hx houtside other hother
  have hxmem := (mem_outside_iff h).2 ⟨hx, houtside⟩
  rw [hsites] at hascending hxmem
  obtain ⟨-, -, hbefore⟩ := List.pairwise_append.1 hascending
  rcases List.mem_append.1 hxmem with hearlier | hlater
  · have hleft := hbefore x hearlier s List.mem_cons_self
    rcases Nat.lt_or_eq_of_le (hs.before_le x hearlier other hother) with hlt | heq
    · exact .inl hlt
    · exact .inr ⟨Tier.rank_injective heq, hleft.le⟩
  · rcases List.mem_cons.1 hlater with rfl | hlater
    · obtain rfl : symbol' = other := Option.some.inj (hs.operator.symm.trans hother)
      exact .inr ⟨rfl, le_rfl⟩
    · exact .inl (hs.after_lt x hlater other hother)

/-- **Nothing is lost segment by segment.** The search finds the operator of the flat scan, and no other. -/
theorem isFlatSplit_iff (h : Level cs) :
    IsFlatSplit cs s symbol ↔ Site.loosest (outside cs) = some s ∧ s.operator? = some symbol := by
  constructor
  · intro hs
    exact ⟨loosest_of_isFlatSplit h hs, hs.operator⟩
  · rintro ⟨hloosest, hop⟩
    exact isFlatSplit_of_loosest h hloosest hop

/-- Where the depth comes back to zero, the segments are runs of neighbours that make up the outside. -/
theorem exists_segments (h : Level cs) :
    ∃ runs, segments cs = some runs ∧ runs.flatten = (sites cs).filter Site.isOutside ∧
      Site.Ascending runs.flatten ∧ ∀ run ∈ runs, run ≠ [] ∧ ∃ start, Site.Contiguous start run := by
  obtain ⟨runs, hruns, hflat⟩ := exists_segmentsFrom h
  have hfilter : (runs.filter fun run => !run.isEmpty).flatten = runs.flatten := List.flatten_filter_not_isEmpty
  refine ⟨runs.filter fun run => !run.isEmpty, by rw [segments, hruns]; rfl, ?_, ?_, ?_⟩
  · rw [hfilter, hflat, outside_eq_filter h]
  · rw [hfilter, hflat]
    exact ascending_outside h
  · intro run hrun
    obtain ⟨hmem, hnonempty⟩ := List.mem_filter.1 hrun
    exact ⟨by simpa using hnonempty, (Site.contiguous_segmentsFrom hruns).2 run hmem⟩

theorem split_eq_some_iff (h : Level cs) {left right : Text} :
    (Site.loosest (outside cs)).bind Site.split? = some ⟨symbol, left, right⟩ ↔
      ∃ s, IsFlatSplit cs s symbol ∧ s.left = left ∧ s.right = right := by
  simp only [isFlatSplit_iff h, Option.bind_eq_some_iff, Site.split?, Option.map_eq_some_iff, Split.mk.injEq]
  constructor
  · rintro ⟨s, hs, _, hop, rfl, rfl, rfl⟩
    exact ⟨s, ⟨hs, hop⟩, rfl, rfl⟩
  · rintro ⟨s, ⟨hs, hop⟩, rfl, rfl⟩
    exact ⟨s, hs, symbol, hop, rfl, rfl, rfl⟩

theorem split_eq_none_iff (h : Level cs) :
    (Site.loosest (outside cs)).bind Site.split? = none ↔
      ∀ s ∈ sites cs, s.isOutside = true → s.operator? = none := by
  rw [← lowest_eq h, lowest_eq_none_iff h]
  constructor
  · intro hnone s hs hout
    exact hnone s ((mem_outside_iff h).2 ⟨hs, hout⟩)
  · intro hnone s hs
    obtain ⟨hmem, hout⟩ := (mem_outside_iff h).1 hs
    exact hnone s hmem hout

/-- **The search by segments is a flat scan.** Where the parentheses pair off, the segments are not empty, they stand in
the order of the text, and together they are all sites outside parentheses; what is found is the rightmost operator of
the loosest tier among these, and nothing is found only where there is none. Where they do not pair off, there are no
segments, nothing is looked for, and the text is refused. -/
theorem search_flat (t : Text) :
    (Paired (cells t) →
      (∃ runs, segments (cells t) = some runs ∧ runs.flatten = (sites (cells t)).filter Site.isOutside ∧
        Site.Ascending runs.flatten ∧ ∀ run ∈ runs, run ≠ [] ∧ ∃ start, Site.Contiguous start run) ∧
      ∃ found, search (cells t) = some found ∧
        (∀ symbol left right, found = some ⟨symbol, left, right⟩ ↔
          ∃ s, IsFlatSplit (cells t) s symbol ∧ s.left = left ∧ s.right = right) ∧
        (found = none ↔ ∀ s ∈ sites (cells t), s.isOutside = true → s.operator? = none)) ∧
    (¬Paired (cells t) →
      segments (cells t) = none ∧ search (cells t) = none ∧ checkGroups t = .error (.unbalancedParenthesis t)) := by
  constructor
  · intro hpaired
    have hlevel := level_iff.2 hpaired
    refine ⟨exists_segments hlevel, _, search_eq hlevel, ?_, split_eq_none_iff hlevel⟩
    intro symbol left right
    exact split_eq_some_iff hlevel
  · intro hpaired
    have hbalanced : balanced (cells t) = false :=
      Bool.eq_false_iff.2 fun h => hpaired (level_iff.1 (balanced_iff.1 h))
    have hsegments : segments (cells t) = none := Option.isSome_eq_false_iff.1 hbalanced |> Option.isNone_iff_eq_none.1
    refine ⟨hsegments, by rw [search, hsegments]; rfl, ?_⟩
    rw [checkGroups, hbalanced]
    rfl

/-- An operator in parentheses, one in a string and the sign of an exponent are passed over. -/
theorem search_flat_last_sum :
    Paired (cells "(1-2)*x-'a+b'/3e-5^2".toList) ∧
      ∃ s, IsFlatSplit (cells "(1-2)*x-'a+b'/3e-5^2".toList) s .minus ∧ s.left = "(1-2)*x".toList ∧
        s.right = "'a+b'/3e-5^2".toList := by
  have hpaired : Paired (cells "(1-2)*x-'a+b'/3e-5^2".toList) := level_iff.1 (by decide +kernel)
  obtain ⟨-, found, hfound, hsplit, -⟩ := (search_flat "(1-2)*x-'a+b'/3e-5^2".toList).1 hpaired
  refine ⟨hpaired, (hsplit _ _ _).1 ?_⟩
  have hsearch : search (cells "(1-2)*x-'a+b'/3e-5^2".toList) =
      some (some ⟨.minus, "(1-2)*x".toList, "'a+b'/3e-5^2".toList⟩) := by rfl
  exact Option.some.inj (hfound.symm.trans hsearch)

end Cell

end MissionScript
