/-
The operator an expression is split on.

A `Site` is a cell with everything before and after it. `+` and `-` bind loosest, then `*` and `/`, then `^` and the
transpose quote. A `+` or `-` with nothing but blanks between it and an opener or another operator is the sign of what
follows and no operator.

`segments` are the runs of sites outside all parentheses; there are none when the parentheses do not balance. Each
segment offers its loosest operator, the rightmost of equals. A `Record` notes what is offered, one site for each symbol,
so that a later offer of a symbol takes the place of an earlier one. Of the loosest tier noted `search` takes the
rightmost site, and `lowest` is the split that it finds. `Site.text_eq` says that a site divides the text it stands in.
-/
import MissionScript.Cell.Depth

namespace MissionScript

/-- a character that joins or marks operands -/
inductive Symbol where
  | plus
  | minus
  | times
  | divide
  | caret
  | quote
  deriving DecidableEq, Repr

/-- how tightly an operator binds -/
inductive Tier where
  | additive
  | multiplicative
  | power
  deriving DecidableEq, Repr

namespace Symbol

/-- the symbols, in the order in which they are noted -/
def all : List Symbol := [.plus, .minus, .times, .divide, .caret, .quote]

def ofChar? : Char → Option Symbol
  | '+' => some .plus
  | '-' => some .minus
  | '*' => some .times
  | '/' => some .divide
  | '^' => some .caret
  | '\'' => some .quote
  | _ => none

def tier : Symbol → Tier
  | .plus | .minus => .additive
  | .times | .divide => .multiplicative
  | .caret | .quote => .power

end Symbol

/-- a cell and what stands around it -/
structure Site where
  /-- the cells before, the nearest first -/
  before : List Cell
  cell : Cell
  after : List Cell

namespace Site

def left (s : Site) : Text := Cell.text s.before.reverse

def right (s : Site) : Text := Cell.text s.after

/-- the characters that make a `+` or `-` behind them a sign -/
def signOpeners : Text := ['(', ',', '=', ';', '+', '-', '*', '/', '^']

/-- true when a `+` or `-` here is the sign of what follows -/
def isSign (s : Site) : Bool :=
  match s.before.find? fun cell => !isAsciiBlank cell.char with
  | none => true
  | some cell => signOpeners.contains cell.char

def operator? (s : Site) : Option Symbol :=
  if s.cell.isLive then
    (Symbol.ofChar? s.cell.char).filter fun symbol => !(symbol.tier == .additive && s.isSign)
  else none

def joins (tier : Tier) (s : Site) : Bool := s.operator?.any fun symbol => symbol.tier == tier

def rightmost (tier : Tier) (sites : List Site) : Option Site := (sites.filter (joins tier)).getLast?

/-- the rightmost operator of the loosest tier present -/
def loosest (sites : List Site) : Option Site :=
  rightmost .additive sites <|> rightmost .multiplicative sites <|> rightmost .power sites

/-- the one of two sites that stands farther to the right, the second one if they stand at the same place -/
def later (best : Option Site) (s : Site) : Option Site :=
  match best with
  | none => some s
  | some best => if s.before.length < best.before.length then some best else some s

def latest (sites : List Site) : Option Site := sites.foldl later none

/-- divides sites into the runs outside parentheses, from a given depth on -/
def segmentsFrom : Nat → List Site → Option (List (List Site))
  | 0, [] => some [[]]
  | _ + 1, [] => none
  | 0, s :: rest =>
    if s.cell.holds '(' then (segmentsFrom 1 rest).map ([] :: ·)
    else if s.cell.holds ')' then none
    else (segmentsFrom 0 rest).map (consFirst s)
  | d + 1, s :: rest =>
    if s.cell.holds '(' then segmentsFrom (d + 2) rest
    else if s.cell.holds ')' then segmentsFrom d rest
    else segmentsFrom (d + 1) rest

/-- the sites of a text whose part before them is given, the nearest cell first -/
def along (before : List Cell) : List Cell → List Site
  | [] => []
  | cell :: rest => ⟨before, cell, rest⟩ :: along (cell :: before) rest

end Site

/-- for each symbol the site that is noted, if there is one -/
abbrev Record := Symbol → Option Site

namespace Record

def blank : Record := fun _ => none

/-- notes a site for its symbol, in the place of the one noted before -/
def note (record : Record) (s : Site) : Record := fun symbol =>
  if s.operator? = some symbol then some s else record symbol

def ofTier (record : Record) (tier : Tier) : List Site :=
  (Symbol.all.filter fun symbol => symbol.tier == tier).filterMap record

/-- the rightmost site of the loosest tier noted -/
def loosest (record : Record) : Option Site :=
  Site.latest (record.ofTier .additive) <|> Site.latest (record.ofTier .multiplicative) <|>
    Site.latest (record.ofTier .power)

def ofOffers (offers : List Site) : Record := offers.foldl note blank

end Record

namespace Cell

def sites (cs : List Cell) : List Site := Site.along [] cs

/-- the nonempty runs of sites outside parentheses; none when the parentheses do not balance -/
def segments (cs : List Cell) : Option (List (List Site)) :=
  (Site.segmentsFrom 0 (sites cs)).map fun runs => runs.filter fun run => !run.isEmpty

def balanced (cs : List Cell) : Bool := (segments cs).isSome

end Cell

/-- an operator and the texts on its two sides -/
structure Split where
  symbol : Symbol
  left : Text
  right : Text

namespace Site

def split? (s : Site) : Option Split := s.operator?.map fun symbol => ⟨symbol, s.left, s.right⟩

theorem text_eq_of_mem_along {before cs : List Cell} {s : Site} (h : s ∈ along before cs) :
    s.left ++ s.cell.char :: s.right = Cell.text (before.reverse ++ cs) := by
  induction cs generalizing before with
  | nil => simp [along] at h
  | cons cell rest ih =>
    rcases List.mem_cons.1 h with rfl | h
    · simp [left, right, Cell.text]
    · simpa using ih h

/-- A site divides the text it stands in. -/
theorem text_eq {cs : List Cell} {s : Site} (h : s ∈ Cell.sites cs) :
    s.left ++ s.cell.char :: s.right = Cell.text cs := by
  simpa using text_eq_of_mem_along h

theorem mem_of_loosest {sites : List Site} {s : Site} (h : loosest sites = some s) : s ∈ sites := by
  have key : ∀ tier, rightmost tier sites = some s → s ∈ sites := fun tier h =>
    (List.mem_filter.1 (List.mem_of_getLast? h)).1
  simp only [loosest, Option.orElse_eq_orElse, Option.orElse_eq_or, Option.or_eq_some_iff] at h
  rcases h with h | ⟨-, h | ⟨-, h⟩⟩ <;> exact key _ h

theorem mem_of_foldl_later {best : Option Site} {sites : List Site} {s : Site}
    (h : sites.foldl later best = some s) : best = some s ∨ s ∈ sites := by
  induction sites generalizing best with
  | nil => exact .inl h
  | cons x sites ih =>
    rcases ih h with hx | hmem
    · unfold later at hx
      split at hx
      · exact .inr (Option.some.inj hx ▸ List.mem_cons_self)
      · split at hx
        · exact .inl hx
        · exact .inr (Option.some.inj hx ▸ List.mem_cons_self)
    · exact .inr (List.mem_cons_of_mem x hmem)

theorem mem_of_latest {sites : List Site} {s : Site} (h : latest sites = some s) : s ∈ sites :=
  (mem_of_foldl_later h).resolve_left (by simp)

theorem flatten_segmentsFrom {depth : Nat} {sites : List Site} {runs : List (List Site)}
    (h : segmentsFrom depth sites = some runs) : runs.flatten.Sublist sites := by
  fun_induction segmentsFrom depth sites generalizing runs with
  | case1 =>
    obtain rfl := Option.some.inj h
    simp
  | case2 => simp at h
  | case3 s rest _ ih =>
    obtain ⟨inner, h', rfl⟩ := Option.map_eq_some_iff.1 h
    simpa using (ih h').cons s
  | case4 => simp at h
  | case5 s rest _ _ ih =>
    obtain ⟨inner, h', rfl⟩ := Option.map_eq_some_iff.1 h
    simpa [flatten_consFirst] using ih h'
  | case6 d s rest _ ih | case7 d s rest _ _ ih | case8 d s rest _ _ ih => exact (ih h).cons s

end Site

namespace Record

theorem mem_of_foldl_note {record : Record} {offers : List Site} {symbol : Symbol} {s : Site}
    (h : offers.foldl note record symbol = some s) :
    record symbol = some s ∨ s ∈ offers ∧ s.operator? = some symbol := by
  induction offers generalizing record with
  | nil => exact .inl h
  | cons x offers ih =>
    rcases ih h with hx | ⟨hmem, hop⟩
    · unfold note at hx
      split at hx
      · next hop => exact .inr (Option.some.inj hx ▸ ⟨List.mem_cons_self, hop⟩)
      · exact .inl hx
    · exact .inr ⟨List.mem_cons_of_mem x hmem, hop⟩

/-- What is noted for a tier are operators of the tier that have been offered. -/
theorem of_mem_ofTier {offers : List Site} {tier : Tier} {s : Site} (h : s ∈ (ofOffers offers).ofTier tier) :
    s ∈ offers ∧ ∃ symbol, s.operator? = some symbol ∧ symbol.tier = tier := by
  obtain ⟨symbol, hsymbol, hs⟩ := List.mem_filterMap.1 h
  obtain ⟨hmem, hop⟩ := (mem_of_foldl_note hs).resolve_left (by simp [blank])
  exact ⟨hmem, symbol, hop, beq_iff_eq.1 (List.mem_filter.1 hsymbol).2⟩

theorem mem_of_loosest {offers : List Site} {s : Site} (h : (ofOffers offers).loosest = some s) : s ∈ offers := by
  have key : ∀ tier, Site.latest ((ofOffers offers).ofTier tier) = some s → s ∈ offers := fun tier h =>
    (of_mem_ofTier (Site.mem_of_latest h)).1
  simp only [loosest, Option.orElse_eq_orElse, Option.orElse_eq_or, Option.or_eq_some_iff] at h
  rcases h with h | ⟨-, h | ⟨-, h⟩⟩ <;> exact key _ h

end Record

namespace Cell

/-- the operator a text is split on, if there is one; nothing is looked for when the parentheses do not balance -/
def search (cs : List Cell) : Option (Option Split) :=
  (segments cs).map fun runs => (Record.ofOffers (runs.filterMap Site.loosest)).loosest.bind Site.split?

/-- the operator a text is split on, if it holds one outside parentheses -/
def lowest (cs : List Cell) : Option Split := (search cs).join

theorem exists_site_of_lowest {cs : List Cell} {split : Split} (h : lowest cs = some split) :
    ∃ s ∈ sites cs, s.split? = some split := by
  obtain ⟨runs, hruns, hfound⟩ := Option.map_eq_some_iff.1 (Option.join_eq_some_iff.1 h)
  obtain ⟨s, hs, hsplit⟩ := Option.bind_eq_some_iff.1 hfound
  obtain ⟨all, hall, rfl⟩ := Option.map_eq_some_iff.1 hruns
  obtain ⟨run, hrun, hloose⟩ := List.mem_filterMap.1 (Record.mem_of_loosest hs)
  have hmem : s ∈ all.flatten := List.mem_flatten.2 ⟨run, (List.mem_filter.1 hrun).1, Site.mem_of_loosest hloose⟩
  exact ⟨s, (Site.flatten_segmentsFrom hall).subset hmem, hsplit⟩

/-- Both sides of a split are shorter than the text. -/
theorem length_lowest {cs : List Cell} {split : Split} (h : lowest cs = some split) :
    split.left.length + split.right.length + 1 = cs.length := by
  obtain ⟨s, hmem, hsplit⟩ := exists_site_of_lowest h
  obtain ⟨symbol, -, rfl⟩ := Option.map_eq_some_iff.1 hsplit
  have hlen := congrArg List.length (Site.text_eq hmem)
  simp only [List.length_append, List.length_cons, length_text] at hlen
  simp only
  omega

end Cell

end MissionScript
