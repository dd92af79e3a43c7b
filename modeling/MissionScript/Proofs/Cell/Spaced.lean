/-
Reading does not tell blanks apart.

- `cells_spaced`: every character has the role that it has when blanks are spaces.
- `level_spaced_iff`, `enclosed_spaced`, `split_spaced`, `clash_spaced`: so parentheses, commas and postfix operators are
  found in the same places.
- `Site.isSign_spaced_of_isSign`: a sign is recognised across few blanks only, and across all of them when they are spaces.
- `lowest_spaced`: where no sign is missed, the text is split at the same operator.
-/
import MissionScript.Proofs.Cell.Cut
import MissionScript.Proofs.Cell.Neighbours
import MissionScript.Proofs.Cell.Operand
import MissionScript.Proofs.Cell.Strings
import MissionScript.Proofs.Text.Spaced

namespace MissionScript

open Text

variable {t before : Text} {c : Char}

/-! ## Characters -/

theorem blankBlind_isWordChar : BlankBlind isWordChar := .of_visible fun _ h => not_isBlank_of_isWordChar h

theorem blankBlind_isNameStart : BlankBlind isNameStart :=
  .of_visible fun _ h => not_isBlank_of_isWordChar (isWordChar_of_isNameStart h)

theorem blankBlind_isDigit : BlankBlind Char.isDigit :=
  .of_visible fun _ h => not_isBlank_of_isWordChar (isWordChar_of_isDigit h)

theorem startsName_spaced (t : Text) : startsName (spaced t) = startsName t := by
  cases t with
  | nil => rfl
  | cons c t => exact blankBlind_isNameStart.apply c

/-! ## Roles -/

namespace Posture

def spaced (p : Posture) : Posture := ⟨p.context, p.depth, Text.spaced p.before⟩

theorem followsOperand_spaced (before : Text) : followsOperand (Text.spaced before) = followsOperand before := by
  cases before with
  | nil => rfl
  | cons c before =>
    have hvisible : BlankBlind fun c => isWordChar c || c == '.' || c == ')' || c == ']' || c == '}' || c == '\'' :=
      ((((blankBlind_isWordChar.or (.beq rfl)).or (.beq rfl)).or (.beq rfl)).or (.beq rfl)).or (.beq rfl)
    exact hvisible.apply c

theorem endsNumeral_spaced (before : Text) : endsNumeral (Text.spaced before) = endsNumeral before := by
  have hpart : BlankBlind fun c : Char => c.isDigit || c == '.' := blankBlind_isDigit.or (.beq rfl)
  simp only [endsNumeral, takeWhile_spaced hpart, dropWhile_spaced hpart, any_spaced blankBlind_isDigit, startsName_spaced]

theorem signsDigit_spaced (t : Text) : signsDigit (Text.spaced t) = signsDigit t := by
  match t with
  | [] => rfl
  | [c] => rfl
  | c :: d :: t =>
    have hsign : BlankBlind fun c => c == '+' || c == '-' := (BlankBlind.beq rfl).or (.beq rfl)
    have hc := hsign.apply c
    simp only [Text.spaced_cons, signsDigit, blankBlind_isDigit.apply d]
    rw [hc]

theorem quoting_start : Posture.start.Quoting := fun _ h => absurd h (by simp [start])

/-- A character has the role that it has when blanks are spaces. -/
theorem advance_spaced {p : Posture} (hp : p.Quoting) (c : Char) (rest : Text) :
    p.spaced.advance (spacedChar c) (Text.spaced rest) = ((p.advance c rest).1, (p.advance c rest).2.spaced) := by
  have hsame : ∀ d, isBlank d = false → (spacedChar c == d) = (c == d) := fun d hd => (BlankBlind.beq hd).apply c
  obtain ⟨context, depth, before⟩ := p
  cases context with
  | string quote =>
    have hquote : isBlank quote = false := by
      rcases Bool.or_eq_true_iff.1 (hp quote rfl) with h | h <;> rw [beq_iff_eq.1 h] <;> rfl
    simp only [Posture.advance, Posture.spaced, hsame quote hquote, Text.spaced_cons]
  | marker n => cases n <;> rfl
  | exponent => rfl
  | code =>
    simp only [Posture.advance, Posture.spaced, hsame '"' rfl, hsame '\'' rfl, hsame '[' rfl, hsame '{' rfl,
      hsame ']' rfl, hsame '}' rfl, hsame '^' rfl, hsame 'e' rfl, hsame 'E' rfl, followsOperand_spaced,
      endsNumeral_spaced, signsDigit_spaced, isPrefixOf_spaced not_isBlank_of_mem_marker rest]
    have hquote : (c == '"' || (c == '\'' && !followsOperand before)) = true → spacedChar c = c := by
      intro h
      apply spacedChar_of_visible
      simp only [Bool.or_eq_true, Bool.and_eq_true, beq_iff_eq] at h
      rcases h with rfl | ⟨rfl, -⟩ <;> rfl
    cases depth with
    | zero =>
      simp only
      split_ifs with hopens
      · simp only [Text.spaced_cons, hquote hopens]
      all_goals rfl
    | succ depth =>
      simp only
      split_ifs with hopens
      · simp only [Text.spaced_cons, hquote hopens]
      all_goals rfl

end Posture

namespace Cell

def spaced (cell : Cell) : Cell := ⟨spacedChar cell.char, cell.role⟩

end Cell

theorem cellsFrom_spaced {p : Posture} (hp : p.Quoting) (t : Text) :
    cellsFrom p.spaced (Text.spaced t) = (cellsFrom p t).map Cell.spaced := by
  induction t generalizing p with
  | nil => rfl
  | cons c t ih =>
    rw [Text.spaced_cons, cellsFrom, Posture.advance_spaced hp, ih (hp.advance c t)]
    rfl

/-- **Reading does not tell blanks apart.** Every character has the role that it has when blanks are spaces. -/
theorem cells_spaced (t : Text) : cells (Text.spaced t) = (cells t).map Cell.spaced :=
  cellsFrom_spaced Posture.quoting_start t

namespace Cell

variable {cs : List Cell} {cell : Cell}

theorem text_map_spaced (cs : List Cell) : text (cs.map spaced) = Text.spaced (text cs) := by
  rw [text, text, Text.spaced, List.map_map, List.map_map]
  rfl

@[simp] theorem isLive_spaced (cell : Cell) : cell.spaced.isLive = cell.isLive := rfl

theorem holds_spaced (hc : isBlank c = false) (cell : Cell) : cell.spaced.holds c = cell.holds c := by
  have hsame : (spacedChar cell.char == c) = (cell.char == c) := (BlankBlind.beq hc).apply cell.char
  rw [holds, holds, isLive_spaced, ← hsame]
  rfl

/-! ## Parentheses and separators -/

theorem depthStep_spaced (depth : Nat) (cell : Cell) : depthStep depth cell.spaced = depthStep depth cell := by
  simp only [depthStep, holds_spaced (c := '(') rfl, holds_spaced (c := ')') rfl]

theorem depthAfter_spaced (depth : Nat) (cell : Cell) : depthAfter depth cell.spaced = depthAfter depth cell := by
  simp only [depthAfter, holds_spaced (c := '(') rfl, holds_spaced (c := ')') rfl]

theorem depthFrom_spaced (depth : Nat) (cs : List Cell) : depthFrom depth (cs.map spaced) = depthFrom depth cs := by
  induction cs generalizing depth with
  | nil => rfl
  | cons cell cs ih => simp only [List.map_cons, depthFrom, depthStep_spaced, ih]

theorem level_spaced_iff : Level (cs.map spaced) ↔ Level cs := by rw [Level, Level, depthFrom_spaced]

theorem closesAtEnd_spaced (depth : Nat) (cs : List Cell) :
    closesAtEnd depth (cs.map spaced) = closesAtEnd depth cs := by
  induction cs generalizing depth with
  | nil => rfl
  | cons cell cs ih => simp only [List.map_cons, closesAtEnd, depthAfter_spaced, ih, List.isEmpty_map]

theorem enclosed_spaced (cs : List Cell) :
    enclosed (cs.map spaced) = (enclosed cs).map fun parts => (Text.spaced parts.1, Text.spaced parts.2) := by
  have hopens : (fun cell : Cell => !cell.holds '(') ∘ spaced = fun cell => !cell.holds '(' :=
    funext fun cell => by simp only [Function.comp, holds_spaced (c := '(') rfl]
  unfold enclosed
  rw [List.dropWhile_map, List.takeWhile_map, hopens]
  cases cs.dropWhile fun cell => !cell.holds '(' with
  | nil => rfl
  | cons opening inner =>
    simp only [List.map_cons, closesAtEnd_spaced]
    split_ifs
    · simp only [Option.map_some, ← List.map_dropLast, text_map_spaced]
    · rfl

theorem consFirst_spaced (c : Char) (parts : List Text) :
    consFirst (spacedChar c) (parts.map Text.spaced) = (consFirst c parts).map Text.spaced := by
  cases parts <;> rfl

theorem splitFrom_spaced {sep : Char} (hsep : isBlank sep = false) (depth : Nat) (cs : List Cell) :
    splitFrom sep depth (cs.map spaced) = (splitFrom sep depth cs).map Text.spaced := by
  induction cs generalizing depth with
  | nil => rfl
  | cons cell cs ih =>
    rw [List.map_cons, splitFrom, splitFrom, holds_spaced hsep, depthAfter_spaced, ih, ih]
    split_ifs
    · rfl
    · exact consFirst_spaced _ _

theorem split_spaced {sep : Char} (hsep : isBlank sep = false) (cs : List Cell) :
    split sep (cs.map spaced) = (split sep cs).map Text.spaced := splitFrom_spaced hsep 0 cs

theorem isBracketLiteral_spaced (cs : List Cell) : isBracketLiteral (cs.map spaced) = isBracketLiteral cs := by
  have hcloses : ∀ cs : List Cell, closesBracketAtEnd (cs.map spaced) = closesBracketAtEnd cs := by
    intro cs
    induction cs with
    | nil => rfl
    | cons cell cs ih =>
      rw [List.map_cons, closesBracketAtEnd, closesBracketAtEnd, ih, List.isEmpty_map]
      rfl
  cases cs with
  | nil => rfl
  | cons cell cs =>
    obtain ⟨c, role⟩ := cell
    cases role with
    | bracket depth => exact hcloses cs
    | live | quoted | exponentSign | inverse => rfl

theorem any_holds_spaced (hc : isBlank c = false) (cs : List Cell) :
    (cs.map spaced).any (holds c) = cs.any (holds c) := by
  have hsame : holds c ∘ spaced = holds c := funext (holds_spaced hc)
  rw [List.any_map, hsame]

end Cell

/-! ## Sites -/

namespace Site

def spaced (s : Site) : Site := ⟨s.before.map Cell.spaced, s.cell.spaced, s.after.map Cell.spaced⟩

theorem left_spaced (s : Site) : s.spaced.left = Text.spaced s.left := by
  rw [left, left, ← Cell.text_map_spaced, List.map_reverse]
  rfl

theorem right_spaced (s : Site) : s.spaced.right = Text.spaced s.right := Cell.text_map_spaced s.after

theorem along_spaced (before cs : List Cell) :
    along (before.map Cell.spaced) (cs.map Cell.spaced) = (along before cs).map spaced := by
  induction cs generalizing before with
  | nil => rfl
  | cons cell cs ih =>
    rw [List.map_cons, along, along, List.map_cons, ← List.map_cons, ih]
    rfl

theorem topFrom_spaced (depth : Nat) (sites : List Site) :
    topFrom depth (sites.map spaced) = (topFrom depth sites).map spaced := by
  induction sites generalizing depth with
  | nil => rfl
  | cons s sites ih =>
    have htop : isTop depth s.spaced.cell = isTop depth s.cell := by
      simp only [isTop, spaced, Cell.holds_spaced (c := '(') rfl, Cell.holds_spaced (c := ')') rfl]
    have hdepth : Cell.depthAfter depth s.spaced.cell = Cell.depthAfter depth s.cell := Cell.depthAfter_spaced depth s.cell
    rw [List.map_cons, topFrom, topFrom, htop, hdepth, ih]
    cases isTop depth s.cell <;> rfl

end Site

namespace Cell

variable {cs : List Cell}

theorem sites_spaced (cs : List Cell) : sites (cs.map spaced) = (sites cs).map Site.spaced := Site.along_spaced [] cs

theorem outside_spaced (cs : List Cell) : outside (cs.map spaced) = (outside cs).map Site.spaced := by
  rw [outside, sites_spaced, Site.topFrom_spaced]
  rfl

/-! ### Postfix operators and groups -/

theorem find?_visible_spaced (cs : List Cell) :
    ((cs.map spaced).find? fun cell => !isBlank cell.char).map Cell.char =
      (cs.find? fun cell => !isBlank cell.char).map Cell.char := by
  have hsame : (fun cell : Cell => !isBlank cell.char) ∘ spaced = fun cell => !isBlank cell.char :=
    funext fun cell => by simp only [Function.comp, spaced, isBlank_spacedChar]
  rw [List.find?_map, hsame]
  cases hfind : cs.find? fun cell => !isBlank cell.char with
  | none => rfl
  | some cell =>
    have hvisible : isBlank cell.char = false := by simpa using List.find?_some hfind
    exact congrArg some (spacedChar_of_visible hvisible)

theorem clash_spaced (cs : List Cell) : clash (cs.map spaced) = clash cs := by
  have hstray : ∀ operator, strayAfter operator (cs.map spaced) = strayAfter operator cs := by
    intro operator
    have hends : ∀ s : Site, operator.endsWith s.spaced.cell = operator.endsWith s.cell := by
      intro s
      cases operator with
      | transpose => exact holds_spaced rfl s.cell
      | inverse => rfl
    have hfilter : (fun s : Site => operator.endsWith s.cell) ∘ Site.spaced = fun s => operator.endsWith s.cell :=
      funext hends
    unfold strayAfter
    rw [sites_spaced, List.filter_map, hfilter, List.findSome?_map]
    congr 1
    funext s
    simp only [Function.comp, Site.spaced, find?_visible_spaced]
  rw [clash, clash, hstray, hstray]

end Cell

/-! ## Signs -/

def Split.spaced (split : Split) : Split := ⟨split.symbol, Text.spaced split.left, Text.spaced split.right⟩

namespace Symbol

theorem ofChar?_of_blank (h : isBlank c = true) : ofChar? c = none := by
  unfold ofChar?
  split <;> first | exact absurd h (by decide) | rfl

theorem ofChar?_spacedChar (c : Char) : ofChar? (spacedChar c) = ofChar? c := by
  cases h : isBlank c with
  | false => rw [spacedChar_of_visible h]
  | true => rw [spacedChar_of_blank h, ofChar?_of_blank h, ofChar?_of_blank rfl]

theorem char_of_additive {symbol : Symbol} (h : ofChar? c = some symbol) (htier : symbol.tier = .additive) :
    c = '+' ∨ c = '-' := by
  unfold ofChar? at h
  split at h
  · exact .inl rfl
  · exact .inr rfl
  · obtain rfl := Option.some.inj h
    exact absurd htier (by decide)
  · obtain rfl := Option.some.inj h
    exact absurd htier (by decide)
  · obtain rfl := Option.some.inj h
    exact absurd htier (by decide)
  · obtain rfl := Option.some.inj h
    exact absurd htier (by decide)
  · exact absurd h (by simp)

end Symbol

namespace Site

/-- A sign is missed when only with spaces for blanks it is found to be one. -/
structure Missed (s : Site) : Prop where
  isLive : s.cell.isLive = true
  isAdditive : s.cell.char = '+' ∨ s.cell.char = '-'
  isSign_spaced : s.spaced.isSign = true
  isSign : s.isSign = false

theorem not_isBlank_of_opens (h : signOpeners.contains c = true) : isBlank c = false := by
  have hall : ∀ c ∈ signOpeners, isBlank c = false := List.all_iff_forall_prop.1 (by decide)
  exact hall c (List.contains_iff_mem.1 h)

/-- A character is a sign by what stands before it, blanks left out. -/
theorem isSign_spaced_eq (s : Site) : s.spaced.isSign =
    match s.before.find? fun cell => !isBlank cell.char with
    | none => true
    | some cell => signOpeners.contains cell.char := by
  have hsame : (fun cell : Cell => !isAsciiBlank cell.char) ∘ Cell.spaced = fun cell => !isBlank cell.char :=
    funext fun cell => by simp only [Function.comp, Cell.spaced, isAsciiBlank_spacedChar]
  unfold isSign spaced
  rw [List.find?_map, hsame]
  cases hfind : s.before.find? fun cell => !isBlank cell.char with
  | none => rfl
  | some cell =>
    have hvisible : isBlank cell.char = false := by simpa using List.find?_some hfind
    simp only [Option.map_some, Cell.spaced, spacedChar_of_visible hvisible]

theorem isSign_spaced_of_isSign {s : Site} (h : s.isSign = true) : s.spaced.isSign = true := by
  rw [isSign_spaced_eq]
  unfold isSign at h
  cases hfind : s.before.find? fun cell => !isAsciiBlank cell.char with
  | none =>
    have hnone : s.before.find? (fun cell => !isBlank cell.char) = none := by
      rw [List.find?_eq_none] at hfind ⊢
      intro cell hcell
      have hascii : isAsciiBlank cell.char = true := by simpa using hfind cell hcell
      simp [isBlank_of_isAsciiBlank hascii]
    rw [hnone]
  | some cell =>
    rw [hfind] at h
    have hvisible : isBlank cell.char = false := not_isBlank_of_opens h
    obtain ⟨-, as, bs, hbefore, hblank⟩ := List.find?_eq_some_iff_append.1 hfind
    have hsame : s.before.find? (fun cell => !isBlank cell.char) = some cell := by
      refine List.find?_eq_some_iff_append.2 ⟨by simp [hvisible], as, bs, hbefore, fun x hx => ?_⟩
      have hascii : isAsciiBlank x.char = true := by simpa using hblank x hx
      simp [isBlank_of_isAsciiBlank hascii]
    rw [hsame]
    exact h

/-- Where no sign is missed stands the same operator. -/
theorem operator?_spaced {s : Site} (h : ¬s.Missed) : s.spaced.operator? = s.operator? := by
  have hsymbol : Symbol.ofChar? s.spaced.cell.char = Symbol.ofChar? s.cell.char := Symbol.ofChar?_spacedChar s.cell.char
  unfold operator?
  rw [hsymbol, show s.spaced.cell.isLive = s.cell.isLive from rfl]
  split_ifs with hlive
  · cases hsome : Symbol.ofChar? s.cell.char with
    | none => rfl
    | some symbol =>
      by_cases hadditive : symbol.tier = .additive
      · have hsign : s.spaced.isSign = s.isSign := by
          cases hs : s.isSign with
          | true => exact isSign_spaced_of_isSign hs
          | false =>
            by_contra hmissed
            exact h ⟨hlive, Symbol.char_of_additive hsome hadditive, by simpa using hmissed, hs⟩
        rw [hsign]
      · have htier : (symbol.tier == .additive) = false := beq_false_of_ne hadditive
        simp only [Option.filter_some, htier, Bool.false_and]
  · rfl

theorem loosest_spaced {sites : List Site} (h : ∀ s ∈ sites, s.spaced.operator? = s.operator?) :
    loosest (sites.map spaced) = (loosest sites).map spaced := by
  have hrightmost : ∀ tier, rightmost tier (sites.map spaced) = (rightmost tier sites).map spaced := by
    intro tier
    have hjoins : sites.filter (joins tier ∘ spaced) = sites.filter (joins tier) :=
      List.filter_congr fun s hs => by simp only [Function.comp, joins, h s hs]
    rw [rightmost, List.filter_map, hjoins, List.getLast?_map]
    rfl
  simp only [loosest, hrightmost]
  cases rightmost .additive sites with
  | some s => rfl
  | none =>
    cases rightmost .multiplicative sites with
    | some s => rfl
    | none => rfl

end Site

/-- **Where no sign is missed, the text is split at the same operator.** -/
theorem Cell.lowest_spaced {cs : List Cell} (hlevel : Level cs) (h : ∀ s ∈ outside cs, ¬s.Missed) :
    lowest (cs.map spaced) = (lowest cs).map Split.spaced := by
  have hsame : ∀ s ∈ outside cs, s.spaced.operator? = s.operator? := fun s hs => Site.operator?_spaced (h s hs)
  rw [lowest_eq (level_spaced_iff.2 hlevel), lowest_eq hlevel, outside_spaced, Site.loosest_spaced hsame]
  cases hloosest : Site.loosest (outside cs) with
  | none => rfl
  | some s =>
    have hs : s.spaced.operator? = s.operator? := hsame s (Site.mem_of_loosest hloosest)
    simp only [Option.map_some, Option.bind_some, Site.split?, hs, Site.left_spaced, Site.right_spaced, Option.map_map]
    rfl

end MissionScript
