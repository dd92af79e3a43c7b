/-
Where the texts that a text is divided into stand.

Whatever a level hands on to be read again is cut out of the text of the level: a side of an operator, what a sign or a
marker belongs to, what parentheses enclose, what stands between commas. It reads alike there, so that nothing is found in
it anew, and nothing is missed.

- `Stage.arises_run`: the cuts that a stage makes, whatever the stage.
- `Step.readsAlike_places`: what a step hands on reads alike in the text of the step.
- `HandedOn`: the texts that are handed on at any depth, with their places; `HandedOn.readsAlike` for all of them.
- `exists_handedOn`: every text that is read when a text is built is handed on from it.
-/
import MissionScript.Proofs.Cell.Scan
import MissionScript.Proofs.Expression.Division

namespace MissionScript

open Cell

variable {voc : Vocabulary} {t u v left right inside part : Text} {cs : List Cell} {step : Step} {i j k : Nat}

/-! ## Places -/

/-- parts with one character between each two of them, the first one beginning as given -/
def placed (k : Nat) : List Text → List (Nat × Text)
  | [] => []
  | part :: parts => (k, part) :: placed (k + part.length + 1) parts

/-- the texts that an operator or a call hands on, and where they begin in a text of length `n` -/
def Decomposition.places (n : Nat) : Decomposition → List (Nat × Text)
  | .leaf _ => []
  | .unary .negate operand => [(1, operand)]
  | .unary _ operand => [(0, operand)]
  | .binary _ left right => [(0, left), (n - right.length, right)]
  | .call _ inside =>
    let start := n - 1 - inside.length
    (start, inside) :: if Text.isVisible inside then placed start (Cell.split ',' (cells inside)) else []

/-- the texts that a step hands on, and where they begin in a text of length `n` -/
def Step.places (n : Nat) : Step → List (Nat × Text)
  | .decide found => found.places n
  | .narrow inner => [(1, inner)]

/-- A text is handed on when another one is read: by its first step, then without the blanks around it, or when what is
handed on is read in turn. The number is its place in the other one without the blanks around that. -/
inductive HandedOn (voc : Vocabulary) : Text → Nat → Text → Prop where
  | first {t u : Text} {i : Nat} {step : Step} (hstep : stepBy Stage.order voc (Text.trim t) = .ok step)
    (hmem : (i, u) ∈ step.places (Text.trim t).length) : HandedOn voc t i u
  | trimmed {t u : Text} {i : Nat} (h : HandedOn voc t i u) :
    HandedOn voc t (i + (u.length - (Text.trimStart u).length)) (Text.trim u)
  | later {t u v : Text} {i j : Nat} (h : HandedOn voc t i u) (hinner : HandedOn voc u j v) :
    HandedOn voc t (i + (u.length - (Text.trimStart u).length) + j) v

/-! ## What a stage cuts out -/

/-- how the cells of a text come to a step -/
inductive Arises (cs : List Cell) : Step → Prop where
  | sum (subtracts : Bool) {left right : Text}
    (h : lowest cs = some ⟨if subtracts then .minus else .plus, left, right⟩) :
    Arises cs (.decide (additive subtracts left right))
  | binary (op : BinaryOp) {symbol : Symbol} {left right : Text} (h : lowest cs = some ⟨symbol, left, right⟩)
    (hne : symbol ≠ .quote) : Arises cs (.decide (.binary op left right))
  | transposed {left right : Text} (h : lowest cs = some ⟨.quote, left, right⟩) :
    Arises cs (.decide (.unary .transpose left))
  | negated {rest : Text} (h : text cs = '-' :: rest) : Arises cs (.decide (.unary .negate rest))
  | signed {rest : Text} (h : text cs = '+' :: rest) : Arises cs (.narrow rest)
  | group {inside : Text} (h : enclosed cs = some ([], inside)) : Arises cs (.narrow inside)
  | call (callee : Callee) {head inside : Text} (h : enclosed cs = some (head, inside)) :
    Arises cs (.decide (.call callee inside))
  | marker {step : Step} (h : Stage.runMarker cs = some step) : Arises cs step

namespace Arises

theorem of_multiplicative {op : BinaryOp} {symbol : Symbol} (hlow : lowest cs = some ⟨symbol, left, right⟩)
    (hne : symbol ≠ .quote) (h : multiplicative op left right = .ok (some step)) : Arises cs step := by
  rw [eq_of_multiplicative h]
  exact .binary op hlow hne

theorem of_power (hlow : lowest cs = some ⟨.caret, left, right⟩)
    (h : (if isSigned (text cs) then none else some (.decide (.binary .power left right))) = some step) :
    Arises cs step := by
  split_ifs at h
  obtain rfl := Option.some.inj h
  exact .binary .power hlow (by decide)

theorem of_transposed (hlow : lowest cs = some ⟨.quote, left, right⟩)
    (h : MissionScript.transposed left right = .ok (some step)) : Arises cs step := by
  rw [eq_of_transposed h]
  exact .transposed hlow

theorem of_callForm {admits : FunctionKind → Bool} (h : Stage.callForm voc admits cs = .ok (some step)) :
    Arises cs step := by
  unfold Stage.callForm at h
  split at h
  · exact absurd h (by simp)
  · next head inside henc =>
    simp only at h
    split at h
    · exact absurd h (by simp)
    · split at h
      · split_ifs at h
        obtain rfl := Option.some.inj (Except.ok.inj h)
        exact .call _ henc
      · obtain rfl := Option.some.inj (Except.ok.inj h)
        exact .call _ henc

theorem of_runGroup (h : Stage.runGroup voc cs (lowest cs) = .ok (some step)) : Arises cs step := by
  unfold Stage.runGroup at h
  split at h
  · exact absurd h (by simp)
  · split at h
    · exact absurd h (by simp)
    · exact absurd h (by simp)
    · next hlow => exact of_multiplicative hlow (by decide) h
    · next hlow => exact of_multiplicative hlow (by decide) h
    · next hlow => exact of_power hlow (Except.ok.inj h)
    · next hlow =>
      split at h
      · exact absurd h (by simp)
      · exact of_transposed hlow h
    · split at h
      · split at h
        · next henc =>
          obtain rfl := Option.some.inj (Except.ok.inj h)
          exact .group henc
        · exact absurd h (by simp)
      · exact of_callForm h

end Arises

/-- **What a stage cuts out.** Whatever a stage comes to arises from an operator, a sign, parentheses or a marker. -/
theorem Stage.arises_run {stage : Stage} (h : stage.run voc cs (lowest cs) = .ok (some step)) : Arises cs step := by
  cases stage with
  | group => exact .of_runGroup h
  | call kinds => exact .of_callForm h
  | marker => exact .marker (Except.ok.inj h)
  | sum =>
    simp only [run] at h
    split at h
    · next hlow =>
      obtain rfl := Option.some.inj (Except.ok.inj h)
      exact .sum false hlow
    · next hlow =>
      obtain rfl := Option.some.inj (Except.ok.inj h)
      exact .sum true hlow
    · exact absurd h (by simp)
  | product =>
    simp only [run] at h
    split at h
    · next hlow => exact .of_multiplicative hlow (by decide) h
    · next hlow => exact .of_multiplicative hlow (by decide) h
    · exact absurd h (by simp)
  | power =>
    simp only [run] at h
    split at h
    · next hlow => exact .of_power hlow (Except.ok.inj h)
    · exact absurd h (by simp)
  | sign =>
    simp only [run] at h
    split at h
    · next htext =>
      obtain rfl := Option.some.inj (Except.ok.inj h)
      exact .negated htext
    · next htext =>
      obtain rfl := Option.some.inj (Except.ok.inj h)
      exact .signed htext
    · exact absurd h (by simp)

/-- A step leaves the text as it is, or it arises from balanced parentheses. -/
theorem arises_stepBy {stages : List Stage} (h : stepBy stages voc t = .ok step) :
    step = .decide (.leaf t) ∨ Level (cells t) ∧ Arises (cells t) step := by
  unfold stepBy at h
  split_ifs at h
  · exact .inl (Except.ok.inj h).symm
  · obtain ⟨⟨⟩, hcheck, h⟩ := bind_eq_ok_iff.1 h
    obtain ⟨found, hrun, h⟩ := bind_eq_ok_iff.1 h
    obtain rfl := Except.ok.inj h
    cases found with
    | none => exact .inl rfl
    | some step =>
      obtain ⟨stage, -, hstage⟩ := Stage.exists_of_runAll hrun
      exact .inr ⟨(checkGroups_eq_ok_iff.1 hcheck).1, Stage.arises_run hstage⟩

/-! ## Cuts read alike -/

/-- Where what is enclosed begins, counted from the end of the text. -/
theorem start_of_enclosed {head : Text} (h : enclosed (cells t) = some (head, inside)) :
    head.length + 1 = t.length - 1 - inside.length := by
  have hlength := congrArg List.length (text_enclosed h)
  rw [text_cells, List.length_append, List.length_cons, List.length_append, List.length_singleton] at hlength
  omega

namespace ReadsAlike

theorem of_lowest {symbol : Symbol} (hlevel : Level (cells t)) (h : lowest (cells t) = some ⟨symbol, left, right⟩) :
    ReadsAlike t 0 left ∧ (symbol ≠ .quote → ReadsAlike t (t.length - right.length) right) := by
  obtain ⟨as, bs, c, hcells, hsymbol, rfl, rfl, -, -⟩ := exists_of_lowest hlevel h
  obtain rfl : c = symbol.char := Symbol.eq_char hsymbol
  constructor
  · exact before_live hcells (by cases symbol <;> rfl)
  · intro hne
    refine behind_live hcells fun rest => ?_
    cases symbol with
    | quote => exact absurd rfl hne
    | _ => rfl

/-- What stands behind a sign at the front reads alike. -/
theorem of_text_eq {c : Char} {rest : Text} (hc : c = '+' ∨ c = '-') (htext : text (cells t) = c :: rest) :
    ReadsAlike t 1 rest := by
  obtain rfl : t = c :: rest := (text_cells t).symm.trans htext
  have hrest := of_sign hc rest
  rwa [List.length_cons, Nat.add_sub_cancel_left] at hrest

theorem of_enclosed {head : Text} (h : enclosed (cells t) = some (head, inside)) :
    ReadsAlike t (head.length + 1) inside ∧ Level (cells inside) := by
  obtain ⟨front, rfl, hcells, hlevel⟩ := exists_cells_of_enclosed h
  exact ⟨⟨front ++ [opening], [closing], by rw [hcells]; simp, by simp [length_text]⟩, hlevel⟩

theorem of_runMarker (h : Stage.runMarker (cells t) = some step) :
    ∃ op operand, step = .decide (.unary op operand) ∧ op ≠ .negate ∧ ReadsAlike t 0 operand := by
  obtain ⟨last, hlast, hrun⟩ := Option.bind_eq_some_iff.1 h
  split_ifs at hrun with hmarker hquote
  · obtain rfl := Option.some.inj hrun
    obtain ⟨operand, rfl⟩ := exists_eq_append_inverse hlast (beq_iff_eq.1 hmarker)
    rw [text_take_inverse]
    have hstops : ∀ rest, Posture.Stops '^' rest :=
      fun rest => ⟨by decide, by decide, by decide, fun h => absurd h (by decide)⟩
    exact ⟨.inverse, operand, rfl, by decide, of_front (Posture.cellsFrom_append hstops _ operand _)⟩
  · obtain rfl := Option.some.inj hrun
    obtain ⟨cs, hcs⟩ := List.getLast?_eq_some_iff.1 hlast
    rw [eq_of_holds hquote] at hcs
    rw [hcs, List.dropLast_concat]
    exact ⟨.transpose, text cs, rfl, by decide, before_live hcs rfl⟩

theorem of_mem_placed (hlevel : Level (cells u)) (hu : ReadsAlike t k u) {p : Nat × Text}
    (hp : p ∈ placed k (Cell.split ',' (cells u))) : ReadsAlike t p.1 p.2 := by
  induction hlength : u.length using Nat.strong_induction_on generalizing u k with
  | _ n ih =>
    unfold Cell.split at hp
    rcases splitFrom_cases ',' hlevel with ⟨-, hsplit⟩ | ⟨as, bs, hcells, ha, -, hsplit⟩
    · rw [hsplit, text_cells] at hp
      obtain rfl := List.mem_singleton.1 hp
      exact hu
    · rw [hsplit, placed] at hp
      rcases List.mem_cons.1 hp with rfl | hp
      · exact hu.trans (before_live hcells rfl)
      · -- behind the first comma
        have hbehind : cells (text bs) = bs := cells_behind hcells fun _ => rfl
        have hcount : u.length = (text as).length + 1 + (text bs).length := by
          rw [← length_cells u, hcells, List.length_append, List.length_cons, length_text, length_text]
          omega
        have hplace : k + (text as).length + 1 = k + (u.length - (text bs).length) := by omega
        have hrest : ReadsAlike t (k + (text as).length + 1) (text bs) := by
          rw [hplace]
          exact hu.trans (behind_live hcells fun _ => rfl)
        have hlevelrest : Level (cells (text bs)) := by
          rw [hbehind]
          rw [hcells] at hlevel
          exact (hlevel.of_append ha).of_cons rfl rfl
        exact ih (text bs).length (by omega) hlevelrest hrest (by rwa [hbehind]) rfl

/-- The sign of a right side that is folded is taken off like any other. -/
theorem of_additive (subtracts : Bool) (hl : ReadsAlike t 0 left) (hr : ReadsAlike t (t.length - right.length) right) :
    ∀ p ∈ (additive subtracts left right).places t.length, ReadsAlike t p.1 p.2 := by
  have hsides : ∀ op rest, ReadsAlike t (t.length - rest.length) rest →
      ∀ p ∈ (Decomposition.binary op left rest).places t.length, ReadsAlike t p.1 p.2 := by
    intro op rest hrest
    exact List.forall_mem_cons.2 ⟨hl, List.forall_mem_singleton.2 hrest⟩
  have hstart := hr.suffix_trans (trimStart right)
  unfold additive
  split
  · next rest hrest =>
    rw [hrest] at hstart
    exact hsides _ rest (hstart.suffix_trans (of_sign (.inl rfl) rest))
  · next rest hrest =>
    rw [hrest] at hstart
    exact hsides _ rest (hstart.suffix_trans (of_sign (.inr rfl) rest))
  · exact hsides _ right hr

end ReadsAlike

/-- What the cells of a text come to is cut out of it. -/
theorem Arises.readsAlike_places (hlevel : Level (cells t)) (h : Arises (cells t) step) :
    ∀ p ∈ step.places t.length, ReadsAlike t p.1 p.2 := by
  cases h with
  | sum subtracts hlow =>
    obtain ⟨hl, hr⟩ := ReadsAlike.of_lowest hlevel hlow
    exact .of_additive subtracts hl (hr (by cases subtracts <;> decide))
  | binary op hlow hne =>
    obtain ⟨hl, hr⟩ := ReadsAlike.of_lowest hlevel hlow
    exact List.forall_mem_cons.2 ⟨hl, List.forall_mem_singleton.2 (hr hne)⟩
  | transposed hlow => exact List.forall_mem_singleton.2 (ReadsAlike.of_lowest hlevel hlow).1
  | negated htext => exact List.forall_mem_singleton.2 (ReadsAlike.of_text_eq (.inr rfl) htext)
  | signed htext => exact List.forall_mem_singleton.2 (ReadsAlike.of_text_eq (.inl rfl) htext)
  | group henc => exact List.forall_mem_singleton.2 (ReadsAlike.of_enclosed henc).1
  | call callee henc =>
    obtain ⟨hinside, hlevelinside⟩ := ReadsAlike.of_enclosed henc
    rw [start_of_enclosed henc] at hinside
    refine List.forall_mem_cons.2 ⟨hinside, ?_⟩
    intro p hp
    split_ifs at hp
    · exact hinside.of_mem_placed hlevelinside hp
    · exact absurd hp List.not_mem_nil
  | marker hrun =>
    obtain ⟨op, operand, rfl, hne, hoperand⟩ := ReadsAlike.of_runMarker hrun
    cases op with
    | negate => exact absurd rfl hne
    | _ => exact List.forall_mem_singleton.2 hoperand

/-- **One step.** What a step hands on reads alike in the text of the step. -/
theorem Step.readsAlike_places {stages : List Stage} (hstep : stepBy stages voc t = .ok step) :
    ∀ p ∈ step.places t.length, ReadsAlike t p.1 p.2 := by
  rcases arises_stepBy hstep with rfl | ⟨hlevel, harises⟩
  · exact List.forall_mem_nil _
  · exact harises.readsAlike_places hlevel

/-! ## Any number of steps -/

/-- **All that is handed on** reads alike in the text that it is handed on from. -/
theorem HandedOn.readsAlike (h : HandedOn voc t i u) : ReadsAlike (Text.trim t) i u := by
  induction h with
  | first hstep hmem => exact Step.readsAlike_places hstep _ hmem
  | @trimmed t u i _ ih => exact ih.trans (.trimmed u)
  | @later t u v i j _ _ ihouter ihinner => exact (ihouter.trans (.trimmed u)).trans ihinner

theorem exists_mem_placed (k : Nat) {parts : List Text} (h : part ∈ parts) : ∃ i, (i, part) ∈ placed k parts := by
  induction parts generalizing k with
  | nil => exact absurd h List.not_mem_nil
  | cons first parts ih =>
    rcases List.mem_cons.1 h with rfl | h
    · exact ⟨k, List.mem_cons_self⟩
    · obtain ⟨i, hi⟩ := ih (k + first.length + 1) h
      exact ⟨i, List.mem_cons_of_mem _ hi⟩

/-- The texts that a step leads to are handed on, the arguments of a call without the blanks around them. -/
theorem exists_mem_places (h : part ∈ step.parts) (n : Nat) :
    ∃ p ∈ step.places n, p.2 = part ∨ Text.trim p.2 = part := by
  cases step with
  | narrow inner =>
    obtain rfl := List.mem_singleton.1 h
    exact ⟨_, List.mem_cons_self, .inl rfl⟩
  | decide found =>
    cases found with
    | leaf text => exact absurd h List.not_mem_nil
    | unary op operand =>
      obtain rfl := List.mem_singleton.1 h
      cases op with
      | _ => exact ⟨_, List.mem_cons_self, .inl rfl⟩
    | binary op left right =>
      rcases List.mem_pair.1 h with rfl | rfl
      · exact ⟨_, List.mem_cons_self, .inl rfl⟩
      · exact ⟨_, List.mem_cons_of_mem _ List.mem_cons_self, .inl rfl⟩
    | call callee inside =>
      change part ∈ argumentTexts inside at h
      unfold argumentTexts at h
      split_ifs at h with hvisible
      · obtain ⟨piece, hpiece, rfl⟩ := List.mem_map.1 h
        obtain ⟨i, hi⟩ := exists_mem_placed (n - 1 - inside.length) hpiece
        refine ⟨(i, piece), List.mem_cons_of_mem _ ?_, .inr rfl⟩
        rwa [if_pos hvisible]
      · exact absurd h List.not_mem_nil

/-- Every text that is read when another one is built is that text or handed on from it. -/
theorem exists_handedOn (h : ReadIn voc u t) : u = t ∨ ∃ i, HandedOn voc t i u := by
  induction h with
  | whole => exact .inl rfl
  | @part part t step hstep hmem _ ih =>
    obtain ⟨⟨i, piece⟩, hplace, hpiece⟩ := exists_mem_places hmem (Text.trim t).length
    obtain ⟨k, hpart⟩ : ∃ k, HandedOn voc t k part := by
      rcases hpiece with rfl | rfl
      · exact ⟨i, .first hstep hplace⟩
      · exact ⟨_, .trimmed (.first hstep hplace)⟩
    rcases ih with rfl | ⟨j, hu⟩
    · exact .inr ⟨k, hpart⟩
    · exact .inr ⟨_, hpart.later hu⟩

/-- **Operands are scanned consistently.** Whatever is handed on when a text is read, at any depth, with the blanks around
it or without, stands in its place in the text without the blanks around that. Scanned on its own, it has the hidden
characters, the inverse markers and the bracket literals of the whole that lie there, and no others. All the texts that are
read when the text is built are among these, but for the text itself. -/
theorem scan_handedOn (voc : Vocabulary) (t : Text) :
    (∀ i u, HandedOn voc t i u →
      u = ((Text.trim t).drop i).take u.length ∧ scan u = (scan (Text.trim t)).restrict i u.length) ∧
    ∀ u, ReadIn voc u t → u = t ∨ ∃ i, HandedOn voc t i u := by
  constructor
  · intro i u h
    exact ⟨h.readsAlike.eq_take, h.readsAlike.scan_eq⟩
  · intro u h
    exact exists_handedOn h

/-- A bracket literal between the parentheses of a call, and behind a minus a name with an inverse marker. -/
theorem scan_handedOn_difference :
    HandedOn .initial "sin([1, 2]) - m^(-1)".toList 4 "[1, 2]".toList ∧
      HandedOn .initial "sin([1, 2]) - m^(-1)".toList 14 "m^(-1)".toList ∧
      scan "[1, 2]".toList = (scan "sin([1, 2]) - m^(-1)".toList).restrict 4 6 ∧
      (scan "[1, 2]".toList).groups = [(0, 6)] ∧
      scan "m^(-1)".toList = (scan "sin([1, 2]) - m^(-1)".toList).restrict 14 6 ∧
      (scan "m^(-1)".toList).markers = [1] := by
  obtain ⟨hscan, -⟩ := scan_handedOn .initial "sin([1, 2]) - m^(-1)".toList
  have hminus : stepBy Stage.order .initial (Text.trim "sin([1, 2]) - m^(-1)".toList) =
      .ok (.decide (.binary .subtract "sin([1, 2]) ".toList " m^(-1)".toList)) := by rfl
  have hcall : stepBy Stage.order .initial (Text.trim "sin([1, 2]) ".toList) =
      .ok (.decide (.call ⟨"sin".toList, .scalar⟩ "[1, 2]".toList)) := by rfl
  have hleft : HandedOn .initial "sin([1, 2]) - m^(-1)".toList 0 "sin([1, 2]) ".toList :=
    .first hminus List.mem_cons_self
  have hliteral : HandedOn .initial "sin([1, 2]) - m^(-1)".toList 4 "[1, 2]".toList :=
    hleft.later (.first hcall List.mem_cons_self)
  have hright : HandedOn .initial "sin([1, 2]) - m^(-1)".toList 13 " m^(-1)".toList :=
    .first hminus (List.mem_cons_of_mem _ List.mem_cons_self)
  have hmarker : HandedOn .initial "sin([1, 2]) - m^(-1)".toList 14 "m^(-1)".toList := hright.trimmed
  exact ⟨hliteral, hmarker, (hscan _ _ hliteral).2, rfl, (hscan _ _ hmarker).2, rfl⟩

end MissionScript
