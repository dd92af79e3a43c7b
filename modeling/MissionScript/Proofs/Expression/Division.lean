/-
Texts and the texts they are divided into.

A text is divided at live characters outside its parentheses, at the commas of a call, or by taking off blanks, signs,
parentheses and markers. What `Passes` from cells to runs of them that are cut out in such places holds of every part.

- `Passes.leads_run`: whatever a stage makes of a text, it leads to texts that have what the text has.
- `Passes.parts`: so does a step as a whole.
- `ReadIn`: the texts that are come to in this way, and `Passes.readIn` for all of them.
- `part_induction`: what every text has if the texts of its first step have it.
-/
import MissionScript.Proofs.Cell.Cut
import MissionScript.Proofs.Expression.Built
import MissionScript.Proofs.Expression.Operand
import MissionScript.Proofs.Expression.Spelling

namespace MissionScript

open Cell Posture

variable {voc : Vocabulary} {t u b left right inside part : Text} {as bs cs : List Cell} {c : Char} {step : Step}

/-! ## Parts of a text -/

def Step.parts : Step → List Text
  | .decide found => found.operands
  | .narrow inner => [inner]

/-- A text is read when another one is built: it is that text, or a step leads to it from one that is read. -/
inductive ReadIn (voc : Vocabulary) : Text → Text → Prop where
  | whole (t : Text) : ReadIn voc t t
  | part {u part t : Text} {step : Step} (hstep : stepBy Stage.order voc (Text.trim t) = .ok step)
    (hmem : part ∈ step.parts) (hread : ReadIn voc u part) : ReadIn voc u t

theorem length_lt_of_mem_parts (hstep : stepBy Stage.order voc (Text.trim t) = .ok step) (hmem : part ∈ step.parts) :
    part.length < t.length := by
  cases step with
  | narrow inner =>
    obtain rfl := List.mem_singleton.1 hmem
    exact Nat.lt_of_lt_of_le (within_stepBy hstep) (Text.length_trim_le t)
  | decide found =>
    have hlevel : decompose voc t = .ok found := by rw [decompose, decomposeBy_eq, hstep]
    exact length_lt_of_mem_operands hlevel hmem

/-- What a text has if the texts that its first step leads to have it, every text has. -/
theorem part_induction {motive : Text → Prop} (voc : Vocabulary)
    (h : ∀ t, (∀ step, stepBy Stage.order voc (Text.trim t) = .ok step → ∀ part ∈ step.parts, motive part) → motive t)
    (t : Text) : motive t := by
  induction hlength : t.length using Nat.strong_induction_on generalizing t with
  | _ n ih =>
    refine h t fun step hstep part hmem => ?_
    exact ih part.length (hlength ▸ length_lt_of_mem_parts hstep hmem) part rfl

namespace Expression

variable {nesting : Nesting} {x : Expression}

/-- What is built has parts that are built. -/
theorem build_part (h : build nesting voc t = .ok x) (hstep : stepBy Stage.order voc (Text.trim t) = .ok step)
    (hmem : part ∈ step.parts) : ∃ y, build nesting voc part = .ok y := by
  cases step with
  | narrow inner =>
    obtain rfl := List.mem_singleton.1 hmem
    have hlevel : decompose voc t = decompose voc part := by
      rw [decompose, decomposeBy_eq, hstep]
      rfl
    exact ⟨x, by rw [← build_congr hlevel, h]⟩
  | decide found =>
    have hlevel : decompose voc t = .ok found := by rw [decompose, decomposeBy_eq, hstep]
    cases built_of_build h with
    | leaf hleaf =>
      obtain rfl := Except.ok.inj (hlevel.symm.trans hleaf)
      exact absurd hmem List.not_mem_nil
    | unary hunary hx =>
      obtain rfl := Except.ok.inj (hlevel.symm.trans hunary)
      obtain rfl := List.mem_singleton.1 hmem
      exact ⟨_, built_iff.1 hx⟩
    | binary hbinary hx hy =>
      obtain rfl := Except.ok.inj (hlevel.symm.trans hbinary)
      rcases List.mem_pair.1 hmem with rfl | rfl
      · exact ⟨_, built_iff.1 hx⟩
      · exact ⟨_, built_iff.1 hy⟩
    | call hcall hitems _ hbuilt =>
      obtain rfl := Except.ok.inj (hlevel.symm.trans hcall)
      change part ∈ argumentTexts _ at hmem
      rw [hitems] at hmem
      obtain ⟨i, hi, rfl⟩ := List.mem_map.1 hmem
      exact ⟨i.2, built_iff.1 (hbuilt i hi)⟩

/-- What is built is built of texts that are built. -/
theorem build_readIn (hread : ReadIn voc u t) (h : build nesting voc t = .ok x) : ∃ y, build nesting voc u = .ok y := by
  induction hread generalizing x with
  | whole => exact ⟨x, h⟩
  | part hstep hmem _ ih =>
    obtain ⟨y, hy⟩ := build_part h hstep hmem
    exact ih hy

end Expression

/-! ### Parentheses, commas and markers -/

/-- What parentheses enclose is read on its own as it is read between them. -/
theorem exists_cells_of_enclosed {head : Text} (henc : Cell.enclosed (cells t) = some (head, inside)) :
    ∃ front, head = text front ∧ cells t = front ++ opening :: (cells inside ++ [closing]) ∧ Level (cells inside) := by
  obtain ⟨front, inner, hcells, hhead, rfl, hinner⟩ := exists_of_enclosed henc
  have hbehind : cells (text (inner ++ [closing])) = inner ++ [closing] := cells_behind hcells fun _ => rfl
  rw [cells_before hbehind (by decide)]
  exact ⟨front, hhead, hcells, hinner⟩

/-- What stands between commas is read on its own as it is read there. -/
theorem exists_of_mem_split (h : Level (cells t)) (hpart : part ∈ Cell.split ',' (cells t)) :
    ∃ as cs, cells t = as ++ (cells part ++ cs) ∧ Level (cells part) ∧ Undivided ',' 0 (cells part) ∧
      ∀ cell ∈ as.getLast?, cell = ⟨',', .live⟩ := by
  induction hlength : t.length using Nat.strong_induction_on generalizing t with
  | _ n ih =>
    unfold Cell.split at hpart
    rcases splitFrom_cases ',' h with ⟨hnone, hsplit⟩ | ⟨as, bs, hcells, ha, hnone, hsplit⟩
    · rw [hsplit, text_cells, List.mem_singleton] at hpart
      subst hpart
      exact ⟨[], [], by simp, h, hnone, by simp⟩
    · rw [hsplit] at hpart
      rcases List.mem_cons.1 hpart with rfl | hpart
      · rw [cells_before hcells (by decide)]
        exact ⟨[], _, hcells, ha, hnone, by simp⟩
      · have hb : Level bs := by
          rw [hcells] at h
          exact (h.of_append ha).of_cons rfl rfl
        -- outside strings and parentheses a comma leaves nothing pending: what stands behind it is read as on its own
        have hbehind : cells (text bs) = bs := cells_behind hcells fun _ => rfl
        have hshorter : (text bs).length < n := by
          rw [← hlength, ← length_cells t, hcells, length_text, List.length_append, List.length_cons]
          omega
        obtain ⟨before, after, hrest, hlevel, hundivided, hlast⟩ :=
          ih (text bs).length hshorter (by rwa [hbehind]) (by rwa [hbehind]) rfl
        rw [hbehind] at hrest
        refine ⟨as ++ ⟨',', .live⟩ :: before, after, by rw [hcells, hrest]; simp, hlevel, hundivided, ?_⟩
        intro cell hcell
        rw [List.getLast?_append_of_ne_nil _ (by simp), List.getLast?_cons] at hcell
        cases hend : before.getLast? with
        | none =>
          rw [hend] at hcell
          exact (Option.some.inj hcell).symm
        | some last =>
          rw [hend] at hcell
          exact hlast cell (hend.trans hcell)

theorem role_of_marker {p : Posture} {n : Nat} (h : p.context = .marker n) : (p.advance c t).1 = .inverse n := by
  obtain ⟨context, depth, before⟩ := p
  obtain rfl : context = .marker n := h
  cases n <;> rfl

theorem not_paren_of_inverse {p : Posture} {last : Cell}
    (hlast : (cellsFrom p Postfix.inverse.written).getLast? = some last) (hrole : last.role = .inverse 0) :
    ∀ cell ∈ cellsFrom p Postfix.inverse.written, cell.holds '(' = false ∧ cell.holds ')' = false := by
  simp only [Postfix.written, cellsFrom] at hlast ⊢
  obtain rfl := Option.some.inj hlast
  -- from its last character the marker is followed back to its parenthesis
  have h₄ := context_of_inverse hrole
  have h₃ := (context_of_marker h₄).resolve_right (by simp)
  have h₂ := (context_of_marker h₃).resolve_right (by simp)
  have h₁ := (context_of_marker h₂).resolve_right (by simp)
  simp [holds, isLive, role_of_marker h₁, role_of_marker h₄]

/-! ## What passes to parts -/

/-- The property passes from cells to those that are cut out of them, behind what ends no name: where everything before
them is level, or between the commas of a call, or as all that a group encloses. -/
structure Passes (Q : List Cell → Prop) : Prop where
  level : ∀ {cs}, Q cs → Level cs
  cut : ∀ {as bs cs}, Q (as ++ (bs ++ cs)) → Level bs → (∀ cell ∈ as.getLast?, isWordChar cell.char = false) →
    Level as ∨ Undivided ',' 0 bs → Q bs
  group : ∀ {inner}, Q (opening :: (inner ++ [closing])) → Level inner → Q inner

namespace Passes

variable {Q : List Cell → Prop}

theorem before (hQ : Passes Q) (h : Q (as ++ bs)) (ha : Level as) : Q as := by
  have hwhole : Q ([] ++ (as ++ bs)) := h
  exact hQ.cut hwhole ha (by simp) (.inl rfl)

theorem behind (hQ : Passes Q) (h : Q (as ++ bs)) (ha : Level as)
    (hlast : ∀ cell ∈ as.getLast?, isWordChar cell.char = false) : Q bs := by
  have hwhole : Q (as ++ (bs ++ [])) := by rwa [List.append_nil]
  exact hQ.cut hwhole ((hQ.level h).of_append ha) hlast (.inl ha)

/-- A live character outside all parentheses that is none has texts with the property on its sides. -/
theorem divided (hQ : Passes Q) (h : Q (cells t)) (hcells : cells t = as ++ ⟨c, .live⟩ :: bs) (ha : Level as)
    (hc : Level [⟨c, .live⟩]) (hdigit : c.isDigit = false) :
    Q (cells (text as)) ∧ ((∀ u, followsOperand (c :: u) = false) → Q (cells (text bs))) := by
  rw [hcells] at h
  constructor
  · rw [cells_before hcells hdigit]
    exact hQ.before h ha
  · intro hfollows
    rw [cells_behind hcells hfollows]
    rw [List.append_cons] at h
    refine hQ.behind h (ha.append hc) fun cell hcell => ?_
    rw [List.getLast?_concat] at hcell
    obtain rfl := Option.some.inj hcell
    exact (not_isWordChar_of_followsOperand (hfollows [])).1

/-! ### Blanks and signs -/

theorem of_blank_append (hQ : Passes Q) (hb : Text.Blank b) (h : Q (cells (b ++ t))) : Q (cells t) := by
  obtain ⟨cs, hcells, hblank⟩ := cells_blank_append hb t
  rw [hcells] at h
  refine hQ.behind h (Clean.of_blank hblank).level fun cell hcell => ?_
  by_contra hword
  have hvisible := not_isBlank_of_isWordChar (by simpa using hword)
  exact absurd ((hblank cell (List.mem_of_getLast? hcell)).1.symm.trans hvisible) (by decide)

theorem of_append_blank (hQ : Passes Q) (hb : Text.Blank b) (h : Q (cells (t ++ b))) : Q (cells t) := by
  have hcells : cells (t ++ b) = cells t ++ cellsFrom (Posture.start.after t) b := cellsFrom_append_blank _ hb
  have hblank := blank_cellsFrom (pending_after (p := Posture.start) (t := t) (Nat.zero_le _)) hb
  rw [hcells] at h
  have hlevel : Level (cells t) := (hQ.level h).of_append_right fun cell hcell =>
    ⟨(hblank cell hcell).not_holds (by decide), (hblank cell hcell).not_holds (by decide)⟩
  exact hQ.before h hlevel

theorem trim (hQ : Passes Q) (h : Q (cells t)) : Q (cells (Text.trim t)) := by
  obtain ⟨b₁, b₂, h₁, h₂, ht⟩ := Text.exists_eq_append_trim t
  rw [ht] at h
  exact hQ.of_append_blank h₂ (hQ.of_blank_append h₁ h)

theorem trimStart (hQ : Passes Q) (h : Q (cells t)) : Q (cells (Text.trimStart t)) := by
  obtain ⟨b, hb, ht⟩ := Text.exists_eq_append_trimStart t
  rw [ht] at h
  exact hQ.of_blank_append hb h

theorem of_sign (hQ : Passes Q) (hc : c = '+' ∨ c = '-') (h : Q (cells (c :: t))) : Q (cells t) := by
  have hmem : c ∈ separators := by rcases hc with rfl | rfl <;> decide
  have hcaret : c ≠ '^' := by rcases hc with rfl | rfl <;> decide
  have hcells : cells (c :: t) = [⟨c, .live⟩] ++ cells t := Reads.nil.cells_append hmem fun h => absurd h hcaret
  have hlevel : Level [⟨c, .live⟩] := by rcases hc with rfl | rfl <;> rfl
  rw [hcells] at h
  refine hQ.behind h hlevel fun cell hcell => ?_
  obtain rfl := Option.some.inj hcell
  rcases hc with rfl | rfl <;> rfl

/-! ### Operators, parentheses and markers -/

theorem lowest {symbol : Symbol} (hQ : Passes Q) (h : Q (cells t))
    (hlow : Cell.lowest (cells t) = some ⟨symbol, left, right⟩) :
    Q (cells left) ∧ (symbol ≠ .quote → Q (cells right)) := by
  obtain ⟨as, bs, c, hcells, hsymbol, rfl, rfl, ha, -⟩ := exists_of_lowest (hQ.level h) hlow
  have hplain : c.isDigit = false ∧ Level [⟨c, .live⟩] ∧ (symbol ≠ .quote → ∀ u, followsOperand (c :: u) = false) := by
    obtain rfl : c = symbol.char := Symbol.eq_char hsymbol
    cases symbol with
    | quote => exact ⟨rfl, rfl, fun hne => absurd rfl hne⟩
    | _ => exact ⟨rfl, rfl, fun _ _ => rfl⟩
  obtain ⟨hbefore, hbehind⟩ := hQ.divided h hcells ha hplain.2.1 hplain.1
  exact ⟨hbefore, fun hne => hbehind (hplain.2.2 hne)⟩

theorem enclosed (hQ : Passes Q) (h : Q (cells t)) (henc : Cell.enclosed (cells t) = some ([], inside)) :
    Q (cells inside) := by
  obtain ⟨front, hfront, hcells, hinner⟩ := exists_cells_of_enclosed henc
  obtain rfl : front = [] := List.map_eq_nil_iff.1 hfront.symm
  rw [hcells] at h
  exact hQ.group h hinner

theorem arguments {head argument : Text} (hQ : Passes Q) (h : Q (cells t))
    (henc : Cell.enclosed (cells t) = some (head, inside)) (hmem : argument ∈ argumentTexts inside) :
    Q (cells argument) := by
  obtain ⟨front, -, hcells, hinner⟩ := exists_cells_of_enclosed henc
  unfold argumentTexts at hmem
  split_ifs at hmem
  · obtain ⟨part, hpart, rfl⟩ := List.mem_map.1 hmem
    obtain ⟨as, cs, hinside, hlevel, hnone, hlast⟩ := exists_of_mem_split hinner hpart
    apply hQ.trim
    rw [hcells, hinside, show front ++ opening :: (as ++ (cells part ++ cs) ++ [closing]) =
      (front ++ opening :: as) ++ (cells part ++ (cs ++ [closing])) by simp] at h
    refine hQ.cut h hlevel (fun cell hcell => ?_) (.inr hnone)
    rw [List.getLast?_append_of_ne_nil _ (by simp), List.getLast?_cons] at hcell
    cases hend : as.getLast? with
    | none =>
      rw [hend] at hcell
      obtain rfl := Option.some.inj hcell
      rfl
    | some last =>
      rw [hend] at hcell
      obtain rfl := Option.some.inj hcell
      rw [hlast _ hend]
      rfl
  · exact absurd hmem List.not_mem_nil

/-- What an inverse marker at the end stands behind has the property. -/
theorem of_inverse {last : Cell} (hQ : Passes Q) (h : Q (cells (t ++ Postfix.inverse.written)))
    (hlast : (cells (t ++ Postfix.inverse.written)).getLast? = some last) (hrole : last.role = .inverse 0) :
    Q (cells t) := by
  have hstops : ∀ u, Stops '^' u := fun u => ⟨by decide, by decide, by decide, fun h => absurd h (by decide)⟩
  have hcells : cells (t ++ Postfix.inverse.written) =
      cells t ++ cellsFrom (Posture.start.after t) Postfix.inverse.written :=
    Posture.cellsFrom_append hstops _ t _
  rw [hcells] at h hlast
  have hmarker : (cellsFrom (Posture.start.after t) Postfix.inverse.written).getLast? = some last := by
    rwa [List.getLast?_append_of_ne_nil _ (by simp [Postfix.written, cellsFrom])] at hlast
  exact hQ.before h ((hQ.level h).of_append_right (not_paren_of_inverse hmarker hrole))

end Passes

/-! ## Stages -/

/-- The texts that a verdict leads to have the property. -/
def Leads (Q : List Cell → Prop) (verdict : Except ParseError (Option Step)) : Prop :=
  ∀ step, verdict = .ok (some step) → ∀ part ∈ step.parts, Q (cells part)

namespace Leads

variable {Q : List Cell → Prop}

theorem none : Leads Q (.ok none) := fun _ h => absurd h (by simp)

theorem error (e : ParseError) : Leads Q (.error e) := fun _ h => absurd h (by simp)

theorem some (h : ∀ part ∈ step.parts, Q (cells part)) : Leads Q (.ok (some step)) := by
  intro other hother
  obtain rfl : step = other := Option.some.inj (Except.ok.inj hother)
  exact h

theorem unary {op : UnaryOp} (h : Q (cells t)) : Leads Q (.ok (.some (.decide (.unary op t)))) :=
  some (List.forall_mem_singleton.2 h)

theorem binary {op : BinaryOp} (hl : Q (cells left)) (hr : Q (cells right)) :
    Leads Q (.ok (.some (.decide (.binary op left right)))) :=
  some (List.forall_mem_cons.2 ⟨hl, List.forall_mem_singleton.2 hr⟩)

theorem additive (hQ : Passes Q) (subtracts : Bool) (hl : Q (cells left)) (hr : Q (cells right)) :
    Leads Q (.ok (.some (.decide (additive subtracts left right)))) := by
  have hstart := hQ.trimStart hr
  unfold MissionScript.additive
  split
  · next rest hrest =>
    rw [hrest] at hstart
    exact binary hl (hQ.of_sign (.inl rfl) hstart)
  · next rest hrest =>
    rw [hrest] at hstart
    exact binary hl (hQ.of_sign (.inr rfl) hstart)
  · exact binary hl hr

theorem multiplicative {op : BinaryOp} (hl : Q (cells left)) (hr : Q (cells right)) :
    Leads Q (multiplicative op left right) := by
  unfold MissionScript.multiplicative
  split_ifs
  · exact binary hl hr
  · exact error _

theorem transposed (h : Q (cells left)) : Leads Q (transposed left right) := by
  unfold MissionScript.transposed
  split
  · exact unary h
  · exact error _

theorem power (hl : Q (cells left)) (hr : Q (cells right)) :
    Leads Q (.ok (if isSigned t then .none else .some (.decide (.binary .power left right)))) := by
  split_ifs
  · exact none
  · exact binary hl hr

theorem callForm {admits : FunctionKind → Bool} (hQ : Passes Q) (h : Q (cells t)) :
    Leads Q (Stage.callForm voc admits (cells t)) := by
  unfold Stage.callForm
  split
  · exact none
  · next head inside henc =>
    have hcall : ∀ callee, Leads Q (.ok (.some (.decide (.call callee inside)))) :=
      fun _ => some fun _ hmem => hQ.arguments h henc hmem
    simp only
    split
    · exact none
    · split
      · split_ifs
        · exact hcall _
        · exact error _
      · exact hcall _

theorem runGroup (hQ : Passes Q) (h : Q (cells t)) : Leads Q (Stage.runGroup voc (cells t) (lowest (cells t))) := by
  unfold Stage.runGroup
  split
  · exact none
  · split
    · exact none
    · exact none
    · next left right hlow =>
      obtain ⟨hl, hr⟩ := hQ.lowest h hlow
      exact multiplicative hl (hr (by decide))
    · next left right hlow =>
      obtain ⟨hl, hr⟩ := hQ.lowest h hlow
      exact multiplicative hl (hr (by decide))
    · next left right hlow =>
      obtain ⟨hl, hr⟩ := hQ.lowest h hlow
      exact power hl (hr (by decide))
    · next left right hlow =>
      split
      · exact none
      · exact transposed (hQ.lowest h hlow).1
    · split
      · split
        · next inside henc => exact some (List.forall_mem_singleton.2 (hQ.enclosed h henc))
        · exact none
      · exact callForm hQ h

theorem runMarker (hQ : Passes Q) (h : Q (cells t)) : Leads Q (.ok (Stage.runMarker (cells t))) := by
  intro step hstep
  obtain ⟨last, hlast, hrun⟩ := Option.bind_eq_some_iff.1 (Except.ok.inj hstep)
  split_ifs at hrun with hmarker hquote
  · obtain rfl := Option.some.inj hrun
    obtain ⟨operand, rfl⟩ := exists_eq_append_inverse hlast (beq_iff_eq.1 hmarker)
    rw [text_take_inverse]
    exact List.forall_mem_singleton.2 (hQ.of_inverse h hlast (beq_iff_eq.1 hmarker))
  · obtain rfl := Option.some.inj hrun
    obtain ⟨cs, hcs⟩ := List.getLast?_eq_some_iff.1 hlast
    rw [eq_of_holds hquote] at hcs
    rw [hcs, List.dropLast_concat]
    have hlevel : Level cs := by
      have hwhole := hQ.level h
      rw [hcs] at hwhole
      exact hwhole.of_append_right (List.forall_mem_singleton.2 ⟨rfl, rfl⟩)
    exact List.forall_mem_singleton.2 (hQ.divided h hcs hlevel rfl (by decide)).1

end Leads

namespace Passes

variable {Q : List Cell → Prop}

/-- **What a stage makes of a text.** The texts that it leads to have what the text has. -/
theorem leads_run (hQ : Passes Q) (h : Q (cells t)) (stage : Stage) :
    Leads Q (stage.run voc (cells t) (Cell.lowest (cells t))) := by
  cases stage with
  | group => exact .runGroup hQ h
  | call kinds => exact .callForm hQ h
  | marker => exact .runMarker hQ h
  | sum =>
    simp only [Stage.run]
    split
    · next left right hlow =>
      obtain ⟨hl, hr⟩ := hQ.lowest h hlow
      exact .additive hQ _ hl (hr (by decide))
    · next left right hlow =>
      obtain ⟨hl, hr⟩ := hQ.lowest h hlow
      exact .additive hQ _ hl (hr (by decide))
    · exact .none
  | product =>
    simp only [Stage.run]
    split
    · next left right hlow =>
      obtain ⟨hl, hr⟩ := hQ.lowest h hlow
      exact .multiplicative hl (hr (by decide))
    · next left right hlow =>
      obtain ⟨hl, hr⟩ := hQ.lowest h hlow
      exact .multiplicative hl (hr (by decide))
    · exact .none
  | power =>
    simp only [Stage.run]
    split
    · next left right hlow =>
      obtain ⟨hl, hr⟩ := hQ.lowest h hlow
      exact .power hl (hr (by decide))
    · exact .none
  | sign =>
    simp only [Stage.run, text_cells]
    split
    · exact .unary (hQ.of_sign (.inr rfl) h)
    · exact .some (List.forall_mem_singleton.2 (hQ.of_sign (.inl rfl) h))
    · exact .none

theorem leads_runAll (hQ : Passes Q) (h : Q (cells t)) (stages : List Stage) :
    Leads Q (Stage.runAll voc (cells t) (Cell.lowest (cells t)) stages) := by
  induction stages with
  | nil => exact .none
  | cons stage rest ih =>
    unfold Stage.runAll
    split
    · exact ih
    · exact hQ.leads_run h stage

/-- **One step.** The texts that a step leads to have what the text has. -/
theorem parts {stages : List Stage} (hQ : Passes Q) (h : Q (cells t)) (hstep : stepBy stages voc t = .ok step) :
    ∀ part ∈ step.parts, Q (cells part) := by
  have hleaf : ∀ part ∈ (Step.decide (.leaf t)).parts, Q (cells part) := List.forall_mem_nil _
  unfold stepBy at hstep
  split_ifs at hstep
  · obtain rfl := Except.ok.inj hstep
    exact hleaf
  · obtain ⟨⟨⟩, -, hstep⟩ := bind_eq_ok_iff.1 hstep
    obtain ⟨found, hrun, hstep⟩ := bind_eq_ok_iff.1 hstep
    obtain rfl := Except.ok.inj hstep
    cases found with
    | none => exact hleaf
    | some step => exact hQ.leads_runAll h stages step hrun

/-- **Every text that is read** has what the whole has. -/
theorem readIn (hQ : Passes Q) (hread : ReadIn voc u t) (h : Q (cells (Text.trim t))) : Q (cells (Text.trim u)) := by
  induction hread with
  | whole => exact h
  | part hstep hmem _ ih => exact ih (hQ.trim (hQ.parts h hstep _ hmem))

end Passes

end MissionScript
