/-
Expressions put together without regard to precedence.

`Composed` texts are references, numbers and strings with parentheses, calls, minus signs and binary operators in any
mixture. A `Chain` is such a text read from left to right: atoms with operators between them and minus signs before them.
An inverse marker is a part of the atom it stands behind.
- `Composed.chain`: every composed text is a chain. Joining chains can turn a power of `(-1)` into an inverse marker.
- `Chain.phrase`: a chain can be read in its place, between whatever separators.
- `Chain.joint`: every operator outside parentheses joins two shorter chains.
-/
import MissionScript.Proofs.Cell.Cut
import MissionScript.Proofs.Expression.Arithmetic

namespace MissionScript

open Cell

variable {voc : Vocabulary} {category left right : Category} {t l r a b b₁ b₂ rest before after : Text} {c : Char}
  {symbol : Symbol}

/-- the operands that hold no others: references, numbers and strings -/
inductive PlainOperand : Text → Prop where
  | reference {t : Text} : IsReference t → PlainOperand t
  | numeral {t : Text} : IsNumeral t → PlainOperand t
  | quotation {t : Text} : IsQuotation t → PlainOperand t

theorem PlainOperand.operand (h : PlainOperand t) : Operand t := by
  cases h with
  | reference h => exact .reference h
  | numeral h => exact .numeral h
  | quotation h => exact .quotation h

/-- The name stands for a function that takes so many arguments. -/
structure Accepts (voc : Vocabulary) (name : Text) (kind : FunctionKind) (arity : Arity) (count : Nat) : Prop where
  isIdentifier : IsIdentifier name
  hasKind : voc.kind? name = some kind
  hasArity : voc.arity? name = some arity
  accepts : arity.accepts count = true

/-- the texts of operands, parentheses, calls, minus signs and binary operators -/
inductive Composed (voc : Vocabulary) : Text → Prop where
  | operand {t : Text} : PlainOperand t → Composed voc t
  | group {b₁ t b₂ : Text} : Gap b₁ → Gap b₂ → Composed voc t → Composed voc ('(' :: (b₁ ++ (t ++ b₂) ++ [')']))
  | call {name gap : Text} {args : List Argument} {kind : FunctionKind} {arity : Arity} :
      Accepts voc name kind arity args.length → Gap gap → (∀ a ∈ args, Gap a.before ∧ Gap a.after) →
      (∀ a ∈ args, Composed voc a.text) →
      Composed voc (name ++ '(' :: (joined gap args ++ [')']))
  | minus {b t : Text} : Gap b → Composed voc t → Composed voc ('-' :: (b ++ t))
  | binary {c : Char} {l b₁ b₂ r : Text} : c ∈ infixes → Composed voc l → Composed voc r → Gap b₁ → Gap b₂ →
      Composed voc (l ++ b₁ ++ c :: (b₂ ++ r))

/-- atoms, and sums of them with operators between them and minus signs before them -/
inductive Chain (voc : Vocabulary) : Category → Text → Prop where
  | operand {t : Text} : PlainOperand t → Chain voc .atom t
  | group {b₁ t b₂ : Text} : Gap b₁ → Gap b₂ → Chain voc .sum t → Chain voc .atom ('(' :: (b₁ ++ (t ++ b₂) ++ [')']))
  | call {name gap : Text} {args : List Argument} {kind : FunctionKind} {arity : Arity} :
      Accepts voc name kind arity args.length → Gap gap → (∀ a ∈ args, Gap a.before ∧ Gap a.after) →
      (∀ a ∈ args, Chain voc .sum a.text) →
      Chain voc .atom (name ++ '(' :: (joined gap args ++ [')']))
  | inverse {t b : Text} : Gap b → Chain voc .atom t → Chain voc .atom (t ++ b ++ Postfix.inverse.written)
  | last {t : Text} : Chain voc .atom t → Chain voc .sum t
  | minus {b t : Text} : Gap b → Chain voc .sum t → Chain voc .sum ('-' :: (b ++ t))
  | binary {c : Char} {l b₁ b₂ r : Text} : c ∈ infixes → Chain voc .atom l → Chain voc .sum r → Gap b₁ → Gap b₂ →
      NoMarker c (b₂ ++ r) → Chain voc .sum (l ++ b₁ ++ c :: (b₂ ++ r))

/-! ## Chains are phrases -/

theorem Phrase.join (hl : Phrase left l) (hr : Phrase right r) (hc : c ∈ infixes) (h₁ : Gap b₁) (h₂ : Gap b₂)
    (hmarker : NoMarker c (b₂ ++ r)) : Phrase .sum (l ++ b₁ ++ c :: (b₂ ++ r)) where
  toPart := ((hl.left_part h₁).mono (Nat.zero_le _)).binary ((hr.right_part h₂).mono (Nat.zero_le _)) hc hmarker
    fun _ _ => Nat.zero_le _
  head := by
    rw [List.append_assoc]
    obtain ⟨d, hd, hchar⟩ := hl.head_append (b₁ ++ c :: (b₂ ++ r))
    exact ⟨d, hd, hchar.imp_right (Or.imp_right fun hsign => ⟨hsign.1, rfl⟩)⟩
  last := by
    rw [show l ++ b₁ ++ c :: (b₂ ++ r) = (l ++ b₁ ++ c :: b₂) ++ r by simp]
    exact hr.last_append _

theorem Phrase.atom_sum (h : Phrase .atom t) : Phrase .sum t :=
  (((h.lift .base).lift .power).lift .signed).lift .product

theorem Chain.phrase (h : Chain voc category t) : Phrase category t := by
  induction h with
  | operand h => exact .operand h.operand
  | group h₁ h₂ _ ih => exact .group h₁ h₂ ih
  | call haccepts hgap hgaps _ ih => exact .call haccepts.isIdentifier (sound_joined hgap hgaps ih)
  | inverse hb _ ih => exact ih.inverse hb
  | last _ ih => exact ih.atom_sum
  | minus hb _ ih => exact ih.minus rfl hb
  | binary hc _ _ h₁ h₂ hmarker ihl ihr => exact ihl.join ihr hc h₁ h₂ hmarker

/-! ## Inverse markers -/

/-- true when the text begins with what a power sign makes an inverse marker -/
def opensMarker (t : Text) : Bool := ['(', '-', '1', ')'].isPrefixOf t

theorem head_of_opensMarker (h : opensMarker (c :: t) = true) : c = '(' := by
  have hmarker : '(' = c ∧ ['-', '1', ')'] <+: t := by simpa [opensMarker] using h
  exact hmarker.1.symm

theorem noMarker_iff (hne : t ≠ []) : NoMarker c t ↔ (c = '^' → opensMarker t = false) :=
  ⟨fun h hc => (h hc).2, fun h hc => ⟨hne, h hc⟩⟩

/-- What begins with a phrase and with `(-1)` begins with it in the phrase. -/
theorem Phrase.opensMarker (h : Phrase category t) (hopens : opensMarker (t ++ rest) = true) :
    MissionScript.opensMarker t = true := by
  by_contra hnone
  have hmarker : NoMarker '^' t := (noMarker_iff h.ne_nil).2 fun _ => by simpa using hnone
  exact absurd (hmarker.append h.clean.level rfl rest) (by simpa [MissionScript.opensMarker] using hopens)

theorem isNumeral_one : IsNumeral ['1'] := ⟨['1'], [], .whole (by simp) (by simp [IsDigits]), .none, rfl⟩

/-- A group that begins with `(-1)` is `(-1)`. -/
theorem eq_of_opensMarker (h : Sound t) (hopens : opensMarker ('(' :: (t ++ [')'])) = true) : t = ['-', '1'] := by
  have hone : Reads ['-', '1', ')'] [⟨'-', .live⟩, ⟨'1', .live⟩, ⟨')', .live⟩] := by
    have hsigned : Sound ['-', '1'] := (Phrase.operand (.numeral isNumeral_one)).toSound.signed (.inr rfl)
    exact hsigned.reads.close
  obtain ⟨u, hu⟩ : ∃ u, t ++ [')'] = '-' :: '1' :: ')' :: u := by
    obtain ⟨u, hu⟩ := List.isPrefixOf_iff_prefix.1 hopens
    exact ⟨u, (List.cons.inj hu.symm).2⟩
  cases u using List.reverseRecOn with
  | nil =>
    have hinit := congrArg List.dropLast hu
    simpa using hinit
  | append_singleton u d _ =>
    -- the parenthesis in the text would close before it opens
    have ht : t = ['-', '1', ')'] ++ u := by
      have hinit := congrArg List.dropLast hu
      rw [List.dropLast_concat] at hinit
      rw [hinit, show '-' :: '1' :: ')' :: (u ++ [d]) = (['-', '1', ')'] ++ u) ++ [d] by simp, List.dropLast_concat]
    have hlevel : Level (cells t) := h.clean.level
    rw [ht, hone u] at hlevel
    exact absurd hlevel (by simp [Level, depthFrom, depthStep, holds, isLive])

theorem Chain.atom_inverse (hl : Chain voc .atom l) (hb : Gap b) (hcategory : category = .atom)
    (ha : Chain voc category a) (hopens : opensMarker a = true) : Chain voc .atom (l ++ b ++ '^' :: a) := by
  induction ha with
  | operand ha =>
    obtain ⟨⟨d, hd, hedge⟩, -⟩ := ha.operand.edges
    obtain ⟨u, rfl⟩ := List.head?_eq_some_iff.1 hd
    obtain rfl := head_of_opensMarker hopens
    exact absurd hedge (by decide)
  | group h₁ h₂ ht _ =>
    rw [eq_of_opensMarker (ht.phrase.toSound.pad h₁ h₂) hopens]
    exact .inverse hb hl
  | @call name gap args kind arity haccepts _ _ _ _ =>
    have hname := haccepts.isIdentifier
    obtain ⟨d, u, rfl⟩ : ∃ d u, name = d :: u :=
      List.exists_cons_of_ne_nil fun hnil => absurd (hnil ▸ hname.startsName) (by decide)
    obtain rfl := head_of_opensMarker hopens
    exact absurd (hname.isWordChar '(' List.mem_cons_self) (by decide)
  | @inverse t b' hb' ht ih =>
    rw [List.append_assoc] at hopens
    have hatom := ih rfl (ht.phrase.opensMarker hopens)
    rw [show l ++ b ++ '^' :: (t ++ b' ++ Postfix.inverse.written) =
      (l ++ b ++ '^' :: t) ++ b' ++ Postfix.inverse.written by simp]
    exact .inverse hb' hatom
  | last | minus | binary => exact absurd hcategory (by decide)

/-! ## Joining chains -/

/-- An operator behind an atom makes a longer chain of any chain, though perhaps the atom with an inverse marker. -/
theorem Chain.cons (hc : c ∈ infixes) (hl : Chain voc .atom l) (hr : Chain voc .sum r) (h₁ : Gap b₁) (h₂ : Gap b₂) :
    Chain voc .sum (l ++ b₁ ++ c :: (b₂ ++ r)) := by
  have hne : b₂ ++ r ≠ [] := fun hnil => hr.phrase.ne_nil (List.append_eq_nil_iff.1 hnil).2
  by_cases hmarker : NoMarker c (b₂ ++ r)
  · exact .binary hc hl hr h₁ h₂ hmarker
  · rw [noMarker_iff hne] at hmarker
    obtain ⟨rfl, hopens⟩ : c = '^' ∧ opensMarker (b₂ ++ r) = true := by simpa using hmarker
    obtain rfl : b₂ = [] := by
      cases b₂ with
      | nil => rfl
      | cons d b₂ =>
        obtain rfl := head_of_opensMarker hopens
        exact absurd (h₂ '(' List.mem_cons_self) (by decide)
    cases hr with
    | last ha => exact .last (hl.atom_inverse h₁ rfl ha hopens)
    | minus => exact absurd hopens (by simp [opensMarker])
    | @binary d a b₁' b₂' r hd ha hr h₁' h₂' hlater =>
      rw [List.nil_append, List.append_assoc] at hopens
      have hatom := hl.atom_inverse h₁ rfl ha (ha.phrase.opensMarker hopens)
      rw [show l ++ b₁ ++ '^' :: ([] ++ (a ++ b₁' ++ d :: (b₂' ++ r))) =
        (l ++ b₁ ++ '^' :: a) ++ b₁' ++ d :: (b₂' ++ r) by simp]
      exact .binary hd hatom hr h₁' h₂' hlater

/-- **Chains may be joined** by any operator. -/
theorem Chain.append (hc : c ∈ infixes) (hcategory : category = .sum) (hl : Chain voc category l)
    (hr : Chain voc .sum r) (h₁ : Gap b₁) (h₂ : Gap b₂) : Chain voc .sum (l ++ b₁ ++ c :: (b₂ ++ r)) := by
  induction hl with
  | operand | group | call | inverse => exact absurd hcategory (by decide)
  | last hl _ => exact .cons hc hl hr h₁ h₂
  | @minus b t hb _ ih =>
    rw [List.cons_append, List.cons_append, List.append_assoc, List.append_assoc, ← List.append_assoc t]
    exact .minus hb (ih rfl)
  | @binary d a b₁' b₂' u hd ha _ h₁' h₂' _ _ ih =>
    rw [show a ++ b₁' ++ d :: (b₂' ++ u) ++ b₁ ++ c :: (b₂ ++ r) =
      a ++ b₁' ++ d :: (b₂' ++ (u ++ b₁ ++ c :: (b₂ ++ r))) by simp]
    exact .cons hd ha (ih rfl) h₁' h₂'

/-- **Whatever is put together is a chain.** -/
theorem Composed.chain (h : Composed voc t) : Chain voc .sum t := by
  induction h with
  | operand h => exact .last (.operand h)
  | group h₁ h₂ _ ih => exact .last (.group h₁ h₂ ih)
  | call haccepts hgap hgaps _ ih => exact .last (.call haccepts hgap hgaps ih)
  | minus hb _ ih => exact .minus hb ih
  | binary hc _ _ h₁ h₂ ihl ihr => exact ihl.append hc rfl ihr h₁ h₂

/-! ## Operators in chains -/

theorem exists_symbol (hc : c ∈ infixes) : ∃ symbol, Symbol.ofChar? c = some symbol := by
  have hall : ∀ c ∈ infixes, (Symbol.ofChar? c).isSome = true := List.all_iff_forall_prop.1 (by decide)
  exact Option.isSome_iff_exists.1 (hall c hc)

/-- an operator between two chains, with the texts on its two sides -/
inductive Joint (voc : Vocabulary) : Text → Symbol → Text → Text → Prop where
  | mk {l b₁ b₂ r : Text} {c : Char} {symbol : Symbol} : Symbol.ofChar? c = some symbol → c ∈ infixes →
      Chain voc .sum l → Chain voc .sum r → Gap b₁ → Gap b₂ →
      Joint voc (l ++ b₁ ++ c :: (b₂ ++ r)) symbol (l ++ b₁) (b₂ ++ r)

theorem Joint.minus (h : Joint voc t symbol before after) (hb : Gap b) :
    Joint voc ('-' :: (b ++ t)) symbol ('-' :: (b ++ before)) after := by
  cases h with
  | @mk l b₁ b₂ r c symbol hsymbol hc hl hr h₁ h₂ =>
    have hjoint := Joint.mk hsymbol hc (.minus hb hl) hr h₁ h₂
    simpa using hjoint

theorem Joint.cons (h : Joint voc t symbol before after) (hc : c ∈ infixes) (hl : Chain voc .atom l) (h₁ : Gap b₁)
    (h₂ : Gap b₂) : Joint voc (l ++ b₁ ++ c :: (b₂ ++ t)) symbol (l ++ b₁ ++ c :: (b₂ ++ before)) after := by
  cases h with
  | @mk u b₁' b₂' r d symbol hsymbol hd hu hr h₁' h₂' =>
    have hjoint := Joint.mk hsymbol hd (.cons hc hl hu h₁ h₂) hr h₁' h₂'
    simpa using hjoint

theorem Phrase.operator?_atom (h : Phrase .atom t) (hb : Gap b) :
    ∀ s ∈ outside (cells (t ++ b)), s.operator? = none := by
  intro s hs
  have hpart := h.left_part hb
  exact (lowest_eq_none_iff hpart.clean.level).1 hpart.lowest_eq_none s hs

/-- The operators behind a gap are those behind which the gap is left out. -/
theorem Sound.operator_behind_gap (h : Sound t) (hb : Gap b) {s : Site} (hs : s ∈ outside (cells (b ++ t)))
    (hop : s.operator? = some symbol) :
    ∃ x ∈ outside (cells t), x.operator? = some symbol ∧ s.left = b ++ x.left ∧ s.right = x.right := by
  rw [(h.reads.gap_append hb).cells_eq, outside_append hb.clean.level] at hs
  rcases List.mem_append.1 hs with hs | hs
  · obtain ⟨x, hx, rfl⟩ := List.mem_map.1 hs
    rw [operator?_among_nil, (hb.quiet _ (mem_of_mem_outside hx)).2.operator?] at hop
    exact absurd hop (by simp)
  · obtain ⟨x, hx, rfl⟩ := List.mem_map.1 hs
    rw [operator?_among hb.opensSign] at hop
    have hleft : Cell.text (live b ++ x.before.reverse) = b ++ Cell.text x.before.reverse := by
      rw [Cell.text, List.map_append, ← Cell.text, ← Cell.text, text_live]
    exact ⟨x, hx, hop, by simpa [Site.among, Site.left] using hleft, by simp [Site.among, Site.right]⟩

/-- The operators behind an operator or a sign are those of what stands behind it. -/
theorem Sound.operator_behind_infix (h : Sound t) (hb : Gap b) (hc : c ∈ infixes) {s x : Site} (as : List Cell)
    (hx : x ∈ outside (cells (b ++ t))) (hs : s = x.among (⟨c, .live⟩ :: as.reverse) [])
    (hop : s.operator? = some symbol) :
    ∃ y ∈ outside (cells t), y.operator? = some symbol ∧ s.left = Cell.text as ++ c :: (b ++ y.left) ∧
      s.right = y.right := by
  obtain ⟨-, hopener, hblank⟩ := opens_of_mem_infixes hc
  have hopens : OpensSign (⟨c, .live⟩ :: as.reverse) := by simp [OpensSign, hblank, hopener]
  subst hs
  rw [operator?_among hopens] at hop
  obtain ⟨y, hy, hop, hleft, hright⟩ := h.operator_behind_gap hb hx hop
  refine ⟨y, hy, hop, ?_, ?_⟩
  · rw [← hleft]
    simp [Site.among, Site.left, Cell.text]
  · rw [← hright]
    simp [Site.among, Site.right]

/-- **Operators join chains.** Every operator of a chain outside parentheses stands between two chains. -/
theorem Chain.joint (hcategory : category = .sum) (h : Chain voc category t) {s : Site} (hs : s ∈ outside (cells t))
    (hop : s.operator? = some symbol) : Joint voc t symbol s.left s.right := by
  induction h generalizing s with
  | operand | group | call | inverse => exact absurd hcategory (by decide)
  | @last t h _ =>
    rw [← List.append_nil t] at hs
    rw [h.phrase.operator?_atom .nil s hs] at hop
    exact absurd hop (by simp)
  | @minus b t hb ht ih =>
    have hright := (ht.phrase.right_part hb).toSound
    rw [(hright.reads_signed (.inr rfl)).cells_eq, outside_cons rfl rfl] at hs
    rcases List.mem_cons.1 hs with rfl | hs
    · -- nothing stands before the sign, so that it is no operator
      have hsign : Site.operator? ⟨[], ⟨'-', .live⟩, cells (b ++ t)⟩ = none := rfl
      exact absurd (hsign.symm.trans hop) (by simp)
    · obtain ⟨x, hx, heq⟩ := List.mem_map.1 hs
      obtain ⟨y, hy, hop, hleft, hright⟩ :=
        ht.phrase.toSound.operator_behind_infix hb (by decide) [] hx heq.symm hop
      rw [hleft, hright]
      exact (ih rfl hy hop).minus hb
  | @binary c l b₁ b₂ r hc hl hr h₁ h₂ hmarker _ ih =>
    have hleft := hl.phrase.left_part h₁
    have hright := hr.phrase.right_part h₂
    obtain ⟨hparen, -, -⟩ := opens_of_mem_infixes hc
    have hne : c ≠ '(' ∧ c ≠ ')' ∧ c ≠ ',' := by simpa using hparen
    rw [(hleft.toSound.reads_binary hright.toSound (List.mem_cons_of_mem _ hc) hmarker).cells_eq,
      outside_join hleft.clean.level (by simp [holds, hne]) (by simp [holds, hne])] at hs
    rcases List.mem_append.1 hs with hs | hs
    · obtain ⟨x, hx, rfl⟩ := List.mem_map.1 hs
      -- an atom has no operators outside its parentheses
      rw [operator?_among_nil, hl.phrase.operator?_atom h₁ x hx] at hop
      exact absurd hop (by simp)
    · rcases List.mem_cons.1 hs with rfl | hs
      · obtain ⟨other, hother⟩ := exists_symbol hc
        rw [hleft.closes.operator? hother] at hop
        obtain rfl := Option.some.inj hop
        have hjoint := Joint.mk hother hc (.last hl) hr h₁ h₂
        simpa [Site.left, Site.right, text_cells] using hjoint
      · -- an operator of the chain behind has the atom in front of its left side
        obtain ⟨x, hx, heq⟩ := List.mem_map.1 hs
        obtain ⟨y, hy, hop, hyleft, hyright⟩ := hr.phrase.toSound.operator_behind_infix h₂ hc _ hx heq.symm hop
        rw [hyleft, hyright, text_cells]
        exact (ih rfl hy hop).cons hc hl h₁ h₂

end MissionScript
