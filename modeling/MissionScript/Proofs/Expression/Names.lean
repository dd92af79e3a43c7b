/-
The names in an expression are its references.

`Expression.names` lists the names in a tree from left to right: the leaves that are references, and the functions that are
called, each before its arguments.
- `Chain.named`: every chain is built, and cites the names of its tree wherever it stands.
- `references_eq_names`: the references of every composed text are the names in its tree.

Where the text is split follows from precedence, while citations do not depend on it: at every operator outside parentheses
they come apart in the same way.
-/
import MissionScript.Proofs.Expression.Chain
import MissionScript.Proofs.Lexeme.Citation

namespace MissionScript

open Cell Expression

def Text.isReference (t : Text) : Bool := startsName t && (Reference.span t).2.isEmpty

mutual

/-- the references among the leaves and the names of the functions, from left to right -/
def Expression.names : Expression → List Text
  | .leaf text => if text.isReference then [text] else []
  | .unary _ operand => operand.names
  | .binary _ left right => left.names ++ right.names
  | .call callee arguments _ => callee.name :: Expression.namesOfAll arguments

def Expression.namesOfAll : List Expression → List Text
  | [] => []
  | e :: es => e.names ++ Expression.namesOfAll es

end

variable {voc : Vocabulary} {category : Category} {t u l r b b₁ b₂ gap left right rest operand : Text} {c : Char}
  {symbol : Symbol} {args : List Argument} {names : List Text} {unaryOp : UnaryOp} {op : BinaryOp}

theorem Expression.namesOfAll_map {α : Type} (tree : α → Expression) (items : List α) :
    namesOfAll (items.map tree) = items.flatMap fun a => (tree a).names := by
  induction items with
  | nil => rfl
  | cons a items ih => rw [List.map_cons, namesOfAll, ih, List.flatMap_cons]

/-! ## Names of leaves -/

theorem IsReference.isReference (h : IsReference t) : t.isReference = true := by
  have hspan : Reference.span (t ++ []) = (t, []) := h.span_of_stop (by simp)
  rw [List.append_nil] at hspan
  simp [Text.isReference, h.startsName, hspan]

theorem names_of_not_startsName (h : startsName t = false) : (Expression.leaf t).names = [] := by
  simp [Expression.names, Text.isReference, h]

theorem PlainOperand.cites (h : PlainOperand t) : Cites t (Expression.leaf t).names := by
  cases h with
  | reference h =>
    have hnames : (Expression.leaf t).names = [t] := by simp [Expression.names, h.isReference]
    exact hnames ▸ .reference h
  | numeral h => exact names_of_not_startsName h.startsName ▸ .numeral h
  | quotation h =>
    have hstart : startsName t = false := by
      obtain ⟨quote, body, hquote, -, rfl⟩ := h
      have hchars : quote = '\'' ∨ quote = '"' := by simpa [Quotation.isQuote] using hquote
      rcases hchars with rfl | rfl
      · rfl
      · rfl
    exact names_of_not_startsName hstart ▸ .quotation h

/-- An argument list cites what its arguments cite, one after the other. -/
theorem Cites.joined {names : Argument → List Text} (hgap : Gap gap) (hgaps : ∀ a ∈ args, Gap a.before ∧ Gap a.after)
    (h : ∀ a ∈ args, Cites a.text (names a)) : Cites (joined gap args) (args.flatMap names) := by
  induction args with
  | nil => exact Cites.nil.append_gap hgap
  | cons a rest ih =>
    have hgap := hgaps a List.mem_cons_self
    have hwhole : Cites a.whole (names a) := ((h a List.mem_cons_self).append_gap hgap.2).gap_append hgap.1
    cases rest with
    | nil => simpa [MissionScript.joined] using hwhole
    | cons b rest =>
      rw [joined_cons_cons, List.flatMap_cons]
      exact hwhole.join (ih (fun x hx => hgaps x (List.mem_cons_of_mem a hx)) fun x hx => h x (List.mem_cons_of_mem a hx))
        (by decide)

/-! ## Texts that cite the names of their trees -/

/-- The text is built, and cites the names of its tree. -/
def Named (voc : Vocabulary) (t : Text) : Prop := ∃ x, build .allow voc t = .ok x ∧ Cites t x.names

namespace Named

theorem append_gap (h : Named voc t) (hb : Gap b) : Named voc (t ++ b) := by
  obtain ⟨x, hx, hcites⟩ := h
  exact ⟨x, (build_append_blank hb.blank t).trans hx, hcites.append_gap hb⟩

theorem gap_append (h : Named voc t) (hb : Gap b) : Named voc (b ++ t) := by
  obtain ⟨x, hx, hcites⟩ := h
  exact ⟨x, (build_blank_append hb.blank t).trans hx, hcites.gap_append hb⟩

theorem unary (hlevel : decompose voc t = .ok (.unary unaryOp operand)) (h : Named voc operand)
    (hcites : ∀ names, Cites operand names → Cites t names) : Named voc t := by
  obtain ⟨x, hx, hnames⟩ := h
  exact ⟨.unary unaryOp x, build_unary hlevel (isVisible_of_build hx) hx, hcites _ hnames⟩

/-- The right side of an operator may leave out a sign of what stands behind it. -/
theorem binary (hlevel : decompose voc (left ++ c :: rest) = .ok (.binary op left right)) (hc : c ∈ infixes)
    (hl : Named voc left) (hr : Named voc right) (hcites : ∀ names, Cites right names → Cites rest names) :
    Named voc (left ++ c :: rest) := by
  obtain ⟨x, hx, hleft⟩ := hl
  obtain ⟨y, hy, hright⟩ := hr
  refine ⟨.binary op x y, build_binary hlevel (isVisible_of_build hx) (isVisible_of_build hy) hx hy, ?_⟩
  exact hleft.join (hcites _ hright) (separates_of_mem (List.mem_cons_of_mem _ hc)).1

end Named

/-! ## Atoms -/

theorem Chain.named_atom (hvoc : voc.Reachable) (h : Chain voc .atom t)
    (ih : ∀ u category, u.length < t.length → Chain voc category u → Named voc u) : Named voc t := by
  cases h with
  | operand h => exact ⟨.leaf t, build_leaf (decompose_operand h.operand) (Phrase.operand h.operand).ne_nil, h.cites⟩
  | @group b₁ t b₂ h₁ h₂ ht =>
    obtain ⟨x, hx, hcites⟩ := ih t .sum (by simp; omega) ht
    have hempty : voc.kind? [] = none := hvoc.kind?_eq_none (by simp)
    refine ⟨x, ?_, ((hcites.append_gap h₂).gap_append h₁).group⟩
    rw [build_congr (decompose_group hempty (ht.phrase.toSound.pad h₁ h₂).enclosable), build_pad h₁.blank h₂.blank, hx]
  | @call name gap args kind arity haccepts hgap hgaps hargs =>
    have hphrases : ∀ a ∈ args, Phrase .sum a.text := fun a ha => (hargs a ha).phrase
    have hname := haccepts.isIdentifier
    have htexts := argumentTexts_joined hgap hgaps hphrases
    -- an argument is shorter than the call
    have hnamed : ∀ a ∈ args, Named voc a.text := by
      intro a ha
      have hmem : a.text ∈ argumentTexts (joined gap args) := htexts ▸ List.mem_map_of_mem ha
      have hle := length_le_of_mem_argumentTexts hmem
      exact ih a.text .sum (by simp; omega) (hargs a ha)
    have : Nonempty Expression := ⟨.leaf []⟩
    choose! tree htree hcites using hnamed
    have hcall := decompose_call hname haccepts.hasKind haccepts.hasArity
      (by rw [htexts, List.length_map, haccepts.accepts]) (sound_joined hgap hgaps hphrases).enclosable
    have htrees := buildArguments_eq_ok name (fun a ha => (hphrases a ha).isVisible) htree
    rw [← htexts] at htrees
    refine ⟨_, build_call hcall htrees, ?_⟩
    rw [Expression.names, namesOfAll_map]
    exact .call hname (.joined hgap hgaps hcites)
  | @inverse t b hb ht =>
    have hmarker : ∀ names, Cites (t ++ b) names → Cites (t ++ b ++ Postfix.inverse.written) names := by
      intro names hnames
      have hone : Cites ['-', '1'] [] := Cites.nil.join (.numeral isNumeral_one) (by decide)
      have hjoin := hnames.join hone.group (c := '^') (by decide)
      rwa [List.append_nil] at hjoin
    have ht' : Named voc t := ih t .atom (by simp [Postfix.written]) ht
    exact .unary (decompose_inverse ht.phrase hb) (ht'.append_gap hb) hmarker

/-! ## Minus signs -/

theorem Cites.minus (h : Cites t names) : Cites ('-' :: t) names := Cites.nil.join h (by decide)

theorem Chain.named_minus (hvoc : voc.Reachable) (ht : Chain voc .sum t) (hb : Gap b) (h : Named voc t)
    (hlow : lowest (cells ('-' :: (b ++ t))) = none ∨
      ∃ left right, lowest (cells ('-' :: (b ++ t))) = some ⟨.caret, left, right⟩) : Named voc ('-' :: (b ++ t)) := by
  have hpad := h.gap_append hb
  have hsound := (ht.phrase.right_part hb).toSound
  have htrim : Text.trim ('-' :: (b ++ t)) = '-' :: (b ++ t) := (ht.phrase.minus rfl hb).trim_eq
  by_cases hnumeral : Text.isNumeral ('-' :: (b ++ t)) = true
  · -- the minus is the sign of a number
    have hoperand : isOperand ('-' :: (b ++ t)) = true := (isOperand_signed (.inr rfl) hsound htrim).trans hnumeral
    have hn : IsNumeral (b ++ t) := by
      rcases (Text.isNumeral_iff htrim).1 hnumeral with hn | ⟨sign, n, -, hn, heq⟩
      · exact absurd rfl (Numeral.not_sign_of_isNumeral hn).2
      · exact (List.cons.inj heq).2 ▸ hn
    refine ⟨.leaf ('-' :: (b ++ t)), build_leaf (decompose_of_isOperand htrim hoperand) (List.cons_ne_nil _ _), ?_⟩
    rw [names_of_not_startsName rfl]
    exact (Cites.numeral hn).minus
  · have hlevel := decompose_signed_of_lowest hvoc (.inr rfl) hsound htrim (by simpa using hnumeral) hlow
    rw [if_pos rfl] at hlevel
    exact .unary hlevel hpad fun _ hcites => hcites.minus

/-! ## Operators -/

/-- A chain that begins with a sign is a minus before a chain. -/
theorem Chain.eq_of_isSigned (hcategory : category = .sum) (h : Chain voc category t) (hsigned : isSigned t = true) :
    ∃ b u, Gap b ∧ Chain voc .sum u ∧ t = '-' :: (b ++ u) := by
  cases h with
  | operand | group | call | inverse => exact absurd hcategory (by decide)
  | last h => exact absurd (hsigned.symm.trans (h.phrase.isSigned rfl)) (by decide)
  | @minus b u hb hu => exact ⟨b, u, hb, hu, rfl⟩
  | @binary c l b₁ b₂ r _ hl =>
    have hunsigned := hl.phrase.isSigned rfl
    obtain ⟨d, l, rfl⟩ := List.exists_cons_of_ne_nil hl.phrase.ne_nil
    exact absurd (hsigned.symm.trans hunsigned) (by decide)

/-- On the right of a `+` or `-` stands a chain, or the minus that is taken into the operator and then a chain. -/
theorem Chain.additive_eq (h : Chain voc .sum r) (h₂ : Gap b₂) (subtracts : Bool) (left : Text) :
    ∃ op b u, additive subtracts left (b₂ ++ r) = .binary op left (b ++ u) ∧ Gap b ∧ Chain voc .sum u ∧
      u.length ≤ r.length ∧ ∀ names, Cites (b ++ u) names → Cites (b₂ ++ r) names := by
  by_cases hsigned : isSigned r = true
  · obtain ⟨b, u, hb, hu, rfl⟩ := h.eq_of_isSigned rfl hsigned
    refine ⟨_, b, u, additive_of_sign subtracts left ⟨true, b, hb⟩ h₂ (b ++ u), hb, hu, ?_, ?_⟩
    · simp only [List.length_cons, List.length_append]
      omega
    · intro names hcites
      exact hcites.minus.gap_append h₂
  · have hhead : r.head? ≠ some '-' := by
      intro hhead
      obtain ⟨u, rfl⟩ := List.head?_eq_some_iff.1 hhead
      exact hsigned rfl
    exact ⟨_, b₂, r, additive_of_unsigned subtracts left (h.phrase.unsigned_right h₂ hhead), h₂, h, le_rfl, fun _ => id⟩

/-- A chain that is split at an operator cites what both sides cite. -/
theorem Joint.named (h : Joint voc t symbol left right) (hlow : lowest (cells t) = some ⟨symbol, left, right⟩)
    (hunsigned : symbol = .caret → isSigned t = false)
    (ih : ∀ u category, u.length < t.length → Chain voc category u → Named voc u) : Named voc t := by
  cases h with
  | @mk l b₁ b₂ r c symbol hsymbol hc hl hr h₁ h₂ =>
    have hwhole := (hl.append hc rfl hr h₁ h₂).phrase
    have hsplit : ∀ {d}, Stage.runAll voc (cells (l ++ b₁ ++ c :: (b₂ ++ r))) (some ⟨symbol, l ++ b₁, b₂ ++ r⟩)
        Stage.order = .ok (some (.decide d)) → decompose voc (l ++ b₁ ++ c :: (b₂ ++ r)) = .ok d :=
      decompose_of_lowest hwhole.trim_eq hwhole.clean.checkGroups hlow
    have hlength : l.length + r.length < (l ++ b₁ ++ c :: (b₂ ++ r)).length := by
      simp only [List.length_append, List.length_cons]
      omega
    have hleft : Named voc (l ++ b₁) := (ih l .sum (by omega) hl).append_gap h₁
    have hright : Named voc (b₂ ++ r) := (ih r .sum (by omega) hr).gap_append h₂
    -- a sign right behind a sum is taken into its operator, so that the right side is not built as it stands
    have hsum : ∀ subtracts : Bool, symbol = (if subtracts then .minus else .plus) →
        Named voc (l ++ b₁ ++ c :: (b₂ ++ r)) := by
      rintro subtracts rfl
      obtain ⟨op, b, u, hadditive, hb, hu, hshort, hcites⟩ := hr.additive_eq h₂ subtracts (l ++ b₁)
      have hnamed : Named voc (b ++ u) := (ih u .sum (by omega) hu).gap_append hb
      exact .binary (hsplit (by rw [Stage.runAll_sum, hadditive])) hc hleft hnamed hcites
    have hproduct : ∀ divides : Bool, symbol = (if divides then .divide else .times) →
        Named voc (l ++ b₁ ++ c :: (b₂ ++ r)) := by
      rintro divides rfl
      have hlevel := hsplit (Stage.runAll_product divides (hl.phrase.isVisible_left b₁) (hr.phrase.isVisible_right b₂))
      exact .binary hlevel hc hleft hright fun _ => id
    cases symbol with
    | plus => exact hsum false rfl
    | minus => exact hsum true rfl
    | times => exact hproduct false rfl
    | divide => exact hproduct true rfl
    | caret =>
      have hlevel := hsplit (Stage.runAll_power (by rw [text_cells]; exact hunsigned rfl))
      exact .binary hlevel hc hleft hright fun _ => id
    | quote =>
      have hnone : ∀ c ∈ infixes, Symbol.ofChar? c ≠ some .quote := List.all_iff_forall_prop.1 (by decide)
      exact absurd hsymbol (hnone c hc)

/-! ## Every chain -/

/-- A chain is not split, or at one of its operators. -/
theorem Chain.lowest_cases (h : Chain voc .sum t) :
    lowest (cells t) = none ∨
      ∃ symbol left right, lowest (cells t) = some ⟨symbol, left, right⟩ ∧ Joint voc t symbol left right := by
  rcases Cell.lowest_cases h.phrase.clean.level with ⟨hnone, -⟩ | ⟨s, hs, symbol, hop, hsome⟩
  · exact .inl hnone
  · exact .inr ⟨symbol, s.left, s.right, hsome, h.joint rfl hs hop⟩

/-- A chain with an operator is split. -/
theorem Chain.lowest_binary (hc : c ∈ infixes) (hl : Chain voc .atom l) (hr : Chain voc .sum r) (h₁ : Gap b₁)
    (h₂ : Gap b₂) (hmarker : NoMarker c (b₂ ++ r)) : lowest (cells (l ++ b₁ ++ c :: (b₂ ++ r))) ≠ none := by
  have hleft := hl.phrase.left_part h₁
  have hright := hr.phrase.right_part h₂
  obtain ⟨hparen, -, -⟩ := opens_of_mem_infixes hc
  have hne : c ≠ '(' ∧ c ≠ ')' ∧ c ≠ ',' := by simpa using hparen
  obtain ⟨symbol, hsymbol⟩ := exists_symbol hc
  have hlevel := (hl.phrase.join hr.phrase hc h₁ h₂ hmarker).clean.level
  rw [(hleft.toSound.reads_binary hright.toSound (List.mem_cons_of_mem _ hc) hmarker).cells_eq] at hlevel ⊢
  intro hnone
  have hsite : (⟨(cells (l ++ b₁)).reverse, ⟨c, .live⟩, cells (b₂ ++ r)⟩ : Site) ∈
      outside (cells (l ++ b₁) ++ ⟨c, .live⟩ :: cells (b₂ ++ r)) := by
    rw [outside_join hleft.clean.level (by simp [holds, hne]) (by simp [holds, hne])]
    exact List.mem_append_right _ List.mem_cons_self
  have hquiet := (lowest_eq_none_iff hlevel).1 hnone _ hsite
  rw [hleft.closes.operator? hsymbol] at hquiet
  exact absurd hquiet (by simp)

/-- **Chains cite the names in their trees.** Every chain is built, and cites exactly the names in the tree. -/
theorem Chain.named (hvoc : voc.Reachable) (h : Chain voc category t) : Named voc t := by
  induction hlength : t.length using Nat.strong_induction_on generalizing t category with
  | _ n ih =>
    subst hlength
    have hshorter : ∀ u category, u.length < t.length → Chain voc category u → Named voc u :=
      fun u category hu h => ih u.length hu h rfl
    by_cases hatom : category = .atom
    · subst hatom
      exact h.named_atom hvoc hshorter
    · cases h with
      | operand | group | call | inverse => exact absurd rfl hatom
      | last h => exact h.named_atom hvoc hshorter
      | @minus b u hb hu =>
        have hnamed := hshorter u .sum (by simp) hu
        rcases (Chain.minus hb hu).lowest_cases with hnone | ⟨symbol, left, right, hlow, hjoint⟩
        · exact hu.named_minus hvoc hb hnamed (.inl hnone)
        · by_cases hpower : symbol = .caret
          · exact hu.named_minus hvoc hb hnamed (.inr ⟨left, right, hpower ▸ hlow⟩)
          · exact hjoint.named hlow (fun h => absurd h hpower) hshorter
      | @binary c l b₁ b₂ r hc hl hr h₁ h₂ hmarker =>
        rcases (Chain.binary hc hl hr h₁ h₂ hmarker).lowest_cases with hnone | ⟨symbol, left, right, hlow, hjoint⟩
        · exact absurd hnone (hl.lowest_binary hc hr h₁ h₂ hmarker)
        · refine hjoint.named hlow (fun _ => ?_) hshorter
          have hunsigned := hl.phrase.isSigned rfl
          obtain ⟨d, l, rfl⟩ := List.exists_cons_of_ne_nil hl.phrase.ne_nil
          exact hunsigned

/-- **The references of an expression are the names in its tree.** Every text of operands, parentheses, calls, minus signs
and binary operators is built. Its references are the names in the tree in their order there, each function before its
arguments, and nothing else. -/
theorem references_eq_names (hvoc : voc.Reachable) (h : Composed voc t) :
    ∃ x, build .allow voc t = .ok x ∧ Text.references t = x.names := by
  obtain ⟨x, hx, hcites⟩ := h.chain.named hvoc
  exact ⟨x, hx, hcites.references_eq⟩

/-- The names in `-Sat.X^(-1) + sin(2e-3*x)` are `Sat.X`, `sin` and `x`. -/
theorem references_inverse_and_call :
    Vocabulary.initial.Reachable ∧ Composed .initial "-Sat.X^(-1) + sin(2e-3*x)".toList ∧
      (∃ x, build .allow .initial "-Sat.X^(-1) + sin(2e-3*x)".toList = .ok x ∧
        Text.references "-Sat.X^(-1) + sin(2e-3*x)".toList = x.names) ∧
      Text.references "-Sat.X^(-1) + sin(2e-3*x)".toList = ["Sat.X".toList, "sin".toList, "x".toList] := by
  have hspace : Gap [' '] := by simp [Gap]
  have hsmall : IsNumeral ['2', 'e', '-', '3'] :=
    ⟨['2'], ['e', '-', '3'], .whole (by simp) (by simp [IsDigits]),
      .signed (.inl rfl) (.inr rfl) (by simp) (by simp [IsDigits]), rfl⟩
  have hproperty : IsReference ['S', 'a', 't', '.', 'X'] := by
    have hobject : IsIdentifier ['S', 'a', 't'] := by decide
    have hname : IsIdentifier ['X'] := by decide
    exact .property (.name hobject) hname
  have hx : IsReference ['x'] := by
    have hname : IsIdentifier ['x'] := by decide
    exact .name hname
  have hsin : IsIdentifier ['s', 'i', 'n'] := by decide
  have hcomposed : Composed .initial "-Sat.X^(-1) + sin(2e-3*x)".toList := by
    have hinverse : Composed .initial ['-', 'S', 'a', 't', '.', 'X', '^', '(', '-', '1', ')'] :=
      .minus .nil (.binary (c := '^') (by decide) (.operand (.reference hproperty))
        (.group .nil .nil (.minus .nil (.operand (.numeral isNumeral_one)))) .nil .nil)
    have hproduct : Composed .initial ['2', 'e', '-', '3', '*', 'x'] :=
      .binary (c := '*') (by decide) (.operand (.numeral hsmall)) (.operand (.reference hx)) .nil .nil
    have hcall : Composed .initial ['s', 'i', 'n', '(', '2', 'e', '-', '3', '*', 'x', ')'] := by
      have haccepts : Accepts .initial ['s', 'i', 'n'] .scalar (.exact 1) 1 := ⟨hsin, rfl, rfl, rfl⟩
      have hone : Composed .initial (['s', 'i', 'n'] ++
          '(' :: (joined [] [⟨[], ['2', 'e', '-', '3', '*', 'x'], [], .leaf []⟩] ++ [')'])) :=
        .call haccepts .nil (by simp [Gap.nil]) (by simpa using hproduct)
      exact hone
    exact .binary (c := '+') (by decide) hinverse hcall hspace hspace
  refine ⟨.initial, hcomposed, references_eq_names .initial hcomposed, ?_⟩
  have hinverse : Cites ['-', 'S', 'a', 't', '.', 'X', '^', '(', '-', '1', ')'] [['S', 'a', 't', '.', 'X']] :=
    ((Cites.reference hproperty).join (c := '^') (Cites.numeral isNumeral_one).minus.group (by decide)).minus
  have hcall : Cites ['s', 'i', 'n', '(', '2', 'e', '-', '3', '*', 'x', ')'] [['s', 'i', 'n'], ['x']] :=
    .call hsin ((Cites.numeral hsmall).join (c := '*') (.reference hx) (by decide))
  exact ((hinverse.append_gap hspace).join (c := '+') (hcall.gap_append hspace) (by decide)).references_eq

end MissionScript
