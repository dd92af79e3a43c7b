/-
The infix language.

`Derives` is the grammar of expressions without postfix operators: sums of products of powers of operands, groups and
calls. It relates a text to the tree it stands for.

- `Derives.phrase`: whatever the grammar derives can be read in its place, between whatever separators.
- `argumentTexts_joined`: an argument list is divided into the arguments it was made of.
-/
import MissionScript.Expression.Build
import MissionScript.Proofs.Cell.Part

namespace MissionScript

/-- the parts of an infix expression, loosest first -/
inductive Category where
  | sum
  | product
  | signed
  | power
  | exponent
  | atom
  deriving DecidableEq, Repr

namespace Category

/-- how tightly the operators outside parentheses bind at least -/
def rank : Category → Nat
  | sum => 0
  | product => 1
  | signed | power => 2
  | exponent | atom => 3

/-- true when the part may begin with a minus -/
def maySign : Category → Bool
  | power | atom => false
  | _ => true

/-- the categories that are also parts of the next looser one -/
inductive Within : Category → Category → Prop where
  | product : Within .product .sum
  | signed : Within .signed .product
  | power : Within .power .signed
  | base : Within .atom .power
  | exponent : Within .atom .exponent

/-- what may stand behind a minus, and what it is with the minus -/
inductive Negated : Category → Category → Prop where
  | power : Negated .power .signed
  | exponent : Negated .atom .exponent

/-- the binary operators with the categories on their left and on their right; the left one is that of the whole -/
inductive Joined : Category → Char → BinaryOp → Category → Prop where
  | add : Joined .sum '+' .add .product
  | subtract : Joined .sum '-' .subtract .product
  | multiply : Joined .product '*' .multiply .signed
  | divide : Joined .product '/' .divide .signed
  | power : Joined .power '^' .power .exponent

end Category

/-- an argument of a call, with the gaps around it and its tree -/
structure Argument where
  before : Text
  text : Text
  after : Text
  tree : Expression

def Argument.whole (a : Argument) : Text := a.before ++ (a.text ++ a.after)

/-- what stands between the parentheses of a call: arguments with commas between them, or a gap when there are none -/
def joined (gap : Text) : List Argument → Text
  | [] => gap
  | [a] => a.whole
  | a :: rest => a.whole ++ ',' :: joined gap rest

theorem joined_cons_cons (gap : Text) (a b : Argument) (rest : List Argument) :
    joined gap (a :: b :: rest) = a.whole ++ ',' :: joined gap (b :: rest) := rfl

/-- what a minus makes of an expression; it belongs to a numeral as its sign -/
def negation (t : Text) (e : Expression) : Expression :=
  if Text.isNumeral t then .leaf ('-' :: t) else .unary .negate e

/-- the texts of each category and the trees they stand for -/
inductive Derives (voc : Vocabulary) : Category → Text → Expression → Prop where
  | operand {t : Text} : Operand t → Derives voc .atom t (.leaf t)
  | group {b₁ t b₂ : Text} {e : Expression} : Gap b₁ → Gap b₂ → Derives voc .sum t e →
      Derives voc .atom ('(' :: (b₁ ++ (t ++ b₂) ++ [')'])) e
  | call {name gap : Text} {args : List Argument} {kind : FunctionKind} {arity : Arity} :
      IsIdentifier name → voc.kind? name = some kind → voc.arity? name = some arity → arity.accepts args.length = true →
      Gap gap → (∀ a ∈ args, Gap a.before ∧ Gap a.after) → (∀ a ∈ args, Derives voc .sum a.text a.tree) →
      Derives voc .atom (name ++ '(' :: (joined gap args ++ [')']))
        (.call ⟨name, kind⟩ (args.map Argument.tree) (if kind = .userDefined then args.map Argument.text else []))
  | lift {small large : Category} {t : Text} {e : Expression} : small.Within large → Derives voc small t e →
      Derives voc large t e
  | negate {small large : Category} {t : Text} {e : Expression} : small.Negated large → Derives voc small t e →
      Derives voc large ('-' :: t) (negation t e)
  | binary {left right : Category} {c : Char} {op : BinaryOp} {l b₁ b₂ r : Text} {x y : Expression} :
      left.Joined c op right → Derives voc left l x → Derives voc right r y → Gap b₁ → Gap b₂ →
      -- a minus behind a `+` or `-` would be taken into the operator
      (left = .sum → r.head? ≠ some '-') →
      -- a power is no inverse marker
      (c = '^' → ['(', '-', '1', ')'].isPrefixOf (b₂ ++ r) = false) →
      Derives voc left (l ++ b₁ ++ c :: (b₂ ++ r)) (.binary op x y)

/-! ## Phrases -/

/-- a part of an expression with the characters it begins and ends with -/
structure Phrase (category : Category) (t : Text) : Prop extends Part category.rank t where
  head : ∃ c, t.head? = some c ∧ (isEdge c = true ∨ c = '(' ∨ c = '-' ∧ category.maySign = true)
  last : ∃ c, t.getLast? = some c ∧ (isEdge c = true ∨ c = ')')

variable {voc : Vocabulary} {category small large left right : Category} {t l r b₁ b₂ gap : Text} {e x y : Expression}
  {args : List Argument}

theorem Phrase.ne_nil (h : Phrase category t) : t ≠ [] := by
  obtain ⟨c, hc, -⟩ := h.head
  rintro rfl
  simp at hc

theorem not_isBlank_of_end {c : Char} (h : isEdge c = true ∨ c ∈ ['(', ')', '-']) : isBlank c = false := by
  rcases h with h | h
  · exact not_isBlank_of_isEdge h
  · have hall : ∀ c ∈ ['(', ')', '-'], isBlank c = false := List.all_iff_forall_prop.1 (by decide)
    exact hall c h

theorem Phrase.not_isBlank_head (h : Phrase category t) : ∃ c ∈ t.head?, isBlank c = false := by
  obtain ⟨c, hc, hchar⟩ := h.head
  refine ⟨c, hc, not_isBlank_of_end (hchar.imp_right ?_)⟩
  rintro (rfl | ⟨rfl, -⟩) <;> decide

theorem Phrase.trim_eq (h : Phrase category t) : Text.trim t = t := by
  refine Text.trim_eq_self ?_ ?_
  · intro d hd
    obtain ⟨c, hc, hblank⟩ := h.not_isBlank_head
    rwa [← Option.some.inj (Option.mem_def.1 hc ▸ hd : some c = some d)]
  · intro d hd
    obtain ⟨c, hc, hchar⟩ := h.last
    obtain rfl : c = d := Option.some.inj (hc.symm.trans hd)
    refine not_isBlank_of_end (hchar.imp_right ?_)
    rintro rfl
    decide

theorem Phrase.isVisible (h : Phrase category t) : Text.isVisible t = true := by
  obtain ⟨c, hc, hblank⟩ := h.not_isBlank_head
  exact Text.isVisible_of_mem (List.mem_of_mem_head? hc) hblank

theorem Phrase.isVisible_left (h : Phrase category t) (b : Text) : Text.isVisible (t ++ b) = true := by
  rw [Text.isVisible_append, h.isVisible, Bool.true_or]

theorem Phrase.isVisible_right (h : Phrase category t) (b : Text) : Text.isVisible (b ++ t) = true := by
  rw [Text.isVisible_append, h.isVisible, Bool.or_true]

theorem Phrase.left_part (h : Phrase category t) (hb : Gap b₁) : Part category.rank (t ++ b₁) := h.toPart.append_gap hb

theorem Phrase.right_part (h : Phrase category t) (hb : Gap b₂) : Part category.rank (b₂ ++ t) := h.toPart.gap_append hb

theorem Phrase.head_append (h : Phrase category t) (u : Text) :
    ∃ c, (t ++ u).head? = some c ∧ (isEdge c = true ∨ c = '(' ∨ c = '-' ∧ category.maySign = true) := by
  obtain ⟨c, hc, hchar⟩ := h.head
  exact ⟨c, by rw [List.head?_append, hc]; rfl, hchar⟩

theorem Phrase.last_append (h : Phrase category t) (u : Text) :
    ∃ c, (u ++ t).getLast? = some c ∧ (isEdge c = true ∨ c = ')') := by
  obtain ⟨c, hc, hchar⟩ := h.last
  exact ⟨c, by rw [List.getLast?_append, hc]; rfl, hchar⟩

theorem Phrase.lift (hw : small.Within large) (h : Phrase small t) : Phrase large t where
  toPart := h.toPart.mono (by cases hw <;> decide)
  head := by
    obtain ⟨c, hc, hchar⟩ := h.head
    refine ⟨c, hc, hchar.imp_right (Or.imp_right (And.imp_right ?_))⟩
    intro hsign
    cases hw <;> first | rfl | exact hsign
  last := h.last

theorem Phrase.minus (hs : category.maySign = true) (hb : Gap b₂) (h : Phrase category t) :
    Phrase category ('-' :: (b₂ ++ t)) where
  toPart := (h.right_part hb).signed (.inr rfl)
  head := ⟨'-', rfl, .inr (.inr ⟨rfl, hs⟩)⟩
  last := h.last_append ('-' :: b₂)

theorem Phrase.negate (hn : small.Negated large) (h : Phrase small t) : Phrase large ('-' :: t) := by
  cases hn with
  | power => exact (h.lift .power).minus rfl .nil
  | exponent => exact (h.lift .exponent).minus rfl .nil

theorem Category.Joined.symbol {c : Char} {op : BinaryOp} (h : left.Joined c op right) :
    ∃ symbol, Symbol.ofChar? c = some symbol ∧ symbol.tier.rank = left.rank ∧ symbol.tier.rank + 1 ≤ right.rank := by
  cases h with
  | add => exact ⟨.plus, rfl, rfl, le_rfl⟩
  | subtract => exact ⟨.minus, rfl, rfl, le_rfl⟩
  | multiply => exact ⟨.times, rfl, rfl, le_rfl⟩
  | divide => exact ⟨.divide, rfl, rfl, le_rfl⟩
  | power => exact ⟨.caret, rfl, rfl, le_rfl⟩

theorem Category.Joined.mem_infixes {c : Char} {op : BinaryOp} (h : left.Joined c op right) : c ∈ infixes := by
  cases h <;> decide

theorem Phrase.noMarker {c : Char} (h : Phrase category r)
    (hmarker : c = '^' → ['(', '-', '1', ')'].isPrefixOf (b₂ ++ r) = false) : NoMarker c (b₂ ++ r) := by
  refine fun hc => ⟨fun hnil => ?_, hmarker hc⟩
  exact h.ne_nil (List.append_eq_nil_iff.1 hnil).2

theorem Phrase.binary {c : Char} {op : BinaryOp} (hj : left.Joined c op right) (hl : Phrase left l)
    (hr : Phrase right r)
    (h₁ : Gap b₁) (h₂ : Gap b₂) (hmarker : c = '^' → ['(', '-', '1', ')'].isPrefixOf (b₂ ++ r) = false) :
    Phrase left (l ++ b₁ ++ c :: (b₂ ++ r)) where
  toPart := by
    obtain ⟨symbol, hsymbol, hleft, hright⟩ := hj.symbol
    refine (hl.left_part h₁).binary ((hr.right_part h₂).mono (by omega)) hj.mem_infixes (hr.noMarker hmarker)
      fun other hother => ?_
    obtain rfl : symbol = other := Option.some.inj (hsymbol.symm.trans hother)
    omega
  head := by
    rw [List.append_assoc]
    exact hl.head_append _
  last := by
    rw [show l ++ b₁ ++ c :: (b₂ ++ r) = (l ++ b₁ ++ c :: b₂) ++ r by simp]
    exact hr.last_append _

theorem Phrase.operand (h : Operand t) : Phrase .atom t where
  toPart := .of_operand h
  head := by
    obtain ⟨⟨c, hc, hedge⟩, -⟩ := h.edges
    exact ⟨c, hc, .inl hedge⟩
  last := by
    obtain ⟨-, c, hc, hedge⟩ := h.edges
    exact ⟨c, hc, .inl hedge⟩

theorem Phrase.group (h₁ : Gap b₁) (h₂ : Gap b₂) (h : Phrase .sum t) :
    Phrase .atom ('(' :: (b₁ ++ (t ++ b₂) ++ [')'])) where
  toPart := .group (h.toSound.pad h₁ h₂)
  head := ⟨'(', rfl, .inr (.inl rfl)⟩
  last := ⟨')', by rw [← List.cons_append]; exact List.getLast?_concat, .inr rfl⟩

theorem Phrase.call {name : Text} (hname : IsIdentifier name) (h : Sound t) :
    Phrase .atom (name ++ '(' :: (t ++ [')'])) where
  toPart := .call hname h
  head := by
    obtain ⟨⟨c, hc, hedge⟩, -⟩ := (Operand.reference (.name hname)).edges
    exact ⟨c, by rw [List.head?_append, hc]; rfl, .inl hedge⟩
  last := ⟨')', by rw [← List.cons_append, ← List.append_assoc]; exact List.getLast?_concat, .inr rfl⟩

/-! ## Arguments -/

theorem Argument.part {a : Argument} (hgap : Gap a.before ∧ Gap a.after) (h : Phrase .sum a.text) : Part 0 a.whole :=
  h.toPart.pad hgap.1 hgap.2

theorem Sound.of_gap (h : Gap b₁) : Sound b₁ := by
  have hnil : Sound [] := .of_reads .nil (.of_inert (by simp))
  have := hnil.pad h .nil
  rwa [List.append_nil, List.append_nil] at this

theorem Sound.joined (hgap : Gap gap) (h : ∀ a ∈ args, Sound a.whole) : Sound (joined gap args) := by
  induction args with
  | nil => exact .of_gap hgap
  | cons a rest ih =>
    have ha : Sound a.whole := h a List.mem_cons_self
    cases rest with
    | nil => exact ha
    | cons b rest =>
      exact ha.binary (ih fun x hx => h x (List.mem_cons_of_mem _ hx)) List.mem_cons_self fun h => absurd h (by decide)

theorem sound_joined (hgap : Gap gap) (hgaps : ∀ a ∈ args, Gap a.before ∧ Gap a.after)
    (h : ∀ a ∈ args, Phrase .sum a.text) : Sound (joined gap args) :=
  .joined hgap fun a ha => (Argument.part (hgaps a ha) (h a ha)).toSound

theorem split_joined (hgap : Gap gap) (hgaps : ∀ a ∈ args, Gap a.before ∧ Gap a.after)
    (h : ∀ a ∈ args, Phrase .sum a.text) (hne : args ≠ []) :
    Cell.split ',' (cells (joined gap args)) = args.map Argument.whole := by
  induction args with
  | nil => exact absurd rfl hne
  | cons a rest ih =>
    have ha : Part 0 a.whole := Argument.part (hgaps a List.mem_cons_self) (h a List.mem_cons_self)
    have hpass : ∀ bs, Cell.split ',' (cells a.whole ++ bs) = Cell.prependFirst a.whole (Cell.splitFrom ',' 0 bs) := by
      intro bs
      have := Cell.splitFrom_append ha.clean.level (by decide) [] (fun s hs => (ha.atLeast s hs).1) bs
      rwa [text_cells] at this
    cases rest with
    | nil => simpa [joined, Cell.splitFrom, Cell.prependFirst] using hpass []
    | cons b rest =>
      have hgaps' : ∀ x ∈ b :: rest, Gap x.before ∧ Gap x.after := fun x hx => hgaps x (List.mem_cons_of_mem _ hx)
      have h' : ∀ x ∈ b :: rest, Phrase .sum x.text := fun x hx => h x (List.mem_cons_of_mem _ hx)
      have hrest := sound_joined hgap hgaps' h'
      have hcells := (ha.toSound.reads_binary hrest List.mem_cons_self fun h => absurd h (by decide)).cells_eq
      have hlater : Cell.splitFrom ',' 0 (cells (joined gap (b :: rest))) = (b :: rest).map Argument.whole :=
        ih hgaps' h' (by simp)
      rw [joined_cons_cons, hcells, hpass, Cell.splitFrom, if_pos (by rfl), hlater]
      simp [Cell.prependFirst]

/-- **Argument lists come apart again.** Dividing an argument list at its commas gives the arguments it was made of. -/
theorem argumentTexts_joined (hgap : Gap gap) (hgaps : ∀ a ∈ args, Gap a.before ∧ Gap a.after)
    (h : ∀ a ∈ args, Phrase .sum a.text) : argumentTexts (joined gap args) = args.map Argument.text := by
  have htrim : ∀ a ∈ args, Text.trim a.whole = a.text := by
    intro a ha
    rw [Argument.whole, Text.trim_append_append (hgaps a ha).1.blank (hgaps a ha).2.blank, (h a ha).trim_eq]
  cases args with
  | nil =>
    have hblank : Text.isVisible gap = false := Text.isVisible_eq_false_iff.2 hgap.blank
    simp [argumentTexts, joined, hblank]
  | cons a rest =>
    have hvisible : Text.isVisible (joined gap (a :: rest)) = true := by
      have ha : Text.isVisible a.whole = true := by
        rw [Argument.whole, Text.isVisible_append_append (hgaps a List.mem_cons_self).1.blank
          (hgaps a List.mem_cons_self).2.blank]
        exact (h a List.mem_cons_self).isVisible
      cases rest with
      | nil => exact ha
      | cons b rest => rw [joined_cons_cons, Text.isVisible_append, ha, Bool.true_or]
    rw [argumentTexts, if_pos hvisible, split_joined hgap hgaps h (by simp), List.map_map]
    exact List.map_congr_left htrim

/-- **Whatever the grammar derives is a phrase.** It is read in one way whatever follows it, passes the checks wherever
it stands, and shows no operator looser than its category outside its parentheses. -/
theorem Derives.phrase (h : Derives voc category t e) : Phrase category t := by
  induction h with
  | operand h => exact .operand h
  | group h₁ h₂ _ ih => exact .group h₁ h₂ ih
  | call hname _ _ _ hgap hgaps _ ih => exact .call hname (sound_joined hgap hgaps ih)
  | lift hw _ ih => exact ih.lift hw
  | negate hn _ ih => exact ih.negate hn
  | binary hj _ _ h₁ h₂ _ hmarker ihl ihr => exact ihl.binary hj ihr h₁ h₂ hmarker

end MissionScript
