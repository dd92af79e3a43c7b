/-
What a text cites.

A text cites names when these are its references, and they stay its references in front of whatever does not go on with a
name, a number or a transpose. What is cited can be put together as the text is.
- `Cites.reference`, `Cites.numeral`, `Cites.quotation`: a reference cites itself, numbers and strings cite nothing.
- `Cites.join`: two texts with a separator between them cite what the first and then what the second one cites.
- `Cites.group`, `Cites.call`: parentheses cite nothing of their own, a call its name before all else.
-/
import MissionScript.Proofs.Cell.Part
import MissionScript.Proofs.Lexeme.Standing

namespace MissionScript

variable {attached : Bool} {c : Char} {t l r b rest after name : Text} {names names' : List Text}

/-! ## Where a lexeme ends -/

/-- The text goes on with no name and no number, and not with a quote either. -/
def StartsApart (rest : Text) : Prop := ∀ c ∈ rest.head?, isWordChar c = false ∧ c ≠ '.' ∧ c ≠ '\''

theorem StartsApart.nil : StartsApart [] := by simp [StartsApart]

theorem StartsApart.of_separator (hc : c ∈ separators) (rest : Text) : StartsApart (c :: rest) := by
  have hall : ∀ c ∈ separators, isWordChar c = false ∧ c ≠ '.' ∧ c ≠ '\'' := List.all_iff_forall_prop.1 (by decide)
  intro d hd
  exact Option.some.inj hd ▸ hall c hc

theorem StartsApart.closing (rest : Text) : StartsApart (')' :: rest) := by
  intro d hd
  obtain rfl := Option.some.inj hd
  decide

theorem StartsApart.stops (h : StartsApart rest) : ∀ c ∈ rest.head?, isWordChar c = false ∧ c ≠ '.' :=
  fun c hc => ⟨(h c hc).1, (h c hc).2.1⟩

namespace Lexeme

/-- Where no quote is first, it does not matter whether a quote would be a transpose. -/
theorem ofText_attached (h : StartsApart rest) : ofText attached rest = ofText false rest := by
  cases rest with
  | nil => rw [ofText, ofText]
  | cons c rest =>
    have hquote : (c == '\'') = false := by simpa using (h c rfl).2.2
    have hnext : next attached c rest = next false c rest := by simp [next, hquote]
    rw [ofText, ofText, hnext]

theorem next_of_separator (hc : c ∈ separators) (rest : Text) : next false c rest = (.other c, rest) := by
  simp only [separators, List.mem_cons, List.not_mem_nil, or_false] at hc
  rcases hc with rfl | rfl | rfl | rfl | rfl | rfl | rfl | rfl | rfl <;> rfl

theorem next_closing (rest : Text) : next false ')' rest = (.closer ')', rest) := rfl

def name? : Lexeme → Option Text
  | .reference name => some name
  | _ => none

end Lexeme

theorem IsReference.span_append (h : IsReference t) (u : Text) :
    Reference.span (t ++ u) = (t ++ (Reference.span u).1, (Reference.span u).2) := by
  induction h generalizing u with
  | name hname => exact Reference.span_append_word hname.isWordChar u
  | @property object name _ hname ih =>
    have hstart : MissionScript.startsName (name ++ u) = true := by
      cases name with
      | nil => exact absurd hname.startsName (by decide)
      | cons c name => exact hname.startsName
    have hpoint : Reference.span ('.' :: (name ++ u)) =
        ('.' :: (name ++ (Reference.span u).1), (Reference.span u).2) := by
      rw [Reference.span, hstart, Reference.span_append_word hname.isWordChar]
      rfl
    rw [List.append_assoc, List.cons_append, ih, hpoint]
    simp

theorem IsReference.span_of_stop (h : IsReference t) (hstop : ∀ c ∈ rest.head?, isWordChar c = false ∧ c ≠ '.') :
    Reference.span (t ++ rest) = (t, rest) := by
  rw [h.span_append, Reference.span_eq_nil hstop, List.append_nil]

theorem IsNumeral.startsName (h : IsNumeral t) : MissionScript.startsName t = false := by
  cases t with
  | nil => rfl
  | cons c t =>
    by_contra hname
    have hstart : isNameStart c = true := Bool.eq_true_of_not_eq_false hname
    have hdigit := Posture.not_isDigit_of_isNameStart hstart
    rcases Numeral.head_of_isNumeral h with h | rfl
    · simp [h] at hdigit
    · exact absurd hdigit (by decide)

/-! ## References in front of the rest -/

namespace Text

theorem references_of_next {lexeme : Lexeme} (hnext : Lexeme.next false c rest = (lexeme, after))
    (hafter : lexeme.takesTranspose = true → StartsApart after) :
    references (c :: rest) = lexeme.name?.toList ++ references after := by
  have hrest : Lexeme.ofText lexeme.takesTranspose after = Lexeme.ofText false after := by
    cases htakes : lexeme.takesTranspose with
    | false => rfl
    | true => exact Lexeme.ofText_attached (hafter htakes)
  rw [references, lexemes, Lexeme.ofText, hnext, hrest]
  cases lexeme <;> rfl

theorem references_separator (hc : c ∈ separators) (rest : Text) : references (c :: rest) = references rest :=
  references_of_next (Lexeme.next_of_separator hc rest) (by simp [Lexeme.takesTranspose])

end Text

/-- The text has exactly these references, in this order, whatever follows that begins apart. -/
def Cites (t : Text) (names : List Text) : Prop :=
  ∀ rest, StartsApart rest → Text.references (t ++ rest) = names ++ Text.references rest

namespace Cites

theorem references_eq (h : Cites t names) : Text.references t = names := by
  have hwhole := h [] .nil
  have hnone : Text.references [] = [] := by simp [Text.references, Text.lexemes, Lexeme.ofText]
  rwa [hnone, List.append_nil, List.append_nil] at hwhole

theorem nil : Cites [] [] := fun _ _ => rfl

/-- Of one lexeme only its name is cited. -/
theorem of_next (lexeme : Lexeme) (h : ∀ rest, StartsApart rest → Lexeme.next false c (t ++ rest) = (lexeme, rest)) :
    Cites (c :: t) lexeme.name?.toList :=
  fun rest hrest => Text.references_of_next (h rest hrest) fun _ => hrest

/-- **Separators keep citations apart.** -/
theorem join (hl : Cites l names) (hr : Cites r names') (hc : c ∈ separators) :
    Cites (l ++ c :: r) (names ++ names') := by
  intro rest hrest
  calc Text.references (l ++ c :: r ++ rest)
      = Text.references (l ++ c :: (r ++ rest)) := by rw [List.append_assoc, List.cons_append]
    _ = names ++ Text.references (r ++ rest) := by
        rw [hl _ (.of_separator hc _), Text.references_separator hc]
    _ = names ++ names' ++ Text.references rest := by rw [hr rest hrest, List.append_assoc]

theorem closing (h : Cites t names) : Cites (t ++ [')']) names := by
  intro rest hrest
  have hclose : Text.references (')' :: rest) = Text.references rest :=
    Text.references_of_next (Lexeme.next_closing rest) fun _ => hrest
  rw [List.append_assoc, List.singleton_append, h _ (.closing rest), hclose]

theorem group (h : Cites t names) : Cites ('(' :: (t ++ [')'])) names := nil.join h.closing (by decide)

theorem gap_append (h : Cites t names) (hb : Gap b) : Cites (b ++ t) names := by
  induction b with
  | nil => exact h
  | cons c b ih =>
    have hc : c ∈ separators := by rcases hb c List.mem_cons_self with rfl | rfl <;> decide
    exact nil.join (ih fun d hd => hb d (List.mem_cons_of_mem c hd)) hc

theorem append_gap (h : Cites t names) (hb : Gap b) : Cites (t ++ b) names := by
  have hgap : ∀ rest, Text.references (b ++ rest) = Text.references rest := by
    intro rest
    induction b with
    | nil => rfl
    | cons c b ih =>
      have hc : c ∈ separators := by rcases hb c List.mem_cons_self with rfl | rfl <;> decide
      rw [List.cons_append, Text.references_separator hc, ih fun d hd => hb d (List.mem_cons_of_mem c hd)]
  intro rest hrest
  cases b with
  | nil => rw [List.append_nil, h rest hrest]
  | cons c b =>
    have hc : c ∈ separators := by rcases hb c List.mem_cons_self with rfl | rfl <;> decide
    rw [List.append_assoc, List.cons_append, h _ (.of_separator hc _), ← List.cons_append, hgap]

/-! ### Operands -/

theorem reference (h : IsReference t) : Cites t [t] := by
  obtain ⟨c, t, rfl⟩ : ∃ c u, t = c :: u :=
    List.exists_cons_of_ne_nil fun hnil => absurd (hnil ▸ h.startsName) (by decide)
  have hstart : isNameStart c = true := h.startsName
  refine of_next (.reference (c :: t)) fun rest hrest => ?_
  have hwhole : Reference.span (c :: (t ++ rest)) = (c :: t, rest) := h.span_of_stop hrest.stops
  simp [Lexeme.next, hstart, hwhole]

theorem numeral (h : IsNumeral t) : Cites t [] := by
  obtain ⟨c, t, rfl⟩ : ∃ c u, t = c :: u :=
    List.exists_cons_of_ne_nil (Numeral.span_append (Numeral.span_of_isNumeral h)).2
  have hstart : isNameStart c = false := h.startsName
  refine of_next (.numeral (c :: t)) fun rest hrest => ?_
  have hwhole : Numeral.span (c :: (t ++ rest)) = some (c :: t, rest) := Numeral.span_of_stop h hrest.stops
  simp [Lexeme.next, hstart, hwhole]

theorem quotation (h : IsQuotation t) : Cites t [] := by
  obtain ⟨quote, body, hquote, hbody, rfl⟩ := h
  refine of_next (.quotation (quote :: (body ++ [quote]))) fun rest _ => ?_
  have hspan : Quotation.span (quote :: (body ++ quote :: rest)) = some (quote :: (body ++ [quote]), rest) :=
    Quotation.span_of_closed hquote hbody
  have hchars : quote = '\'' ∨ quote = '"' := by simpa [Quotation.isQuote] using hquote
  have hfirst : Lexeme.next false quote (body ++ quote :: rest) = (.quotation (quote :: (body ++ [quote])), rest) := by
    rcases hchars with rfl | rfl
    · simp only [Lexeme.next, hspan]
      rfl
    · simp only [Lexeme.next, hspan]
      rfl
  simpa using hfirst

theorem call (hname : IsIdentifier name) (h : Cites t names) : Cites (name ++ '(' :: (t ++ [')'])) (name :: names) :=
  (reference (.name hname)).join h.closing (by decide)

end Cites

end MissionScript
