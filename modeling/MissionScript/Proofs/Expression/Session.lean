/-
Vocabularies that serve several texts.

Texts can be parsed in turn with one vocabulary that grows, or each with the vocabulary there was at the start. What a
text becomes depends on the names before its parentheses only, and those are references of the text itself, so that it
brings along all that is asked for.
- `Heads.mem_references`: a name before a parenthesis is a reference of the text, if there are no quotes in it.
- `agreeOn_learn`: meeting other texts before makes no difference to a text.
- `parseMany_eq_parseInTurn`: both ways of parsing give the same.
- `order_of_discovery`: the order in which texts are met makes no difference to what is known, and to no text.
-/
import MissionScript.Proofs.Expression.Locality

namespace MissionScript

variable {voc later : Vocabulary} {finds : Text → Bool} {name t : Text} {texts before : List Text}

/-! ## One text behind others -/

theorem Heads.mem_references (h : Heads name t) (hname : IsIdentifier name)
    (hquotes : ∀ c ∈ t, Quotation.isQuote c = false) : name ∈ Text.references t := by
  obtain ⟨blanks, hblanks, l, r, hl, ht⟩ := h
  have hwhole : t = l ++ (name ++ (blanks ++ '(' :: r)) := by simp [ht]
  have hstands : Stands l name (blanks ++ '(' :: r) := by
    refine ⟨hname.startsName, hl, Reference.span_of_stop hname.isWordChar fun c hc => ?_⟩
    cases blanks with
    | nil =>
      obtain rfl : '(' = c := Option.some.inj hc
      decide
    | cons b blanks =>
      obtain rfl : b = c := Option.some.inj hc
      exact EndsApart.blank (t := [b]) (fun d hd => List.mem_singleton.1 hd ▸ hblanks b List.mem_cons_self) b rfl
  rw [hwhole] at hquotes ⊢
  exact Text.mem_references_of_stands hstands hquotes

theorem Heads.mem (h : Heads name t) : ∀ c ∈ name, c ∈ t := by
  obtain ⟨blanks, -, l, r, -, rfl⟩ := h
  intro c hc
  simp [hc]

theorem Reference.isDotted_eq_false_iff : isDotted name = false ↔ '.' ∉ name := by
  rw [isDotted, List.contains_eq_mem, decide_eq_false_iff_not]

theorem IsIdentifier.isDotted (h : IsIdentifier name) : Reference.isDotted name = false := by
  apply Reference.isDotted_eq_false_iff.2
  intro hdot
  exact absurd (h.isWordChar '.' hdot) (by decide)

/-- A name is found when it is found without its capital. -/
def FindsCapitals (finds : Text → Bool) : Prop :=
  ∀ name lower, lowerFirst name = some lower → finds lower = true → finds name = true

/-- The text consists of characters of ASCII and has no quotes. -/
def IsBare (t : Text) : Prop := ∀ c ∈ t, c.toNat < 128 ∧ Quotation.isQuote c = false

instance (t : Text) : Decidable (IsBare t) :=
  decidable_of_iff ((t.all fun c => c.toNat < 128 && !Quotation.isQuote c) = true) (by simp [IsBare])

namespace Vocabulary

theorem isIdentifier_of_findable (hname : name ∈ Text.references t) (h : Findable finds name) : IsIdentifier name := by
  obtain ⟨hstart, hchars⟩ := Text.reference_of_mem hname
  refine ⟨hstart, fun c hc => (hchars c hc).resolve_right fun hdot => ?_⟩
  exact Reference.isDotted_eq_false_iff.1 h.plain (hdot ▸ hc)

/-- With a capital of ASCII for its first letter, an identifier stays one. -/
theorem isIdentifier_of_lowerFirst {lower : Text} (hlower : lowerFirst name = some lower) (h : IsIdentifier lower)
    (hascii : ∀ c ∈ name, c.toNat < 128) : IsIdentifier name := by
  cases name with
  | nil => exact absurd hlower (by simp [lowerFirst])
  | cons c rest =>
    have hupper : c.isUpper = true := by
      by_contra hupper
      simp only [lowerFirst, if_neg hupper] at hlower
      split_ifs at hlower with hkelvin
      obtain rfl : c = '\u212a' := by simpa using hkelvin
      exact absurd (hascii _ List.mem_cons_self) (by decide)
    have hstart : isNameStart c = true := by simp [isNameStart_eq, hupper]
    obtain rfl : c.toLower :: rest = lower := by simpa [lowerFirst, hupper] using hlower
    refine ⟨hstart, List.forall_mem_cons.2 ⟨isWordChar_of_isNameStart hstart, fun d hd => ?_⟩⟩
    exact h.isWordChar d (List.mem_cons_of_mem _ hd)

/-- **Texts met before make no difference.** -/
theorem agreeOn_learn (hfinds : FindsCapitals finds) (htext : IsBare t) (voc : Vocabulary) (before : List Text) :
    AgreeOn (voc.learn finds t) ((voc.learnAll finds before).learn finds t) t := by
  intro name hheads
  refine kind?_congr fun hunused => ?_
  rw [hasUserDefined_learn, hasUserDefined_learn, hasUserDefined_learnAll]
  constructor
  · rintro (hknown | hmet)
    · exact .inl (.inl hknown)
    · exact .inr hmet
  · rintro ((hknown | ⟨s, -, r, hr, hfindable, hname⟩) | hmet)
    · exact .inl hknown
    · -- what an earlier text has brought is referred to by this text as well
      right
      have hidentifier := isIdentifier_of_findable hr hfindable
      have hascii : ∀ c ∈ name, c.toNat < 128 := fun c hc => (htext c (hheads.mem c hc)).1
      rcases hname with rfl | hlower
      · exact ⟨name, hheads.mem_references hidentifier fun c hc => (htext c hc).2, hfindable, .inl rfl⟩
      · have hcapital := isIdentifier_of_lowerFirst hlower hidentifier hascii
        have hmem := hheads.mem_references hcapital fun c hc => (htext c hc).2
        exact ⟨name, hmem, ⟨hcapital.isDotted, hunused, hfinds name r hlower hfindable.found⟩, .inl rfl⟩
    · exact .inr hmet

end Vocabulary

/-! ## Parsing in turn -/

namespace Expression

/-- parses texts one after the other with one vocabulary, which keeps what each of them brings -/
def parseInTurn (finds : Text → Bool) : Vocabulary → List Text → List (Except ParseError Expression)
  | _, [] => []
  | voc, t :: texts => (parse finds voc t).1 :: parseInTurn finds (parse finds voc t).2 texts

theorem parseInTurn_learnAll (hfinds : FindsCapitals finds) (htexts : ∀ t ∈ texts, IsBare t) (voc : Vocabulary)
    (before : List Text) :
    parseInTurn finds (voc.learnAll finds before) texts = parseMany finds voc texts := by
  induction texts generalizing before with
  | nil => rfl
  | cons t texts ih =>
    have hagree := Vocabulary.agreeOn_learn hfinds (htexts t List.mem_cons_self) voc before
    have hfirst : (parse finds voc t).1 = (parse finds (voc.learnAll finds before) t).1 := buildWith_congr _ _ hagree
    have hnext : (parse finds (voc.learnAll finds before) t).2 = voc.learnAll finds (before ++ [t]) := by
      rw [Vocabulary.learnAll, Vocabulary.learnAll, List.foldl_append]
      rfl
    rw [parseInTurn, ← hfirst, hnext, ih (fun s hs => htexts s (List.mem_cons_of_mem t hs))]
    rfl

/-- What a copy of a vocabulary learns is not learned by the vocabulary. -/
theorem vocabulary_parseEach (finds : Text → Bool) (voc : Vocabulary) (texts : List Text) :
    (parseEach finds voc texts).2 = voc := by
  induction texts with
  | nil => rfl
  | cons t texts ih => exact ih

/-- **Parsing independently is parsing in turn**, for bare texts and a finder that finds what it finds without its capital;
only in turn does the vocabulary grow. -/
theorem parseMany_eq_parseInTurn (hfinds : FindsCapitals finds) (htexts : ∀ t ∈ texts, IsBare t) (voc : Vocabulary) :
    parseMany finds voc texts = parseInTurn finds voc texts ∧ (parseEach finds voc texts).2 = voc :=
  ⟨(parseInTurn_learnAll hfinds htexts voc []).symm, vocabulary_parseEach finds voc texts⟩

/-- In turn, the second text finds `Orbit` known by its lower case; by itself, it brings the name along. -/
theorem parseMany_capitals :
    parseMany (fun name => (lowerFirst name).getD name == "orbit".toList) .initial
        ["orbit(x)".toList, "2*Orbit(y)".toList, "orbit(Orbit(z))".toList] =
      parseInTurn (fun name => (lowerFirst name).getD name == "orbit".toList) .initial
        ["orbit(x)".toList, "2*Orbit(y)".toList, "orbit(Orbit(z))".toList] := by
  refine (parseMany_eq_parseInTurn (fun name lower hlower hfound => ?_) (by decide) .initial).1
  rw [lowerFirst_of_lowerFirst hlower] at hfound
  rw [hlower]
  exact hfound

end Expression

/-! ## The order of discovery -/

/-- **The order of discovery does not matter.** Whichever way round the texts are met, each name stands for the same
function, and no expression is built differently. What a text adds is counted, nothing is lost, and a second time it adds
nothing. -/
theorem order_of_discovery {texts' : List Text} (h : texts.Perm texts') (voc : Vocabulary) (finds : Text → Bool) :
    (∀ name, (voc.learnAll finds texts).kind? name = (voc.learnAll finds texts').kind? name ∧
        (voc.learnAll finds texts).knows name = (voc.learnAll finds texts').knows name ∧
        (voc.learnAll finds texts).arity? name = (voc.learnAll finds texts').arity? name) ∧
      (∀ (m : Type → Type) (α : Type) [Monad m] [MonadExcept ParseError m] (b : Builder m α) (nesting : Nesting)
        (t : Text), buildWith b nesting (voc.learnAll finds texts) t = buildWith b nesting (voc.learnAll finds texts') t) ∧
      ∀ t, (voc.learn finds t).userDefined.size = voc.userDefined.size + (voc.discover finds t).added ∧
        (∀ name, voc.userDefined.contains name = true → (voc.learn finds t).userDefined.contains name = true) ∧
        ((voc.learn finds t).discover finds t).added = 0 ∧ (voc.learn finds t).learn finds t = voc.learn finds t := by
  have halike : Vocabulary.Alike (voc.learnAll finds texts) (voc.learnAll finds texts') :=
    Vocabulary.alike_learnAll_of_perm h
  refine ⟨fun name => ⟨halike.kind? name, funext (halike.knows name), halike.arity? name⟩, ?_, fun t => ?_⟩
  · intro m α _ _ b nesting t
    exact buildWith_congr b nesting fun name _ => halike.kind? name
  · obtain ⟨hagain, hnone⟩ := Vocabulary.discover_learn voc finds t
    exact ⟨Vocabulary.size_learn voc finds t, Vocabulary.le_learn voc finds t, hnone, hagain⟩

/-- Which spellings are stored depends on the order, what they stand for does not. -/
theorem order_of_discovery_capitals :
    (Vocabulary.initial.learnAll (fun _ => true) ["Foo(x)".toList, "foo(y)".toList]).userDefined.toList ≠
        (Vocabulary.initial.learnAll (fun _ => true) ["foo(y)".toList, "Foo(x)".toList]).userDefined.toList ∧
      (Vocabulary.initial.learnAll (fun _ => true) ["Foo(x)".toList, "foo(y)".toList]).kind? "Foo".toList =
        (Vocabulary.initial.learnAll (fun _ => true) ["foo(y)".toList, "Foo(x)".toList]).kind? "Foo".toList := by
  refine ⟨by decide +kernel, ?_⟩
  exact ((order_of_discovery (List.Perm.swap _ _ []) .initial fun _ => true).1 "Foo".toList).1

end MissionScript
