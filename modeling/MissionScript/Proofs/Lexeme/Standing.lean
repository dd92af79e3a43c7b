/-
Names that stand by themselves.

A name stands by itself in a text when nothing before it or behind it would make a longer name. The lexemes of the text
then keep it in one piece, unless it is the content of a string.
- `begins_next`: what the first lexeme of a text can be.
- `reference_or_quotation`: a name that stands by itself is a lexeme, or a string begins before it and ends behind its
  start.
- `Text.mem_references_of_stands`: where there are no quotes it is a reference.
-/
import MissionScript.Lexeme.Basic
import MissionScript.Proofs.Cell.Operand
import MissionScript.Proofs.Function.Names

namespace MissionScript

variable {l r before after name t : Text} {c : Char} {attached : Bool}

/-! ## Ends of names -/

/-- The text does not end in a name. -/
def EndsApart (l : Text) : Prop := ∀ c ∈ l.getLast?, isWordChar c = false ∧ c ≠ '.'

instance (l : Text) : Decidable (EndsApart l) :=
  decidable_of_iff ((l.getLast?.all fun c => !isWordChar c && c != '.') = true) (by
    unfold EndsApart
    cases l.getLast? with
    | none => simp
    | some c => simp)

theorem EndsApart.nil : EndsApart [] := by simp [EndsApart]

theorem EndsApart.concat (h : isWordChar c = false ∧ c ≠ '.') (l : Text) : EndsApart (l ++ [c]) := by
  intro d hd
  rw [List.getLast?_concat] at hd
  exact Option.some.inj hd ▸ h

theorem EndsApart.append (hl : EndsApart l) (hr : EndsApart r) : EndsApart (l ++ r) := by
  by_cases hne : r = []
  · rw [hne, List.append_nil]
    exact hl
  · intro c hc
    rw [List.getLast?_append_of_ne_nil l hne] at hc
    exact hr c hc

theorem EndsApart.of_append (h : EndsApart (l ++ r)) : EndsApart r := by
  by_cases hne : r = []
  · exact hne ▸ .nil
  · intro c hc
    rw [← List.getLast?_append_of_ne_nil l hne] at hc
    exact h c hc

theorem EndsApart.blank (h : Text.Blank t) : EndsApart t := by
  intro c hc
  have hblank := h c (List.mem_of_getLast? hc)
  constructor
  · by_contra hword
    rw [not_isBlank_of_isWordChar (by simpa using hword)] at hblank
    exact absurd hblank (by decide)
  · rintro rfl
    exact absurd hblank (by decide)

/-- The characters before it and behind it do not make the name longer. -/
structure Stands (before name after : Text) : Prop where
  startsName : startsName name = true
  apart : EndsApart before
  whole : Reference.span (name ++ after) = (name, after)

theorem Stands.exists_cons (h : Stands before name after) : ∃ y name', name = y :: name' := by
  cases name with
  | nil => exact absurd h.startsName (by simp [MissionScript.startsName])
  | cons y name' => exact ⟨y, name', rfl⟩

theorem Reference.span_append_word (hname : ∀ c ∈ name, isWordChar c = true) (t : Text) :
    span (name ++ t) = (name ++ (span t).1, (span t).2) := by
  induction name with
  | nil => rfl
  | cons c name ih =>
    have hrest := ih fun d hd => hname d (List.mem_cons_of_mem c hd)
    simp [span, hname c List.mem_cons_self, hrest]

theorem Reference.span_eq_nil (hafter : ∀ c ∈ after.head?, isWordChar c = false ∧ c ≠ '.') :
    span after = ([], after) := by
  cases after with
  | nil => rfl
  | cons c rest =>
    obtain ⟨hword, hdot⟩ := hafter c rfl
    simp [span, hword, hdot]

theorem Reference.span_of_stop (hname : ∀ c ∈ name, isWordChar c = true)
    (hafter : ∀ c ∈ after.head?, isWordChar c = false ∧ c ≠ '.') : span (name ++ after) = (name, after) := by
  rw [span_append_word hname, span_eq_nil hafter, List.append_nil]

/-! ## The first lexeme -/

namespace Lexeme

/-- what a text can begin with, and the text behind it -/
inductive Begins (attached : Bool) (c : Char) (rest : Text) : Lexeme → Text → Prop where
  | transpose (hattached : attached = true) (hc : c = '\'') : Begins attached c rest .transpose rest
  | reference (hc : isNameStart c = true) :
    Begins attached c rest (.reference (Reference.span (c :: rest)).1) (Reference.span (c :: rest)).2
  | numeral {taken after : Text} (hspan : Numeral.span (c :: rest) = some (taken, after)) :
    Begins attached c rest (.numeral taken) after
  | closer (hc : isCloser c = true) : Begins attached c rest (.closer c) rest
  | quotation {taken after : Text} (hattached : attached = true → c ≠ '\'')
    (hspan : Quotation.span (c :: rest) = some (taken, after)) : Begins attached c rest (.quotation taken) after
  | other (hattached : attached = true → c ≠ '\'') (hstart : isNameStart c = false)
    (hnumeral : Numeral.span (c :: rest) = none) (hcloser : isCloser c = false)
    (hquotation : Quotation.span (c :: rest) = none) : Begins attached c rest (.other c) rest

/-- **What a text begins with.** -/
theorem begins_next (attached : Bool) (c : Char) (rest : Text) :
    Begins attached c rest (next attached c rest).1 (next attached c rest).2 := by
  unfold next
  split
  · next htranspose =>
    simp only [Bool.and_eq_true, beq_iff_eq] at htranspose
    exact .transpose htranspose.1 htranspose.2
  · next htranspose =>
    have hattached : attached = true → c ≠ '\'' := by
      intro h hc
      exact htranspose (by simp [h, hc])
    split
    · next hstart => exact .reference hstart
    · next hstart =>
      split
      · next hnumeral => exact .numeral hnumeral
      · next hnumeral =>
        split
        · next hcloser => exact .closer hcloser
        · next hcloser =>
          split
          · next hquotation => exact .quotation hattached hquotation
          · next hquotation =>
            exact .other hattached (by simpa using hstart) hnumeral (by simpa using hcloser) hquotation

/-! ## Names among the lexemes -/

/-- A lexeme in which a name begins behind a character that ends none is a string. -/
theorem quotation_of_text {rest v : Text} {x y : Char} (hx : isWordChar x = false ∧ x ≠ '.') (hy : isNameStart y = true)
    (htext : (next attached c rest).1.text = l ++ x :: y :: v) : ∃ q, (next attached c rest).1 = .quotation q := by
  have hbegins := begins_next attached c rest
  generalize (next attached c rest).1 = lexeme at hbegins htext ⊢
  generalize (next attached c rest).2 = tail at hbegins
  have hlong : lexeme.text.length = l.length + v.length + 2 := by simp [htext, Nat.add_assoc]
  cases hbegins with
  | transpose => simp [text] at hlong
  | closer => simp [text] at hlong
  | other => simp [text] at hlong
  | reference =>
    change (Reference.span (c :: rest)).1 = l ++ x :: y :: v at htext
    have hmem : x ∈ (Reference.span (c :: rest)).1 := by
      rw [htext]
      simp
    rcases Reference.char_of_mem_span hmem with hword | hdot
    · exact absurd (hx.1.symm.trans hword) (by decide)
    · exact absurd hdot hx.2
  | @numeral taken _ hspan =>
    change taken = l ++ x :: y :: v at htext
    have hnumeral := Numeral.isNumeral_of_span hspan
    rw [htext] at hnumeral
    rcases Numeral.neighbours_of_isNumeral hnumeral with (hword | hdot) | hdigit
    · exact absurd (hx.1.symm.trans hword) (by decide)
    · exact absurd hdot hx.2
    · have hname := Posture.not_isDigit_of_isNameStart hy
      rw [hdigit] at hname
      exact absurd hname (by simp)
  | @quotation taken => exact ⟨taken, rfl⟩

theorem next_of_stands {y : Char} {name : Text} (h : Stands [] (y :: name) after) (attached : Bool) :
    next attached y (name ++ after) = (.reference (y :: name), after) := by
  have hy : isNameStart y = true := h.startsName
  have hquote : (attached && y == '\'') = false := by
    have hne : y ≠ '\'' := by
      rintro rfl
      exact absurd hy (by decide)
    simp [hne]
  have hspan : Reference.span (y :: (name ++ after)) = (y :: name, after) := h.whole
  simp only [next, hquote, hy, hspan, Bool.false_eq_true, if_false, if_true]

/-- Where something stands before the name, the first lexeme ends before the name, or it is a string that holds its start. -/
theorem next_before_stands {rest : Text} (h : Stands before name after) (hne : before ≠ [])
    (hrest : c :: rest = before ++ (name ++ after)) (attached : Bool) :
    (∃ before', before = (next attached c rest).1.text ++ before' ∧
        (next attached c rest).2 = before' ++ (name ++ after) ∧ Stands before' name after) ∨
      ∃ q, (next attached c rest).1 = .quotation q ∧ before.length < q.length := by
  have hdivides := (next_append attached c rest).1
  rw [hrest] at hdivides
  rcases List.append_eq_append_iff.1 hdivides with ⟨u, hu, htail⟩ | ⟨u, hu, htail⟩
  · exact .inl ⟨u, hu, htail, h.startsName, (hu ▸ h.apart).of_append, h.whole⟩
  · cases u with
    | nil =>
      rw [List.append_nil] at hu
      exact .inl ⟨[], by rw [hu, List.append_nil], htail.symm, h.startsName, .nil, h.whole⟩
    | cons d v =>
      -- the lexeme goes on behind the start of the name
      right
      obtain ⟨y, name', rfl⟩ := h.exists_cons
      obtain ⟨rfl, -⟩ := List.cons.inj htail
      obtain ⟨l, x, rfl⟩ : ∃ l x, before = l ++ [x] := ⟨_, _, (List.dropLast_append_getLast hne).symm⟩
      have hx : isWordChar x = false ∧ x ≠ '.' := h.apart x (by rw [List.getLast?_concat]; rfl)
      obtain ⟨q, hq⟩ := quotation_of_text (v := v) hx h.startsName (by rw [hu, List.append_assoc]; rfl)
      refine ⟨q, hq, ?_⟩
      have hlen : q.length = (l ++ [x]).length + (y :: v).length := by
        rw [← List.length_append, ← hu, hq, text]
      rw [hlen, List.length_cons]
      omega

/-- **A name that stands by itself is a lexeme**, unless a string begins before it and ends behind its start. -/
theorem reference_or_quotation (h : Stands before name after) (attached : Bool) :
    (∃ ls ls', ofText attached (before ++ (name ++ after)) = ls ++ .reference name :: ls' ∧ ls.flatMap text = before) ∨
      ∃ ls q ls', ofText attached (before ++ (name ++ after)) = ls ++ .quotation q :: ls' ∧
        (ls.flatMap text).length < before.length ∧ before.length < (ls.flatMap text).length + q.length := by
  generalize ht : before ++ (name ++ after) = t
  fun_induction ofText attached t generalizing before with
  | case1 attached =>
    obtain ⟨y, name', rfl⟩ := h.exists_cons
    exact absurd ht (by simp)
  | case2 attached c rest ih =>
    by_cases hne : before = []
    · subst hne
      left
      obtain ⟨y, name', rfl⟩ := h.exists_cons
      obtain ⟨rfl, rfl⟩ : y = c ∧ name' ++ after = rest := List.cons.inj ht
      rw [next_of_stands h attached]
      exact ⟨[], _, rfl, rfl⟩
    · rcases next_before_stands h hne ht.symm attached with ⟨before', hbefore, htail, hstands⟩ | ⟨q, hq, hlength⟩
      · have hlength : before.length = (next attached c rest).1.text.length + before'.length := by
          rw [hbefore, List.length_append]
        rcases ih hstands htail.symm with ⟨ls, ls', hls, htexts⟩ | ⟨ls, q, ls', hls, hbegins, hbeyond⟩
        · refine .inl ⟨(next attached c rest).1 :: ls, ls', by rw [hls, List.cons_append], ?_⟩
          rw [List.flatMap_cons, htexts, ← hbefore]
        · refine .inr ⟨(next attached c rest).1 :: ls, q, ls', by rw [hls, List.cons_append], ?_⟩
          rw [List.flatMap_cons, List.length_append]
          omega
      · exact .inr ⟨[], q, _, by rw [hq]; rfl, List.length_pos_iff.2 hne, by simpa using hlength⟩

theorem exists_quote_of_quotation_mem {q : Text} (h : .quotation q ∈ ofText attached t) :
    ∃ c ∈ q, Quotation.isQuote c = true := by
  fun_induction ofText attached t with
  | case1 => exact absurd h List.not_mem_nil
  | case2 attached c rest ih =>
    rcases List.mem_cons.1 h with hfirst | h
    · have hbegins := begins_next attached c rest
      rw [← hfirst] at hbegins
      cases hbegins with
      | quotation _ hspan =>
        obtain ⟨hquote, body, -, rfl, -⟩ := Quotation.span_eq_some_iff.1 hspan
        exact ⟨c, List.mem_cons_self, hquote⟩
    · exact ih h

/-- Where there are no quotes there are no strings. -/
theorem quotation_not_mem {q : Text} (h : ∀ c ∈ t, Quotation.isQuote c = false) : .quotation q ∉ ofText attached t := by
  intro hmem
  obtain ⟨c, hc, hquote⟩ := exists_quote_of_quotation_mem hmem
  have htext : c ∈ (ofText attached t).flatMap text := List.mem_flatMap.2 ⟨_, hmem, hc⟩
  rw [text_ofText] at htext
  rw [h c htext] at hquote
  exact absurd hquote (by decide)

end Lexeme

/-- **A name that stands by itself is a reference** of a text without quotes. -/
theorem Text.mem_references_of_stands (h : Stands before name after)
    (hquotes : ∀ c ∈ before ++ (name ++ after), Quotation.isQuote c = false) :
    name ∈ references (before ++ (name ++ after)) := by
  rcases Lexeme.reference_or_quotation h false with ⟨ls, ls', hls, -⟩ | ⟨ls, q, ls', hls, -⟩
  · rw [references, lexemes, hls]
    exact List.mem_filterMap.2 ⟨.reference name, by simp, rfl⟩
  · have hmem : .quotation q ∈ Lexeme.ofText false (before ++ (name ++ after)) := by
      rw [hls]
      simp
    exact absurd hmem (Lexeme.quotation_not_mem hquotes)

end MissionScript
