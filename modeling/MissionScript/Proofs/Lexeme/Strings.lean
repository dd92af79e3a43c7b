/-
Strings among the lexemes and among the cells.

The lexemes of a text tell a transpose from the beginning of a string by the lexeme before the quote, the cells by the one
character before it. They differ over a quote directly behind the end of a string, over one behind a point that belongs to
no numeral, and over one that is never closed.
- `Begins.clear_iff`, `Begins.quotedFrom`: the first lexeme.
- `quotedFrom_eq_iff`: the lexemes in a row.
- `strings_agree_iff`: of which texts both say the same, and that references are then exactly the names outside strings.
-/
import MissionScript.Proofs.Cell.Strings
import MissionScript.Proofs.Lexeme.Standing

namespace MissionScript

open Posture

variable {before rest after t : Text} {attached : Bool} {c : Char} {l : Lexeme}

/-! ## The character before a quote -/

/-- the text ends in a single quote or a point -/
def EndsLoose (before : Text) : Prop := ∃ c ∈ before.getLast?, c = '\'' ∨ c = '.'

theorem followsOperand_reverse (h : before.getLast? = some c) : followsOperand before.reverse = followsOperand [c] := by
  obtain ⟨u, hu⟩ := List.head?_eq_some_iff.1 (List.getLast?_eq_head?_reverse ▸ h)
  rw [hu]
  rfl

theorem EndsLoose.follows (h : EndsLoose before) : followsOperand before.reverse = true := by
  obtain ⟨c, hlast, hc⟩ := h
  rw [followsOperand_reverse hlast]
  rcases hc with rfl | rfl
  · rfl
  · rfl

theorem followsOperand_of_word (h : isWordChar c = true ∨ c = '.') : followsOperand [c] = true := by
  rcases h with hword | rfl
  · simp [followsOperand, hword]
  · rfl

theorem not_isQuote_of_word (h : isWordChar c = true ∨ c = '.') : Quotation.isQuote c = false := by
  have hencloser := isEncloser_of_word h
  rw [isEncloser, Bool.or_eq_false_iff] at hencloser
  exact hencloser.2

theorem not_isQuote_of_isNumeral (h : IsNumeral t) : ∀ c ∈ t, Quotation.isQuote c = false := by
  intro c hc
  rcases Numeral.char_of_isNumeral h c hc with hword | rfl | rfl
  · exact not_isQuote_of_word hword
  · rfl
  · rfl

/-! ## One lexeme -/

namespace Lexeme

def isQuotation : Lexeme → Bool
  | .quotation _ => true
  | _ => false

/-- which characters of the lexeme belong to a string -/
def quoted (l : Lexeme) : List Bool := List.replicate l.text.length l.isQuotation

theorem head?_quoted_append (h : l.text ≠ []) (flags : List Bool) : (l.quoted ++ flags).head? = some l.isQuotation := by
  obtain ⟨c, u, hu⟩ := List.exists_cons_of_ne_nil h
  rw [quoted, hu]
  rfl

/-- A string in single quotes does not begin directly behind a quote or a point, and a quote that is neither a transpose
nor part of a string stands there. -/
def Clear (before : Text) : Lexeme → Prop
  | .quotation q => q.head? = some '\'' → ¬EndsLoose before
  | .other c => Quotation.isQuote c = true → c = '\'' ∧ EndsLoose before
  | _ => True

/-- A quote that comes next is a transpose only behind an operand, and looks like one otherwise only behind a quote or a
point. -/
structure Attaches (attached : Bool) (before : Text) : Prop where
  follows : attached = true → followsOperand before.reverse = true
  loose : attached = false → followsOperand before.reverse = true → EndsLoose before

theorem Attaches.start : Attaches false [] where
  follows h := absurd h (by simp)
  loose _ h := absurd h (by simp [followsOperand])

theorem Attaches.follows_iff (h : Attaches false before) : followsOperand before.reverse = true ↔ EndsLoose before :=
  ⟨h.loose rfl, EndsLoose.follows⟩

namespace Begins

theorem last_of_takesTranspose (h : Begins attached c rest l after) (hl : l.takesTranspose = true) :
    ∀ d ∈ l.text.getLast?, followsOperand [d] = true := by
  intro d hd
  cases h with
  | transpose =>
    obtain rfl : '\'' = d := Option.some.inj hd
    rfl
  | reference => exact followsOperand_of_word (Reference.char_of_mem_span (List.mem_of_getLast? hd))
  | numeral hspan => exact followsOperand_of_word (Numeral.last_of_isNumeral (Numeral.isNumeral_of_span hspan) d hd)
  | closer hc =>
    obtain rfl : c = d := Option.some.inj hd
    simp only [isCloser, Bool.or_eq_true, beq_iff_eq, or_assoc] at hc
    rcases hc with rfl | rfl | rfl
    · rfl
    · rfl
    · rfl
  | quotation => exact absurd hl (by simp [takesTranspose])
  | other => exact absurd hl (by simp [takesTranspose])

theorem last_of_not_takesTranspose (h : Begins attached c rest l after) (hl : l.takesTranspose = false) :
    ∀ d ∈ l.text.getLast?, followsOperand [d] = true → d = '\'' ∨ d = '.' := by
  intro d hd hfollows
  cases h with
  | quotation _ hspan =>
    obtain ⟨hquote, body, -, rfl, -⟩ := Quotation.span_eq_some_iff.1 hspan
    obtain rfl : c = d := by
      rw [text, ← List.cons_append, List.getLast?_concat] at hd
      exact Option.some.inj hd
    simp only [Quotation.isQuote, Bool.or_eq_true, beq_iff_eq] at hquote
    rcases hquote with rfl | rfl
    · exact .inl rfl
    · exact absurd hfollows (by decide)
  | other _ hstart hnumeral hcloser _ =>
    obtain rfl : c = d := Option.some.inj hd
    have hword : isWordChar c = false := by
      by_contra hword
      have hname := isNameStart_of_isWordChar (by simpa using hword) (Numeral.not_isDigit_of_span hnumeral)
      exact absurd (hname.symm.trans hstart) (by decide)
    simp only [isCloser, Bool.or_eq_false_iff] at hcloser
    simpa [followsOperand, hword, hcloser, or_comm] using hfollows
  | transpose => exact absurd hl (by simp [takesTranspose])
  | reference => exact absurd hl (by simp [takesTranspose])
  | numeral => exact absurd hl (by simp [takesTranspose])
  | closer => exact absurd hl (by simp [takesTranspose])

/-- Whatever a text begins with, the same is known behind it. -/
theorem attaches (h : Begins attached c rest l after) (hne : l.text ≠ []) (before : Text) :
    Attaches l.takesTranspose (before ++ l.text) := by
  obtain ⟨d, hd⟩ : ∃ d, l.text.getLast? = some d := ⟨_, List.getLast?_eq_some_getLast hne⟩
  have hlast : (before ++ l.text).getLast? = some d := by rw [List.getLast?_append_of_ne_nil before hne, hd]
  constructor
  · intro hl
    rw [followsOperand_reverse hlast]
    exact h.last_of_takesTranspose hl d hd
  · intro hl hfollows
    rw [followsOperand_reverse hlast] at hfollows
    exact ⟨d, hlast, h.last_of_not_takesTranspose hl d hd hfollows⟩

/-- **The first lexeme is clear** when its first character opens a string exactly if the lexeme is one. -/
theorem clear_iff (h : Begins attached c rest l after) (hattaches : Attaches attached before) :
    l.Clear before ↔ (Text.openAfter none before.reverse c).isSome = l.isQuotation := by
  -- what is no quote opens no string
  have hplain : Quotation.isQuote c = false → (Text.openAfter none before.reverse c).isSome = false := by
    intro hc
    rw [Text.openAfter_plain hc]
    rfl
  cases h with
  | transpose hattached hc =>
    have hnone : (Text.openAfter none before.reverse c).isSome = false := by
      rw [← Bool.not_eq_true, Text.isSome_openAfter_iff, hattaches.follows hattached, hc]
      simp
    exact ⟨fun _ => hnone, fun _ => trivial⟩
  | reference hc => exact ⟨fun _ => hplain (not_isQuote_of_word (.inl (isWordChar_of_isNameStart hc))), fun _ => trivial⟩
  | @numeral taken _ hspan =>
    have hmem : c ∈ taken := by
      obtain ⟨htext, hne⟩ := Numeral.span_append hspan
      obtain ⟨d, u, rfl⟩ := List.exists_cons_of_ne_nil hne
      exact (List.cons.inj htext).1 ▸ List.mem_cons_self
    exact ⟨fun _ => hplain (not_isQuote_of_isNumeral (Numeral.isNumeral_of_span hspan) c hmem), fun _ => trivial⟩
  | closer hc =>
    have hquote : Quotation.isQuote c = false := by
      simp only [isCloser, Bool.or_eq_true, beq_iff_eq, or_assoc] at hc
      rcases hc with rfl | rfl | rfl
      · rfl
      · rfl
      · rfl
    exact ⟨fun _ => hplain hquote, fun _ => trivial⟩
  | quotation hattached hspan =>
    obtain ⟨hquote, body, -, rfl, -⟩ := Quotation.span_eq_some_iff.1 hspan
    simp only [Quotation.isQuote, Bool.or_eq_true, beq_iff_eq] at hquote
    rw [isQuotation, Text.isSome_openAfter_iff]
    rcases hquote with rfl | rfl
    · obtain rfl : attached = false := by simpa using hattached
      simp [Clear, ← hattaches.follows_iff]
    · simp [Clear]
  | other hattached hstart hnumeral hcloser hquotation =>
    have hflag : (Lexeme.other c).isQuotation = false := rfl
    by_cases hquote : Quotation.isQuote c = true
    · rw [hflag, ← Bool.not_eq_true, Text.isSome_openAfter_iff]
      simp only [Quotation.isQuote, Bool.or_eq_true, beq_iff_eq] at hquote
      rcases hquote with rfl | rfl
      · obtain rfl : attached = false := by simpa using hattached
        simp [Clear, Quotation.isQuote, ← hattaches.follows_iff]
      · simp [Clear, Quotation.isQuote]
    · exact ⟨fun _ => hplain (by simpa using hquote), fun _ h => absurd h hquote⟩

theorem quotedFrom (h : Begins attached c rest l after)
    (hopens : (Text.openAfter none before.reverse c).isSome = l.isQuotation) :
    Text.quotedFrom none before.reverse (c :: rest) =
      l.quoted ++ Text.quotedFrom none (before ++ l.text).reverse after := by
  -- a lexeme of one character opens no string
  have hsingle : (Text.openAfter none before.reverse c).isSome = false →
      Text.quotedFrom none before.reverse (c :: rest) = [false] ++ Text.quotedFrom none (before ++ [c]).reverse rest := by
    intro hnone
    rw [Option.isSome_eq_false_iff, Option.isNone_iff_eq_none] at hnone
    rw [Text.quotedFrom, hnone, List.reverse_append]
    rfl
  -- nor does one without quotes
  have hplain : (∀ d ∈ l.text, Quotation.isQuote d = false) → l.isQuotation = false → c :: rest = l.text ++ after →
      Text.quotedFrom none before.reverse (c :: rest) =
        l.quoted ++ Text.quotedFrom none (before ++ l.text).reverse after := by
    intro hchars hl htext
    rw [htext, Text.quotedFrom_plain hchars, List.reverse_append, quoted, hl]
  cases h with
  | transpose _ hc => exact hc ▸ hsingle hopens
  | reference =>
    refine hplain (fun d hd => ?_) rfl (Reference.span_append _).symm
    exact not_isQuote_of_word (Reference.char_of_mem_span hd)
  | numeral hspan =>
    refine hplain (not_isQuote_of_isNumeral (Numeral.isNumeral_of_span hspan)) rfl (Numeral.span_append hspan).1.symm
  | closer => exact hsingle hopens
  | quotation _ hspan =>
    obtain ⟨-, body, hbody, rfl, rfl⟩ := Quotation.span_eq_some_iff.1 hspan
    rw [Text.quotedFrom_string (Text.openAfter_eq_of_isSome hopens) hbody]
    simp [quoted, text, isQuotation]
  | other => exact hsingle hopens

end Begins

/-! ## Lexemes in a row -/

theorem forall_split_cons_iff {x : Lexeme} {xs : List Lexeme} {P : List Lexeme → Lexeme → Prop} :
    (∀ ls l ls', x :: xs = ls ++ l :: ls' → P ls l) ↔ P [] x ∧ ∀ ls l ls', xs = ls ++ l :: ls' → P (x :: ls) l := by
  constructor
  · exact fun h => ⟨h [] x xs rfl, fun ls l ls' heq => h (x :: ls) l ls' (by rw [heq, List.cons_append])⟩
  · rintro ⟨hfirst, hlater⟩ ls l ls' heq
    cases ls with
    | nil =>
      obtain ⟨rfl, -⟩ := List.cons.inj heq
      exact hfirst
    | cons y ls =>
      obtain ⟨rfl, htail⟩ := List.cons.inj heq
      exact hlater ls l ls' htail

/-- **The lexemes in a row.** -/
theorem quotedFrom_eq_iff (h : Attaches attached before) :
    Text.quotedFrom none before.reverse t = (ofText attached t).flatMap quoted ↔
      ∀ ls l ls', ofText attached t = ls ++ l :: ls' → l.Clear (before ++ ls.flatMap text) := by
  fun_induction ofText attached t generalizing before with
  | case1 attached => simp [Text.quotedFrom]
  | case2 attached c rest ih =>
    have hbegins := begins_next attached c rest
    have hne := (next_append attached c rest).2
    rw [forall_split_cons_iff, List.flatMap_cons, List.flatMap_nil, List.append_nil, hbegins.clear_iff h]
    by_cases hopens : (Text.openAfter none before.reverse c).isSome = (next attached c rest).1.isQuotation
    · rw [hbegins.quotedFrom hopens, List.append_cancel_left_eq, ih (hbegins.attaches hne before)]
      simp [hopens]
    · -- the first characters differ already
      refine ⟨fun heq => ?_, fun hclear => absurd hclear.1 hopens⟩
      have hfirst := congrArg List.head? heq
      rw [head?_quoted_append hne, Text.quotedFrom] at hfirst
      exact absurd (by simpa using hfirst) hopens

theorem length_flatMap_quoted (ls : List Lexeme) : (ls.flatMap quoted).length = (ls.flatMap text).length := by
  simp [List.length_flatMap, quoted]

end Lexeme

/-! ## Whole texts -/

namespace Text

/-- which characters of the text belong to a string, by its cells -/
def quotedCells (t : Text) : List Bool := (cells t).map Cell.isQuoted

/-- which characters of the text belong to a string, by its lexemes -/
def quotedLexemes (t : Text) : List Bool := (lexemes t).flatMap Lexeme.quoted

/-- Every lexeme is clear where it stands. -/
def ClearQuotes (t : Text) : Prop := ∀ ls l ls', lexemes t = ls ++ l :: ls' → l.Clear (ls.flatMap Lexeme.text)

theorem quotedCells_eq_iff (t : Text) : quotedCells t = quotedLexemes t ↔ ClearQuotes t := by
  have hwhole := Lexeme.quotedFrom_eq_iff (t := t) Lexeme.Attaches.start
  rw [quotedCells, quoted_cells]
  exact hwhole

theorem getElem_mem_part {α : Type} {xs : List α} {i start count : ℕ} (hi : i < xs.length) (hstart : start ≤ i)
    (hcount : i < start + count) : xs[i] ∈ (xs.drop start).take count := by
  apply List.mem_iff_getElem.2
  refine ⟨i - start, by rw [List.length_take, List.length_drop]; omega, ?_⟩
  rw [List.getElem_take, List.getElem_drop]
  congr 1
  omega

/-- Where both agree, the cells of a lexeme are quoted if it is a string. -/
theorem quoted_lexeme (h : quotedCells t = quotedLexemes t) {ls ls' : List Lexeme} (hsplit : lexemes t = ls ++ l :: ls') :
    (((cells t).drop (ls.flatMap Lexeme.text).length).take l.text.length).map Cell.isQuoted = l.quoted := by
  have hlength : l.quoted.length = l.text.length := by simp [Lexeme.quoted]
  rw [List.map_take, List.map_drop, ← quotedCells, h, quotedLexemes, hsplit, List.flatMap_append, List.flatMap_cons,
    ← Lexeme.length_flatMap_quoted, List.drop_left, ← hlength, List.take_left]

end Text

/-- **Lexemes and cells agree on strings** exactly when all quotes are clear: no string in single quotes begins directly
behind a quote or a point, and only there a single quote is left over. A reference then has no quoted character, and a
name that stands by itself and has none is a reference. -/
theorem strings_agree_iff (t : Text) :
    (Text.quotedCells t = Text.quotedLexemes t ↔ Text.ClearQuotes t) ∧
      (Text.ClearQuotes t →
        (∀ ls name ls', Text.lexemes t = ls ++ .reference name :: ls' →
          ∀ cell ∈ ((cells t).drop (ls.flatMap Lexeme.text).length).take name.length, cell.isQuoted = false) ∧
        ∀ before name after, t = before ++ (name ++ after) → Stands before name after →
          (∀ cell ∈ ((cells t).drop before.length).take name.length, cell.isQuoted = false) →
            ∃ ls ls', Text.lexemes t = ls ++ .reference name :: ls' ∧ ls.flatMap Lexeme.text = before) := by
  refine ⟨Text.quotedCells_eq_iff t, fun hclear => ?_⟩
  have hagree := (Text.quotedCells_eq_iff t).2 hclear
  constructor
  · intro ls name ls' hsplit cell hcell
    have hflag : cell.isQuoted ∈ (Lexeme.reference name).quoted := by
      rw [← Text.quoted_lexeme hagree hsplit]
      exact List.mem_map_of_mem hcell
    exact List.eq_of_mem_replicate hflag
  · intro before name after ht hstands hlive
    rcases Lexeme.reference_or_quotation hstands false with hreference | ⟨ls, q, ls', hsplit, hbegins, hbeyond⟩
    · rw [ht]
      exact hreference
    · -- the first character of the name would be quoted
      obtain ⟨y, name', rfl⟩ := hstands.exists_cons
      have hindex : before.length < (cells t).length := by
        rw [length_cells, ht]
        simp
      have hquoted : (cells t)[before.length].isQuoted ∈ (Lexeme.quotation q).quoted := by
        rw [← Text.quoted_lexeme hagree (ht ▸ hsplit)]
        exact List.mem_map_of_mem (Text.getElem_mem_part hindex hbegins.le hbeyond)
      have hplain := hlive _ (Text.getElem_mem_part hindex le_rfl (by simp))
      exact absurd (hplain.symm.trans (List.eq_of_mem_replicate hquoted)) (by simp [Lexeme.isQuotation])

/-- A call with a string and a transpose. -/
theorem strings_agree_call :
    Text.quotedCells "Foo('a b', x') + \"c\"".toList = Text.quotedLexemes "Foo('a b', x') + \"c\"".toList ∧
      ∃ ls ls', Text.lexemes "Foo('a b', x') + \"c\"".toList = ls ++ .reference "x".toList :: ls' ∧
        ls.flatMap Lexeme.text = "Foo('a b', ".toList := by
  have hagree : Text.quotedCells "Foo('a b', x') + \"c\"".toList = Text.quotedLexemes "Foo('a b', x') + \"c\"".toList := by
    decide +kernel
  have hclear := (strings_agree_iff _).1.1 hagree
  have hstands : Stands "Foo('a b', ".toList "x".toList "') + \"c\"".toList := ⟨by decide, by decide, by decide⟩
  exact ⟨hagree, ((strings_agree_iff _).2 hclear).2 _ _ _ rfl hstands (by decide +kernel)⟩

/-- The quote behind the string `'a'` is a transpose to the cells and begins a string to the lexemes, so that the call of
`Foo` is no part of a string to the former and is hidden by the latter, and the reverse holds of `b`. -/
theorem exists_hidden_call :
    Text.quotedCells "'a''+Foo(x)+'b'".toList ≠ Text.quotedLexemes "'a''+Foo(x)+'b'".toList ∧
      ((cells "'a''+Foo(x)+'b'".toList).drop 5).take 6 = Cell.live "Foo(x)".toList ∧
      ((cells "'a''+Foo(x)+'b'".toList).drop 12).map Cell.isQuoted = [true, true, true] ∧
      Text.references "'a''+Foo(x)+'b'".toList = ["b".toList] := by
  decide +kernel

example : Text.references "A.'+Foo(x)+B'".toList = ["A".toList] ∧
    (cells "A.'+Foo(x)+B'".toList).all (fun cell => cell.isLive) = true := by
  decide +kernel

example : Text.references "'Foo(x)".toList = ["Foo".toList, "x".toList] ∧
    (cells "'Foo(x)".toList).all Cell.isQuoted = true := by
  decide +kernel

end MissionScript
