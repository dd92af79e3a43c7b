/-
How operands are read.

An operand is a reference, a numeral, a quoted string or a bracket literal. `Operand.reads` reads one in front of
anything that may follow, and says that nothing in it can be taken for an operator, a comma or a parenthesis.
`inert_of_isOperand` is the converse for texts: what counts as an operand holds nothing of the kind, apart from the sign
of a numeral.
-/
import MissionScript.Expression.Decomposition
import MissionScript.Proofs.Cell.Reading
import MissionScript.Proofs.Function.Names
import MissionScript.Proofs.Lexeme.Numeral
import MissionScript.Proofs.Lexeme.Quotation

namespace MissionScript

open Posture

/-- an identifier, or identifiers joined by points -/
inductive IsReference : Text → Prop where
  | name {name : Text} : IsIdentifier name → IsReference name
  | property {object name : Text} : IsReference object → IsIdentifier name → IsReference (object ++ '.' :: name)

/-- a text between two quotes that it does not hold -/
def IsQuotation (t : Text) : Prop :=
  ∃ quote body, Quotation.isQuote quote = true ∧ quote ∉ body ∧ t = quote :: (body ++ [quote])

/-- a text between two brackets, without quotes and further brackets -/
def IsBracketed (t : Text) : Prop :=
  ∃ opener body closer, (opener, closer) ∈ [('[', ']'), ('{', '}')] ∧ (∀ c ∈ body, isEncloser c = false) ∧
    t = opener :: (body ++ [closer])

/-- the operands an expression is made of -/
inductive Operand : Text → Prop where
  | reference {t : Text} : IsReference t → Operand t
  | numeral {t : Text} : IsNumeral t → Operand t
  | quotation {t : Text} : IsQuotation t → Operand t
  | bracketed {t : Text} : IsBracketed t → Operand t

namespace Cell

/-- a character that is neither operator nor comma nor parenthesis, or is hidden -/
def Inert (cell : Cell) : Prop :=
  (cell.isLive = true → isWordChar cell.char = true ∨ cell.char = '.') ∧ ∀ n, cell.role ≠ .inverse n

/-- the cells of a text that is live throughout -/
def live (t : Text) : List Cell := t.map fun c => ⟨c, .live⟩

theorem text_live (t : Text) : text (live t) = t := by
  rw [text, live, List.map_map]
  exact List.map_id t

theorem Inert.not_holds {cell : Cell} (h : cell.Inert) {c : Char} (hword : isWordChar c = false) (hdot : c ≠ '.') :
    cell.holds c = false := by
  by_contra hholds
  obtain ⟨hlive, rfl⟩ : cell.isLive = true ∧ cell.char = c := by simpa [holds] using hholds
  rcases h.1 hlive with h | h
  · rw [h] at hword
    exact absurd hword (by decide)
  · exact hdot h

theorem Inert.not_paren {cell : Cell} (h : cell.Inert) : cell.holds '(' = false ∧ cell.holds ')' = false :=
  ⟨h.not_holds (by decide) (by decide), h.not_holds (by decide) (by decide)⟩

theorem inert_live {t : Text} (h : ∀ c ∈ t, isWordChar c = true ∨ c = '.') : ∀ cell ∈ live t, cell.Inert := by
  intro cell hcell
  obtain ⟨c, hc, rfl⟩ := List.mem_map.1 hcell
  exact ⟨fun _ => h c hc, fun n => by simp⟩

theorem inert_hidden {t : Text} {role : Role} (hlive : role ≠ .live) (hinverse : ∀ n, role ≠ .inverse n) :
    ∀ cell ∈ t.map fun c => (⟨c, role⟩ : Cell), cell.Inert := by
  intro cell hcell
  obtain ⟨c, -, rfl⟩ := List.mem_map.1 hcell
  refine ⟨fun h => absurd (by simpa [isLive] using h) hlive, hinverse⟩

end Cell

theorem isEncloser_of_word {c : Char} (h : isWordChar c = true ∨ c = '.') : isEncloser c = false := by
  have key : ∀ d : Char, isWordChar d = false → d ≠ '.' → c ≠ d := by
    rintro d hword hdot rfl
    rcases h with h | h
    · exact absurd (h.symm.trans hword) (by decide)
    · exact hdot h
  simp [isEncloser, Quotation.isQuote, key '[' (by decide) (by decide), key ']' (by decide) (by decide),
    key '{' (by decide) (by decide), key '}' (by decide) (by decide), key '\'' (by decide) (by decide),
    key '"' (by decide) (by decide)]

theorem not_caret_of_word {c : Char} (h : isWordChar c = true ∨ c = '.') : c ≠ '^' := by
  rintro rfl
  exact absurd h (by decide)

/-! ## References -/

namespace Posture

variable {u : Text} {c : Char}

/-- true when the characters read end in a name, perhaps with digits and points behind its last letter -/
def inName (u : Text) : Bool := startsName (u.dropWhile fun c => c.isDigit || c == '.')

theorem endsNumeral_of_inName (h : inName u = true) : endsNumeral u = false := by
  unfold inName at h
  simp [endsNumeral, h]

theorem isNameStart_of_isWordChar (h : isWordChar c = true) (hdigit : c.isDigit = false) : isNameStart c = true := by
  simp only [isWordChar, isNameStart, Char.isAlphanum, Bool.or_eq_true] at h ⊢
  rcases h with (h | h) | h
  · exact .inl h
  · rw [hdigit] at h
    exact absurd h (by decide)
  · exact .inr h

theorem inName_cons (h : inName u = true) (hc : isWordChar c = true ∨ c = '.') : inName (c :: u) = true := by
  unfold inName at h ⊢
  rw [List.dropWhile_cons]
  split_ifs with hpart
  · exact h
  · simp only [Bool.or_eq_true, beq_iff_eq, not_or, Bool.not_eq_true] at hpart
    exact isNameStart_of_isWordChar (hc.resolve_right hpart.2) hpart.1

theorem not_isDigit_of_isNameStart (h : isNameStart c = true) : (c.isDigit || c == '.') = false := by
  have hdigit : c.isDigit = false := by
    by_contra hdigit
    have hbound : c.val.toNat ≤ 57 := (Char.isDigit_iff_toNat.1 (by simpa using hdigit)).2
    rcases isNameStart_iff.1 h with hrange | hrange | rfl
    · omega
    · omega
    · exact absurd hdigit (by decide)
  have hdot : c ≠ '.' := by
    rintro rfl
    exact absurd h (by decide)
  simp [hdigit, hdot]

theorem cellsFrom_inName {t : Text} (h : ∀ c ∈ t, isWordChar c = true ∨ c = '.') (u rest : Text)
    (hu : inName u = true) :
    cellsFrom ⟨.code, 0, u⟩ (t ++ rest) = Cell.live t ++ cellsFrom ⟨.code, 0, t.reverse ++ u⟩ rest := by
  induction t generalizing u with
  | nil => rfl
  | cons c t ih =>
    have hc := h c List.mem_cons_self
    rw [List.cons_append, cellsFrom_live (isEncloser_of_word hc) (fun hcaret => absurd hcaret (not_caret_of_word hc))
      (fun _ => .inl (endsNumeral_of_inName hu)),
      ih (fun d hd => h d (List.mem_cons_of_mem _ hd)) _ (inName_cons hu hc)]
    simp [Cell.live]

end Posture

/-- A name with its points is live throughout, whatever stands behind it. -/
theorem Reads.name {t : Text} (hstart : startsName t = true) (h : ∀ c ∈ t, isWordChar c = true ∨ c = '.') :
    Reads t (Cell.live t) := by
  intro rest
  cases t with
  | nil => simp [startsName] at hstart
  | cons c t =>
    have hc : isWordChar c = true := isWordChar_of_isNameStart hstart
    have hname : inName [c] = true := by
      rw [inName, List.dropWhile_cons, not_isDigit_of_isNameStart hstart]
      exact hstart
    rw [cells, Posture.start, List.cons_append, cellsFrom_live (isEncloser_of_word (.inl hc))
      (fun hcaret => absurd hcaret (not_caret_of_word (.inl hc))) (fun _ => .inl rfl),
      cellsFrom_inName (fun d hd => h d (List.mem_cons_of_mem _ hd)) _ _ hname]
    simp [Cell.live]

theorem IsReference.startsName {t : Text} (h : IsReference t) : startsName t = true := by
  induction h with
  | name hname => exact hname.startsName
  | @property object _ _ _ ih =>
    cases object with
    | nil => simp [MissionScript.startsName] at ih
    | cons c object => exact ih

theorem IsReference.char {t : Text} (h : IsReference t) : ∀ c ∈ t, isWordChar c = true ∨ c = '.' := by
  induction h with
  | name hname => exact fun c hc => .inl (hname.isWordChar c hc)
  | property _ hname ih =>
    intro c hc
    rcases List.mem_append.1 hc with hc | hc
    · exact ih c hc
    · rcases List.mem_cons.1 hc with rfl | hc
      · exact .inr rfl
      · exact .inl (hname.isWordChar c hc)

/-! ## Numerals -/

theorem cellsFrom_digits {t : Text} (h : ∀ c ∈ t, c.isDigit = true ∨ c = '.') (u rest : Text) :
    cellsFrom ⟨.code, 0, u⟩ (t ++ rest) = Cell.live t ++ cellsFrom ⟨.code, 0, t.reverse ++ u⟩ rest := by
  induction t generalizing u with
  | nil => rfl
  | cons c t ih =>
    have hc := h c List.mem_cons_self
    have hword : isWordChar c = true ∨ c = '.' := hc.imp_left isWordChar_of_isDigit
    have hletter : ¬(c = 'e' ∨ c = 'E') := by
      rintro (rfl | rfl) <;> exact absurd hc (by decide)
    rw [List.cons_append,
      cellsFrom_live (isEncloser_of_word hword) (fun hcaret => absurd hcaret (not_caret_of_word hword))
      (fun hexp => absurd hexp hletter), ih fun d hd => h d (List.mem_cons_of_mem _ hd)]
    simp [Cell.live]

theorem endsNumeral_of_isMantissa {m : Text} (h : IsMantissa m) : endsNumeral m.reverse = true := by
  have hall : ∀ c ∈ m.reverse, (c.isDigit || c == '.') = true := by
    intro c hc
    simpa using Numeral.mantissa_char h c (List.mem_reverse.1 hc)
  obtain ⟨c, hc, hdigit⟩ := Numeral.exists_digit_of_isMantissa h
  have htake : m.reverse.takeWhile (fun c => c.isDigit || c == '.') = m.reverse := List.takeWhile_eq_self_iff.2 hall
  have hdrop : m.reverse.dropWhile (fun c => c.isDigit || c == '.') = [] := List.dropWhile_eq_nil_iff.2 hall
  simp only [endsNumeral, htake, hdrop, startsName, Bool.not_false, Bool.and_true, List.any_eq_true]
  exact ⟨c, List.mem_reverse.2 hc, hdigit⟩

theorem exponentLetter_plain {e : Char} (he : e = 'e' ∨ e = 'E') :
    isEncloser e = false ∧ e ≠ '^' ∧ Cell.Inert ⟨e, .live⟩ := by
  rcases he with rfl | rfl
  · exact ⟨by decide, by decide, fun _ => .inl (by decide), fun _ => by simp⟩
  · exact ⟨by decide, by decide, fun _ => .inl (by decide), fun _ => by simp⟩

theorem signsDigit_digits {ds : Text} (hne : ds ≠ []) (h : IsDigits ds) (rest : Text) :
    signsDigit (ds ++ rest) = false := by
  obtain ⟨d, ds, rfl⟩ := List.exists_cons_of_ne_nil hne
  have hd : d ≠ '+' ∧ d ≠ '-' := by
    constructor <;> rintro rfl <;> exact absurd (h _ List.mem_cons_self) (by decide)
  rw [List.cons_append]
  cases ds ++ rest with
  | nil => rfl
  | cons next after => simp [signsDigit, hd]

theorem signsDigit_sign {sign : Char} {ds : Text} (hsign : sign = '+' ∨ sign = '-') (hne : ds ≠ []) (h : IsDigits ds)
    (rest : Text) : signsDigit (sign :: ds ++ rest) = true := by
  obtain ⟨d, ds, rfl⟩ := List.exists_cons_of_ne_nil hne
  rcases hsign with rfl | rfl <;> simp [signsDigit, h d List.mem_cons_self]

/-- A numeral is live throughout, but for the sign of its exponent. -/
theorem Reads.numeral {t : Text} (h : IsNumeral t) : ∃ cs, Reads t cs ∧ ∀ cell ∈ cs, cell.Inert := by
  obtain ⟨m, x, hm, hx, rfl⟩ := h
  have hmantissa := Numeral.mantissa_char hm
  have hinert : ∀ {t : Text}, (∀ c ∈ t, c.isDigit = true ∨ c = '.') → ∀ cell ∈ Cell.live t, cell.Inert := by
    intro t ht
    exact Cell.inert_live fun c hc => (ht c hc).imp_left isWordChar_of_isDigit
  cases hx with
  | none =>
    refine ⟨Cell.live m, ?_, hinert hmantissa⟩
    intro rest
    rw [List.append_nil, cells, Posture.start, cellsFrom_digits hmantissa, List.append_nil]
  | @unsigned e digits he hne hdigits =>
    have hdigits' : ∀ c ∈ digits, c.isDigit = true ∨ c = '.' := fun c hc => .inl (hdigits c hc)
    obtain ⟨hencloser, hcaret, hcell⟩ := exponentLetter_plain he
    refine ⟨Cell.live m ++ ⟨e, .live⟩ :: Cell.live digits, ?_, ?_⟩
    · intro rest
      rw [cells, Posture.start, List.append_assoc, cellsFrom_digits hmantissa, List.cons_append,
        cellsFrom_live hencloser (fun h => absurd h hcaret) (fun _ => .inr (signsDigit_digits hne hdigits rest)),
        cellsFrom_digits hdigits']
      simp
    · exact List.forall_mem_append.2 ⟨hinert hmantissa, List.forall_mem_cons.2 ⟨hcell, hinert hdigits'⟩⟩
  | @signed e sign digits he hsign hne hdigits =>
    have hdigits' : ∀ c ∈ digits, c.isDigit = true ∨ c = '.' := fun c hc => .inl (hdigits c hc)
    obtain ⟨-, -, hcell⟩ := exponentLetter_plain he
    refine ⟨Cell.live m ++ ⟨e, .live⟩ :: ⟨sign, .exponentSign⟩ :: Cell.live digits, ?_, ?_⟩
    · intro rest
      -- the sign is the only character that is not live
      have hexponent : advance ⟨.code, 0, m.reverse ++ []⟩ e (sign :: digits ++ rest) =
          (.live, ⟨.exponent, 0, e :: (m.reverse ++ [])⟩) := by
        rw [List.append_nil, advance, endsNumeral_of_isMantissa hm, signsDigit_sign hsign hne hdigits]
        rcases he with rfl | rfl <;> rfl
      rw [cells, Posture.start, List.append_assoc, cellsFrom_digits hmantissa, List.cons_append, cellsFrom, hexponent,
        List.cons_append, cellsFrom, advance, cellsFrom_digits hdigits']
      simp
    · have hsignCell : Cell.Inert ⟨sign, .exponentSign⟩ := ⟨fun h => absurd h (by simp [Cell.isLive]), fun n => by simp⟩
      exact List.forall_mem_append.2
        ⟨hinert hmantissa, List.forall_mem_cons.2 ⟨hcell, List.forall_mem_cons.2 ⟨hsignCell, hinert hdigits'⟩⟩⟩

/-! ## Strings and bracket literals -/

theorem cellsFrom_string {quote : Char} {body : Text} (h : quote ∉ body) (u rest : Text) :
    cellsFrom ⟨.string quote, 0, u⟩ (body ++ quote :: rest) =
      (body ++ [quote]).map (fun c => ⟨c, .quoted⟩) ++ cellsFrom ⟨.code, 0, quote :: (body.reverse ++ u)⟩ rest := by
  induction body generalizing u with
  | nil => simp [cellsFrom, advance]
  | cons c body ih =>
    obtain ⟨hne, hbody⟩ : quote ≠ c ∧ quote ∉ body := by simpa using h
    have hstep : advance ⟨.string quote, 0, u⟩ c (body ++ quote :: rest) = (.quoted, ⟨.string quote, 0, c :: u⟩) := by
      have hc : (c == quote) = false := beq_eq_false_iff_ne.2 hne.symm
      simp only [advance, hc, Bool.false_eq_true, if_false]
    rw [List.cons_append, cellsFrom, hstep, ih hbody]
    simp

theorem Reads.quotation {quote : Char} {body : Text} (hquote : Quotation.isQuote quote = true) (h : quote ∉ body) :
    Reads (quote :: (body ++ [quote])) ((quote :: (body ++ [quote])).map fun c => ⟨c, .quoted⟩) := by
  intro rest
  have hopen : advance .start quote (body ++ quote :: rest) = (.quoted, ⟨.string quote, 0, [quote]⟩) := by
    have hor : (quote == '"' || (quote == '\'' && !followsOperand [])) = true := by
      simp only [Quotation.isQuote, Bool.or_eq_true, beq_iff_eq] at hquote ⊢
      rcases hquote with rfl | rfl <;> decide
    simp only [advance, start, hor, if_true]
  rw [show quote :: (body ++ [quote]) ++ rest = quote :: (body ++ quote :: rest) by simp, cells, cellsFrom, hopen,
    cellsFrom_string h]
  simp

theorem cellsFrom_bracket {opener closer : Char} (hpair : (opener, closer) ∈ [('[', ']'), ('{', '}')]) {body : Text}
    (h : ∀ c ∈ body, isEncloser c = false) (u rest : Text) :
    cellsFrom ⟨.code, 1, u⟩ (body ++ closer :: rest) =
      body.map (fun c => ⟨c, .bracket 1⟩) ++ ⟨closer, .bracket 0⟩ ::
        cellsFrom ⟨.code, 0, closer :: (body.reverse ++ u)⟩ rest := by
  induction body generalizing u with
  | nil =>
    have hclose : closer = ']' ∨ closer = '}' := by
      simp only [List.mem_cons, Prod.mk.injEq, List.not_mem_nil, or_false] at hpair
      exact hpair.imp And.right And.right
    rcases hclose with rfl | rfl <;> simp [cellsFrom, advance]
  | cons c body ih =>
    have hc := h c List.mem_cons_self
    simp only [isEncloser, Quotation.isQuote, Bool.or_eq_false_iff] at hc
    obtain ⟨⟨⟨⟨h₁, h₂⟩, h₃⟩, h₄⟩, h₅, h₆⟩ := hc
    have hstep : advance ⟨.code, 1, u⟩ c (body ++ closer :: rest) = (.bracket 1, ⟨.code, 1, c :: u⟩) := by
      simp [advance, h₁, h₂, h₃, h₄, h₅, h₆]
    rw [List.cons_append, cellsFrom, hstep, ih fun d hd => h d (List.mem_cons_of_mem _ hd)]
    simp

theorem Reads.bracketed {opener closer : Char} (hpair : (opener, closer) ∈ [('[', ']'), ('{', '}')]) {body : Text}
    (h : ∀ c ∈ body, isEncloser c = false) :
    Reads (opener :: (body ++ [closer]))
      ((opener :: body).map (fun c => ⟨c, .bracket 1⟩) ++ [⟨closer, .bracket 0⟩]) := by
  intro rest
  have hopen : advance .start opener (body ++ closer :: rest) = (.bracket 1, ⟨.code, 1, [opener]⟩) := by
    simp only [List.mem_cons, Prod.mk.injEq, List.not_mem_nil, or_false] at hpair
    rcases hpair with ⟨rfl, rfl⟩ | ⟨rfl, rfl⟩ <;> rfl
  rw [show opener :: (body ++ [closer]) ++ rest = opener :: (body ++ closer :: rest) by simp, cells, cellsFrom, hopen,
    cellsFrom_bracket hpair h]
  simp

/-! ## Operands in general -/

/-- **Operands are opaque.** An operand is read in one way whatever follows it, and nothing in it is an operator, a
comma, a parenthesis or an inverse marker. -/
theorem Operand.reads {t : Text} (h : Operand t) : ∃ cs, Reads t cs ∧ ∀ cell ∈ cs, cell.Inert := by
  cases h with
  | reference h => exact ⟨_, .name h.startsName h.char, Cell.inert_live h.char⟩
  | numeral h => exact Reads.numeral h
  | quotation h =>
    obtain ⟨quote, body, hquote, hbody, rfl⟩ := h
    exact ⟨_, .quotation hquote hbody, Cell.inert_hidden (by decide) fun n => by simp⟩
  | bracketed h =>
    obtain ⟨opener, body, closer, hpair, hbody, rfl⟩ := h
    refine ⟨_, .bracketed hpair hbody, ?_⟩
    intro cell hcell
    rcases List.mem_append.1 hcell with hcell | hcell
    · exact Cell.inert_hidden (by decide) (fun n => by simp) cell hcell
    · obtain rfl := List.mem_singleton.1 hcell
      exact ⟨fun h => absurd h (by simp [Cell.isLive]), fun n => by simp⟩

/-! ## The ends of an operand -/

/-- a character that an operand may begin or end with -/
def isEdge (c : Char) : Bool := isWordChar c || c == '.' || isEncloser c

theorem not_isBlank_of_isWordChar {c : Char} (h : isWordChar c = true) : isBlank c = false := by
  have hword : 48 ≤ c.val.toNat ∧ c.val.toNat ≤ 122 := by
    rcases Bool.eq_false_or_eq_true c.isDigit with hdigit | hdigit
    · have hbounds := Char.isDigit_iff_toNat.1 hdigit
      exact ⟨hbounds.1, hbounds.2.trans (by decide)⟩
    · rcases isNameStart_iff.1 (isNameStart_of_isWordChar h hdigit) with hrange | hrange | rfl
      · omega
      · omega
      · decide
  by_contra hblank
  simp only [isBlank, Bool.not_eq_false, Bool.or_eq_true, Bool.and_eq_true, decide_eq_true_eq, beq_iff_eq, Char.le_def,
    UInt32.le_iff_toNat_le, or_assoc] at hblank
  have hr : '\r'.val.toNat = 13 := rfl
  have hquad : '\u2000'.val.toNat = 8192 := rfl
  rcases hblank with h | rfl | rfl | rfl | rfl | h | rfl | rfl | rfl | rfl | rfl
  · omega
  · exact absurd hword (by decide)
  · exact absurd hword (by decide)
  · exact absurd hword (by decide)
  · exact absurd hword (by decide)
  · omega
  · exact absurd hword (by decide)
  · exact absurd hword (by decide)
  · exact absurd hword (by decide)
  · exact absurd hword (by decide)
  · exact absurd hword (by decide)

theorem ne_of_isEdge {c d : Char} (h : isEdge c = true) (hd : isEdge d = false) : c ≠ d := by
  rintro rfl
  exact absurd (h.symm.trans hd) (by decide)

theorem not_isBlank_of_isEdge {c : Char} (h : isEdge c = true) : isBlank c = false := by
  simp only [isEdge, isEncloser, Quotation.isQuote, Bool.or_eq_true, beq_iff_eq, or_assoc] at h
  rcases h with h | rfl | rfl | rfl | rfl | rfl | rfl | rfl
  · exact not_isBlank_of_isWordChar h
  all_goals decide

/-- the text begins and ends with a character that an operand may begin or end with -/
def Edged (t : Text) : Prop := (∃ c, t.head? = some c ∧ isEdge c = true) ∧ ∃ c, t.getLast? = some c ∧ isEdge c = true

theorem Edged.of_chars {t : Text} (hne : t ≠ []) (h : ∀ c ∈ t, isWordChar c = true ∨ c = '.') : Edged t := by
  have hedge : ∀ c ∈ t, isEdge c = true := by
    intro c hc
    rcases h c hc with h | rfl
    · simp [isEdge, h]
    · decide
  exact ⟨⟨t.head hne, List.head?_eq_some_head hne, hedge _ (List.head_mem hne)⟩,
    ⟨t.getLast hne, List.getLast?_eq_some_getLast hne, hedge _ (List.getLast_mem hne)⟩⟩

theorem Edged.between {t u : Text} (ht : Edged t) (hu : Edged u) (middle : Text) : Edged (t ++ (middle ++ u)) := by
  obtain ⟨⟨c, hhead, hc⟩, -⟩ := ht
  obtain ⟨-, d, hlast, hd⟩ := hu
  refine ⟨⟨c, ?_, hc⟩, d, ?_, hd⟩
  · rw [List.head?_append, hhead]
    rfl
  · rw [← List.append_assoc, List.getLast?_append, hlast]
    rfl

theorem Edged.enclosed {opener closer : Char} (ho : isEdge opener = true) (hc : isEdge closer = true) (body : Text) :
    Edged (opener :: (body ++ [closer])) :=
  ⟨⟨opener, rfl, ho⟩, closer, by rw [← List.cons_append]; exact List.getLast?_concat, hc⟩

theorem Edged.numeral {t : Text} (h : IsNumeral t) : Edged t := by
  obtain ⟨m, x, hm, hx, rfl⟩ := h
  have hne : m ≠ [] := by
    rintro rfl
    obtain ⟨c, hc, -⟩ := Numeral.exists_digit_of_isMantissa hm
    simp at hc
  have hmantissa : Edged m := .of_chars hne fun c hc => (Numeral.mantissa_char hm c hc).imp_left isWordChar_of_isDigit
  have hdigits : ∀ {ds : Text}, ds ≠ [] → IsDigits ds → Edged ds := by
    intro ds hds h
    exact .of_chars hds fun c hc => .inl (isWordChar_of_isDigit (h c hc))
  cases hx with
  | none => simpa using hmantissa
  | @unsigned e digits _ hds h => exact hmantissa.between (hdigits hds h) [e]
  | @signed e sign digits _ _ hds h => exact hmantissa.between (hdigits hds h) [e, sign]

theorem Operand.edges {t : Text} (h : Operand t) : Edged t := by
  cases h with
  | reference h =>
    refine .of_chars ?_ h.char
    rintro rfl
    exact absurd h.startsName (by decide)
  | numeral h => exact .numeral h
  | quotation h =>
    obtain ⟨quote, body, hquote, -, rfl⟩ := h
    have hedge : isEdge quote = true := by simp [isEdge, isEncloser, hquote]
    exact .enclosed hedge hedge body
  | bracketed h =>
    obtain ⟨opener, body, closer, hpair, -, rfl⟩ := h
    have hall : ∀ pair ∈ [('[', ']'), ('{', '}')], isEdge pair.1 = true ∧ isEdge pair.2 = true := by decide
    exact .enclosed (hall _ hpair).1 (hall _ hpair).2 body

theorem Operand.trim_eq {t : Text} (h : Operand t) : Text.trim t = t := by
  obtain ⟨⟨c, hhead, hc⟩, d, hlast, hd⟩ := h.edges
  refine Text.trim_eq_self ?_ ?_
  · intro x hx
    obtain rfl : c = x := Option.some.inj (hhead.symm.trans hx)
    exact not_isBlank_of_isEdge hc
  · intro x hx
    obtain rfl : d = x := Option.some.inj (hlast.symm.trans hx)
    exact not_isBlank_of_isEdge hd

/-! ## What counts as an operand -/

theorem Text.isQuoted_iff {t : Text} (ht : trim t = t) : isQuoted t = true ↔ IsQuotation t := by
  unfold isQuoted
  rw [ht]
  constructor
  · intro h
    cases hspan : Quotation.span t with
    | none => simp [hspan] at h
    | some found =>
      obtain ⟨string, rest⟩ := found
      obtain rfl : rest = [] := by simpa [hspan] using h
      obtain rfl : string = t := by simpa using (Quotation.span_append hspan).1
      cases string with
      | nil => simp [Quotation.span] at hspan
      | cons quote rest =>
        obtain ⟨hquote, body, hbody, htext, -⟩ := Quotation.span_eq_some_iff.1 hspan
        exact ⟨quote, body, hquote, hbody, htext⟩
  · rintro ⟨quote, body, hquote, hbody, rfl⟩
    have hspan : Quotation.span (quote :: (body ++ [quote])) = some (quote :: (body ++ [quote]), []) :=
      Quotation.span_of_closed hquote hbody
    simp [hspan]

theorem isOperand_of_isNumeral {t : Text} (h : IsNumeral t) : isOperand t = true := by
  simp [isOperand, (Text.isNumeral_iff (Operand.numeral h).trim_eq).2 (.inl h)]

/-- Of the operands only references are not recognised as they stand. -/
theorem Operand.isReference_or_isOperand {t : Text} (h : Operand t) : IsReference t ∨ isOperand t = true := by
  cases h with
  | reference h => exact .inl h
  | numeral h => exact .inr (isOperand_of_isNumeral h)
  | quotation h =>
    right
    simp [isOperand, (Text.isQuoted_iff (Operand.quotation h).trim_eq).2 h]
  | bracketed h =>
    right
    obtain ⟨opener, body, closer, hpair, hbody, rfl⟩ := h
    have hclose : Cell.closesBracketAtEnd (body.map (fun c => ⟨c, .bracket 1⟩) ++ [⟨closer, .bracket 0⟩]) = true := by
      induction body with
      | nil => rfl
      | cons c body ih => exact ih fun d hd => hbody d (List.mem_cons_of_mem _ hd)
    have hliteral : Cell.isBracketLiteral (cells (opener :: (body ++ [closer]))) = true := by
      rw [(Reads.bracketed hpair hbody).cells_eq]
      exact hclose
    simp [isOperand, hliteral]

/-- the reading of a bracket literal, strings in it included -/
def isInside : Posture → Prop
  | ⟨.code, depth, _⟩ | ⟨.string _, depth, _⟩ => 0 < depth
  | _ => False

/-- Inside a bracket literal every character is hidden, and the literal goes on unless it closes. -/
theorem advance_isInside {p : Posture} (h : isInside p) (c : Char) (rest : Text) :
    Cell.Inert ⟨c, (p.advance c rest).1⟩ ∧ ((p.advance c rest).1 = .bracket 0 ∨ isInside (p.advance c rest).2) := by
  obtain ⟨context, depth, u⟩ := p
  cases context with
  | code =>
    obtain ⟨depth, rfl⟩ : ∃ d, depth = d + 1 := ⟨depth - 1, (Nat.sub_add_cancel h).symm⟩
    unfold advance
    simp only
    split_ifs
    · exact ⟨⟨fun h => absurd h (by simp [Cell.isLive]), fun n => by simp⟩, .inr h⟩
    · exact ⟨⟨fun h => absurd h (by simp [Cell.isLive]), fun n => by simp⟩, .inr (Nat.succ_pos _)⟩
    · refine ⟨⟨fun h => absurd h (by simp [Cell.isLive]), fun n => by simp⟩, ?_⟩
      cases depth with
      | zero => exact .inl rfl
      | succ depth => exact .inr (Nat.succ_pos _)
    · exact ⟨⟨fun h => absurd h (by simp [Cell.isLive]), fun n => by simp⟩, .inr h⟩
  | string quote =>
    refine ⟨⟨fun h => absurd h (by simp [Cell.isLive, advance]), fun n => by simp [advance]⟩, .inr ?_⟩
    simp only [advance]
    split_ifs
    · exact h
    · exact h
  | marker rest => exact absurd h (by simp [isInside])
  | exponent => exact absurd h (by simp [isInside])

theorem inert_of_closesBracketAtEnd {t : Text} {p : Posture} (hp : isInside p)
    (h : Cell.closesBracketAtEnd (cellsFrom p t) = true) : ∀ cell ∈ cellsFrom p t, cell.Inert := by
  induction t generalizing p with
  | nil => simp [cellsFrom]
  | cons c t ih =>
    obtain ⟨hinert, hnext⟩ := advance_isInside hp c t
    rw [cellsFrom, Cell.closesBracketAtEnd] at h
    intro cell hcell
    rcases List.mem_cons.1 hcell with rfl | hcell
    · exact hinert
    · by_cases hrole : (p.advance c t).1 = .bracket 0
      · have hnil : cellsFrom (p.advance c t).2 t = [] := by simpa [hrole] using h
        rw [hnil] at hcell
        simp at hcell
      · rw [if_neg (by simpa using hrole)] at h
        exact ih (hnext.resolve_left hrole) h cell hcell

/-- **What counts as an operand is opaque.** A text that counts as one holds no operator, comma, parenthesis or inverse
marker, but for the sign of a numeral. -/
theorem inert_of_isOperand {t : Text} (ht : Text.trim t = t) (h : isOperand t = true) :
    (∀ cell ∈ cells t, cell.Inert) ∨
      ∃ sign cs, (sign = '+' ∨ sign = '-') ∧ cells t = ⟨sign, .live⟩ :: cs ∧ ∀ cell ∈ cs, cell.Inert := by
  have hread : ∀ {u : Text}, Operand u → ∀ cell ∈ cells u, cell.Inert := by
    intro u hu
    obtain ⟨cs, hreads, hinert⟩ := hu.reads
    rw [hreads.cells_eq]
    exact hinert
  simp only [isOperand, Bool.or_eq_true, List.isEmpty_iff] at h
  rcases h with ((rfl | hnumeral) | hquoted) | hliteral
  · exact .inl (by simp [cells, cellsFrom])
  · rcases (Text.isNumeral_iff ht).1 hnumeral with h | ⟨sign, n, hsign, h, rfl⟩
    · exact .inl (hread (.numeral h))
    · obtain ⟨cs, hreads, hinert⟩ := Reads.numeral h
      have hmem : sign ∈ separators := by rcases hsign with rfl | rfl <;> decide
      have hcaret : sign ≠ '^' := by rcases hsign with rfl | rfl <;> decide
      exact .inr ⟨sign, cs, hsign, (Reads.nil.join hreads hmem fun h => absurd h hcaret).cells_eq, hinert⟩
  · exact .inl (hread (.quotation ((Text.isQuoted_iff ht).1 hquoted)))
  · left
    cases t with
    | nil => simp [cells, cellsFrom]
    | cons c t =>
      -- only an opening bracket begins a literal
      obtain ⟨d, hrole⟩ : ∃ d, (Posture.start.advance c t).1 = .bracket d := by
        rw [cells, cellsFrom] at hliteral
        cases hrole : (Posture.start.advance c t).1 with
        | bracket d => exact ⟨d, rfl⟩
        | _ => simp [hrole, Cell.isBracketLiteral] at hliteral
      have hopen : Posture.start.advance c t = (.bracket 1, ⟨.code, 1, [c]⟩) := by
        revert hrole
        unfold advance start
        simp only
        split_ifs <;> simp
      rw [cells, cellsFrom, hopen] at hliteral ⊢
      intro cell hcell
      rcases List.mem_cons.1 hcell with rfl | hcell
      · exact ⟨fun h => absurd h (by simp [Cell.isLive]), fun n => by simp⟩
      · exact inert_of_closesBracketAtEnd (p := ⟨.code, 1, [c]⟩) Nat.one_pos hliteral cell hcell

end MissionScript
