/-
Declarations as they are written.

- `Lists`: how tokens list names with their dimensions.
- `readNames_eq_ok_iff`: the names read from tokens are the ones these list.
- `Writes`: what a text declares as written, and `classify_of_writes`, `exists_writes`: a text is classified as a
  declaration by what it writes, and as nothing else.
- `classify_rendering`: however a declaration with sound dimensions is rendered, it is classified as itself.
- `dimensions_kept_iff`: the dimensions of an accepted declaration are the written ones exactly when all of these are below
  the bound, and what is refused for its dimensions.
- `exists_lost_dimension`: a written dimension that is lost.
-/
import MissionScript.Proofs.Outcome
import MissionScript.Proofs.Statement.Token
import MissionScript.Statement.Basic

namespace MissionScript

namespace Declaration

variable {t T : Text} {ts rest : List Token} {w : WrittenName} {ws : List WrittenName} {p : Progress}

/-! ## Lists of names -/

/-- the tokens of a list of dimensions up to its last dimension -/
def opened : List Text → List Token
  | [] => []
  | d :: ds => .mark '[' :: .digits d :: ds.flatMap fun d => [.mark ',', .digits d]

/-- the tokens of a name, with its dimensions in one pair of brackets if it has any -/
def WrittenName.spelling (w : WrittenName) : List Token :=
  .word w.name :: if w.dimensions.isEmpty then [] else opened w.dimensions ++ [.mark ']']

/-- The tokens list the names, with or without commas between them and with or without a semicolon at the end. -/
inductive Lists : List WrittenName → List Token → Prop where
  | last (w : WrittenName) : Lists [w] w.spelling
  | ended (w : WrittenName) : Lists [w] (w.spelling ++ [.mark ';'])
  | next {ws : List WrittenName} {ts : List Token} (w : WrittenName) : Lists ws ts → Lists (w :: ws) (w.spelling ++ ts)
  | comma {ws : List WrittenName} {ts : List Token} (w : WrittenName) : Lists ws ts →
      Lists (w :: ws) (w.spelling ++ .mark ',' :: ts)

theorem Lists.ne_nil (h : Lists ws ts) : ws ≠ [] := by
  cases h <;> exact List.cons_ne_nil _ _

theorem Lists.exists_word (h : Lists ws ts) : ∃ n rest, ts = .word n :: rest := by
  cases h <;> exact ⟨_, _, rfl⟩

def separator (ds : List Text) : Token := .mark (if ds.isEmpty then '[' else ',')

theorem opened_concat (ds : List Text) (d : Text) : opened (ds ++ [d]) = opened ds ++ [separator ds, .digits d] := by
  cases ds with
  | nil => rfl
  | cons e ds => simp [opened, separator]

/-! ## Reading -/

def behind (w : WrittenName) : Progress :=
  if w.dimensions.isEmpty then .named w.name else .dimensioned w.name w.dimensions

theorem readNames_opened (n : Text) {ds : List Text} (hds : ds ≠ []) (rest : List Token) :
    readNames (.named n) (opened ds ++ rest) = readNames (.measured n ds) rest := by
  induction ds using List.reverseRecOn generalizing rest with
  | nil => exact absurd rfl hds
  | append_singleton ds d ih =>
    rw [opened_concat, List.append_assoc, List.cons_append, List.singleton_append]
    cases ds with
    | nil => rfl
    | cons e ds =>
      rw [ih (List.cons_ne_nil e ds)]
      rfl

theorem readNames_spelling (w : WrittenName) (rest : List Token) :
    readNames .name (w.spelling ++ rest) = readNames (behind w) rest := by
  obtain ⟨n, ds⟩ := w
  by_cases hds : ds = []
  · subst hds
    rfl
  · have hempty : ds.isEmpty = false := by simpa using hds
    simp only [WrittenName.spelling, behind, hempty, Bool.false_eq_true, if_false]
    rw [List.cons_append, readNames, List.append_assoc, readNames_opened n hds]
    rfl

theorem readNames_of_lists (h : Lists ws ts) : readNames .name ts = .ok ws := by
  -- what stands behind a whole name is read alike with dimensions and without
  have hbehind : ∀ w : WrittenName, behind w = .named w.name ∧ w = ⟨w.name, []⟩ ∨
      behind w = .dimensioned w.name w.dimensions := by
    rintro ⟨n, ds⟩
    cases ds with
    | nil => exact .inl ⟨rfl, rfl⟩
    | cons d ds => exact .inr rfl
  induction h with
  | last w =>
    rw [← List.append_nil w.spelling, readNames_spelling]
    obtain ⟨hb, hw⟩ | hb := hbehind w
    · rw [hb, readNames, ← hw]
    · rw [hb, readNames]
  | ended w =>
    rw [readNames_spelling]
    obtain ⟨hb, hw⟩ | hb := hbehind w
    · rw [hb, readNames, readNames, ← hw]
      rfl
    · rw [hb, readNames, readNames]
      rfl
  | next w hlists ih =>
    obtain ⟨n, rest, rfl⟩ := hlists.exists_word
    rw [readNames] at ih
    rw [readNames_spelling]
    obtain ⟨hb, hw⟩ | hb := hbehind w
    · rw [hb, readNames, ih, ← hw]
      rfl
    · rw [hb, readNames, ih]
      rfl
  | comma w hlists ih =>
    rw [readNames_spelling]
    obtain ⟨hb, hw⟩ | hb := hbehind w
    · rw [hb, readNames, ih, ← hw]
      rfl
    · rw [hb, readNames, ih]
      rfl

/-- the tokens that have been read of the name at hand -/
def Progress.tokens : Progress → List Token
  | .name => []
  | .named n => [.word n]
  | .dimension n ds => .word n :: (opened ds ++ [separator ds])
  | .measured n ds => .word n :: opened ds
  | .dimensioned n ds => WrittenName.spelling ⟨n, ds⟩
  | .ended => []

/-- Behind a dimension there is one. -/
def Progress.Proper : Progress → Prop
  | .measured _ ds | .dimensioned _ ds => ds ≠ []
  | .name | .named _ | .dimension _ _ | .ended => True

/-- what the tokens to come list together with those of the name at hand; nothing, behind the semicolon -/
def Progress.Completes (ws : List WrittenName) (ts : List Token) : Progress → Prop
  | .ended => ws = [] ∧ ts = []
  | p => Lists ws (p.tokens ++ ts)

theorem completes_of_readNames (h : readNames p ts = .ok ws) (hp : p.Proper) : p.Completes ws ts := by
  -- a case takes over one token; what was read before it stands in front of the names of the rest
  fun_induction readNames p ts generalizing ws with
  | case1 n rest ih => exact ih h trivial
  | case3 n =>
    obtain rfl := Except.ok.inj h
    exact .last ⟨n, []⟩
  | case4 n m rest ih =>
    obtain ⟨ws', hws', rfl⟩ := map_eq_ok_iff.1 h
    exact .next ⟨n, []⟩ (ih hws' trivial)
  | case5 n rest ih =>
    obtain ⟨ws', hws', rfl⟩ := map_eq_ok_iff.1 h
    exact .comma ⟨n, []⟩ (ih hws' trivial)
  | case6 n rest ih =>
    obtain ⟨ws', hws', rfl⟩ := map_eq_ok_iff.1 h
    obtain ⟨rfl, rfl⟩ := ih hws' trivial
    exact .ended ⟨n, []⟩
  | case7 n rest ih => exact ih h trivial
  | case9 n ds d rest ih =>
    have hlists : Lists ws (.word n :: opened (ds ++ [d]) ++ rest) := ih h (by simp [Progress.Proper])
    rw [opened_concat] at hlists
    simpa [Progress.Completes, Progress.tokens] using hlists
  | case11 n ds rest ih =>
    have hlists : Lists ws (.word n :: (opened ds ++ [separator ds]) ++ rest) := ih h trivial
    have hcomma : separator ds = .mark ',' := by simp [separator, show ds ≠ [] from hp]
    rw [hcomma] at hlists
    simpa [Progress.Completes, Progress.tokens] using hlists
  | case12 n ds rest ih =>
    have hlists : Lists ws (WrittenName.spelling ⟨n, ds⟩ ++ rest) := ih h hp
    simpa [Progress.Completes, Progress.tokens, WrittenName.spelling, show ds ≠ [] from hp] using hlists
  | case14 n ds =>
    obtain rfl := Except.ok.inj h
    simpa [Progress.Completes, Progress.tokens] using Lists.last ⟨n, ds⟩
  | case15 n ds m rest ih =>
    obtain ⟨ws', hws', rfl⟩ := map_eq_ok_iff.1 h
    exact .next ⟨n, ds⟩ (ih hws' trivial)
  | case16 n ds rest ih =>
    obtain ⟨ws', hws', rfl⟩ := map_eq_ok_iff.1 h
    exact .comma ⟨n, ds⟩ (ih hws' trivial)
  | case17 n ds rest ih =>
    obtain ⟨ws', hws', rfl⟩ := map_eq_ok_iff.1 h
    obtain ⟨rfl, rfl⟩ := ih hws' trivial
    exact .ended ⟨n, ds⟩
  | case19 => exact ⟨(Except.ok.inj h).symm, rfl⟩
  | case2 | case8 | case10 | case13 | case18 | case20 => exact absurd h (by simp)

/-- The names read from tokens are the ones these list. -/
theorem readNames_eq_ok_iff : readNames .name ts = .ok ws ↔ Lists ws ts :=
  ⟨fun h => completes_of_readNames h trivial, readNames_of_lists⟩

/-! ## Texts -/

/-- the text, without the blanks at its ends, is `Create`, the type and the names -/
def Writes (T : Text) (ws : List WrittenName) (t : Text) : Prop :=
  ∃ ts, Lists ws ts ∧ Spells (.word Statement.declarationKeyword :: .word T :: ts) (Text.trim t)

theorem read_eq_ok_iff {d : Declaration} : read t = .ok d ↔
    ∃ ws ts, tokens t = .word d.typeName :: ts ∧ Lists ws ts ∧ d.names = ws.map WrittenName.declared := by
  obtain ⟨T, names⟩ := d
  unfold read
  split
  · next typeName rest htokens =>
    rw [map_eq_ok_iff]
    constructor
    · rintro ⟨ws, hws, hd⟩
      obtain ⟨rfl, rfl⟩ := Declaration.mk.inj hd
      exact ⟨ws, rest, htokens, readNames_eq_ok_iff.1 hws, rfl⟩
    · rintro ⟨ws, ts, heq, hlists, hnames⟩
      obtain ⟨hword, rfl⟩ := List.cons.inj (htokens.symm.trans heq)
      obtain rfl := Token.word.inj hword
      exact ⟨ws, readNames_eq_ok_iff.2 hlists, by rw [← hnames]⟩
  · next hother =>
    constructor
    · intro h
      exact absurd h (by simp)
    · rintro ⟨ws, ts, htokens, -⟩
      exact absurd htokens (hother _ _)

/-- A name that is read is a token, and so is each of its dimensions. -/
theorem Lists.mem_digits (h : Lists ws ts) (hw : w ∈ ws) {l : Text} (hl : l ∈ w.dimensions) : .digits l ∈ ts := by
  have hspelling : .digits l ∈ w.spelling := by
    have hne : w.dimensions ≠ [] := List.ne_nil_of_mem hl
    obtain ⟨n, ds⟩ := w
    cases ds with
    | nil => exact absurd rfl hne
    | cons d ds =>
      rcases List.mem_cons.1 hl with rfl | hl
      · simp [WrittenName.spelling, opened]
      · simp [WrittenName.spelling, opened, show l ∈ ds from hl]
  induction h with
  | last _ =>
    obtain rfl := List.mem_singleton.1 hw
    exact hspelling
  | ended _ =>
    obtain rfl := List.mem_singleton.1 hw
    exact List.mem_append_left _ hspelling
  | next _ _ ih =>
    rcases List.mem_cons.1 hw with rfl | hw
    · exact List.mem_append_left _ hspelling
    · exact List.mem_append_right _ (ih hw)
  | comma _ _ ih =>
    rcases List.mem_cons.1 hw with rfl | hw
    · exact List.mem_append_left _ hspelling
    · exact List.mem_append_right _ (List.mem_cons_of_mem _ (ih hw))

theorem Lists.mark (h : Lists ws ts) {c : Char} (hc : .mark c ∈ ts) : c ∈ ['[', ',', ']', ';'] := by
  have hspelling : ∀ w : WrittenName, .mark c ∈ w.spelling → c ∈ ['[', ',', ']', ';'] := by
    rintro ⟨n, ds⟩ hmem
    cases ds with
    | nil => exact absurd hmem (by simp [WrittenName.spelling])
    | cons d ds =>
      have hmarks : c = '[' ∨ (∃ x, x ∈ ds) ∧ c = ',' ∨ c = ']' := by
        simpa [WrittenName.spelling, opened] using hmem
      rcases hmarks with rfl | ⟨-, rfl⟩ | rfl <;> decide
  induction h with
  | last w => exact hspelling w hc
  | ended w =>
    rcases List.mem_append.1 hc with hc | hc
    · exact hspelling w hc
    · obtain rfl := Token.mark.inj (List.mem_singleton.1 hc)
      decide
  | next w _ ih =>
    rcases List.mem_append.1 hc with hc | hc
    · exact hspelling w hc
    · exact ih hc
  | comma w _ ih =>
    rcases List.mem_append.1 hc with hc | hc
    · exact hspelling w hc
    · rcases List.mem_cons.1 hc with hc | hc
      · obtain rfl := Token.mark.inj hc
        decide
      · exact ih hc

theorem Writes.of_spells (hlists : Lists ws ts)
    (h : Spells (.word Statement.declarationKeyword :: .word T :: ts) t) : Writes T ws t := by
  refine ⟨ts, hlists, h.trim fun token htoken => ?_⟩
  have hform := h.wellFormed token htoken
  cases token with
  | word w => exact fun c hc => not_isBlank_of_isWordChar (hform.isWordChar c hc)
  | digits d => exact fun c hc => not_isBlank_of_isWordChar (isWordChar_of_isDigit (hform.2 c hc))
  | mark m =>
    intro c hc
    obtain rfl : c = m := List.mem_singleton.1 hc
    have hmark : c ∈ ['[', ',', ']', ';'] := by
      refine hlists.mark ?_
      simpa using htoken
    simp only [List.mem_cons, List.not_mem_nil, or_false] at hmark
    rcases hmark with rfl | rfl | rfl | rfl <;> decide

/-- A text writes one type and one list of names at most. -/
theorem Writes.unique {T' : Text} {ws' : List WrittenName} (h : Writes T ws t) (h' : Writes T' ws' t) :
    T = T' ∧ ws = ws' := by
  obtain ⟨ts, hlists, hspells⟩ := h
  obtain ⟨ts', hlists', hspells'⟩ := h'
  have htokens := hspells.tokens_eq.symm.trans hspells'.tokens_eq
  simp only [List.cons.injEq, Token.word.injEq, true_and] at htokens
  obtain ⟨rfl, rfl⟩ := htokens
  exact ⟨rfl, Except.ok.inj ((readNames_of_lists hlists).symm.trans (readNames_of_lists hlists'))⟩

end Declaration

/-! ## Classification -/

namespace Statement

open Declaration

variable {t T rest : Text} {ts : List Token} {ws : List WrittenName} {d : Declaration}

theorem isIndexable_iff : isIndexable T = true ↔ T = "Array".toList := beq_iff_eq

theorem dimensionFlaw_eq_none_iff :
    dimensionFlaw d = none ↔ ∀ n ∈ d.names, (n.dimensions ≠ [] ↔ d.typeName = "Array".toList) := by
  unfold dimensionFlaw
  rw [List.findSome?_eq_none_iff, ← isIndexable_iff]
  refine forall₂_congr fun n _ => ?_
  cases isIndexable d.typeName with
  | true => simp
  | false => simp

/-- A text that begins with `Create` and another word is taken for a declaration. -/
theorem classifyTrimmed_of_spells (h : Spells (.word declarationKeyword :: .word T :: ts) t)
    (hhead : ∀ c ∈ t.head?, isBlank c = false) :
    ∃ rest, tokens rest = .word T :: ts ∧ classifyTrimmed t = declare t rest := by
  obtain ⟨b, rest, hb, -, hstop, hrest, rfl⟩ := h.exists_of_cons
  have hnil : b = [] := by
    cases b with
    | nil => rfl
    | cons c b => exact absurd ((hhead c rfl).symm.trans (hb.blank c List.mem_cons_self)) (by decide)
  subst hnil
  have hends : endsWord rest = true := by
    obtain ⟨b', rest', hb', hform', -, -, rfl⟩ := hrest.exists_of_cons
    cases b' with
    | nil =>
      -- the type would go on with the keyword
      obtain ⟨c, w, hw⟩ := List.exists_cons_of_ne_nil hform'.ne_nil
      obtain rfl : T = c :: w := hw
      exact absurd ((hform'.isWordChar c List.mem_cons_self).symm.trans (hstop c rfl)) (by decide)
    | cons c b' => rcases hb' c List.mem_cons_self with rfl | rfl <;> rfl
  refine ⟨rest, hrest.tokens_eq, ?_⟩
  obtain ⟨htake, hdrop⟩ := Posture.takeWhile_append_of_stop (p := isWordChar) hstop declarationKeyword
  have hkeyword : declarationKeyword.takeWhile isWordChar = declarationKeyword ∧
      declarationKeyword.dropWhile isWordChar = [] := by decide
  rw [hkeyword.1] at htake
  rw [hkeyword.2, List.nil_append] at hdrop
  rw [List.nil_append, Token.text, classifyTrimmed, htake, hdrop, if_pos ⟨rfl, hends⟩]

/-- A declaration as written is refused for its dimensions or accepted. -/
theorem classify_of_writes (h : Writes T ws t) :
    classify t = match dimensionFlaw ⟨T, ws.map WrittenName.declared⟩ with
      | some flaw => .error (.invalidStatement (Text.trim t) flaw)
      | none => .ok (.declaration ⟨T, ws.map WrittenName.declared⟩) := by
  obtain ⟨ts, hlists, hspells⟩ := h
  obtain ⟨rest, htokens, hclassify⟩ := classifyTrimmed_of_spells hspells fun c hc => Text.head_trim hc
  have hread : read rest = .ok ⟨T, ws.map WrittenName.declared⟩ := read_eq_ok_iff.2 ⟨ws, ts, htokens, hlists, rfl⟩
  rw [classify, hclassify, declare]
  cases hflaw : dimensionFlaw ⟨T, ws.map WrittenName.declared⟩ with
  | none => simp only [hread, hflaw]
  | some flaw => simp only [hread, hflaw]

theorem not_declaration_of_assign {whole left right : Text} : assign whole left right ≠ .ok (.declaration d) := by
  intro h
  unfold assign at h
  simp only at h
  split_ifs at h
  split at h <;> simp at h

/-- Whatever is classified as a declaration is written as one. -/
theorem exists_writes (h : classify t = .ok (.declaration d)) :
    ∃ ws, Writes d.typeName ws t ∧ d.names = ws.map WrittenName.declared := by
  unfold classify classifyTrimmed at h
  simp only at h
  split_ifs at h with hcreate hassign hcommand
  · obtain ⟨hword, -⟩ := hcreate
    have hread : read ((Text.trim t).dropWhile isWordChar) = .ok d := by
      unfold declare at h
      split at h
      · exact absurd h (by simp)
      · next d' hd' =>
        split at h
        · exact absurd h (by simp)
        · obtain rfl := Statement.declaration.inj (Except.ok.inj h)
          exact hd'
    obtain ⟨ws, ts, htokens, hlists, hnames⟩ := read_eq_ok_iff.1 hread
    refine ⟨ws, ⟨ts, hlists, ?_⟩, hnames⟩
    have hstop : (Token.word declarationKeyword).Stops ((Text.trim t).dropWhile isWordChar) := by
      intro c hc
      have hhead := List.head?_dropWhile_not isWordChar (Text.trim t)
      rw [hc] at hhead
      simpa using hhead
    have hform : (Token.word declarationKeyword).WellFormed := show IsIdentifier declarationKeyword by decide
    have hspells := Spells.cons Gap.nil hform hstop (tokens_eq_iff.1 htokens)
    rwa [List.nil_append, Token.text, ← hword, List.takeWhile_append_dropWhile, hword] at hspells
  · split at h
    · exact absurd h not_declaration_of_assign
    · exact absurd h (by simp)
  · exact absurd h (by simp)
  · split at h
    · exact absurd h not_declaration_of_assign
    · split at h
      · exact absurd h (by simp)
      · exact absurd h (by simp)

/-! ## Dimensions -/

/-- the name as declared has the dimensions that the name as written has -/
structure Keeps (w : WrittenName) (n : DeclaredName) : Prop where
  name : n.name = w.name
  dimensions : List.Forall₂ Denotes w.dimensions n.dimensions

/-- the name as declared has those of the dimensions that are below the bound -/
structure KeepsBelow (bound : Nat) (w : WrittenName) (n : DeclaredName) : Prop where
  name : n.name = w.name
  dimensions : ∃ values, List.Forall₂ Denotes w.dimensions values ∧ n.dimensions = values.filter fun v => v < bound

theorem decimalValue_of_denotes {ds : List Text} {values : List Nat} (h : List.Forall₂ Denotes ds values) :
    ds.map decimalValue = values := by
  induction h with
  | nil => rfl
  | cons hd hds ih => rw [List.map_cons, hd.decimalValue_eq, ih]

theorem declared_of_keeps {w : WrittenName} {n : DeclaredName} (h : Keeps w n) (hn : ∀ v ∈ n.dimensions, v < 2 ^ 64) :
    w.declared = n := by
  obtain ⟨name, dimensions⟩ := n
  obtain ⟨rfl, hdimensions⟩ := h
  have hbelow : ∀ v ∈ dimensions, decide (v < dimensionBound) = true := fun v hv => decide_eq_true (hn v hv)
  rw [WrittenName.declared, decimalValue_of_denotes hdimensions, List.filter_eq_self.2 hbelow]

theorem forall₂_map_declared {R : WrittenName → DeclaredName → Prop} :
    List.Forall₂ R ws (ws.map WrittenName.declared) ↔ ∀ w ∈ ws, R w w.declared := by
  rw [List.forall₂_map_right_iff, List.forall₂_same]

theorem denotes_of_writes (h : Writes T ws t) {w : WrittenName} (hw : w ∈ ws) :
    List.Forall₂ Denotes w.dimensions (w.dimensions.map decimalValue) := by
  obtain ⟨ts, hlists, hspells⟩ := h
  rw [List.forall₂_map_right_iff, List.forall₂_same]
  intro l hl
  have htoken : Token.digits l ∈ .word declarationKeyword :: .word T :: ts :=
    List.mem_cons_of_mem _ (List.mem_cons_of_mem _ (hlists.mem_digits hw hl))
  exact denotes_iff.2 ⟨hspells.wellFormed _ htoken, rfl⟩

theorem declared_dimensions_ne_nil_iff (w : WrittenName) :
    w.declared.dimensions ≠ [] ↔ ∃ l ∈ w.dimensions, decimalValue l < 2 ^ 64 := by
  have hbound : dimensionBound = 2 ^ 64 := rfl
  simp [WrittenName.declared, hbound]

/-- The written dimensions are kept when all of them are below the bound. -/
theorem keeps_declared_iff {w : WrittenName} (h : List.Forall₂ Denotes w.dimensions (w.dimensions.map decimalValue)) :
    Keeps w w.declared ↔ ∀ l ∈ w.dimensions, decimalValue l < 2 ^ 64 := by
  have hall : (w.dimensions.map decimalValue).filter (fun v => v < dimensionBound) = w.dimensions.map decimalValue ↔
      ∀ l ∈ w.dimensions, decimalValue l < 2 ^ 64 := by
    rw [List.filter_eq_self, List.forall_mem_map]
    exact forall₂_congr fun l _ => decide_eq_true_iff
  rw [← hall]
  constructor
  · rintro ⟨-, hkept⟩
    exact (decimalValue_of_denotes hkept).symm
  · intro hself
    refine ⟨rfl, ?_⟩
    rw [WrittenName.declared, hself]
    exact h

/-- However a declaration is rendered, with every dimension below the bound and dimensions for arrays and only for these, it
is classified as itself. -/
theorem classify_rendering {names : List DeclaredName} (hnames : List.Forall₂ Keeps ws names)
    (hbound : ∀ n ∈ names, ∀ v ∈ n.dimensions, v < 2 ^ 64)
    (hindexable : ∀ n ∈ names, (n.dimensions ≠ [] ↔ T = "Array".toList)) (hlists : Lists ws ts)
    (h : Spells (.word declarationKeyword :: .word T :: ts) t) : classify t = .ok (.declaration ⟨T, names⟩) := by
  have hdeclared : ws.map WrittenName.declared = names := by
    clear hlists hindexable
    induction hnames with
    | nil => rfl
    | cons hkeeps _ ih =>
      rw [List.map_cons, declared_of_keeps hkeeps (hbound _ List.mem_cons_self),
        ih fun n hn => hbound n (List.mem_cons_of_mem _ hn)]
  have hflaw : dimensionFlaw ⟨T, names⟩ = none := dimensionFlaw_eq_none_iff.2 hindexable
  rw [classify_of_writes (.of_spells hlists h), hdeclared, hflaw]

theorem classify_rendering_arrays :
    classify "Create Array A[3, 007]B [2]".toList = .ok (.declaration
      ⟨"Array".toList, [⟨"A".toList, [3, 7]⟩, ⟨"B".toList, [2]⟩]⟩) := by
  let written : List WrittenName := [⟨"A".toList, ["3".toList, "007".toList]⟩, ⟨"B".toList, ["2".toList]⟩]
  have hdenotes : Denotes "3".toList 3 ∧ Denotes "007".toList 7 ∧ Denotes "2".toList 2 :=
    ⟨⟨0, by decide⟩, ⟨2, by decide⟩, ⟨0, by decide⟩⟩
  obtain ⟨h3, h7, h2⟩ := hdenotes
  have hlists : Lists written (tokens " A[3, 007]B [2]".toList) := by
    have htokens : tokens " A[3, 007]B [2]".toList = WrittenName.spelling ⟨"A".toList, ["3".toList, "007".toList]⟩ ++
        WrittenName.spelling ⟨"B".toList, ["2".toList]⟩ := by
      decide +kernel
    rw [htokens]
    exact .next _ (.last _)
  have hkeeps : List.Forall₂ Keeps written [⟨"A".toList, [3, 7]⟩, ⟨"B".toList, [2]⟩] :=
    .cons ⟨rfl, .cons h3 (.cons h7 .nil)⟩ (.cons ⟨rfl, .cons h2 .nil⟩ .nil)
  refine classify_rendering hkeeps (by decide) (by decide) hlists ?_
  refine tokens_eq_iff.1 ?_
  decide +kernel

/-- Whatever is accepted as a declaration is written as one. A declaration as written is accepted when its arrays, and they
only, have a dimension below the bound, and then its dimensions are the written ones below the bound. So they are kept, with
brackets only behind arrays, exactly when all of them are below the bound. -/
theorem dimensions_kept_iff (t : Text) :
    (∀ d, classify t = .ok (.declaration d) → ∃ ws, Writes d.typeName ws t) ∧
    ∀ T ws, Writes T ws t →
      ((∀ w ∈ ws, ((∃ l ∈ w.dimensions, decimalValue l < 2 ^ 64) ↔ T = "Array".toList)) →
        ∃ names, classify t = .ok (.declaration ⟨T, names⟩) ∧ List.Forall₂ (KeepsBelow (2 ^ 64)) ws names ∧
          ((List.Forall₂ Keeps ws names ∧ ∀ w ∈ ws, w.dimensions ≠ [] → T = "Array".toList) ↔
            ∀ w ∈ ws, ∀ l ∈ w.dimensions, decimalValue l < 2 ^ 64)) ∧
      ((¬∀ w ∈ ws, ((∃ l ∈ w.dimensions, decimalValue l < 2 ^ 64) ↔ T = "Array".toList)) →
        ∃ flaw, classify t = .error (.invalidStatement (Text.trim t) flaw)) := by
  refine ⟨fun d h => ?_, fun T ws h => ?_⟩
  · obtain ⟨ws, hwrites, -⟩ := exists_writes h
    exact ⟨ws, hwrites⟩
  have hflaw : dimensionFlaw ⟨T, ws.map WrittenName.declared⟩ = none ↔
      ∀ w ∈ ws, ((∃ l ∈ w.dimensions, decimalValue l < 2 ^ 64) ↔ T = "Array".toList) := by
    rw [dimensionFlaw_eq_none_iff, List.forall_mem_map]
    exact forall₂_congr fun w _ => by rw [declared_dimensions_ne_nil_iff]
  have hclassify := classify_of_writes h
  constructor
  · intro hindexable
    rw [hflaw.2 hindexable] at hclassify
    refine ⟨_, hclassify, ?_, ?_⟩
    · exact forall₂_map_declared.2 fun w hw => ⟨rfl, _, denotes_of_writes h hw, rfl⟩
    · rw [forall₂_map_declared]
      constructor
      · rintro ⟨hkeeps, -⟩ w hw
        exact (keeps_declared_iff (denotes_of_writes h hw)).1 (hkeeps w hw)
      · intro hbelow
        refine ⟨fun w hw => (keeps_declared_iff (denotes_of_writes h hw)).2 (hbelow w hw), fun w hw hne => ?_⟩
        obtain ⟨l, hl⟩ := List.exists_mem_of_ne_nil _ hne
        exact (hindexable w hw).1 ⟨l, hl, hbelow w hw l hl⟩
  · intro hrefused
    obtain ⟨flaw, hsome⟩ := Option.ne_none_iff_exists'.1 fun hnone => hrefused (hflaw.1 hnone)
    rw [hsome] at hclassify
    exact ⟨flaw, hclassify⟩

theorem dimensions_kept_matrix :
    ∃ names, classify "Create Array A[3, 7]".toList = .ok (.declaration ⟨"Array".toList, names⟩) ∧
      List.Forall₂ Keeps [⟨"A".toList, ["3".toList, "7".toList]⟩] names := by
  let written : List WrittenName := [⟨"A".toList, ["3".toList, "7".toList]⟩]
  have hwrites : Writes "Array".toList written "Create Array A[3, 7]".toList := by
    refine ⟨WrittenName.spelling ⟨"A".toList, ["3".toList, "7".toList]⟩, .last _, tokens_eq_iff.1 ?_⟩
    decide +kernel
  obtain ⟨haccepted, -⟩ := (dimensions_kept_iff "Create Array A[3, 7]".toList).2 "Array".toList written hwrites
  obtain ⟨names, hclassify, -, hkept⟩ := haccepted (by decide)
  exact ⟨names, hclassify, (hkept.2 (by decide)).1⟩

/-- A dimension that is too large is lost, and with it the brackets that the type forbids. -/
theorem exists_lost_dimension : ¬∀ t d ws, classify t = .ok (.declaration d) → Writes d.typeName ws t →
    List.Forall₂ Keeps ws d.names ∧ ∀ w ∈ ws, w.dimensions ≠ [] → d.typeName = "Array".toList := by
  intro hall
  let written : List WrittenName := [⟨"a".toList, ["18446744073709551616".toList]⟩]
  have hclassify : classify "Create Foo a[18446744073709551616]".toList =
      .ok (.declaration ⟨"Foo".toList, [⟨"a".toList, []⟩]⟩) := by
    decide +kernel
  have hwrites : Writes "Foo".toList written "Create Foo a[18446744073709551616]".toList := by
    refine ⟨WrittenName.spelling ⟨"a".toList, ["18446744073709551616".toList]⟩, .last _, tokens_eq_iff.1 ?_⟩
    decide +kernel
  obtain ⟨-, hbrackets⟩ := hall _ _ written hclassify hwrites
  exact absurd (hbrackets _ List.mem_cons_self (by decide)) (by decide)

end Statement

end MissionScript
