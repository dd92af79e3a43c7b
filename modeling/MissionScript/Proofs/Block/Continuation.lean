/-
Lines that go on in the next one.

Line numbers are labels: nothing that is read depends on them (`Reader.advance_renumber`), so that the lines of a script
can be counted in another way (`Reader.readFrom_renumber`). A run of lines that go on into each other is read like one
line.

- `CodeLine.isSome_unfinished?_append`: whether a line goes on is decided by its own code, whatever it continues.
- `Reader.isSome_pending_readThrough`: a line is pending behind other lines exactly when the last one of them goes on.
- `Reader.readThrough_run`: the blocks of a run are those of the line that it is joined to.
- `readBlocks_joined`: a script with a run of lines is read like the script with the one line in their place, but that
  the lines behind are counted on.
-/
import MissionScript.Proofs.Block.Code
import MissionScript.Proofs.Outcome
import MissionScript.Proofs.Text.Line

namespace MissionScript

open Cell CodeLine

variable {script script' : Text} {before opened after lines : List Text} {last raw code : Text}

/-! ## Line numbers -/

def Block.renumber (f : Nat → Nat) (b : Block) : Block := { b with line := f b.line }

def ScriptError.renumber (f : Nat → Nat) (e : ScriptError) : ScriptError := { e with line := f e.line }

def renumber (f : Nat → Nat) (blocks : Except ScriptError (List Block)) : Except ScriptError (List Block) :=
  (blocks.mapError (ScriptError.renumber f)).map (List.map (Block.renumber f))

def CodeLine.renumber (f : Nat → Nat) (l : CodeLine) : CodeLine := { l with line := f l.line }

namespace CodeLine

variable {l : CodeLine}

theorem blocksOf_renumber (f : Nat → Nat) (line : Nat) (comment preface : Text) (ts : List Text) :
    blocksOf (f line) comment preface ts = MissionScript.renumber f (blocksOf line comment preface ts) := by
  induction ts generalizing preface with
  | nil => rfl
  | cons t ts ih =>
    rw [blocksOf, blocksOf, ih]
    cases Statement.classify t with
    | error e => rfl
    | ok s => cases blocksOf line comment [] ts <;> rfl

theorem blocks_renumber (f : Nat → Nat) (l : CodeLine) (preface : Text) :
    (l.renumber f).blocks preface = MissionScript.renumber f (l.blocks preface) := blocksOf_renumber f _ _ _ _

theorem unfinished?_renumber (f : Nat → Nat) (l : CodeLine) :
    (l.renumber f).unfinished? = l.unfinished?.map (CodeLine.renumber f) := by
  unfold unfinished? CodeLine.renumber
  split_ifs <;> rfl

end CodeLine

namespace Reader

variable {r r' : Reader} {blocks : List Block}

def renumber (f : Nat → Nat) (r : Reader) : Reader :=
  ⟨r.preface.map fun p => { p with line := f p.line }, r.pending.map (CodeLine.renumber f)⟩

/-- what comes of a line, with other line numbers -/
def renumberStep (f : Nat → Nat) (step : Except ScriptError (Reader × List Block)) :
    Except ScriptError (Reader × List Block) :=
  (step.mapError (ScriptError.renumber f)).map (Prod.map (renumber f) (List.map (Block.renumber f)))

theorem prefaceText_renumber (f : Nat → Nat) (r : Reader) : (r.renumber f).prefaceText = r.prefaceText := by
  obtain ⟨preface, pending⟩ := r
  cases preface <;> rfl

theorem addBlank_renumber (f : Nat → Nat) (r : Reader) (line : Nat) (comment : Option Text) :
    (r.renumber f).addBlank (f line) comment = (r.addBlank line comment).renumber f := by
  obtain ⟨preface, pending⟩ := r
  cases preface <;> cases comment <;> rfl

theorem gather_renumber (f : Nat → Nat) (r : Reader) (line : Nat) (code : Text) (comment : Option Text) :
    (r.renumber f).gather (f line) code comment = (r.gather line code comment).map (CodeLine.renumber f) := by
  obtain ⟨preface, pending⟩ := r
  cases pending with
  | some l => rfl
  | none =>
    simp only [gather, renumber, Option.map_none]
    split_ifs <;> rfl

/-- **Line numbers are labels.** A line is taken in in the same way, whatever number it has. -/
theorem advance_renumber (f : Nat → Nat) (r : Reader) (line : Nat) (raw : Text) :
    (r.renumber f).advance (f line) raw = renumberStep f (r.advance line raw) := by
  simp only [advance, gather_renumber]
  cases r.gather line (splitComment raw).1 (splitComment raw).2 with
  | none => rw [Option.map_none, addBlank_renumber]; rfl
  | some l =>
    simp only [Option.map_some, unfinished?_renumber]
    cases l.unfinished? with
    | some l => rfl
    | none =>
      simp only [Option.map_none, blocks_renumber, prefaceText_renumber]
      cases l.blocks r.prefaceText <;> rfl

theorem finish_renumber (f : Nat → Nat) (r : Reader) :
    (r.renumber f).finish = MissionScript.renumber f r.finish := by
  have hpreface := prefaceText_renumber f r
  obtain ⟨preface, pending⟩ := r
  cases pending with
  | some l =>
    simp only [finish, renumber, Option.map_some, ← blocks_renumber]
    rw [← hpreface]
    rfl
  | none => cases preface <;> rfl

/-! ## Line by line -/

/-- what is carried on behind some lines, the first of which has the given number, and the blocks that are complete -/
def readThrough (r : Reader) (line : Nat) : List Text → Except ScriptError (Reader × List Block)
  | [] => .ok (r, [])
  | raw :: rest => do
    let (r, blocks) ← r.advance line raw
    let (r, later) ← r.readThrough (line + 1) rest
    return (r, blocks ++ later)

/-- The lines behind others are read with what these carry on. -/
theorem readFrom_append (r : Reader) (line : Nat) (xs ys : List Text) :
    r.readFrom line (xs ++ ys) = do
      let (r, blocks) ← r.readThrough line xs
      let later ← r.readFrom (line + xs.length) ys
      return blocks ++ later := by
  induction xs generalizing r line with
  | nil => exact (bind_pure (r.readFrom line ys)).symm
  | cons raw xs ih =>
    have hline : line + (raw :: xs).length = line + 1 + xs.length := by rw [List.length_cons]; omega
    rw [List.cons_append, readFrom, readThrough, hline]
    simp only [ih, bind_assoc, pure_bind, List.append_assoc]

/-- Lines are read in the same way when they are counted in another way, as long as they are counted one by one. -/
theorem readThrough_renumber {f : Nat → Nat} {line : Nat} (h : ∀ i ≤ lines.length, f (line + i) = f line + i)
    (r : Reader) : (r.renumber f).readThrough (f line) lines = renumberStep f (r.readThrough line lines) := by
  induction lines generalizing r line with
  | nil => rfl
  | cons raw lines ih =>
    have hnext : f (line + 1) = f line + 1 := h 1 (by simp)
    have hlater : ∀ i ≤ lines.length, f (line + 1 + i) = f (line + 1) + i := by
      intro i hi
      have hi' := h (1 + i) (by rw [List.length_cons]; omega)
      rw [hnext, Nat.add_assoc, hi', Nat.add_assoc]
    rw [readThrough, readThrough, advance_renumber]
    cases r.advance line raw with
    | error e => rfl
    | ok step =>
      have hrest := ih hlater step.1
      simp only [renumberStep, mapError_ok, Except.map, Prod.map, bind, Except.bind, hnext] at hrest ⊢
      rw [hrest]
      cases step.1.readThrough (line + 1) lines <;> simp [pure, Except.pure]

theorem readFrom_renumber {f : Nat → Nat} {line : Nat} (h : ∀ i ≤ lines.length, f (line + i) = f line + i)
    (r : Reader) : (r.renumber f).readFrom (f line) lines = MissionScript.renumber f (r.readFrom line lines) := by
  have hread := readFrom_append (r.renumber f) (f line) lines []
  have hread' := readFrom_append r line lines []
  rw [List.append_nil] at hread hread'
  rw [hread, hread', readThrough_renumber h]
  cases r.readThrough line lines with
  | error e => rfl
  | ok step =>
    have hend : (step.1.renumber f).finish = MissionScript.renumber f step.1.finish := finish_renumber f step.1
    simp only [renumberStep, mapError_ok, Except.map, Prod.map, bind, Except.bind, readFrom, hend]
    cases step.1.finish <;> simp [MissionScript.renumber, pure, Except.pure, Except.map]

end Reader

/-! ## Lines that go on -/

/-- The code ends in the mark that it goes on in the next line. -/
def GoesOn (code : Text) : Prop := continuation <:+ Text.trim code

instance (code : Text) : Decidable (GoesOn code) := inferInstanceAs (Decidable (continuation <:+ Text.trim code))

/-- What lacks a character ends the part behind it if it ends the whole. -/
theorem suffix_append_cons_iff {x : Char} {s : Text} (hx : x ∉ s) (a b : Text) : s <:+ a ++ x :: b ↔ s <:+ b := by
  constructor
  · intro h
    have hb : x :: b <:+ a ++ x :: b := List.suffix_append a (x :: b)
    rcases List.suffix_or_suffix_of_suffix h hb with hs | hs
    · rcases List.suffix_cons_iff.1 hs with rfl | hs
      · exact absurd List.mem_cons_self hx
      · exact hs
    · exact absurd (hs.subset List.mem_cons_self) hx
  · intro h
    exact h.trans ((List.suffix_cons x b).trans (List.suffix_append a (x :: b)))

theorem CodeLine.isSome_unfinished?_iff {l : CodeLine} : l.unfinished?.isSome = true ↔ continuation <:+ l.code := by
  unfold unfinished?
  split_ifs with h
  · exact iff_of_true rfl (List.isSuffixOf_iff_suffix.1 h)
  · exact iff_of_false (by simp) fun hsuffix => h (List.isSuffixOf_iff_suffix.2 hsuffix)

/-- Whether a line goes on is decided by its own code, whatever it continues. -/
theorem CodeLine.isSome_unfinished?_append (l : CodeLine) (code : Text) (comment : Option Text) :
    (l.append code comment).unfinished?.isSome = true ↔ GoesOn code := by
  rw [isSome_unfinished?_iff]
  exact suffix_append_cons_iff (by decide) l.code (Text.trim code)

namespace Reader

variable {r r' : Reader} {blocks : List Block} {n : Nat}

theorem gather_eq_none_iff {comment : Option Text} :
    r.gather n code comment = none ↔ r.pending = none ∧ Text.isVisible code = false := by
  unfold gather
  split
  · next l hpending => simp [hpending]
  · next hpending => split_ifs with hvisible <;> simp [hpending, hvisible]

theorem goesOn_of_gather {comment : Option Text} {l : CodeLine} (h : r.gather n code comment = some l) :
    l.unfinished?.isSome = true ↔ GoesOn code := by
  unfold gather at h
  split at h
  · obtain rfl := Option.some.inj h
    exact isSome_unfinished?_append _ _ _
  · split_ifs at h
    obtain rfl := Option.some.inj h
    exact isSome_unfinished?_iff

/-- Behind a line code is pending exactly when the line goes on. -/
theorem isSome_pending_advance (h : r.advance n raw = .ok (r', blocks)) :
    r'.pending.isSome = true ↔ GoesOn (splitComment raw).1 := by
  simp only [advance] at h
  cases hgather : r.gather n (splitComment raw).1 (splitComment raw).2 with
  | none =>
    -- nothing was pending, and a line without code does not go on
    obtain ⟨hpending, hblank⟩ := gather_eq_none_iff.1 hgather
    rw [hgather] at h
    obtain ⟨rfl, -⟩ := Prod.mk.inj (Except.ok.inj h)
    have hnone : (r.addBlank n (splitComment raw).2).pending = none := by
      rw [← hpending]
      obtain ⟨preface, pending⟩ := r
      cases preface <;> cases (splitComment raw).2 <;> rfl
    have hstays : ¬GoesOn (splitComment raw).1 := by
      have hempty : Text.trim (splitComment raw).1 = [] := by
        by_contra hne
        have hvisible := Text.isVisible_of_trim_eq (Text.trim_trim _) hne
        rw [Text.isVisible_trim, hblank] at hvisible
        exact absurd hvisible (by decide)
      rw [GoesOn, hempty]
      decide
    simp [hnone, hstays]
  | some l =>
    rw [← goesOn_of_gather hgather]
    rw [hgather] at h
    simp only at h
    cases hopen : l.unfinished? with
    | some rest =>
      rw [hopen] at h
      obtain ⟨rfl, -⟩ := Prod.mk.inj (Except.ok.inj h)
      rfl
    | none =>
      rw [hopen] at h
      obtain ⟨blocks', -, hnext⟩ := map_eq_ok_iff.1 h
      obtain ⟨rfl, -⟩ := Prod.mk.inj hnext
      rfl

theorem isSome_pending_readThrough (h : r.readThrough n lines = .ok (r', blocks)) (hlast : raw ∈ lines.getLast?) :
    r'.pending.isSome = true ↔ GoesOn (splitComment raw).1 := by
  induction lines generalizing r n blocks with
  | nil => exact absurd hlast (by simp)
  | cons first lines ih =>
    rw [readThrough] at h
    obtain ⟨⟨next, blocks₁⟩, hadvance, h⟩ := bind_eq_ok_iff.1 h
    obtain ⟨⟨r'', blocks₂⟩, hlater, h⟩ := bind_eq_ok_iff.1 h
    obtain ⟨rfl, -⟩ := Prod.mk.inj (Except.ok.inj h)
    cases lines with
    | nil =>
      obtain rfl := Option.some.inj hlast
      obtain ⟨rfl, -⟩ := Prod.mk.inj (Except.ok.inj hlater)
      exact isSome_pending_advance hadvance
    | cons second lines => exact ih hlater hlast

theorem pending_eq_none (h : empty.readThrough n lines = .ok (r, blocks))
    (hlast : ∀ raw ∈ lines.getLast?, ¬GoesOn (splitComment raw).1) : r.pending = none := by
  cases hlines : lines.getLast? with
  | none =>
    obtain rfl := List.getLast?_eq_none_iff.1 hlines
    obtain ⟨rfl, -⟩ := Prod.mk.inj (Except.ok.inj h)
    rfl
  | some raw =>
    have hpending := (isSome_pending_readThrough h hlines).not.2 (hlast raw hlines)
    simpa using hpending

end Reader

/-! ## Runs of lines -/

namespace Text

/-- what a line holds besides the mark that it goes on -/
def content (line : Text) : Text :=
  if continuation.isSuffixOf (trim line) then
    trim ((trim line).take ((trim line).length - continuation.length))
  else trim line

/-- lines with a blank between the contents of one and the next -/
def joined (lines : List Text) : Text := [' '].intercalate (lines.map content)

theorem content_of_goesOn (h : GoesOn raw) :
    content raw = trimEnd ((trim raw).take ((trim raw).length - continuation.length)) := by
  have hhead : ∀ c ∈ ((trim raw).take ((trim raw).length - continuation.length)).head?, isBlank c = false := by
    intro c hc
    refine head_trim (t := raw) ?_
    obtain ⟨rest, hrest⟩ := List.take_prefix ((trim raw).length - continuation.length) (trim raw)
    rw [← hrest, List.head?_append, hc]
    rfl
  rw [content, if_pos (List.isSuffixOf_iff_suffix.2 h), trim, trimStart_eq_self hhead]

theorem content_of_not_goesOn (h : ¬GoesOn raw) : content raw = trim raw :=
  if_neg fun hsuffix => h (List.isSuffixOf_iff_suffix.1 hsuffix)

theorem trim_content (line : Text) : trim (content line) = content line := by
  unfold content
  split_ifs <;> exact trim_trim _

theorem content_subset (line : Text) : content line ⊆ line := by
  have htrim : ∀ t : Text, trim t ⊆ t := by
    intro t c hc
    obtain ⟨b₁, b₂, -, -, ht⟩ := exists_eq_append_trim t
    rw [ht]
    simp [hc]
  unfold content
  split_ifs
  · exact fun c hc => htrim line ((List.take_subset _ _) (htrim _ hc))
  · exact htrim line

theorem joined_singleton (line : Text) : joined [line] = content line := List.intercalate_singleton

theorem joined_cons (line : Text) {lines : List Text} (h : lines ≠ []) :
    joined (line :: lines) = content line ++ ' ' :: joined lines := by
  obtain ⟨next, lines, rfl⟩ := List.exists_cons_of_ne_nil h
  rw [joined, List.map_cons, List.map_cons, List.intercalate_cons_cons, List.append_assoc]
  rfl

end Text

/-- Lines that go on into each other, and the last one, which does not go on. All of them have content, and none has a
comment. -/
structure IsRun (opened : List Text) (last : Text) : Prop where
  plain : ∀ line ∈ opened ++ [last], '%' ∉ line
  visible : ∀ line ∈ opened ++ [last], Text.content line ≠ []
  goesOn : ∀ line ∈ opened, GoesOn line
  ends : ¬GoesOn last

theorem splitComment_of_plain (h : '%' ∉ raw) : splitComment raw = (raw, none) := by
  apply splitComment_eq_self
  intro cell hcell
  have hchar : cell.char ∈ raw := by
    rw [← text_cells raw]
    exact List.mem_map_of_mem hcell
  by_contra hholds
  obtain ⟨-, hc⟩ := Bool.and_eq_true_iff.1 (show (cell.isLive && cell.char == '%') = true by simpa [holds] using hholds)
  exact h (beq_iff_eq.1 hc ▸ hchar)

theorem trimEnd_append_of_trimEnd_ne_nil {t : Text} (h : Text.trimEnd t ≠ []) (s : Text) :
    Text.trimEnd (s ++ t) = s ++ Text.trimEnd t := by
  obtain ⟨b, hb, ht⟩ := Text.exists_eq_trimEnd_append t
  have hlast : ∀ c ∈ (s ++ Text.trimEnd t).getLast?, isBlank c = false := by
    intro c hc
    rw [List.getLast?_append_of_ne_nil _ h] at hc
    exact Text.last_trimEnd hc
  have hself := Text.trimEnd_append_left hlast []
  rw [List.append_nil] at hself
  calc Text.trimEnd (s ++ t)
      = Text.trimEnd (s ++ Text.trimEnd t ++ b) := by rw [List.append_assoc, ← ht]
    _ = Text.trimEnd (s ++ Text.trimEnd t) := Text.trimEnd_append hb _
    _ = s ++ Text.trimEnd t := by rw [hself]; exact List.append_nil _

theorem IsRun.tail {first : Text} (h : IsRun (first :: opened) last) : IsRun opened last where
  plain line hline := h.plain line (List.mem_cons_of_mem first hline)
  visible line hline := h.visible line (List.mem_cons_of_mem first hline)
  goesOn line hline := h.goesOn line (List.mem_cons_of_mem first hline)
  ends := h.ends

namespace Reader

variable {r : Reader}

/-- the code line that some code completes or begins -/
def extend (r : Reader) (n : Nat) (code : Text) : CodeLine :=
  match r.pending with
  | some l => { l with code := l.code ++ ' ' :: code }
  | none => ⟨n, code, []⟩

theorem gather_plain (hvisible : Text.content raw ≠ []) (n : Nat) :
    r.gather n raw none = some (r.extend n (Text.trim raw)) := by
  have hraw : Text.isVisible raw = true := by
    have hcontent := Text.isVisible_of_trim_eq (Text.trim_content raw) hvisible
    obtain ⟨c, hc, hshown⟩ := List.any_eq_true.1 hcontent
    exact Text.isVisible_of_mem (Text.content_subset raw hc) (by simpa using hshown)
  unfold gather extend
  cases r.pending with
  | some l => rfl
  | none => simp only [hraw, if_true]; rfl

theorem unfinished?_extend (hvisible : Text.content raw ≠ []) (hgoes : GoesOn raw) (n : Nat) :
    (r.extend n (Text.trim raw)).unfinished? = some (r.extend n (Text.content raw)) := by
  obtain ⟨l, s, hextend⟩ : ∃ (l : CodeLine) (s : Text), ∀ code, r.extend n code = { l with code := s ++ code } := by
    cases hpending : r.pending with
    | none => exact ⟨⟨n, [], []⟩, [], fun code => by rw [extend, hpending]; rfl⟩
    | some l => exact ⟨l, l.code ++ [' '], fun code => by simp [extend, hpending]⟩
  have hmark : continuation.isSuffixOf (s ++ Text.trim raw) = true :=
    List.isSuffixOf_iff_suffix.2 (List.IsSuffix.trans hgoes (List.suffix_append s _))
  have hlength : continuation.length ≤ (Text.trim raw).length := hgoes.length_le
  have htake : (s ++ Text.trim raw).take ((s ++ Text.trim raw).length - continuation.length) =
      s ++ (Text.trim raw).take ((Text.trim raw).length - continuation.length) := by
    rw [List.length_append, Nat.add_sub_assoc hlength, List.take_length_add_append]
  have hne : Text.trimEnd ((Text.trim raw).take ((Text.trim raw).length - continuation.length)) ≠ [] := by
    rwa [← Text.content_of_goesOn hgoes]
  rw [hextend, hextend, unfinished?, if_pos hmark, htake, trimEnd_append_of_trimEnd_ne_nil hne,
    Text.content_of_goesOn hgoes]

theorem advance_goesOn (hplain : '%' ∉ raw) (hvisible : Text.content raw ≠ []) (hgoes : GoesOn raw) (n : Nat) :
    r.advance n raw = .ok ({ r with pending := some (r.extend n (Text.content raw)) }, []) := by
  simp only [advance, splitComment_of_plain hplain, gather_plain hvisible, unfinished?_extend hvisible hgoes]

theorem advance_ends (hplain : '%' ∉ raw) (hvisible : Text.content raw ≠ []) (hends : ¬GoesOn raw) (n : Nat) :
    r.advance n raw = ((r.extend n (Text.content raw)).blocks r.prefaceText).map (empty, ·) := by
  have hcomplete : (r.extend n (Text.trim raw)).unfinished? = none := by
    have hopen := (goesOn_of_gather (gather_plain (r := r) hvisible n)).not.2 hends
    simpa using hopen
  simp only [advance, splitComment_of_plain hplain, gather_plain hvisible, hcomplete, Text.content_of_not_goesOn hends]

/-- **A run is read like the line that it is joined to.** -/
theorem readThrough_run (h : IsRun opened last) (r : Reader) (n : Nat) :
    r.readThrough n (opened ++ [last]) =
      ((r.extend n (Text.joined (opened ++ [last]))).blocks r.prefaceText).map (empty, ·) := by
  induction opened generalizing r n with
  | nil =>
    have hlast := advance_ends (r := r) (h.plain last (by simp)) (h.visible last (by simp)) h.ends n
    rw [List.nil_append, Text.joined_singleton, readThrough, hlast]
    cases (r.extend n (Text.content last)).blocks r.prefaceText with
    | error e => rfl
    | ok blocks => exact congrArg (fun blocks => Except.ok (empty, blocks)) (List.append_nil blocks)
  | cons first opened ih =>
    have hfirst := advance_goesOn (r := r) (h.plain first (by simp)) (h.visible first (by simp))
      (h.goesOn first (by simp)) n
    have hextend : extend { r with pending := some (r.extend n (Text.content first)) } (n + 1)
        (Text.joined (opened ++ [last])) = r.extend n (Text.joined (first :: (opened ++ [last]))) := by
      rw [Text.joined_cons first (by simp)]
      unfold extend
      cases r.pending <;> simp
    have hpreface : prefaceText { r with pending := some (r.extend n (Text.content first)) } = r.prefaceText := rfl
    have hrest := ih h.tail { r with pending := some (r.extend n (Text.content first)) } (n + 1)
    rw [hextend, hpreface] at hrest
    rw [List.cons_append, readThrough, hfirst]
    simp only [bind, Except.bind, hrest]
    cases (r.extend n (Text.joined (first :: (opened ++ [last])))).blocks r.prefaceText <;> rfl

end Reader

namespace IsRun

theorem joined_ne_nil (h : IsRun opened last) : Text.joined (opened ++ [last]) ≠ [] := by
  cases opened with
  | nil =>
    rw [List.nil_append, Text.joined_singleton]
    exact h.visible last (by simp)
  | cons first opened =>
    rw [List.cons_append, Text.joined_cons first (by simp)]
    simp

theorem trim_joined (h : IsRun opened last) :
    Text.trim (Text.joined (opened ++ [last])) = Text.joined (opened ++ [last]) := by
  induction opened with
  | nil =>
    rw [List.nil_append, Text.joined_singleton]
    exact Text.trim_content last
  | cons first opened ih =>
    rw [List.cons_append, Text.joined_cons first (by simp)]
    exact Text.trim_between (Text.trim_content first) (h.visible first (by simp)) (ih h.tail) h.tail.joined_ne_nil [' ']

theorem joined_plain (h : IsRun opened last) : '%' ∉ Text.joined (opened ++ [last]) := by
  induction opened with
  | nil =>
    rw [List.nil_append, Text.joined_singleton]
    exact fun hsign => h.plain last (by simp) (Text.content_subset last hsign)
  | cons first opened ih =>
    rw [List.cons_append, Text.joined_cons first (by simp)]
    intro hsign
    rcases List.mem_append.1 hsign with hsign | hsign
    · exact h.plain first (by simp) (Text.content_subset first hsign)
    · rcases List.mem_cons.1 hsign with hblank | hsign
      · exact absurd hblank (by decide)
      · exact ih h.tail hsign

/-- The line that a run is joined to does not go on: its end is that of the last line. -/
theorem joined_ends (h : IsRun opened last) : ¬GoesOn (Text.joined (opened ++ [last])) := by
  rw [GoesOn, h.trim_joined]
  induction opened with
  | nil =>
    rw [List.nil_append, Text.joined_singleton, Text.content_of_not_goesOn h.ends]
    exact h.ends
  | cons first opened ih =>
    rw [List.cons_append, Text.joined_cons first (by simp), suffix_append_cons_iff (by decide)]
    exact ih h.tail

theorem content_joined (h : IsRun opened last) :
    Text.content (Text.joined (opened ++ [last])) = Text.joined (opened ++ [last]) := by
  rw [Text.content_of_not_goesOn h.joined_ends, h.trim_joined]

theorem joined (h : IsRun opened last) : IsRun [] (Text.joined (opened ++ [last])) where
  plain := List.forall_mem_singleton.2 h.joined_plain
  visible := List.forall_mem_singleton.2 (by rw [h.content_joined]; exact h.joined_ne_nil)
  goesOn line hline := absurd hline List.not_mem_nil
  ends := h.joined_ends

end IsRun

/-! ## Scripts with runs -/

/-- All that comes of some lines has one line number. -/
def AllAt (line : Nat) : Except ScriptError (Reader × List Block) → Prop
  | .ok (_, blocks) => ∀ b ∈ blocks, b.line = line
  | .error e => e.line = line

theorem CodeLine.blocks_allAt (l : CodeLine) (preface : Text) (r : Reader) :
    AllAt l.line ((l.blocks preface).map (r, ·)) := by
  have hlabel := l.blocks_renumber (fun _ => l.line) preface
  change l.blocks preface = _ at hlabel
  cases hblocks : l.blocks preface with
  | error e =>
    rw [hblocks] at hlabel
    exact congrArg ScriptError.line (Except.error.inj hlabel)
  | ok blocks =>
    rw [hblocks] at hlabel
    have hsame : blocks = blocks.map (Block.renumber fun _ => l.line) := Except.ok.inj hlabel
    intro b hb
    rw [hsame] at hb
    obtain ⟨b', -, rfl⟩ := List.mem_map.1 hb
    rfl

theorem renumber_append (f : Nat → Nat) (x y : Except ScriptError (List Block)) :
    renumber f (do let a ← x; let b ← y; return a ++ b) = do
      let a ← renumber f x
      let b ← renumber f y
      return a ++ b := by
  cases x with
  | error e => rfl
  | ok a =>
    cases y with
    | error e => rfl
    | ok b => exact congrArg Except.ok List.map_append

namespace Reader

variable {r : Reader} {blocks : List Block} {n : Nat} {f : Nat → Nat}

/-- Where nothing is pending, a run has the blocks of the code line that it is joined to. -/
theorem readFrom_run (hrun : IsRun opened last) (hpending : r.pending = none) (n : Nat) (after : List Text) :
    r.readFrom n (opened ++ [last] ++ after) = do
      let own ← (CodeLine.mk n (Text.joined (opened ++ [last])) []).blocks r.prefaceText
      let later ← Reader.empty.readFrom (n + 1 + opened.length) after
      return own ++ later := by
  have hextend (code : Text) : r.extend n code = ⟨n, code, []⟩ := by rw [Reader.extend, hpending]
  have hline : n + (opened ++ [last]).length = n + 1 + opened.length := by
    rw [List.length_append, List.length_singleton]
    omega
  rw [Reader.readFrom_append, Reader.readThrough_run hrun, hextend, hline]
  cases (CodeLine.mk n (Text.joined (opened ++ [last])) []).blocks r.prefaceText <;> rfl

/-- All that comes of a run has the number of its first line. -/
theorem allAt_readThrough_run (hrun : IsRun opened last) (hpending : r.pending = none) (n : Nat) :
    AllAt n (r.readThrough n (opened ++ [last])) := by
  have hextend : r.extend n (Text.joined (opened ++ [last])) = ⟨n, Text.joined (opened ++ [last]), []⟩ := by
    rw [extend, hpending]
  rw [readThrough_run hrun, hextend]
  exact CodeLine.blocks_allAt _ _ _

/-- Where the numbers of all lines are kept, so is what is read. -/
theorem readThrough_kept (hkept : ∀ i ≤ lines.length, f (n + i) = n + i) :
    renumberStep f (empty.readThrough n lines) = empty.readThrough n lines := by
  have hfirst : f n = n := hkept 0 (Nat.zero_le _)
  have hcounted : ∀ i ≤ lines.length, f (n + i) = f n + i := by
    intro i hi
    rw [hkept i hi, hfirst]
  have hread := readThrough_renumber hcounted empty
  rw [hfirst] at hread
  exact hread.symm

/-- Where nothing is pending, lines that begin with a run are read like those that begin with the one line in its place,
if the number of that line is kept and the lines behind are counted on. -/
theorem readFrom_run_renumber (hrun : IsRun opened last) (hpending : r.pending = none) (hkept : f n = n)
    (hmoved : ∀ i, f (n + 1 + i) = n + 1 + opened.length + i) (after : List Text) :
    r.readFrom n (opened ++ [last] ++ after) =
      MissionScript.renumber f (r.readFrom n ([Text.joined (opened ++ [last])] ++ after)) := by
  have hown : (CodeLine.mk n (Text.joined (opened ++ [last])) []).blocks r.prefaceText =
      MissionScript.renumber f ((CodeLine.mk n (Text.joined (opened ++ [last])) []).blocks r.prefaceText) := by
    rw [← CodeLine.blocks_renumber, CodeLine.renumber, hkept]
  have hnext : f (n + 1) = n + 1 + opened.length := hmoved 0
  have hcounted : ∀ i ≤ after.length, f (n + 1 + i) = f (n + 1) + i := by
    intro i _
    rw [hmoved i, hnext]
  have hlater : empty.readFrom (n + 1 + opened.length) after =
      MissionScript.renumber f (empty.readFrom (n + 1) after) := by
    have hread := readFrom_renumber hcounted empty
    rwa [hnext] at hread
  -- the line in place of the run is a run itself
  have hline := readFrom_run hrun.joined hpending n after
  rw [List.nil_append, Text.joined_singleton, hrun.content_joined, List.length_nil] at hline
  rw [readFrom_run hrun hpending, hline, renumber_append, ← hown]
  exact congrArg _ (funext fun own => congrArg (· >>= fun later => pure (own ++ later)) hlater)

end Reader

/-- **Lines that go on are read like one long line.** The script with a run of lines and the script with the one line in
their place have the same blocks or the same error, but that the lines behind are counted on by the lines that the run
has more; and all that comes of the run itself has the number of its first line. -/
theorem readBlocks_joined (hscript : Text.lines script = before ++ (opened ++ [last]) ++ after)
    (hjoined : Text.lines script' = before ++ [Text.joined (opened ++ [last])] ++ after) (hrun : IsRun opened last)
    (hbefore : ∀ line ∈ before.getLast?, ¬GoesOn (splitComment line).1) :
    readBlocks script =
        renumber (fun n => if n ≤ before.length + 1 then n else n + opened.length) (readBlocks script') ∧
      ∀ r blocks, Reader.empty.readThrough 1 before = .ok (r, blocks) →
        AllAt (before.length + 1) (r.readThrough (before.length + 1) (opened ++ [last])) := by
  set f : Nat → Nat := fun n => if n ≤ before.length + 1 then n else n + opened.length with hf
  -- the numbers up to the first line of the run stay, and those behind it are moved
  have hkept : ∀ n ≤ before.length + 1, f n = n := fun n hn => if_pos hn
  have hmoved : ∀ i, f (before.length + 1 + 1 + i) = before.length + 1 + 1 + opened.length + i := by
    intro i
    have hbehind : ¬before.length + 1 + 1 + i ≤ before.length + 1 := by omega
    simp only [hf, if_neg hbehind]
    omega
  have hone : 1 + before.length = before.length + 1 := Nat.add_comm 1 before.length
  constructor
  · have hfront : Reader.renumberStep f (Reader.empty.readThrough 1 before) = Reader.empty.readThrough 1 before :=
      Reader.readThrough_kept fun i hi => hkept (1 + i) (by omega)
    rw [readBlocks, readBlocks, hscript, hjoined, List.append_assoc before, List.append_assoc before,
      Reader.readFrom_append, Reader.readFrom_append, hone]
    cases hread : Reader.empty.readThrough 1 before with
    | error e =>
      rw [hread] at hfront
      exact congrArg Except.error (Except.error.inj hfront).symm
    | ok step =>
      obtain ⟨r, blocks⟩ := step
      rw [hread] at hfront
      have hblocks : renumber f (.ok blocks) = .ok blocks :=
        congrArg Except.ok (Prod.mk.inj (Except.ok.inj hfront)).2
      have hpending := Reader.pending_eq_none hread hbefore
      have hbehind := Reader.readFrom_run_renumber hrun hpending (hkept _ le_rfl) hmoved after
      have hwhole := renumber_append f (.ok blocks)
        (r.readFrom (before.length + 1) ([Text.joined (opened ++ [last])] ++ after))
      rw [← hbehind, hblocks] at hwhole
      exact hwhole.symm
  · intro r blocks hread
    exact Reader.allAt_readThrough_run hrun (Reader.pending_eq_none hread hbefore) _

/-- A bracket literal, a string and a `;` lie across the lines of a run. -/
theorem readBlocks_joined_across :
    IsRun ["x = [1, ...".toList, " 2]; y = 'a ...".toList] "b'".toList ∧
      Text.joined ["x = [1, ...".toList, " 2]; y = 'a ...".toList, "b'".toList] = "x = [1, 2]; y = 'a b'".toList ∧
      readBlocks "% p\nx = [1, ...\n 2]; y = 'a ...\nb'\nz = 4".toList =
        renumber (fun n => if n ≤ 2 then n else n + 2) (readBlocks "% p\nx = [1, 2]; y = 'a b'\nz = 4".toList) ∧
      (readBlocks "% p\nx = [1, ...\n 2]; y = 'a ...\nb'\nz = 4".toList).map
          (List.map fun b => (b.line, b.text, b.preface)) =
        .ok [(2, "x = [1, 2]".toList, "% p\n".toList), (2, "y = 'a b'".toList, []), (5, "z = 4".toList, [])] := by
  have hrun : IsRun ["x = [1, ...".toList, " 2]; y = 'a ...".toList] "b'".toList :=
    ⟨by decide, by decide, by decide, by decide⟩
  have hscript : Text.lines "% p\nx = [1, ...\n 2]; y = 'a ...\nb'\nz = 4".toList =
      ["% p".toList] ++ (["x = [1, ...".toList, " 2]; y = 'a ...".toList] ++ ["b'".toList]) ++ ["z = 4".toList] := by
    decide +kernel
  have hjoined : Text.lines "% p\nx = [1, 2]; y = 'a b'\nz = 4".toList = ["% p".toList] ++
      [Text.joined (["x = [1, ...".toList, " 2]; y = 'a ...".toList] ++ ["b'".toList])] ++ ["z = 4".toList] := by
    decide +kernel
  have hread := readBlocks_joined hscript hjoined hrun (by decide +kernel)
  exact ⟨hrun, by decide +kernel, hread.1, by decide +kernel⟩

end MissionScript
