/-
Which comments the blocks carry.

`Carry` says that notes, the texts above and behind statements, are made of certain comments, each of them once and in order.
The reading of a script is followed in two steps. What is carried whenever a line is complete (`Reader.completed`) holds all
comments that are found, without exception. The blocks are made of it, and they hold what it holds unless there is no
statement to attach the comments to (`Reader.Attaches`).

- `Reader.Holds.carry_completed`: no comment that is found is lost before a line is complete.
- `Reader.finish_cases`: the blocks of a complete line spread its comments, or there is no block.
- `carry_iff`: the blocks carry the comments of the script if and only if every comment is found and has a statement to be
  attached to, or stands behind the last one.
-/
import MissionScript.Proofs.Block.FoundComments

namespace MissionScript

open Cell

variable {script : Text} {blocks : List Block}

/-! ## Comments of blocks -/

/-- the texts above and behind a statement -/
structure Notes where
  above : Text
  behind : Text
  deriving DecidableEq, Repr

def Block.notes (b : Block) : Notes := ⟨b.preface, b.inlineComment⟩

def Notes.signs (notes : List Notes) : Nat := (notes.flatMap fun n => n.above ++ n.behind).count '%'

def visibleLines (ls : List Text) : List Text := ls.filter fun l => !l.isEmpty

/-- The notes are made of these comments, each of them once and in order: those above a statement line by line, with empty
lines among them, and those behind it with a blank between two of them. -/
inductive Carry : List Notes → List Text → Prop where
  | nil : Carry [] []
  | cons {n : Notes} {notes : List Notes} {above behind comments : List Text} (habove : n.above = Text.unlines above)
    (hbehind : n.behind = [' '].intercalate behind) (h : Carry notes comments) :
    Carry (n :: notes) (visibleLines above ++ behind ++ comments)

theorem count_unlines (ls : List Text) : (Text.unlines ls).count '%' = (visibleLines ls).flatten.count '%' := by
  induction ls with
  | nil => rfl
  | cons l ls ih =>
    have hcons : (Text.unlines (l :: ls)).count '%' = l.count '%' + (Text.unlines ls).count '%' := by
      simp [Text.unlines]
    rw [hcons, ih]
    cases l with
    | nil => exact Nat.zero_add _
    | cons c l =>
      have hfirst : visibleLines ((c :: l) :: ls) = (c :: l) :: visibleLines ls := List.filter_cons_of_pos rfl
      rw [hfirst, List.flatten_cons, List.count_append]

theorem intercalate_concat {cs : List Text} (hne : cs ≠ []) (c : Text) :
    [' '].intercalate (cs ++ [c]) = [' '].intercalate cs ++ ' ' :: c := by
  induction cs with
  | nil => exact absurd rfl hne
  | cons d cs ih =>
    cases cs with
    | nil =>
      rw [List.cons_append, List.nil_append, List.intercalate_cons_cons, List.intercalate_singleton,
        List.intercalate_singleton]
      simp
    | cons e cs =>
      have hrest := ih (by simp)
      rw [List.cons_append, List.cons_append, List.intercalate_cons_cons, ← List.cons_append, hrest,
        List.intercalate_cons_cons]
      simp

theorem count_intercalate (cs : List Text) : ([' '].intercalate cs).count '%' = cs.flatten.count '%' := by
  induction cs with
  | nil => rfl
  | cons c cs ih =>
    cases cs with
    | nil => rw [List.intercalate_singleton, List.flatten_cons, List.flatten_nil, List.append_nil]
    | cons d cs =>
      have hblank : ([' '] : Text).count '%' = 0 := rfl
      rw [List.intercalate_cons_cons, List.append_assoc, List.count_append, List.count_append, ih, hblank, Nat.zero_add]
      exact List.count_append.symm

namespace Notes

theorem signs_append (notes more : List Notes) : signs (notes ++ more) = signs notes + signs more := by
  rw [signs, List.flatMap_append, List.count_append]
  rfl

theorem signs_cons (n : Notes) (notes : List Notes) : signs (n :: notes) = signs [n] + signs notes :=
  signs_append [n] notes

theorem signs_singleton (n : Notes) : signs [n] = n.above.count '%' + n.behind.count '%' := by
  rw [signs, List.flatMap_singleton, List.count_append]

end Notes

namespace Carry

variable {notes : List Notes} {comments : List Text} {n : Notes}

theorem signs_eq (h : Carry notes comments) : Notes.signs notes = comments.flatten.count '%' := by
  induction h with
  | nil => rfl
  | cons habove hbehind _ ih =>
    rw [Notes.signs_cons, Notes.signs_singleton, habove, hbehind, count_unlines, count_intercalate, ih,
      List.flatten_append, List.flatten_append, List.count_append, List.count_append]

end Carry

/-- The notes of the statements of a line: the first one has what stands above, the last one what stands behind. -/
inductive Spread : Notes → List Notes → Prop where
  | single (n : Notes) : Spread n [n]
  | cons {above behind : Text} {notes : List Notes} (h : Spread ⟨[], behind⟩ notes) :
    Spread ⟨above, behind⟩ (⟨above, []⟩ :: notes)

namespace Spread

variable {n : Notes} {notes rest : List Notes} {comments : List Text}

theorem signs_eq (h : Spread n notes) : Notes.signs notes = Notes.signs [n] := by
  induction h with
  | single n => rfl
  | cons _ ih =>
    rw [Notes.signs_cons, ih, Notes.signs_singleton, Notes.signs_singleton, Notes.signs_singleton]
    simp

theorem carry (h : Spread n notes) (hcarry : Carry (n :: rest) comments) : Carry (notes ++ rest) comments := by
  induction h generalizing comments with
  | single n => exact hcarry
  | @cons above behind notes _ ih =>
    cases hcarry with
    | @cons _ _ lines remarks comments habove hbehind hrest =>
      have hlast : Carry (⟨[], behind⟩ :: rest) (visibleLines [] ++ remarks ++ comments) := .cons rfl hbehind hrest
      have hnone : [] = [' '].intercalate ([] : List Text) := rfl
      have hfirst : Carry (⟨above, []⟩ :: (notes ++ rest)) _ := .cons habove hnone (ih hlast)
      simpa [visibleLines] using hfirst

end Spread

/-! ## What is carried -/

theorem CodeLine.spread_blocksOf {number : Nat} {comment preface : Text} {ts : List Text}
    (h : blocksOf number comment preface ts = .ok blocks) (hne : ts ≠ []) :
    Spread ⟨preface, comment⟩ (blocks.map Block.notes) := by
  induction ts generalizing preface blocks with
  | nil => exact absurd rfl hne
  | cons t ts ih =>
    rw [blocksOf] at h
    obtain ⟨s, -, h⟩ := bind_eq_ok_iff.1 h
    obtain ⟨later, hlater, h⟩ := bind_eq_ok_iff.1 h
    obtain rfl := Except.ok.inj h
    cases ts with
    | nil =>
      obtain rfl : [] = later := Except.ok.inj hlater
      exact .single _
    | cons u ts => exact .cons (ih hlater (by simp))

namespace Reader

variable {r : Reader} {above behind : List Text} {comment : Option Text}

def notes (r : Reader) : Notes := ⟨r.prefaceText, (r.pending.map CodeLine.comment).getD []⟩

/-- what is carried whenever a line is complete, and behind the last line -/
def completed (r : Reader) (line : Nat) : List Text → List Reader
  | [] => [r]
  | raw :: rest =>
    match r.gather line (splitComment raw).1 (splitComment raw).2 with
    | none => completed (r.addBlank line (splitComment raw).2) (line + 1) rest
    | some l =>
      match l.unfinished? with
      | some l => completed { r with pending := some l } (line + 1) rest
      | none => { r with pending := some l } :: completed empty (line + 1) rest

/-- The code has a statement that the comments can be attached to, or there are no comments. -/
def Attaches (r : Reader) : Prop :=
  ∀ l ∈ r.pending, l.statements = [] → '%' ∉ r.notes.above ∧ '%' ∉ r.notes.behind

instance (r : Reader) : Decidable r.Attaches :=
  inferInstanceAs (Decidable (∀ l ∈ r.pending, l.statements = [] → '%' ∉ r.notes.above ∧ '%' ∉ r.notes.behind))

/-- These lines with comments are carried above a statement, and these comments behind it. -/
structure Holds (r : Reader) (above behind : List Text) : Prop where
  lines : r.notes.above = Text.unlines above
  comments : r.notes.behind = [' '].intercalate behind
  visible : ∀ comment ∈ behind, comment ≠ []

namespace Holds

theorem empty : Reader.empty.Holds [] [] := ⟨rfl, rfl, fun _ h => absurd h List.not_mem_nil⟩

theorem above_eq_nil (h : r.Holds above behind) (hpreface : r.preface = none) : above = [] := by
  have hnil : Text.unlines above = [] := by
    rw [← h.lines, notes, prefaceText, hpreface]
    rfl
  cases above with
  | nil => rfl
  | cons l above => exact absurd hnil (by simp [Text.unlines])

theorem behind_eq_nil (h : r.Holds above behind) (hnone : r.notes.behind = []) : behind = [] := by
  rw [h.comments] at hnone
  cases behind with
  | nil => rfl
  | cons c behind =>
    have hc := h.visible c List.mem_cons_self
    cases behind with
    | nil =>
      rw [List.intercalate_singleton] at hnone
      exact absurd hnone hc
    | cons d behind => exact absurd hnone (by simp [List.intercalate_cons_cons])

theorem join (h : r.Holds above behind) (comment : Option Text) :
    joinComment r.notes.behind comment = [' '].intercalate (behind ++ comment.toList) := by
  cases comment with
  | none => rw [Option.toList_none, List.append_nil]; exact h.comments
  | some c =>
    rw [Option.toList_some, joinComment]
    split_ifs with hnone
    · rw [h.behind_eq_nil (List.isEmpty_iff.1 hnone), List.nil_append, List.intercalate_singleton]
    · have hne : behind ≠ [] := by
        rintro rfl
        exact hnone (by rw [h.comments]; rfl)
      rw [intercalate_concat hne, ← h.comments]

theorem gather {number : Nat} {code : Text} {l : CodeLine} (h : r.Holds above behind)
    (hvisible : ∀ c ∈ comment, c ≠ []) (hl : r.gather number code comment = some l) :
    Holds { r with pending := some l } above (behind ++ comment.toList) where
  lines := h.lines
  comments := by
    rw [← h.join comment]
    unfold Reader.gather at hl
    split at hl
    · next before hpending =>
      obtain rfl := Option.some.inj hl
      rw [notes, notes, hpending]
      rfl
    · next hpending =>
      split_ifs at hl with hcode
      obtain rfl := Option.some.inj hl
      rw [notes, notes, hpending]
      cases comment <;> rfl
  visible := by
    intro c hc
    rcases List.mem_append.1 hc with hc | hc
    · exact h.visible c hc
    · exact hvisible c (Option.mem_toList.1 hc)

theorem addBlank (h : r.Holds above behind) (hpending : r.pending = none) (hvisible : ∀ c ∈ comment, c ≠ [])
    (number : Nat) :
    ∃ lines, (r.addBlank number comment).Holds lines [] ∧
      visibleLines lines = visibleLines above ++ comment.toList := by
  have hkept : visibleLines (above ++ [comment.getD []]) = visibleLines above ++ comment.toList := by
    rw [visibleLines, List.filter_append]
    cases comment with
    | none => rfl
    | some c => rw [List.filter_cons_of_pos (by simpa using hvisible c rfl)]; rfl
  have hlines := h.lines
  rw [notes, prefaceText] at hlines
  obtain ⟨preface, pending⟩ := r
  obtain rfl : pending = none := hpending
  cases preface with
  | none =>
    obtain rfl := h.above_eq_nil rfl
    cases comment with
    | none => exact ⟨[], .empty, rfl⟩
    | some c => exact ⟨[] ++ [c], ⟨by simp [Reader.addBlank, notes, prefaceText, Text.unlines], rfl, by simp⟩, hkept⟩
  | some p =>
    refine ⟨above ++ [comment.getD []], ⟨?_, rfl, by simp⟩, hkept⟩
    have hp : p.text = Text.unlines above := hlines
    simp [Reader.addBlank, notes, prefaceText, Text.unlines, hp]

end Holds

/-- **No comment that is found is lost before a line is complete.** -/
theorem Holds.carry_completed (h : r.Holds above behind) (number : Nat) (lines : List Text) :
    Carry ((r.completed number lines).map notes) (visibleLines above ++ behind ++ foundComments lines) := by
  induction lines generalizing r above behind number with
  | nil => exact .cons h.lines h.comments .nil
  | cons raw lines ih =>
    have hfound : foundComments (raw :: lines) = (splitComment raw).2.toList ++ foundComments lines := by
      rw [foundComments, List.filterMap_cons]
      cases (splitComment raw).2 <;> rfl
    have hvisible : ∀ c ∈ (splitComment raw).2, c ≠ [] := by
      rintro c hc rfl
      exact absurd (percent_mem_of_found hc) List.not_mem_nil
    rw [completed, hfound, ← List.append_assoc]
    cases hgather : r.gather number (splitComment raw).1 (splitComment raw).2 with
    | none =>
      have hpending : r.pending = none := by
        unfold Reader.gather at hgather
        split at hgather
        · exact absurd hgather (by simp)
        · assumption
      obtain ⟨kept, hkept, hlines⟩ := h.addBlank hpending hvisible number
      have hbehind : behind = [] := h.behind_eq_nil (by rw [notes, hpending]; rfl)
      rw [hbehind, List.append_nil, ← hlines, ← List.append_nil (visibleLines kept)]
      exact ih hkept (number + 1)
    | some l =>
      have hl := h.gather hvisible hgather
      rw [List.append_assoc _ behind]
      simp only
      cases hopen : l.unfinished? with
      | some rest =>
        have hcomment : rest.comment = l.comment := by
          unfold CodeLine.unfinished? at hopen
          split_ifs at hopen
          rw [← Option.some.inj hopen]
        have hrest : Holds { r with pending := some rest } above (behind ++ (splitComment raw).2.toList) :=
          ⟨hl.lines, hcomment.trans hl.comments, hl.visible⟩
        exact ih hrest (number + 1)
      | none => exact .cons hl.lines hl.comments (ih .empty (number + 1))

/-- The blocks of a complete line spread its comments. There is no block if the line has no statement, and then comments
are lost unless there are none. -/
theorem finish_cases (h : r.finish = .ok blocks) :
    (Spread r.notes (blocks.map Block.notes) ∧ r.Attaches) ∨
      blocks = [] ∧ (r.Attaches ↔ Notes.signs [r.notes] = 0) := by
  obtain ⟨preface, pending⟩ := r
  cases pending with
  | none =>
    have hattaches : Attaches ⟨preface, none⟩ := fun l hl => absurd hl (by simp)
    cases preface with
    | none =>
      obtain rfl : [] = blocks := Except.ok.inj h
      exact .inr ⟨rfl, fun _ => rfl, fun _ => hattaches⟩
    | some p =>
      obtain rfl := Except.ok.inj h
      exact .inl ⟨.single _, hattaches⟩
  | some l =>
    have hl : CodeLine.blocksOf l.line l.comment (prefaceText ⟨preface, some l⟩) l.statements = .ok blocks := h
    by_cases hnone : l.statements = []
    · rw [hnone] at hl
      obtain rfl : [] = blocks := Except.ok.inj hl
      refine .inr ⟨rfl, ?_⟩
      rw [Notes.signs_singleton, Nat.add_eq_zero_iff, List.count_eq_zero, List.count_eq_zero]
      exact ⟨fun hattaches => hattaches l rfl hnone, fun hno l hl _ => hno⟩
    · refine .inl ⟨CodeLine.spread_blocksOf hl hnone, fun l' hl' hnone' => ?_⟩
      obtain rfl := Option.some.inj hl'
      exact absurd hnone' hnone

/-- What is read is what is complete, one after the other. -/
theorem readFrom_eq_ok {number : Nat} {lines : List Text} (h : r.readFrom number lines = .ok blocks) :
    ∃ groups, List.Forall₂ (fun s group => s.finish = .ok group) (r.completed number lines) groups ∧
      blocks = groups.flatten := by
  induction lines generalizing r number blocks with
  | nil => exact ⟨[blocks], .cons h .nil, by simp⟩
  | cons raw lines ih =>
    rw [readFrom] at h
    obtain ⟨⟨next, first⟩, hadvance, h⟩ := bind_eq_ok_iff.1 h
    obtain ⟨later, hlater, h⟩ := bind_eq_ok_iff.1 h
    obtain rfl := Except.ok.inj h
    obtain ⟨groups, hgroups, rfl⟩ := ih hlater
    rw [completed]
    simp only [advance] at hadvance
    cases hgather : r.gather number (splitComment raw).1 (splitComment raw).2 with
    | none =>
      rw [hgather] at hadvance
      obtain ⟨rfl, rfl⟩ := Prod.mk.inj (Except.ok.inj hadvance)
      exact ⟨groups, hgroups, rfl⟩
    | some l =>
      rw [hgather] at hadvance
      cases hopen : l.unfinished? with
      | some rest =>
        simp only [hopen] at hadvance ⊢
        obtain ⟨rfl, rfl⟩ := Prod.mk.inj (Except.ok.inj hadvance)
        exact ⟨groups, hgroups, rfl⟩
      | none =>
        simp only [hopen] at hadvance ⊢
        obtain ⟨group, hgroup, hnext⟩ := map_eq_ok_iff.1 hadvance
        obtain ⟨rfl, rfl⟩ := Prod.mk.inj hnext
        exact ⟨group :: groups, .cons hgroup hgroups, rfl⟩

section Groups

variable {readers : List Reader} {groups : List (List Block)}

/-- Blocks hold no more signs than what is carried, and all of them only if every comment has a statement. -/
theorem signs_groups (h : List.Forall₂ (fun s group => s.finish = .ok group) readers groups) :
    Notes.signs (groups.flatten.map Block.notes) ≤ Notes.signs (readers.map notes) ∧
      (Notes.signs (readers.map notes) ≤ Notes.signs (groups.flatten.map Block.notes) → ∀ s ∈ readers, s.Attaches) := by
  induction h with
  | nil => exact ⟨Nat.le_refl _, fun _ s hs => absurd hs List.not_mem_nil⟩
  | @cons s group readers groups hfinish _ ih =>
    obtain ⟨hle, hattach⟩ := ih
    rw [List.flatten_cons, List.map_append, List.map_cons, Notes.signs_append, Notes.signs_cons s.notes]
    rcases finish_cases hfinish with ⟨hspread, hattaches⟩ | ⟨rfl, hattaches⟩
    · rw [hspread.signs_eq]
      exact ⟨by omega, fun hall => List.forall_mem_cons.2 ⟨hattaches, hattach (by omega)⟩⟩
    · have hnone : Notes.signs (([] : List Block).map Block.notes) = 0 := rfl
      rw [hnone]
      exact ⟨by omega, fun hall => List.forall_mem_cons.2 ⟨hattaches.2 (by omega), hattach (by omega)⟩⟩

/-- Blocks carry what is carried for them if every comment has a statement. -/
theorem carry_groups (h : List.Forall₂ (fun s group => s.finish = .ok group) readers groups)
    (hattach : ∀ s ∈ readers, s.Attaches) {comments : List Text} (hsigns : ∀ comment ∈ comments, '%' ∈ comment)
    (hcarry : Carry (readers.map notes) comments) : Carry (groups.flatten.map Block.notes) comments := by
  induction h generalizing comments with
  | nil => exact hcarry
  | @cons s group readers groups hfinish _ ih =>
    obtain ⟨hs, hrest⟩ := List.forall_mem_cons.1 hattach
    rw [List.flatten_cons, List.map_append]
    rw [List.map_cons] at hcarry
    cases hcarry with
    | @cons _ _ above behind comments habove hbehind hcarry =>
      have hlater := ih hrest (fun comment hcomment => hsigns comment (List.mem_append_right _ hcomment)) hcarry
      rcases finish_cases hfinish with ⟨hspread, -⟩ | ⟨rfl, hnone⟩
      · exact hspread.carry (.cons habove hbehind hlater)
      · -- without signs there are no comments
        have hcount : (visibleLines above ++ behind).flatten.count '%' = 0 := by
          have hzero := hnone.1 hs
          rw [Notes.signs_singleton, habove, hbehind, count_unlines, count_intercalate] at hzero
          rw [List.flatten_append, List.count_append, hzero]
        have hno : visibleLines above ++ behind = [] := by
          refine List.eq_nil_iff_forall_not_mem.2 fun comment hcomment => ?_
          have hsign := hsigns comment (List.mem_append_left _ hcomment)
          exact List.count_eq_zero.1 hcount (List.mem_flatten.2 ⟨comment, hcomment, hsign⟩)
        rw [hno]
        exact hlater

end Groups

end Reader

/-! ## Comments of scripts -/

/-- Every comment that is found has a statement to be attached to, or stands behind the last one. -/
def CommentsAttach (script : Text) : Prop := ∀ r ∈ Reader.empty.completed 1 (Text.lines script), r.Attaches

instance (script : Text) : Decidable (CommentsAttach script) :=
  inferInstanceAs (Decidable (∀ r ∈ Reader.empty.completed 1 (Text.lines script), r.Attaches))

/-- **No comment is lost** exactly when bracket literals are closed before the comments of their lines, and there is no line
of semicolons or of a mark of continuation for comments to be lost with. -/
theorem carry_iff (h : readBlocks script = .ok blocks) :
    Carry (blocks.map Block.notes) (Text.comments script) ↔
      (∀ line ∈ Text.lines script, ClosesBeforeComment line) ∧ CommentsAttach script := by
  obtain ⟨groups, hgroups, rfl⟩ := Reader.readFrom_eq_ok h
  have hfound : Carry _ (foundComments (Text.lines script)) := Reader.Holds.empty.carry_completed 1 (Text.lines script)
  constructor
  · intro hcarry
    obtain ⟨hsigns, hattach⟩ := Reader.signs_groups hgroups
    obtain ⟨hcount, hclosed⟩ := count_foundComments (Text.lines script)
    rw [hcarry.signs_eq, hfound.signs_eq] at hsigns hattach
    exact ⟨hclosed hsigns, hattach hcount⟩
  · rintro ⟨hclosed, hattach⟩
    have hcarry := Reader.carry_groups hgroups hattach percent_mem_of_mem_foundComments hfound
    rwa [foundComments_eq hclosed] at hcarry

/-- Comments above a statement, behind a line that goes on, behind two statements and behind the last one are kept. -/
theorem carry_passage :
    (readBlocks "% first\n\nx = 1 + ... % second\n2; y = 3 % third\n% last".toList).map (List.map Block.notes) =
        .ok [⟨"% first\n\n".toList, []⟩, ⟨[], "% second % third".toList⟩, ⟨"% last\n".toList, []⟩] ∧
      Text.comments "% first\n\nx = 1 + ... % second\n2; y = 3 % third\n% last".toList =
        ["% first".toList, "% second".toList, "% third".toList, "% last".toList] ∧
      Carry [⟨"% first\n\n".toList, []⟩, ⟨[], "% second % third".toList⟩, ⟨"% last\n".toList, []⟩]
        ["% first".toList, "% second".toList, "% third".toList, "% last".toList] := by
  have hnotes : (readBlocks "% first\n\nx = 1 + ... % second\n2; y = 3 % third\n% last".toList).map
      (List.map Block.notes) =
        .ok [⟨"% first\n\n".toList, []⟩, ⟨[], "% second % third".toList⟩, ⟨"% last\n".toList, []⟩] := by
    decide +kernel
  have hcomments : Text.comments "% first\n\nx = 1 + ... % second\n2; y = 3 % third\n% last".toList =
      ["% first".toList, "% second".toList, "% third".toList, "% last".toList] := by
    decide +kernel
  obtain ⟨blocks, hblocks, hmap⟩ := map_eq_ok_iff.1 hnotes
  have hcarry := (carry_iff hblocks).2 ⟨by decide +kernel, by decide +kernel⟩
  rw [hmap, hcomments] at hcarry
  exact ⟨hnotes, hcomments, hcarry⟩

/-- The comment above a line that holds nothing but a semicolon is lost. -/
theorem exists_lost_comment :
    ¬∀ (script : Text) (blocks : List Block), readBlocks script = .ok blocks →
      Carry (blocks.map Block.notes) (Text.comments script) := by
  intro hall
  have hnotes : (readBlocks "% c\n;\nx = 1".toList).map (List.map Block.notes) = .ok [⟨[], []⟩] := by decide +kernel
  have hcomments : Text.comments "% c\n;\nx = 1".toList = ["% c".toList] := by decide +kernel
  obtain ⟨blocks, hblocks, hmap⟩ := map_eq_ok_iff.1 hnotes
  have hsigns := (hall _ _ hblocks).signs_eq
  rw [hmap, hcomments] at hsigns
  exact absurd hsigns (by decide)

end MissionScript
