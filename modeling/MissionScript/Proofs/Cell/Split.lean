/-
Texts that are divided at separators.

A separator divides a text where the parentheses before it leave nothing open. A closer without an opener leaves nothing
open either, so that texts are divided whether their parentheses balance or not. Behind a separator the depth is what it
is at the beginning of a text, and a separator is live, so that a part is read and divided on its own as in the whole.

- `splitFrom_intercalate`: the parts with the separators between them are the text.
- `cutFrom_eq_some`: a cut is made at the first separator outside all parentheses.
- `splitFrom_of_cutFrom`, `splitFrom_of_cutFrom_none`: the first part is what a cut takes off, or all there is.
- `split_of_mem_split`: a part stays in one piece.
- `split_stable`: the parts make up the text, stay as they are, and the first one ends where a separator is found first.
-/
import MissionScript.Proofs.Cell.Cut

namespace MissionScript

open Cell Posture

variable {t part left right : Text} {cs : List Cell} {sep : Char} {depth : Nat}

/-! ## Parts and separators -/

/-- The parts of a division with the separators between them are the text. -/
theorem splitFrom_intercalate (sep : Char) (depth : Nat) (cs : List Cell) :
    [sep].intercalate (splitFrom sep depth cs) = text cs := by
  induction cs generalizing depth with
  | nil => rfl
  | cons cell rest ih =>
    unfold splitFrom
    split_ifs with hsep
    · -- a separator ends an empty part
      obtain ⟨part, parts, hparts⟩ := List.exists_cons_of_ne_nil (splitFrom_ne_nil sep 0 rest)
      have hchar : cell.char = sep := beq_iff_eq.1 (Bool.and_eq_true_iff.1 (Bool.and_eq_true_iff.1 hsep).2).2
      have hrest := ih 0
      rw [hparts] at hrest ⊢
      rw [List.intercalate_cons_cons, hrest, List.nil_append, ← hchar]
      rfl
    · obtain ⟨part, parts, hparts⟩ := List.exists_cons_of_ne_nil (splitFrom_ne_nil sep (depthAfter depth cell) rest)
      have hrest := ih (depthAfter depth cell)
      rw [hparts] at hrest ⊢
      change [sep].intercalate ((cell.char :: part) :: parts) = cell.char :: text rest
      rw [← hrest]
      cases parts with
      | nil => simp [List.intercalate_singleton]
      | cons next more => simp [List.intercalate_cons_cons]

namespace Cell

/-! ## The first part -/

/-- A cut is made at the first separator outside all parentheses. -/
theorem cutFrom_eq_some (h : cutFrom sep depth cs = some (left, right)) :
    ∃ as bs, cs = as ++ ⟨sep, .live⟩ :: bs ∧ text as = left ∧ text bs = right ∧ as.foldl depthAfter depth = 0 ∧
      ∀ before cell after, as = before ++ cell :: after → cell.holds sep = true →
        before.foldl depthAfter depth ≠ 0 := by
  induction cs generalizing depth left with
  | nil => exact absurd h (by simp [cutFrom])
  | cons cell cs ih =>
    rw [cutFrom] at h
    split_ifs at h with hcut
    · obtain ⟨hdepth, hholds⟩ := Bool.and_eq_true_iff.1 hcut
      obtain ⟨rfl, rfl⟩ := Prod.mk.inj (Option.some.inj h)
      refine ⟨[], cs, by rw [eq_of_holds hholds]; rfl, rfl, rfl, beq_iff_eq.1 hdepth, ?_⟩
      intro before cell after hnil
      exact absurd hnil (by simp)
    · obtain ⟨⟨left', right'⟩, hlater, hparts⟩ := Option.map_eq_some_iff.1 h
      obtain ⟨rfl, rfl⟩ := Prod.mk.inj hparts
      obtain ⟨as, bs, rfl, rfl, rfl, hlevel, hfirst⟩ := ih hlater
      refine ⟨cell :: as, bs, rfl, rfl, rfl, hlevel, ?_⟩
      intro before other after heq hholds
      cases before with
      | nil =>
        obtain rfl : cell = other := (List.cons.inj heq).1
        intro hdepth
        exact hcut (Bool.and_eq_true_iff.2 ⟨beq_iff_eq.2 hdepth, hholds⟩)
      | cons first before =>
        obtain ⟨rfl, hlater⟩ := List.cons.inj heq
        exact hfirst before other after hlater hholds

theorem splitFrom_of_cutFrom_none (h : cutFrom sep depth cs = none) : splitFrom sep depth cs = [text cs] :=
  calc splitFrom sep depth cs
      = splitFrom sep depth (cs ++ []) := by rw [List.append_nil]
    _ = prependFirst (text cs) (splitFrom sep (cs.foldl depthAfter depth) []) := splitFrom_append_of_cutFrom h []
    _ = [text cs] := by rw [splitFrom, prependFirst, List.append_nil]

/-- What a cut takes off is the first part, and is not cut again. Behind the separator the division begins anew. -/
theorem splitFrom_of_cutFrom (h : cutFrom sep depth cs = some (left, right)) :
    ∃ as bs, cs = as ++ ⟨sep, .live⟩ :: bs ∧ text as = left ∧ text bs = right ∧ cutFrom sep depth as = none ∧
      splitFrom sep depth cs = left :: splitFrom sep 0 bs := by
  obtain ⟨as, bs, rfl, rfl, rfl, hlevel, hfirst⟩ := cutFrom_eq_some h
  have hnone : cutFrom sep depth as = none := by
    by_contra hsome
    obtain ⟨⟨left', right'⟩, hcut⟩ := Option.ne_none_iff_exists'.1 hsome
    obtain ⟨before, after, has, -, -, hbefore, -⟩ := cutFrom_eq_some hcut
    exact hfirst before ⟨sep, .live⟩ after has (by simp [holds, isLive]) hbefore
  refine ⟨as, bs, rfl, rfl, rfl, hnone, ?_⟩
  rw [splitFrom_append_of_cutFrom hnone, hlevel, splitFrom, if_pos (by simp [holds, isLive]), prependFirst,
    List.append_nil]

/-! ## Parts on their own -/

/-- **A part stays in one piece.** Divided on its own it is not divided, whether its parentheses balance or not. -/
theorem split_of_mem_split (hdigit : sep.isDigit = false) (hfollows : ∀ u, followsOperand (sep :: u) = false)
    (h : part ∈ split sep (cells t)) : split sep (cells part) = [part] := by
  induction hlength : t.length using Nat.strong_induction_on generalizing t with
  | _ n ih =>
    rw [split] at h
    cases hcut : cutFrom sep 0 (cells t) with
    | none =>
      have hwhole := splitFrom_of_cutFrom_none hcut
      rw [text_cells] at hwhole
      rw [hwhole] at h
      obtain rfl := List.mem_singleton.1 h
      exact hwhole
    | some parts =>
      obtain ⟨left, right⟩ := parts
      obtain ⟨as, bs, hcells, rfl, rfl, hnone, hsplit⟩ := splitFrom_of_cutFrom hcut
      rw [hsplit] at h
      rcases List.mem_cons.1 h with rfl | h
      · rw [cells_before hcells hdigit]
        exact splitFrom_of_cutFrom_none hnone
      · have hbehind : cells (text bs) = bs := cells_behind hcells hfollows
        have hshorter : (text bs).length < n := by
          have hwhole := congrArg List.length hcells
          rw [length_cells, List.length_append, List.length_cons] at hwhole
          rw [length_text]
          omega
        exact ih _ hshorter (t := text bs) (by rw [split, hbehind]; exact h) rfl

/-! ## Places -/

/-- the place of the first separator on the outermost level, from a given place and a given depth on -/
def placeFrom (sep : Char) (place depth : Nat) : List Cell → Option Nat
  | [] => none
  | cell :: rest =>
    if depth == 0 && cell.holds sep then some place
    else placeFrom sep (place + cell.char.utf8Size) (depthAfter depth cell) rest

/-- the place of the first separator on the outermost level, counted in bytes -/
def place? (sep : Char) (cs : List Cell) : Option Nat := placeFrom sep 0 0 cs

/-- A separator is found where a cut is made. -/
theorem placeFrom_eq (sep : Char) (place depth : Nat) (cs : List Cell) :
    placeFrom sep place depth cs =
      (cutFrom sep depth cs).map fun parts => place + (String.ofList parts.1).utf8ByteSize := by
  induction cs generalizing place depth with
  | nil => rfl
  | cons cell cs ih =>
    rw [placeFrom, cutFrom]
    split_ifs with hsep
    · rfl
    · rw [ih, Option.map_map]
      congr 1
      funext parts
      rw [Function.comp_apply, String.ofList_cons, String.utf8ByteSize_append, String.utf8ByteSize_singleton]
      omega

/-- A separator is found exactly when there is more than one part, and then behind the first one. -/
theorem place?_eq_some_iff {i : Nat} : place? sep cs = some i ↔
    ∃ first next others, split sep cs = first :: next :: others ∧ (String.ofList first).utf8ByteSize = i := by
  rw [place?, placeFrom_eq, split]
  cases hcut : cutFrom sep 0 cs with
  | none =>
    rw [splitFrom_of_cutFrom_none hcut]
    simp
  | some parts =>
    obtain ⟨left, right⟩ := parts
    obtain ⟨as, bs, -, -, -, -, hsplit⟩ := splitFrom_of_cutFrom hcut
    obtain ⟨next, others, hlater⟩ := List.exists_cons_of_ne_nil (splitFrom_ne_nil sep 0 bs)
    rw [hsplit, hlater]
    simp

end Cell

/-- **Division at commas and semicolons is exact and stable.** For every text, well formed or not, the parts with the
separators between them are the text; each part, divided on its own, is one part; and a separator is found exactly when
there is more than one part, the bytes before it being those of the first part. -/
theorem split_stable (t : Text) (hsep : sep = ',' ∨ sep = ';') :
    [sep].intercalate (split sep (cells t)) = t ∧
      (∀ part ∈ split sep (cells t), split sep (cells part) = [part]) ∧
      ∀ i, place? sep (cells t) = some i ↔ ∃ first next others, split sep (cells t) = first :: next :: others ∧
        (String.ofList first).utf8ByteSize = i := by
  have hdigit : sep.isDigit = false := by rcases hsep with rfl | rfl <;> decide
  have hfollows : ∀ u, followsOperand (sep :: u) = false := by rcases hsep with rfl | rfl <;> exact fun _ => rfl
  refine ⟨?_, fun part => split_of_mem_split hdigit hfollows, fun i => place?_eq_some_iff⟩
  calc [sep].intercalate (split sep (cells t))
      = text (cells t) := splitFrom_intercalate sep 0 (cells t)
    _ = t := text_cells t

/-- A closer without an opener, a bracket literal, and a string that does not end. -/
theorem split_stable_stray_closer :
    let t := "f(a, b)) é, [x, 1], 'it, (".toList
    split ',' (cells t) = ["f(a, b)) é".toList, " [x, 1]".toList, " 'it, (".toList] ∧
      [','].intercalate (split ',' (cells t)) = t ∧ split ',' (cells " 'it, (".toList) = [" 'it, (".toList] ∧
      place? ',' (cells t) = some 11 := by
  intro t
  have hparts : split ',' (cells t) = ["f(a, b)) é".toList, " [x, 1]".toList, " 'it, (".toList] := by decide +kernel
  have hcomma : ',' = ',' ∨ ',' = ';' := .inl rfl
  obtain ⟨hjoined, hstays, hplace⟩ := split_stable t hcomma
  refine ⟨hparts, hjoined, hstays _ (by rw [hparts]; simp), ?_⟩
  exact (hplace 11).2 ⟨_, _, _, hparts, by decide +kernel⟩

end MissionScript
