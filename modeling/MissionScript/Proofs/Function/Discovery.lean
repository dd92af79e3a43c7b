/-
What is known after meeting texts.

A name is `Findable` when meeting it can make it a function: it is plain, hides behind no built-in function, and the finder
knows it. Which spellings a vocabulary stores depends on the order in which texts are met, since a name with a capital is
passed over once its lower case is there; which names it knows does not.
- `hasUserDefined_meet`, `hasUserDefined_learnAll`: exactly the findable names that have been met, and their spellings with
  a capital, become known.
- `alike_learnAll_of_perm`: the order of the texts does not matter to what is known.
- `size_learn`: the discovery counts the names it adds.
- `discover_learn`: a text has nothing new a second time.
-/
import MissionScript.Proofs.Function.Growth

namespace MissionScript

variable {finds : Text → Bool} {voc later : Vocabulary} {name : Text} {t : Text} {texts : List Text}

/-! ## Capitals -/

theorem isUpper_iff {c : Char} : c.isUpper = true ↔ 65 ≤ c.toNat ∧ c.toNat ≤ 90 := by
  have hupper : c.isUpper = decide ('A'.val ≤ c.val ∧ c.val ≤ 'Z'.val) := rfl
  rw [hupper, decide_eq_true_eq, UInt32.le_iff_toNat_le, UInt32.le_iff_toNat_le]
  rfl

theorem toNat_toLower {c : Char} (h : c.isUpper = true) : c.toLower.toNat = c.toNat + 32 := by
  obtain ⟨hle, hge⟩ := isUpper_iff.1 h
  have hrange : c.val ≥ 'A'.val ∧ c.val ≤ 'Z'.val := by
    rw [ge_iff_le, UInt32.le_iff_toNat_le, UInt32.le_iff_toNat_le]
    exact ⟨hle, hge⟩
  unfold Char.toLower
  rw [dif_pos hrange]
  change (c.val + ('a'.val - 'A'.val)).toNat = c.val.toNat + 32
  rw [UInt32.toNat_add]
  change (c.toNat + 32) % 2 ^ 32 = c.toNat + 32
  omega

/-- What a name is lowered to begins with a letter in lower case. -/
theorem lowerFirst_eq_some {lower : Text} (h : lowerFirst name = some lower) :
    ∃ c rest, lower = c :: rest ∧ 97 ≤ c.toNat ∧ c.toNat ≤ 122 := by
  cases name with
  | nil => exact absurd h (by simp [lowerFirst])
  | cons c rest =>
    simp only [lowerFirst] at h
    split_ifs at h with hupper hkelvin
    · have hrange := isUpper_iff.1 hupper
      refine ⟨c.toLower, rest, (Option.some.inj h).symm, ?_⟩
      rw [toNat_toLower hupper]
      omega
    · exact ⟨'k', rest, (Option.some.inj h).symm, by decide, by decide⟩

/-- Nothing is lowered twice. -/
theorem lowerFirst_of_lowerFirst {lower : Text} (h : lowerFirst name = some lower) : lowerFirst lower = none := by
  obtain ⟨c, rest, rfl, hle, hge⟩ := lowerFirst_eq_some h
  have hupper : c.isUpper = false := by
    by_contra hupper
    have hrange := isUpper_iff.1 (by simpa using hupper)
    omega
  have hkelvin : c ≠ '\u212a' := by
    rintro rfl
    exact absurd hge (by decide)
  simp [lowerFirst, hupper, hkelvin]

namespace Vocabulary

/-- true of the names that become functions when they are met -/
structure Findable (finds : Text → Bool) (name : Text) : Prop where
  plain : Reference.isDotted name = false
  unused : Builtin.lookup name = none
  found : finds name = true

def learnAll (voc : Vocabulary) (finds : Text → Bool) (texts : List Text) : Vocabulary :=
  texts.foldl (fun voc t => voc.learn finds t) voc

theorem kind?_eq_none_iff : voc.kind? name = none ↔ Builtin.lookup name = none ∧ voc.hasUserDefined name = false := by
  unfold kind?
  split
  · next hlookup => simp [hlookup]
  · next hlookup => simp [hlookup]

/-- What is known of names that stand for no built-in function decides the kind. -/
theorem kind?_congr
    (h : Builtin.lookup name = none → (voc.hasUserDefined name = true ↔ later.hasUserDefined name = true)) :
    voc.kind? name = later.kind? name := by
  unfold kind?
  cases hlookup : Builtin.lookup name with
  | some f => rfl
  | none => simp only [Bool.eq_iff_iff.2 (h hlookup)]

theorem arity?_congr (h : voc.kind? name = later.kind? name) : voc.arity? name = later.arity? name := by
  unfold kind? at h
  unfold arity?
  cases hlookup : Builtin.lookup name with
  | some f => rfl
  | none =>
    simp only [hlookup] at h ⊢
    by_cases hknown : voc.hasUserDefined name = true
    · by_cases hlater : later.hasUserDefined name = true
      · rw [if_pos hknown, if_pos hlater]
      · rw [if_pos hknown, if_neg hlater] at h
        exact absurd h (by simp)
    · by_cases hlater : later.hasUserDefined name = true
      · rw [if_neg hknown, if_pos hlater] at h
        exact absurd h (by simp)
      · rw [if_neg hknown, if_neg hlater]

theorem hasUserDefined_iff : voc.hasUserDefined name = true ↔
    voc.userDefined.contains name = true ∨
      ∃ lower, lowerFirst name = some lower ∧ voc.userDefined.contains lower = true := by
  rw [hasUserDefined, Bool.or_eq_true, Option.any_eq_true]

/-! ## One reference -/

/-- **What meeting a reference can do**: a findable name that is not known is added and counted, and anything else changes
neither the vocabulary nor the count. -/
theorem meet_cases (finds : Text → Bool) (d : Discovery) (r : Text) :
    (Findable finds r ∧ d.vocabulary.hasUserDefined r = false ∧
        d.meet finds r = ⟨⟨d.vocabulary.userDefined.insert r⟩, d.added + 1, d.asked ++ [r]⟩) ∨
      ((Findable finds r → d.vocabulary.hasUserDefined r = true) ∧
        (d.meet finds r).vocabulary = d.vocabulary ∧ (d.meet finds r).added = d.added) := by
  unfold Discovery.meet
  split_ifs with hpassed hfinds
  · refine .inr ⟨fun hr => ?_, rfl, rfl⟩
    have hsome : (d.vocabulary.kind? r).isSome = true := by simpa [hr.plain] using hpassed
    by_contra hnone
    rw [kind?_eq_none_iff.2 ⟨hr.unused, by simpa using hnone⟩] at hsome
    exact absurd hsome (by decide)
  · simp only [Bool.or_eq_true, not_or, Bool.not_eq_true, Option.isSome_eq_false_iff, Option.isNone_iff_eq_none] at hpassed
    obtain ⟨hunused, hunknown⟩ := kind?_eq_none_iff.1 hpassed.2
    exact .inl ⟨⟨hpassed.1, hunused, hfinds⟩, hunknown, rfl⟩
  · exact .inr ⟨fun hr => absurd hr.found hfinds, rfl, rfl⟩

/-- **What becomes known by meeting a reference**: the reference, if it can be found, and its spelling with a capital. -/
theorem hasUserDefined_meet (d : Discovery) (r : Text) :
    (d.meet finds r).vocabulary.hasUserDefined name = true ↔
      d.vocabulary.hasUserDefined name = true ∨ Findable finds r ∧ (name = r ∨ lowerFirst name = some r) := by
  rcases meet_cases finds d r with ⟨hr, -, hmeet⟩ | ⟨hknown, hvocabulary, -⟩
  · simp only [hmeet, hasUserDefined_iff, NameSet.contains_insert, Bool.or_eq_true, beq_iff_eq, hr, true_and]
    constructor
    · rintro ((rfl | hname) | ⟨lower, hlower, rfl | hmem⟩)
      · exact .inr (.inl rfl)
      · exact .inl (.inl hname)
      · exact .inr (.inr hlower)
      · exact .inl (.inr ⟨lower, hlower, hmem⟩)
    · rintro ((hname | ⟨lower, hlower, hmem⟩) | rfl | hlower)
      · exact .inl (.inr hname)
      · exact .inr ⟨lower, hlower, .inr hmem⟩
      · exact .inl (.inl rfl)
      · exact .inr ⟨r, hlower, .inl rfl⟩
  · rw [hvocabulary]
    refine ⟨Or.inl, ?_⟩
    rintro (hname | ⟨hr, rfl | hlower⟩)
    · exact hname
    · exact hknown hr
    · -- what names are lowered to is known only as it is spelled
      rcases hasUserDefined_iff.1 (hknown hr) with hexact | ⟨lower, hagain, -⟩
      · exact hasUserDefined_iff.2 (.inr ⟨r, hlower, hexact⟩)
      · rw [lowerFirst_of_lowerFirst hlower] at hagain
        exact absurd hagain (by simp)

/-! ## Texts -/

theorem hasUserDefined_foldl_meet (rs : List Text) (d : Discovery) :
    (rs.foldl (Discovery.meet finds) d).vocabulary.hasUserDefined name = true ↔
      d.vocabulary.hasUserDefined name = true ∨ ∃ r ∈ rs, Findable finds r ∧ (name = r ∨ lowerFirst name = some r) := by
  induction rs generalizing d with
  | nil => simp
  | cons r rs ih => rw [List.foldl_cons, ih, hasUserDefined_meet, List.exists_mem_cons_iff, or_assoc]

theorem hasUserDefined_learn : (voc.learn finds t).hasUserDefined name = true ↔
    voc.hasUserDefined name = true ∨
      ∃ r ∈ Text.references t, Findable finds r ∧ (name = r ∨ lowerFirst name = some r) :=
  hasUserDefined_foldl_meet _ ⟨voc, 0, []⟩

/-- **What is known after meeting texts.** -/
theorem hasUserDefined_learnAll : (voc.learnAll finds texts).hasUserDefined name = true ↔
    voc.hasUserDefined name = true ∨
      ∃ t ∈ texts, ∃ r ∈ Text.references t, Findable finds r ∧ (name = r ∨ lowerFirst name = some r) := by
  induction texts generalizing voc with
  | nil => simp [learnAll]
  | cons t texts ih =>
    change ((voc.learn finds t).learnAll finds texts).hasUserDefined name = true ↔ _
    rw [ih, hasUserDefined_learn, List.exists_mem_cons_iff, or_assoc]

/-- The same functions of the script are known in both vocabularies. -/
def Alike (voc later : Vocabulary) : Prop := ∀ name, voc.hasUserDefined name = later.hasUserDefined name

namespace Alike

theorem kind? (h : Alike voc later) (name : Text) : voc.kind? name = later.kind? name :=
  kind?_congr fun _ => by rw [h name]

theorem arity? (h : Alike voc later) (name : Text) : voc.arity? name = later.arity? name := arity?_congr (h.kind? name)

theorem knows (h : Alike voc later) (name : Text) (kind : FunctionKind) : voc.knows name kind = later.knows name kind := by
  cases kind with
  | userDefined => exact h name
  | _ => rfl

end Alike

/-- **The order of the texts does not matter.** -/
theorem alike_learnAll_of_perm {texts' : List Text} (h : texts.Perm texts') :
    Alike (voc.learnAll finds texts) (voc.learnAll finds texts') := by
  intro name
  rw [Bool.eq_iff_iff, hasUserDefined_learnAll, hasUserDefined_learnAll]
  simp only [h.mem_iff]

/-! ## Counting -/

theorem size_meet (finds : Text → Bool) (d : Discovery) (r : Text) :
    (d.meet finds r).vocabulary.userDefined.size + d.added = d.vocabulary.userDefined.size + (d.meet finds r).added := by
  rcases meet_cases finds d r with ⟨-, hunknown, hmeet⟩ | ⟨-, hvocabulary, hadded⟩
  · have hnew : d.vocabulary.userDefined.contains r = false := by
      by_contra hmem
      rw [hasUserDefined_iff.2 (.inl (by simpa using hmem))] at hunknown
      exact absurd hunknown (by decide)
    simp only [hmeet, NameSet.size_insert hnew]
    omega
  · rw [hvocabulary, hadded]

theorem size_learn (voc : Vocabulary) (finds : Text → Bool) (t : Text) :
    (voc.learn finds t).userDefined.size = voc.userDefined.size + (voc.discover finds t).added := by
  have key : ∀ (rs : List Text) (d : Discovery),
      (rs.foldl (Discovery.meet finds) d).vocabulary.userDefined.size + d.added =
        d.vocabulary.userDefined.size + (rs.foldl (Discovery.meet finds) d).added := by
    intro rs
    induction rs with
    | nil => exact fun d => rfl
    | cons r rs ih =>
      intro d
      have hstep := size_meet finds d r
      have hrest := ih (d.meet finds r)
      simp only [List.foldl_cons]
      omega
  exact key (Text.references t) ⟨voc, 0, []⟩

/-! ## Meeting a text again -/

/-- Where nothing is findable that is not known, nothing is added. -/
theorem foldl_meet_of_known {rs : List Text} {d : Discovery}
    (h : ∀ r ∈ rs, Findable finds r → d.vocabulary.hasUserDefined r = true) :
    (rs.foldl (Discovery.meet finds) d).vocabulary = d.vocabulary ∧
      (rs.foldl (Discovery.meet finds) d).added = d.added := by
  induction rs generalizing d with
  | nil => exact ⟨rfl, rfl⟩
  | cons r rs ih =>
    have hstep : (d.meet finds r).vocabulary = d.vocabulary ∧ (d.meet finds r).added = d.added := by
      rcases meet_cases finds d r with ⟨hr, hunknown, -⟩ | ⟨-, hsame⟩
      · rw [h r List.mem_cons_self hr] at hunknown
        exact absurd hunknown (by decide)
      · exact hsame
    have hrest := ih (d := d.meet finds r) fun r' hr' hfindable => by
      rw [hstep.1]
      exact h r' (List.mem_cons_of_mem r hr') hfindable
    exact ⟨hrest.1.trans hstep.1, hrest.2.trans hstep.2⟩

/-- A text has nothing new when it is met again. -/
theorem discover_learn (voc : Vocabulary) (finds : Text → Bool) (t : Text) :
    (voc.learn finds t).learn finds t = voc.learn finds t ∧ ((voc.learn finds t).discover finds t).added = 0 := by
  refine foldl_meet_of_known (d := ⟨voc.learn finds t, 0, []⟩) fun r hr hfindable => ?_
  exact hasUserDefined_learn.2 (.inr ⟨r, hr, hfindable, .inl rfl⟩)

end Vocabulary

end MissionScript
