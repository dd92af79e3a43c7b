/-
The kind of function that a name stands for.

A vocabulary is `Attained` when it comes about by meeting references, one at a time and each with a finder of its own, so
that a finder may also change its mind. Nothing that stands for a built-in function is ever added, in any spelling.
- `Attained.lookup_eq_none`: the step and the run of that invariant.
- `CapitalFolding.lowerFirst_cases`: the lower case of letters beyond ASCII has no part in it.
- `kinds_apart`: a name stands for one function at most, and all questions about it agree.
-/
import MissionScript.Proofs.Cell.Operand
import MissionScript.Proofs.Function.Discovery
import MissionScript.Proofs.Function.Names

namespace MissionScript

variable {finds : Text → Bool} {voc : Vocabulary} {name lower : Text}

/-! ## Letters beyond ASCII -/

theorem toNat_lt_of_isWordChar {c : Char} (h : isWordChar c = true) : c.toNat < 128 := by
  change c.val.toNat < 128
  by_cases hdigit : c.isDigit = true
  · have hbounds := Char.isDigit_iff_toNat.1 hdigit
    exact lt_of_le_of_lt hbounds.2 (by decide)
  · rcases isNameStart_iff.1 (Posture.isNameStart_of_isWordChar h (by simpa using hdigit)) with hrange | hrange | rfl
    · omega
    · omega
    · decide

/-- the lower case of capitals in any script: that of the capitals of ASCII is ASCII, that of the Kelvin sign is `k`, and no
other capital has one that is ASCII throughout -/
structure CapitalFolding where
  lower? : Char → Option Text
  ascii : ∀ c, c.toNat < 128 → lower? c = if c.isUpper then some [c.toLower] else none
  kelvin : lower? '\u212a' = some ['k']
  beyond : ∀ c lower, 128 ≤ c.toNat → c ≠ '\u212a' → lower? c = some lower → ∃ x ∈ lower, 128 ≤ x.toNat

namespace CapitalFolding

/-- Only the Kelvin sign is a capital beyond ASCII. -/
instance : Inhabited CapitalFolding where
  default :=
    { lower? := fun c => if c.isUpper then some [c.toLower] else if c = '\u212a' then some ['k'] else none
      ascii := by
        intro c hascii
        have hkelvin : c ≠ '\u212a' := by
          rintro rfl
          exact absurd hascii (by decide)
        rw [if_neg hkelvin]
      kelvin := by decide
      beyond := by
        intro c lower hcode hkelvin hlower
        split_ifs at hlower with hupper
        have hrange := isUpper_iff.1 hupper
        omega }

/-- the name with its first letter in lower case, when that letter is a capital in any script -/
def lowerFirst (folding : CapitalFolding) : Text → Option Text
  | [] => none
  | c :: rest => (folding.lower? c).map fun lower => lower ++ rest

/-- Beyond ASCII, what a name is lowered to is no name of a function. -/
theorem lowerFirst_cases (folding : CapitalFolding) (name : Text) :
    folding.lowerFirst name = MissionScript.lowerFirst name ∨
      MissionScript.lowerFirst name = none ∧
        ∀ lower, folding.lowerFirst name = some lower → ∃ x ∈ lower, 128 ≤ x.toNat := by
  cases name with
  | nil => exact .inl rfl
  | cons c rest =>
    by_cases hascii : c.toNat < 128
    · have hkelvin : c ≠ '\u212a' := by
        rintro rfl
        exact absurd hascii (by decide)
      left
      by_cases hupper : c.isUpper = true
      · simp [lowerFirst, MissionScript.lowerFirst, folding.ascii c hascii, hupper]
      · simp [lowerFirst, MissionScript.lowerFirst, folding.ascii c hascii, hupper, hkelvin]
    · by_cases hkelvin : c = '\u212a'
      · left
        subst hkelvin
        simp only [lowerFirst, folding.kelvin, Option.map_some]
        rfl
      · right
        have hupper : c.isUpper = false := by
          by_contra hupper
          have hrange := isUpper_iff.1 (by simpa using hupper)
          omega
        refine ⟨by simp [MissionScript.lowerFirst, hupper, hkelvin], fun lower hlower => ?_⟩
        obtain ⟨first, hfirst, rfl⟩ := Option.map_eq_some_iff.1 hlower
        obtain ⟨x, hx, hbeyond⟩ := folding.beyond c first (Nat.not_lt.1 hascii) hkelvin hfirst
        exact ⟨x, List.mem_append_left rest hx, hbeyond⟩

end CapitalFolding

/-! ## Built-in functions -/

namespace Builtin

theorem mem_of_named {f : Builtin} (h : named name = some f) : f ∈ all ∧ f.name = name :=
  ⟨List.mem_of_find?_eq_some h, by simpa using List.find?_some h⟩

theorem lowerFirst_of_named {f : Builtin} (h : named name = some f) : lowerFirst name = none := by
  have hall : ∀ f ∈ all, lowerFirst f.name = none := by decide
  obtain ⟨hmem, rfl⟩ := mem_of_named h
  exact hall f hmem

theorem toNat_lt_of_named {f : Builtin} (h : named name = some f) : ∀ c ∈ name, c.toNat < 128 := by
  have hall : ∀ f ∈ all, (f.name.all fun c => c.toNat < 128) = true := by decide
  obtain ⟨hmem, rfl⟩ := mem_of_named h
  simpa using hall f hmem

theorem named_ne_none {f : Builtin} (h : f ∈ all) : named f.name ≠ none := by
  intro hnone
  have hother := List.find?_eq_none.1 hnone f h
  exact hother (beq_self_eq_true f.name)

theorem mem_of_lookup {f : Builtin} (h : lookup name = some f) : f ∈ all := by
  rw [lookup, Option.orElse_eq_orElse, Option.orElse_eq_or, Option.or_eq_some_iff] at h
  rcases h with hnamed | ⟨-, hlower⟩
  · exact (mem_of_named hnamed).1
  · obtain ⟨lower, -, hnamed⟩ := Option.bind_eq_some_iff.1 hlower
    exact (mem_of_named hnamed).1

/-- A name that stands for no built-in function is not the name of one, as it is spelled or in lower case. -/
theorem lookup_eq_none_iff : lookup name = none ↔
    named name = none ∧ ∀ lower, lowerFirst name = some lower → named lower = none := by
  simp [lookup, Option.bind_eq_none_iff]

end Builtin

/-! ## Vocabularies -/

namespace Vocabulary

theorem isSome_arity? (voc : Vocabulary) (name : Text) : (voc.arity? name).isSome = (voc.kind? name).isSome := by
  unfold arity? kind?
  cases Builtin.lookup name with
  | some f => rfl
  | none => cases voc.hasUserDefined name <;> rfl

/-- vocabularies that come about by meeting references, each with a finder of its own -/
inductive Attained : Vocabulary → Prop where
  | initial : Attained .initial
  | meet (finds : Text → Bool) {d : Discovery} {t r : Text} (hr : r ∈ Text.references t) (h : Attained d.vocabulary) :
    Attained (d.meet finds r).vocabulary

namespace Attained

theorem learn (h : voc.Attained) (finds : Text → Bool) (t : Text) : (voc.learn finds t).Attained := by
  have key : ∀ (rs : List Text) (d : Discovery), d.vocabulary.Attained → (∀ r ∈ rs, r ∈ Text.references t) →
      (rs.foldl (Discovery.meet finds) d).vocabulary.Attained := by
    intro rs
    induction rs with
    | nil => exact fun d hd _ => hd
    | cons r rs ih =>
      intro d hd hrs
      exact ih _ (.meet finds (hrs r List.mem_cons_self) hd) fun r' hr' => hrs r' (List.mem_cons_of_mem r hr')
  exact key _ ⟨voc, 0, []⟩ h fun _ hr => hr

/-- What comes about by meeting texts, with finders that do not change meanwhile, is attained. -/
theorem of_reachable (h : voc.Reachable) : voc.Attained := by
  induction h with
  | initial => exact .initial
  | learn finds t _ ih => exact ih.learn finds t

theorem hasIdentifiers (h : voc.Attained) : voc.HasIdentifiers := by
  induction h with
  | initial => exact Reachable.initial.hasIdentifiers
  | meet finds hr _ ih => exact ih.meet (Text.reference_of_mem hr)

/-- **No function of the script has a name that stands for a built-in function.** -/
theorem lookup_eq_none (h : voc.Attained) (hname : voc.userDefined.contains name = true) :
    Builtin.lookup name = none := by
  induction h with
  | initial => simp [Vocabulary.initial, NameSet.empty, NameSet.contains] at hname
  | @meet finds d t r hr _ ih =>
    rcases meet_cases finds d r with ⟨hfindable, -, hmeet⟩ | ⟨-, hvocabulary, -⟩
    · simp only [hmeet, NameSet.contains_insert, Bool.or_eq_true, beq_iff_eq] at hname
      rcases hname with rfl | hname
      · exact hfindable.unused
      · exact ih hname
    · rw [hvocabulary] at hname
      exact ih hname

/-- A name that stands for a function of the script stands for no built-in function. -/
theorem lookup_of_hasUserDefined (h : voc.Attained) (hname : voc.hasUserDefined name = true) :
    Builtin.lookup name = none := by
  rcases hasUserDefined_iff.1 hname with hexact | ⟨lower, hlower, hmem⟩
  · exact h.lookup_eq_none hexact
  · have hunnamed : Builtin.named lower = none := (Builtin.lookup_eq_none_iff.1 (h.lookup_eq_none hmem)).1
    refine Builtin.lookup_eq_none_iff.2 ⟨?_, fun lower' hlower' => ?_⟩
    · by_contra hnamed
      obtain ⟨f, hf⟩ := Option.ne_none_iff_exists'.1 hnamed
      rw [Builtin.lowerFirst_of_named hf] at hlower
      exact absurd hlower (by simp)
    · obtain rfl : lower = lower' := Option.some.inj (hlower.symm.trans hlower')
      exact hunnamed

theorem kind?_eq_some_iff (h : voc.Attained) (kind : FunctionKind) :
    voc.kind? name = some kind ↔ voc.knows name kind = true := by
  have huser : Builtin.lookup name ≠ none → voc.hasUserDefined name = false := by
    intro hlookup
    by_contra hname
    exact hlookup (h.lookup_of_hasUserDefined (by simpa using hname))
  have hall : ∀ f ∈ Builtin.all, f.kind ≠ .userDefined := by decide
  unfold Vocabulary.kind?
  cases hlookup : Builtin.lookup name with
  | none =>
    cases kind with
    | userDefined => simp [knows]
    | _ => simp [knows, hlookup]
  | some f =>
    cases kind with
    | userDefined =>
      simp [knows, huser (by simp [hlookup]), hall f (Builtin.mem_of_lookup hlookup)]
    | _ => simp [knows, hlookup]

/-- In whichever way capitals beyond ASCII are lowered, no other function is found. -/
theorem lowerFirst_alike (h : voc.Attained) (folding : CapitalFolding) (name : Text) :
    (folding.lowerFirst name).bind Builtin.named = (lowerFirst name).bind Builtin.named ∧
      (folding.lowerFirst name).any voc.userDefined.contains = (lowerFirst name).any voc.userDefined.contains := by
  rcases folding.lowerFirst_cases name with hsame | ⟨hnone, hbeyond⟩
  · rw [hsame]
    exact ⟨rfl, rfl⟩
  · rw [hnone]
    cases hlower : folding.lowerFirst name with
    | none => exact ⟨rfl, rfl⟩
    | some lower =>
      obtain ⟨x, hx, hcode⟩ := hbeyond lower hlower
      constructor
      · by_contra hnamed
        obtain ⟨f, hf⟩ := Option.ne_none_iff_exists'.1 hnamed
        have hascii := Builtin.toNat_lt_of_named hf x hx
        omega
      · by_contra hmem
        have hentry : voc.userDefined.contains lower = true := by simpa using hmem
        have hascii := toNat_lt_of_isWordChar ((h.hasIdentifiers lower hentry).isWordChar x hx)
        omega

end Attained

/-- **A name stands for one function at most.** Whatever has been met, the name is known to be of one kind at most, it is of
that kind, and it has an arity exactly when it has a kind. A function of the script has an identifier for its name, which is
not the name of a built-in function, as it is spelled or in lower case. Capitals beyond ASCII make no difference. -/
theorem kinds_apart (h : voc.Attained) (name : Text) :
    (∀ kind kind', voc.knows name kind = true → voc.knows name kind' = true → kind = kind') ∧
      (∀ kind, voc.kind? name = some kind ↔ voc.knows name kind = true) ∧
      (voc.arity? name).isSome = (voc.kind? name).isSome ∧
      (∀ entry, voc.userDefined.contains entry = true →
        IsIdentifier entry ∧ ∀ f ∈ Builtin.all, entry ≠ f.name ∧ lowerFirst entry ≠ some f.name) ∧
      ∀ folding : CapitalFolding,
        (folding.lowerFirst name).bind Builtin.named = (lowerFirst name).bind Builtin.named ∧
          (folding.lowerFirst name).any voc.userDefined.contains = (lowerFirst name).any voc.userDefined.contains := by
  refine ⟨fun kind kind' hknown hknown' => ?_, fun kind => h.kind?_eq_some_iff kind, isSome_arity? voc name,
    fun entry hentry => ⟨h.hasIdentifiers entry hentry, fun f hf => ?_⟩, fun folding => h.lowerFirst_alike folding name⟩
  · have hkind := (h.kind?_eq_some_iff kind).2 hknown
    have hkind' := (h.kind?_eq_some_iff kind').2 hknown'
    exact Option.some.inj (hkind.symm.trans hkind')
  · obtain ⟨hexact, hlower⟩ := Builtin.lookup_eq_none_iff.1 (h.lookup_eq_none hentry)
    have hnamed : Builtin.named f.name ≠ none := Builtin.named_ne_none hf
    constructor
    · rintro rfl
      exact hnamed hexact
    · intro hfirst
      exact hnamed (hlower f.name hfirst)

/-- `kepler` has been met, and the name is written with a Kelvin sign. -/
theorem kinds_apart_kelvin_sign :
    (initial.learn (fun _ => true) "kepler(Sin(x))".toList).Attained ∧
      (initial.learn (fun _ => true) "kepler(Sin(x))".toList).knows "\u212aepler".toList .userDefined = true ∧
      (initial.learn (fun _ => true) "kepler(Sin(x))".toList).kind? "\u212aepler".toList = some .userDefined ∧
      (initial.learn (fun _ => true) "kepler(Sin(x))".toList).knows "Sin".toList .userDefined = false := by
  have hattained := Attained.of_reachable (.learn (fun _ => true) "kepler(Sin(x))".toList .initial)
  obtain ⟨-, hkind, -⟩ := kinds_apart hattained "\u212aepler".toList
  obtain ⟨hunique, -⟩ := kinds_apart hattained "Sin".toList
  have hkepler : (initial.learn (fun _ => true) "kepler(Sin(x))".toList).knows "\u212aepler".toList .userDefined = true := by
    decide +kernel
  refine ⟨hattained, hkepler, (hkind .userDefined).2 hkepler, ?_⟩
  by_contra hsin
  exact absurd (hunique .scalar .userDefined (by decide) (by simpa using hsin)) (by decide)

end Vocabulary

end MissionScript
