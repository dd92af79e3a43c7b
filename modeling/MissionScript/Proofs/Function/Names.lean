/-
The names of functions.

A vocabulary is `Reachable` when it comes about by meeting texts, with whatever finders.
- `Reachable.hasIdentifiers`: every function of the script has a plain identifier for its name.
- `Reachable.kind?_eq_none`: what does not begin like a name stands for no function.
-/
import MissionScript.Function.Vocabulary
import MissionScript.Proofs.Cell.Reading

namespace MissionScript

/-- a letter or underscore and then letters, digits and underscores -/
structure IsIdentifier (t : Text) : Prop where
  startsName : startsName t = true
  isWordChar : ∀ c ∈ t, isWordChar c = true

instance (t : Text) : Decidable (IsIdentifier t) :=
  decidable_of_iff (startsName t = true ∧ t.all isWordChar = true)
    ⟨fun h => ⟨h.1, List.all_eq_true.1 h.2⟩, fun h => ⟨h.startsName, List.all_eq_true.2 h.isWordChar⟩⟩

/-! ## References -/

namespace Reference

theorem char_of_mem_span {t : Text} {c : Char} (h : c ∈ (span t).1) : isWordChar c = true ∨ c = '.' := by
  induction t with
  | nil => simp [span] at h
  | cons x rest ih =>
    rw [span] at h
    split at h
    · next hx =>
      rcases List.mem_cons.1 h with rfl | h
      · simp only [Bool.or_eq_true, Bool.and_eq_true, beq_iff_eq] at hx
        exact hx.imp_right And.left
      · exact ih h
    · simp at h

theorem startsName_span {c : Char} (h : isNameStart c = true) (rest : Text) :
    startsName (span (c :: rest)).1 = true := by
  simp [span, isWordChar_of_isNameStart h, startsName, h]

end Reference

theorem Lexeme.reference_of_mem_ofText {attached : Bool} {t r : Text} (h : Lexeme.reference r ∈ ofText attached t) :
    startsName r = true ∧ ∀ c ∈ r, isWordChar c = true ∨ c = '.' := by
  have key : ∀ (attached : Bool) (c : Char) (rest : Text), (next attached c rest).1 = .reference r →
      startsName r = true ∧ ∀ c ∈ r, isWordChar c = true ∨ c = '.' := by
    intro attached c rest hnext
    unfold next at hnext
    split at hnext
    · simp at hnext
    · split at hnext
      · next hstart =>
        obtain rfl : (Reference.span (c :: rest)).1 = r := by simpa using hnext
        exact ⟨Reference.startsName_span hstart rest, fun c hc => Reference.char_of_mem_span hc⟩
      · split at hnext
        · simp at hnext
        · split at hnext
          · simp at hnext
          · split at hnext <;> simp at hnext
  fun_induction ofText attached t with
  | case1 => simp at h
  | case2 attached c rest ih =>
    rcases List.mem_cons.1 h with h | h
    · exact key attached c rest h.symm
    · exact ih h

theorem Text.reference_of_mem {t r : Text} (h : r ∈ Text.references t) :
    startsName r = true ∧ ∀ c ∈ r, isWordChar c = true ∨ c = '.' := by
  obtain ⟨lexeme, hmem, hr⟩ := List.mem_filterMap.1 h
  cases lexeme with
  | reference name =>
    obtain rfl : name = r := by simpa using hr
    exact Lexeme.reference_of_mem_ofText hmem
  | _ => simp at hr

/-! ## Vocabularies -/

namespace Vocabulary

/-- vocabularies that come about by meeting texts -/
inductive Reachable : Vocabulary → Prop where
  | initial : Reachable .initial
  | learn (finds : Text → Bool) (t : Text) {voc : Vocabulary} : Reachable voc → Reachable (voc.learn finds t)

def HasIdentifiers (voc : Vocabulary) : Prop := ∀ name, voc.userDefined.contains name = true → IsIdentifier name

theorem HasIdentifiers.meet {finds : Text → Bool} {d : Discovery} {r : Text} (h : d.vocabulary.HasIdentifiers)
    (hr : startsName r = true ∧ ∀ c ∈ r, isWordChar c = true ∨ c = '.') :
    (Discovery.meet finds d r).vocabulary.HasIdentifiers := by
  unfold Discovery.meet
  split_ifs with hknown hfinds
  · exact h
  · intro name hname
    simp only [NameSet.contains_insert, Bool.or_eq_true, beq_iff_eq] at hname
    rcases hname with rfl | hname
    · have hplain : '.' ∉ name := by
        intro hdot
        exact hknown (by simp [Reference.isDotted, hdot])
      exact ⟨hr.1, fun c hc => (hr.2 c hc).resolve_right fun hdot => hplain (hdot ▸ hc)⟩
    · exact h name hname
  · exact h

theorem HasIdentifiers.learn {voc : Vocabulary} (h : voc.HasIdentifiers) (finds : Text → Bool) (t : Text) :
    (voc.learn finds t).HasIdentifiers := by
  have key : ∀ (rs : List Text) (d : Discovery), d.vocabulary.HasIdentifiers → (∀ r ∈ rs, r ∈ Text.references t) →
      (rs.foldl (Discovery.meet finds) d).vocabulary.HasIdentifiers := by
    intro rs
    induction rs with
    | nil => exact fun d hd _ => hd
    | cons r rs ih =>
      intro d hd hrs
      exact ih _ (hd.meet (Text.reference_of_mem (hrs r List.mem_cons_self)))
        fun r' hr' => hrs r' (List.mem_cons_of_mem _ hr')
  exact key _ _ h fun _ hr => hr

/-- **Names are identifiers.** Whatever texts have been met, a function of the script has an identifier for its name. -/
theorem Reachable.hasIdentifiers {voc : Vocabulary} (h : voc.Reachable) : voc.HasIdentifiers := by
  induction h with
  | initial =>
    intro name hname
    simp [Vocabulary.initial, NameSet.empty, NameSet.contains] at hname
  | learn finds t _ ih => exact ih.learn finds t

theorem startsName_of_named {name : Text} {f : Builtin} (h : Builtin.named name = some f) : startsName name = true := by
  have hmem := List.mem_of_find?_eq_some h
  have hname : f.name = name := by simpa using List.find?_some h
  have hall : ∀ f ∈ Builtin.all, startsName f.name = true := by decide
  exact hname ▸ hall f hmem

theorem lowerFirst_eq_none {c : Char} (hc : isNameStart c = false) (hk : c ≠ '\u212a') (rest : Text) :
    lowerFirst (c :: rest) = none := by
  have hupper : c.isUpper = false := by
    simp only [isNameStart_eq, Bool.or_eq_false_iff] at hc
    exact hc.1.1
  simp [lowerFirst, hupper, hk]

/-- What begins neither like a name nor with the Kelvin sign stands for no function. -/
theorem Reachable.kind?_eq_none {voc : Vocabulary} (h : voc.Reachable) {name : Text}
    (hname : ∀ c ∈ name.head?, isNameStart c = false ∧ c ≠ '\u212a') : voc.kind? name = none := by
  have hstart : startsName name = false := by
    cases name with
    | nil => rfl
    | cons c rest => exact (hname c rfl).1
  have hlower : lowerFirst name = none := by
    cases name with
    | nil => rfl
    | cons c rest => exact lowerFirst_eq_none (hname c rfl).1 (hname c rfl).2 rest
  have hnamed : Builtin.named name = none := by
    by_contra hsome
    obtain ⟨f, hf⟩ := Option.ne_none_iff_exists'.1 hsome
    rw [startsName_of_named hf] at hstart
    exact absurd hstart (by decide)
  have huser : voc.userDefined.contains name = false := by
    by_contra hmem
    rw [(h.hasIdentifiers name (by simpa using hmem)).startsName] at hstart
    exact absurd hstart (by decide)
  simp [kind?, Builtin.lookup, hnamed, hlower, hasUserDefined, huser]

end Vocabulary

end MissionScript
