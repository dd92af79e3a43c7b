/-
The rules by which trees are built.

`Built` relates a text to its tree, with a rule for each sort of level. `built_iff` says that the building of trees follows
these rules and no others, so that what holds of trees is proved by induction on the rules. `operand_induction` is for what
holds of every text, also of those that are no expressions.
-/
import MissionScript.Proofs.Expression.Building
import MissionScript.Proofs.Outcome

namespace MissionScript

variable {voc : Vocabulary} {nesting : Nesting} {t : Text} {d : Decomposition}

/-! ## Operands -/

/-- the texts of the operands, or of the arguments -/
def Decomposition.operands : Decomposition → List Text
  | .leaf _ => []
  | .unary _ operand => [operand]
  | .binary _ left right => [left, right]
  | .call _ inside => argumentTexts inside

theorem length_le_of_mem_argumentTexts {inside argument : Text} (h : argument ∈ argumentTexts inside) :
    argument.length ≤ inside.length := by
  have hwhole := length_argumentTexts_le inside
  have hargument : argument.length ≤ (argumentTexts inside).flatten.length := (List.sublist_flatten_of_mem h).length_le
  have hsome : 0 < (argumentTexts inside).length := List.length_pos_of_mem h
  omega

theorem length_lt_of_mem_operands (h : decompose voc t = .ok d) {operand : Text} (hmem : operand ∈ d.operands) :
    operand.length < t.length := by
  have hwithin := within_decompose h
  cases d with
  | leaf text => exact absurd hmem List.not_mem_nil
  | unary op inner =>
    obtain rfl := List.mem_singleton.1 hmem
    exact hwithin
  | binary op left right =>
    rcases List.mem_cons.1 hmem with rfl | hmem
    · exact hwithin.1
    · obtain rfl := List.mem_singleton.1 hmem
      exact hwithin.2
  | call callee inside =>
    have hlength := length_le_of_mem_argumentTexts hmem
    have hinside : inside.length + 2 ≤ t.length := hwithin
    omega

/-- What a text has if its operands have it, every text has. -/
theorem operand_induction {motive : Text → Prop} (voc : Vocabulary)
    (step : ∀ t, (∀ d, decompose voc t = .ok d → ∀ operand ∈ d.operands, motive operand) → motive t) (t : Text) :
    motive t := by
  induction hlength : t.length using Nat.strong_induction_on generalizing t with
  | _ n ih =>
    refine step t fun d hd operand hmem => ?_
    exact ih operand.length (hlength ▸ length_lt_of_mem_operands hd hmem) operand rfl

/-! ## Rules -/

inductive Built (nesting : Nesting) (voc : Vocabulary) : Text → Expression → Prop where
  | leaf {t text : Text} (hlevel : decompose voc t = .ok (.leaf text)) (hne : text ≠ []) :
    Built nesting voc t (.leaf text)
  | unary {t operand : Text} {op : UnaryOp} {x : Expression} (hlevel : decompose voc t = .ok (.unary op operand))
    (hx : Built nesting voc operand x) : Built nesting voc t (.unary op x)
  | binary {t left right : Text} {op : BinaryOp} {x y : Expression}
    (hlevel : decompose voc t = .ok (.binary op left right)) (hx : Built nesting voc left x)
    (hy : Built nesting voc right y) : Built nesting voc t (.binary op x y)
  /-- a call; its items are the texts of the arguments with their trees -/
  | call {t inside : Text} {callee : Callee} {items : List (Text × Expression)}
    (hlevel : decompose voc t = .ok (.call callee inside)) (hitems : argumentTexts inside = items.map Prod.fst)
    (hadmitted : ∀ i ∈ items, requireArgument nesting voc callee.name i.1 = .ok ())
    (hbuilt : ∀ i ∈ items, Built nesting voc i.1 i.2) :
    Built nesting voc t
      (.call callee (items.map Prod.snd) (if callee.kind = .userDefined then items.map Prod.fst else []))

namespace Expression

theorem ofExcept_eq {ε α : Type} (x : Except ε α) : (MonadExcept.ofExcept x : Except ε α) = x := by
  cases x <;> rfl

/-- Arguments are built exactly when each of them is admitted and built. -/
theorem buildArguments_eq_ok_iff {name : Text} {arguments : List Text} {trees : List Expression} :
    buildArguments builder nesting voc name arguments = .ok trees ↔
      ∃ items : List (Text × Expression), arguments = items.map Prod.fst ∧ trees = items.map Prod.snd ∧
        ∀ i ∈ items, requireArgument nesting voc name i.1 = .ok () ∧ build nesting voc i.1 = .ok i.2 := by
  induction arguments generalizing trees with
  | nil =>
    rw [buildArguments]
    constructor
    · intro h
      obtain rfl : [] = trees := Except.ok.inj h
      exact ⟨[], rfl, rfl, by simp⟩
    · rintro ⟨items, hnil, rfl, -⟩
      obtain rfl := List.map_eq_nil_iff.1 hnil.symm
      rfl
  | cons argument rest ih =>
    rw [buildArguments, ofExcept_eq]
    constructor
    · intro h
      obtain ⟨⟨⟩, hadmitted, h⟩ := bind_eq_ok_iff.1 h
      obtain ⟨x, hx, h⟩ := bind_eq_ok_iff.1 h
      obtain ⟨xs, hxs, h⟩ := bind_eq_ok_iff.1 h
      obtain rfl : x :: xs = trees := Except.ok.inj h
      obtain ⟨items, rfl, rfl, hitems⟩ := ih.1 hxs
      refine ⟨(argument, x) :: items, rfl, rfl, ?_⟩
      rintro i hi
      rcases List.mem_cons.1 hi with rfl | hi
      · exact ⟨hadmitted, hx⟩
      · exact hitems i hi
    · rintro ⟨items, hitems, rfl, hall⟩
      obtain ⟨i, items, rfl, rfl, rfl⟩ := List.map_eq_cons_iff.1 hitems.symm
      obtain ⟨hadmitted, hx⟩ := hall i List.mem_cons_self
      have hrest := ih.2 ⟨items, rfl, rfl, fun j hj => hall j (List.mem_cons_of_mem _ hj)⟩
      refine bind_eq_ok_iff.2 ⟨(), hadmitted, bind_eq_ok_iff.2 ⟨i.2, hx, ?_⟩⟩
      exact bind_eq_ok_iff.2 ⟨_, hrest, rfl⟩

theorem built_of_build {x : Expression} (h : build nesting voc t = .ok x) : Built nesting voc t x := by
  induction t using operand_induction voc generalizing x with
  | _ t ih =>
    rw [build, buildWith_eq] at h
    split at h
    · exact absurd h (by simp [throw, throwThe, MonadExceptOf.throw])
    · next text hlevel =>
      split at h
      · exact absurd h (by simp [throw, throwThe, MonadExceptOf.throw])
      · next hne =>
        obtain rfl : leaf text = x := Except.ok.inj h
        exact .leaf hlevel (by simpa using hne)
    · next op operand hlevel =>
      obtain ⟨-, -, h⟩ := bind_eq_ok_iff.1 h
      obtain ⟨y, hy, h⟩ := bind_eq_ok_iff.1 h
      obtain rfl : unary op y = x := Except.ok.inj h
      exact .unary hlevel (ih _ hlevel operand List.mem_cons_self hy)
    · next op left right hlevel =>
      obtain ⟨-, -, h⟩ := bind_eq_ok_iff.1 h
      obtain ⟨-, -, h⟩ := bind_eq_ok_iff.1 h
      obtain ⟨y, hy, h⟩ := bind_eq_ok_iff.1 h
      obtain ⟨z, hz, h⟩ := bind_eq_ok_iff.1 h
      obtain rfl : binary op y z = x := Except.ok.inj h
      exact .binary hlevel (ih _ hlevel left List.mem_cons_self hy)
        (ih _ hlevel right (List.mem_cons_of_mem _ List.mem_cons_self) hz)
    · next callee inside hlevel =>
      obtain ⟨trees, htrees, h⟩ := bind_eq_ok_iff.1 h
      obtain ⟨items, hitems, rfl, hall⟩ := buildArguments_eq_ok_iff.1 htrees
      rw [hitems] at h
      obtain rfl := Except.ok.inj h
      refine .call hlevel hitems (fun i hi => (hall i hi).1) fun i hi => ih _ hlevel i.1 ?_ (hall i hi).2
      rw [Decomposition.operands, hitems]
      exact List.mem_map_of_mem hi

/-- **Trees are built by the rules.** -/
theorem built_iff {x : Expression} : Built nesting voc t x ↔ build nesting voc t = .ok x := by
  refine ⟨fun h => ?_, built_of_build⟩
  induction h with
  | leaf hlevel hne => exact build_leaf hlevel hne
  | unary hlevel _ ih => exact build_unary hlevel (isVisible_of_build ih) ih
  | binary hlevel _ _ ihx ihy => exact build_binary hlevel (isVisible_of_build ihx) (isVisible_of_build ihy) ihx ihy
  | call hlevel hitems hadmitted _ ih =>
    have htrees := buildArguments_eq_ok_iff.2 ⟨_, hitems, rfl, fun i hi => ⟨hadmitted i hi, ih i hi⟩⟩
    rw [build_call hlevel htrees, hitems]

end Expression

end MissionScript
