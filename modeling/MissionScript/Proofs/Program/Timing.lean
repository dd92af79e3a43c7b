/-
The modes of a run side by side.

- `Configured`, `resolveInSetup_iff`: all that an assignment can come to before the commands begin.
- `Configured.timing`, `Configured.inCommands`: what its timing says about its tree, and what the same assignment comes to
  once the commands have begun.
- `resolve_modes`: how the outcomes of an assignment in the three modes are related.
-/
import MissionScript.Proofs.Expression.Nesting
import MissionScript.Proofs.Program.CommandMode

namespace MissionScript

open Expression

variable {nesting : Nesting} {voc : Vocabulary} {objects : ObjectModel} {mode : Mode} {lhs rhs : Text} {r : Resolution}

theorem buildValue_eq_ok_iff {x : Expression} : buildValue nesting voc rhs = .ok x ↔ build nesting voc rhs = .ok x := by
  unfold buildValue
  cases build nesting voc rhs <;> simp

theorem Text.isQuoted_trim (t : Text) : Text.isQuoted (Text.trim t) = Text.isQuoted t := by
  rw [Text.isQuoted, Text.trim_trim]
  rfl

theorem build_trim (t : Text) : build nesting voc (Text.trim t) = build nesting voc t :=
  build_congr (decompose_trim voc t)

/-! ## Before the commands -/

/-- what an assignment can come to before the commands begin -/
inductive Configured (nesting : Nesting) (voc : Vocabulary) (objects : ObjectModel) (lhs rhs : Text) : Resolution → Prop
  | quoted : Text.isQuoted rhs = true →
      Configured nesting voc objects lhs rhs ⟨.once, objects.property lhs, .leaf rhs⟩
  /-- a variable that is assigned a value it has a part in -/
  | update {tree : Expression} : Text.isQuoted rhs = false → objects.isVariable (Reference.head lhs) = true →
      refersTo (Reference.head lhs) rhs = true → build nesting voc rhs = .ok tree →
      Configured nesting voc objects lhs rhs ⟨.opensCommands, objects.property lhs, tree⟩
  | value {tree : Expression} : Text.isQuoted rhs = false →
      (objects.isVariable (Reference.head lhs) && refersTo (Reference.head lhs) rhs) = false →
      isEquation voc rhs = .ok false → build nesting voc rhs = .ok tree →
      Configured nesting voc objects lhs rhs ⟨.once, objects.property lhs, tree⟩
  | equation {p : Property} {tree : Expression} : Text.isQuoted rhs = false →
      (objects.isVariable (Reference.head lhs) && refersTo (Reference.head lhs) rhs) = false →
      isEquation voc rhs = .ok true → objects.property lhs = some p → p.type = .real ∨ p.type = .other →
      build nesting voc rhs = .ok tree → Configured nesting voc objects lhs rhs ⟨.opensCommands, some p, tree⟩
  /-- a text such as `a-b` that is kept as it is -/
  | verbatim {p : Property} : Text.isQuoted rhs = false →
      (objects.isVariable (Reference.head lhs) && refersTo (Reference.head lhs) rhs) = false →
      isEquation voc rhs = .ok true → objects.property lhs = some p → p.type = .string ∨ p.type = .enumeration →
      Configured nesting voc objects lhs rhs ⟨.once, some p, .leaf rhs⟩
  | untargeted {tree : Expression} : Text.isQuoted rhs = false →
      (objects.isVariable (Reference.head lhs) && refersTo (Reference.head lhs) rhs) = false →
      isEquation voc rhs = .ok true → objects.property lhs = none → build nesting voc rhs = .ok tree →
      Configured nesting voc objects lhs rhs ⟨.once, none, tree⟩

theorem configured_of_resolveEquation (hquoted : Text.isQuoted rhs = false)
    (hself : (objects.isVariable (Reference.head lhs) && refersTo (Reference.head lhs) rhs) = false)
    (hequation : isEquation voc rhs = .ok true)
    (h : resolveEquation nesting voc (objects.property lhs) lhs rhs = .ok r) :
    Configured nesting voc objects lhs rhs r := by
  cases hproperty : objects.property lhs with
  | none =>
    rw [hproperty] at h
    obtain ⟨tree, htree, hr⟩ := bind_eq_ok_iff.1 h
    obtain rfl := Except.ok.inj hr
    exact .untargeted hquoted hself hequation hproperty (buildValue_eq_ok_iff.1 htree)
  | some p =>
    rw [hproperty] at h
    obtain ⟨owner, id, type⟩ := p
    cases type with
    | real =>
      obtain ⟨tree, htree, hr⟩ := bind_eq_ok_iff.1 h
      obtain rfl := Except.ok.inj hr
      exact .equation hquoted hself hequation hproperty (.inl rfl) (buildValue_eq_ok_iff.1 htree)
    | other =>
      obtain ⟨tree, htree, hr⟩ := bind_eq_ok_iff.1 h
      obtain rfl := Except.ok.inj hr
      exact .equation hquoted hself hequation hproperty (.inr rfl) (buildValue_eq_ok_iff.1 htree)
    | string =>
      obtain rfl := Except.ok.inj h
      exact .verbatim hquoted hself hequation hproperty (.inl rfl)
    | enumeration =>
      obtain rfl := Except.ok.inj h
      exact .verbatim hquoted hself hequation hproperty (.inr rfl)
    | filename => exact absurd h (by simp [resolveEquation])

theorem configured_of_resolveInSetup (h : resolveInSetup nesting voc objects lhs rhs = .ok r) :
    Configured nesting voc objects lhs rhs r := by
  simp only [resolveInSetup] at h
  split_ifs at h with hquoted hself
  · obtain rfl := Except.ok.inj h
    exact .quoted hquoted
  · obtain ⟨tree, htree, hr⟩ := bind_eq_ok_iff.1 h
    obtain rfl := Except.ok.inj hr
    obtain ⟨hvariable, hrefers⟩ := Bool.and_eq_true_iff.1 hself
    exact .update (by simpa using hquoted) hvariable hrefers (buildValue_eq_ok_iff.1 htree)
  · obtain ⟨equation, hequation, h⟩ := bind_eq_ok_iff.1 h
    have hequation : isEquation voc rhs = .ok equation := by
      cases heq : isEquation voc rhs <;> simp_all
    cases equation with
    | true => exact configured_of_resolveEquation (by simpa using hquoted) (by simpa using hself) hequation h
    | false =>
      obtain ⟨tree, htree, hr⟩ := bind_eq_ok_iff.1 h
      obtain rfl := Except.ok.inj hr
      exact .value (by simpa using hquoted) (by simpa using hself) hequation (buildValue_eq_ok_iff.1 htree)

/-- Without quotes, and with no variable that the value refers to, all depends on whether the value is an equation. -/
theorem resolveInSetup_of_unquoted {equation : Bool} (hquoted : Text.isQuoted rhs = false)
    (hself : (objects.isVariable (Reference.head lhs) && refersTo (Reference.head lhs) rhs) = false)
    (hequation : isEquation voc rhs = .ok equation) :
    resolveInSetup nesting voc objects lhs rhs =
      if equation then resolveEquation nesting voc (objects.property lhs) lhs rhs
      else (buildValue nesting voc rhs).map fun tree => ⟨.once, objects.property lhs, tree⟩ := by
  rw [resolveInSetup, hquoted, hself, hequation]
  cases equation with
  | true => rfl
  | false => cases buildValue nesting voc rhs <;> rfl

theorem Configured.resolveInSetup (h : Configured nesting voc objects lhs rhs r) :
    resolveInSetup nesting voc objects lhs rhs = .ok r := by
  cases h with
  | quoted hquoted => rw [MissionScript.resolveInSetup, if_pos hquoted]; rfl
  | @update tree hquoted hvariable hrefers htree =>
    have hvalue : buildValue nesting voc rhs = .ok tree := buildValue_eq_ok_iff.2 htree
    rw [MissionScript.resolveInSetup, hquoted, hvariable, hrefers, hvalue]
    rfl
  | @value tree hquoted hself hequation htree =>
    have hvalue : buildValue nesting voc rhs = .ok tree := buildValue_eq_ok_iff.2 htree
    rw [resolveInSetup_of_unquoted hquoted hself hequation, hvalue]
    rfl
  | @equation p tree hquoted hself hequation hproperty htype htree =>
    have hvalue : buildValue nesting voc rhs = .ok tree := buildValue_eq_ok_iff.2 htree
    rw [resolveInSetup_of_unquoted hquoted hself hequation, if_pos rfl, resolveEquation, hproperty, Option.map_some]
    rcases htype with htype | htype
    · rw [htype, hvalue]
      rfl
    · rw [htype, hvalue]
      rfl
  | @verbatim p hquoted hself hequation hproperty htype =>
    rw [resolveInSetup_of_unquoted hquoted hself hequation, if_pos rfl, resolveEquation, hproperty, Option.map_some]
    rcases htype with htype | htype
    · rw [htype]
    · rw [htype]
  | @untargeted tree hquoted hself hequation hproperty htree =>
    have hvalue : buildValue nesting voc rhs = .ok tree := buildValue_eq_ok_iff.2 htree
    rw [resolveInSetup_of_unquoted hquoted hself hequation, if_pos rfl, resolveEquation, hproperty, hvalue]
    rfl

theorem resolve_setup_iff :
    resolve nesting voc objects .setup lhs rhs = .ok r ↔
      Configured nesting voc objects (Text.trim lhs) (Text.trim rhs) r :=
  ⟨configured_of_resolveInSetup, Configured.resolveInSetup⟩

/-- Deferred is what the commands begin with, and what is not deferred has a leaf for the value of its target. -/
theorem Configured.timing (h : Configured nesting voc objects lhs rhs r) :
    r.timing.switches = r.timing.isDeferred ∧
      (r.timing.isDeferred = true → Text.isQuoted rhs = false ∧ build nesting voc rhs = .ok r.tree) ∧
      (r.timing.isDeferred = false → r.target.isSome = true → r.tree.isLeaf = true) := by
  cases h with
  | quoted hquoted => exact ⟨rfl, nofun, fun _ _ => rfl⟩
  | update hquoted _ _ htree => exact ⟨rfl, fun _ => ⟨hquoted, htree⟩, nofun⟩
  | value _ _ hequation htree =>
    refine ⟨rfl, nofun, fun _ _ => ?_⟩
    -- no equation is built to more than a leaf
    rw [isEquation_of_built (built_iff.2 htree)] at hequation
    simpa using hequation
  | equation hquoted _ _ _ _ htree => exact ⟨rfl, fun _ => ⟨hquoted, htree⟩, nofun⟩
  | verbatim _ _ _ _ _ => exact ⟨rfl, nofun, fun _ _ => rfl⟩
  | untargeted _ _ _ _ _ => exact ⟨rfl, nofun, nofun⟩

theorem Configured.target (h : Configured nesting voc objects lhs rhs r) : r.target = objects.property lhs := by
  cases h with
  | quoted _ => rfl
  | update _ _ _ _ => rfl
  | value _ _ _ _ => rfl
  | equation _ _ _ hproperty _ _ => exact hproperty.symm
  | verbatim _ _ _ hproperty _ => exact hproperty.symm
  | untargeted _ _ _ hproperty _ => exact hproperty.symm

/-- A value that has a tree is taken before the commands begin, or names a file by an equation. -/
theorem configured_or_ambiguous {tree : Expression} (h : valueTree nesting voc rhs = .ok tree) :
    (∃ r, Configured nesting voc objects lhs rhs r) ∨
      resolveInSetup nesting voc objects lhs rhs = .error (.ambiguousEquation lhs rhs) := by
  cases hquoted : Text.isQuoted rhs with
  | true => exact .inl ⟨_, .quoted hquoted⟩
  | false =>
    have htree : build nesting voc rhs = .ok tree := by
      unfold valueTree at h
      rw [hquoted] at h
      exact buildValue_eq_ok_iff.1 h
    cases hself : objects.isVariable (Reference.head lhs) && refersTo (Reference.head lhs) rhs with
    | true =>
      obtain ⟨hvariable, hrefers⟩ := Bool.and_eq_true_iff.1 hself
      exact .inl ⟨_, .update hquoted hvariable hrefers htree⟩
    | false =>
      have hequation := isEquation_of_built (built_iff.2 htree)
      cases hleaf : tree.isLeaf with
      | true =>
        rw [hleaf] at hequation
        exact .inl ⟨_, .value hquoted hself hequation htree⟩
      | false =>
        rw [hleaf] at hequation
        cases hproperty : objects.property lhs with
        | none => exact .inl ⟨_, .untargeted hquoted hself hequation hproperty htree⟩
        | some p =>
          cases htype : p.type with
          | real => exact .inl ⟨_, .equation hquoted hself hequation hproperty (.inl htype) htree⟩
          | other => exact .inl ⟨_, .equation hquoted hself hequation hproperty (.inr htype) htree⟩
          | string => exact .inl ⟨_, .verbatim hquoted hself hequation hproperty (.inl htype)⟩
          | enumeration => exact .inl ⟨_, .verbatim hquoted hself hequation hproperty (.inr htype)⟩
          | filename =>
            right
            rw [Bool.not_false] at hequation
            rw [resolveInSetup_of_unquoted hquoted hself hequation, if_pos rfl, resolveEquation,
              hproperty, Option.map_some, htype]

/-! ## Once the commands have begun -/

/-- An assignment has a value of its own once the commands have begun; the object decides when it takes effect. -/
theorem resolve_of_inCommands (hmode : mode.inCommands = true) :
    resolve nesting voc objects mode lhs rhs = (valueTree nesting voc (Text.trim rhs)).map fun tree =>
      ⟨if isImmediate objects mode (Text.trim lhs) then .once else .onReach, objects.property (Text.trim lhs), tree⟩ := by
  rw [resolve, if_pos hmode, resolveInCommands]
  cases valueTree nesting voc (Text.trim rhs) <;> rfl

/-- the name of the object that a target is a property of, or else of the object that it names -/
def ObjectModel.ownerOf (objects : ObjectModel) (lhs : Text) : Text :=
  ((objects.property (Text.trim lhs)).map Property.owner).getD (Reference.head lhs)

/-- **The modes agree.** Before the commands an assignment is deferred exactly when the commands begin with it; its tree is
then that of its value, and a target that is not deferred gets a leaf. Once the commands have begun, none begins them again
and a value that is not quoted has its tree. What is deferred before the commands has the same target and tree in them, and
only coordinate systems, and subscribers before the mission, take it at once. What has an outcome in the commands has one
before them, or is an equation for the name of a file. -/
theorem resolve_modes (nesting : Nesting) (voc : Vocabulary) (objects : ObjectModel) (lhs rhs : Text) :
    (∀ r, resolve nesting voc objects .setup lhs rhs = .ok r →
      r.timing.switches = r.timing.isDeferred ∧
        (r.timing.isDeferred = true → build nesting voc rhs = .ok r.tree) ∧
        (r.timing.isDeferred = false → r.target.isSome = true → r.tree.isLeaf = true)) ∧
      ∀ mode : Mode, mode.inCommands = true →
        (∀ r, resolve nesting voc objects mode lhs rhs = .ok r →
          r.timing.switches = false ∧
            (Text.isQuoted rhs = true → r.tree = .leaf (Text.trim rhs)) ∧
            (Text.isQuoted rhs = false → build nesting voc rhs = .ok r.tree)) ∧
          (∀ r, resolve nesting voc objects .setup lhs rhs = .ok r → r.timing.isDeferred = true →
            ∃ r', resolve nesting voc objects mode lhs rhs = .ok r' ∧ r'.target = r.target ∧ r'.tree = r.tree ∧
              (r'.timing.isDeferred = true ↔
                ¬(objects.kindOf (objects.ownerOf lhs) = .coordinateSystem ∨
                  objects.kindOf (objects.ownerOf lhs) = .subscriber ∧ mode.inMission = false))) ∧
          ∀ r, resolve nesting voc objects mode lhs rhs = .ok r →
            (∃ r', resolve nesting voc objects .setup lhs rhs = .ok r') ∨
              resolve nesting voc objects .setup lhs rhs =
                .error (.ambiguousEquation (Text.trim lhs) (Text.trim rhs)) := by
  refine ⟨?_, ?_⟩
  · intro r h
    obtain ⟨hswitches, hdeferred, hleaf⟩ := (resolve_setup_iff.1 h).timing
    refine ⟨hswitches, ?_, hleaf⟩
    intro htiming
    rw [← build_trim]
    exact (hdeferred htiming).2
  intro mode hmode
  refine ⟨?_, ?_, ?_⟩
  · intro r h
    rw [resolve_of_inCommands hmode, map_eq_ok_iff] at h
    obtain ⟨tree, htree, rfl⟩ := h
    unfold valueTree at htree
    rw [Text.isQuoted_trim] at htree
    refine ⟨by dsimp only; split_ifs <;> rfl, ?_, ?_⟩
    · intro hquoted
      rw [if_pos hquoted] at htree
      exact (Except.ok.inj htree).symm
    · intro hquoted
      rw [hquoted] at htree
      rw [← build_trim]
      exact buildValue_eq_ok_iff.1 htree
  · intro r h htiming
    have hconfigured := resolve_setup_iff.1 h
    obtain ⟨hquoted, htree⟩ := hconfigured.timing.2.1 htiming
    have hvalue : valueTree nesting voc (Text.trim rhs) = .ok r.tree := by
      unfold valueTree
      rw [hquoted]
      exact buildValue_eq_ok_iff.2 htree
    refine ⟨⟨if isImmediate objects mode (Text.trim lhs) then .once else .onReach, objects.property (Text.trim lhs), r.tree⟩,
      by rw [resolve_of_inCommands hmode, hvalue]; rfl, hconfigured.target.symm, rfl, ?_⟩
    have himmediate : isImmediate objects mode (Text.trim lhs) = true ↔
        objects.kindOf (objects.ownerOf lhs) = .coordinateSystem ∨
          objects.kindOf (objects.ownerOf lhs) = .subscriber ∧ mode.inMission = false := by
      rw [isImmediate_iff, Reference.head_trim]
      rfl
    rw [← himmediate]
    cases isImmediate objects mode (Text.trim lhs) <;> simp [Timing.isDeferred]
  · intro r h
    rw [resolve_of_inCommands hmode, map_eq_ok_iff] at h
    obtain ⟨tree, htree, -⟩ := h
    rcases configured_or_ambiguous htree with ⟨r', hr'⟩ | hambiguous
    · exact .inl ⟨r', resolve_setup_iff.2 hr'⟩
    · exact .inr hambiguous

/-- A variable that is updated is so in every mode. -/
theorem resolve_modes_update :
    let objects := Setting.knowingFoo.objects.extend [("x".toList, "Variable".toList)]
    ∃ r r', resolve .allow .initial objects .setup "x".toList "x + 1".toList = .ok r ∧ r.timing.switches = true ∧
      resolve .allow .initial objects .mission "x".toList "x + 1".toList = .ok r' ∧ r'.target = r.target ∧
        r'.tree = r.tree ∧ r'.timing.isDeferred = true := by
  intro objects
  have htiming : (resolve .allow .initial objects .setup "x".toList "x + 1".toList).toOption.map Resolution.timing =
      some .opensCommands := by decide +kernel
  cases h : resolve .allow .initial objects .setup "x".toList "x + 1".toList with
  | error fault =>
    rw [h] at htiming
    exact absurd htiming nofun
  | ok r =>
    rw [h] at htiming
    have htiming : r.timing = .opensCommands := Option.some.inj htiming
    obtain ⟨-, hmodes⟩ := resolve_modes .allow .initial objects "x".toList "x + 1".toList
    obtain ⟨-, hdeferred, -⟩ := hmodes .mission rfl
    obtain ⟨r', h', htarget, htree, hreached⟩ := hdeferred r h (by rw [htiming]; rfl)
    have hkind : objects.kindOf (objects.ownerOf "x".toList) = .variable := by decide +kernel
    exact ⟨r, r', rfl, by rw [htiming]; rfl, h', htarget, htree, hreached.2 (by rw [hkind]; decide)⟩

end MissionScript
