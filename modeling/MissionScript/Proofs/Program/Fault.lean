/-
Which faults a script can have, and where they come from.

- `isInvalidStatement_of_readBlocks`: a script that cannot be read has an invalid statement.
- `firstStep_fault`: in the first pass only values have faults.
- `replayStep_fault`: in the second pass a name or a function can be missing too, and nothing has declared the name.
-/
import MissionScript.Proofs.Outcome
import MissionScript.Proofs.Program.Step

namespace MissionScript

/-! ## Reading -/

/-- the fault of a statement that is none -/
def ScriptFault.IsInvalidStatement (fault : ScriptFault) : Prop := ∃ t flaw, fault = .invalidStatement t flaw

section Reading

variable {t : Text} {fault : ScriptFault} {e : ScriptError} {r : Reader}

theorem Statement.isInvalidStatement_of_declare {rest : Text} (h : declare t rest = .error fault) :
    fault.IsInvalidStatement := by
  unfold declare at h
  split at h
  · exact ⟨_, _, (Except.error.inj h).symm⟩
  · split at h
    · exact ⟨_, _, (Except.error.inj h).symm⟩
    · simp at h

theorem Statement.isInvalidStatement_of_assign {left right : Text} (h : assign t left right = .error fault) :
    fault.IsInvalidStatement := by
  simp only [assign] at h
  split_ifs at h
  · exact ⟨_, _, (Except.error.inj h).symm⟩
  · exact ⟨_, _, (Except.error.inj h).symm⟩
  · split at h
    · exact ⟨_, _, (Except.error.inj h).symm⟩
    · simp at h

theorem Statement.isInvalidStatement_of_classify (h : classify t = .error fault) : fault.IsInvalidStatement := by
  simp only [classify, classifyTrimmed] at h
  split_ifs at h
  · exact isInvalidStatement_of_declare h
  · split at h
    · exact isInvalidStatement_of_assign h
    · exact ⟨_, _, (Except.error.inj h).symm⟩
  · split at h
    · exact isInvalidStatement_of_assign h
    · split at h
      · simp at h
      · exact ⟨_, _, (Except.error.inj h).symm⟩

theorem CodeLine.isInvalidStatement_of_blocksOf {line : Nat} {comment preface : Text} {ts : List Text}
    (h : blocksOf line comment preface ts = .error e) : e.fault.IsInvalidStatement := by
  induction ts generalizing preface with
  | nil => simp [blocksOf] at h
  | cons t rest ih =>
    rw [blocksOf, bind_eq_error_iff] at h
    rcases h with h | ⟨s, -, h⟩
    · obtain ⟨fault, hfault, rfl⟩ := mapError_eq_error_iff.1 h
      exact Statement.isInvalidStatement_of_classify hfault
    · rcases bind_eq_error_iff.1 h with h | ⟨later, -, h⟩
      · exact ih h
      · simp [pure, Except.pure] at h

theorem Reader.isInvalidStatement_of_advance {line : Nat} {raw : Text} (h : r.advance line raw = .error e) :
    e.fault.IsInvalidStatement := by
  simp only [advance] at h
  split at h
  · simp at h
  · next l _ =>
    split at h
    · simp at h
    · cases hblocks : l.blocks r.prefaceText with
      | error e' =>
        obtain rfl : e' = e := by simpa [hblocks, Except.map] using h
        exact CodeLine.isInvalidStatement_of_blocksOf hblocks
      | ok blocks => simp [hblocks, Except.map] at h

theorem Reader.isInvalidStatement_of_readFrom {line : Nat} {ls : List Text} (h : r.readFrom line ls = .error e) :
    e.fault.IsInvalidStatement := by
  induction ls generalizing r line with
  | nil =>
    simp only [readFrom, finish] at h
    split at h
    · exact CodeLine.isInvalidStatement_of_blocksOf h
    · simp at h
    · simp at h
  | cons raw rest ih =>
    rw [readFrom, bind_eq_error_iff] at h
    rcases h with h | ⟨⟨next, blocks⟩, -, h⟩
    · exact isInvalidStatement_of_advance h
    · rcases bind_eq_error_iff.1 h with h | ⟨later, -, h⟩
      · exact ih h
      · simp [pure, Except.pure] at h

/-- A script that cannot be read has an invalid statement. -/
theorem isInvalidStatement_of_readBlocks {script : Text} (h : readBlocks script = .error e) :
    e.fault.IsInvalidStatement := Reader.isInvalidStatement_of_readFrom h

end Reading

/-! ## Values -/

/-- the fault of a value: of its expression, or of the field it is for -/
def ScriptFault.IsOfValue (fault : ScriptFault) : Prop :=
  (∃ e, fault = .expression e) ∨ ∃ lhs rhs, fault = .ambiguousEquation lhs rhs

section Values

variable {nesting : Nesting} {voc : Vocabulary} {objects : ObjectModel} {mode : Mode} {lhs rhs : Text}
variable {fault : ScriptFault}

theorem isOfValue_of_mapError {α : Type} {x : Except ParseError α} (h : x.mapError .expression = .error fault) :
    fault.IsOfValue := by
  obtain ⟨e, -, rfl⟩ := mapError_eq_error_iff.1 h
  exact .inl ⟨e, rfl⟩

/-- What is done with a tree has no faults of its own. -/
theorem isOfValue_of_map {α β : Type} {x : Except ParseError α} {f : α → β}
    (h : (do return f (← x.mapError ScriptFault.expression)) = Except.error fault) : fault.IsOfValue := by
  rcases bind_eq_error_iff.1 h with h | ⟨a, -, h⟩
  · exact isOfValue_of_mapError h
  · simp [pure, Except.pure] at h

theorem isOfValue_of_resolveEquation {target : Option Property}
    (h : resolveEquation nesting voc target lhs rhs = .error fault) : fault.IsOfValue := by
  unfold resolveEquation at h
  split at h
  · exact isOfValue_of_map h
  · exact isOfValue_of_map h
  · exact .inr ⟨_, _, (Except.error.inj h).symm⟩
  · simp at h
  · simp at h
  · exact isOfValue_of_map h

theorem isOfValue_of_resolveInSetup (h : resolveInSetup nesting voc objects lhs rhs = .error fault) :
    fault.IsOfValue := by
  simp only [resolveInSetup] at h
  split_ifs at h
  · simp [pure, Except.pure] at h
  · exact isOfValue_of_map h
  · rcases bind_eq_error_iff.1 h with h | ⟨equation, -, h⟩
    · exact isOfValue_of_mapError h
    · split_ifs at h
      · exact isOfValue_of_resolveEquation h
      · exact isOfValue_of_map h

theorem isOfValue_of_resolveInCommands (h : resolveInCommands nesting voc objects mode lhs rhs = .error fault) :
    fault.IsOfValue := by
  rcases bind_eq_error_iff.1 h with h | ⟨tree, -, h⟩
  · unfold valueTree at h
    split_ifs at h
    exact isOfValue_of_mapError h
  · simp [pure, Except.pure] at h

theorem isOfValue_of_resolve (h : resolve nesting voc objects mode lhs rhs = .error fault) : fault.IsOfValue := by
  unfold resolve at h
  split_ifs at h
  · exact isOfValue_of_resolveInCommands h
  · exact isOfValue_of_resolveInSetup h

end Values

/-! ## Steps of the passes -/

namespace Run

variable {s : Setting} {pass : Pass} {run : Run} {mode : Mode} {b : Block} {d : Delayed} {fault : ScriptFault}
  {failure : Failure}

theorem perform_fault (h : run.perform s pass mode b = .error fault) : fault.IsOfValue := by
  unfold perform at h
  split at h
  · simp at h
  · simp at h
  · simp at h
  · rcases bind_eq_error_iff.1 h with h | ⟨r, -, h⟩
    · exact isOfValue_of_resolve h
    · simp [pure, Except.pure] at h

theorem obstacle_fault (h : run.obstacle s b = .error fault) : fault.IsOfValue := by
  unfold obstacle at h
  split at h
  · simp at h
  · unfold missingName at h
    simp only at h
    split_ifs at h
    · simp [pure, Except.pure] at h
    · simp [pure, Except.pure] at h
    · split at h
      · simp [pure, Except.pure] at h
      · rcases bind_eq_error_iff.1 h with h | ⟨equation, -, h⟩
        · exact isOfValue_of_mapError h
        · cases equation <;> simp [pure, Except.pure] at h
  · simp at h
  · simp at h

/-- In the first pass only values have faults. -/
theorem firstStep_fault (h : run.firstStep s b = .error failure) : failure.error.fault.IsOfValue := by
  unfold firstStep at h
  simp only at h
  split at h
  · next fault hobstacle =>
    obtain rfl := Except.error.inj h
    exact obstacle_fault hobstacle
  · simp at h
  · obtain ⟨fault, hfault, rfl⟩ := mapError_eq_error_iff.1 h
    exact perform_fault hfault

/-- In the second pass a name can be missing, which nothing has declared, and a function. -/
theorem replayStep_fault (h : run.replayStep s d = .error failure) :
    failure.error.fault.IsOfValue ∨ (∃ name, failure.error.fault = .unknownCommand name) ∨
      ∃ name, failure.error.fault = .undeclaredName name ∧ (run.scope s).isDeclared name = false := by
  unfold replayStep at h
  simp only at h
  split at h
  · next fault hobstacle =>
    obtain rfl := Except.error.inj h
    exact .inl (obstacle_fault hobstacle)
  · next name hobstacle =>
    obtain rfl := Except.error.inj h
    refine .inr (.inr ⟨name, rfl, ?_⟩)
    have hscope : (run.learn s d.block).scope s = run.scope s := by
      unfold scope
      rw [declared_learn]
    rw [← hscope]
    exact not_isDeclared_of_obstacle hobstacle
  · next name hobstacle =>
    obtain rfl := Except.error.inj h
    exact .inr (.inl ⟨name, rfl⟩)
  -- otherwise the block is performed
  all_goals
    obtain ⟨fault, hperform, rfl⟩ := mapError_eq_error_iff.1 h
    exact .inl (perform_fault hperform)

end Run

end MissionScript
