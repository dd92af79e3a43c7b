/-
What one block does to a run.

- `Supplied` says which names an assignment cannot do without; `supplied_or_missing`: it is the lack of one of these,
  and nothing else, that counts as a missing object.
- `Handled` lists what handling a statement can do to a run: the instruction it adds and the run behind it.
- `perform_frame`: what performing a block leaves alone, in either pass.
- `firstStep_cases`: in the first pass a statement is handled, or an assignment or a call is set aside.
- `replayStep_cases`: in the second pass a statement is handled, and never set aside again.
-/
import Mathlib.Tactic
import MissionScript.Program.Run
import MissionScript.Proofs.Function.Growth
import MissionScript.Proofs.Outcome

namespace MissionScript

/-- true for a statement with its comments, false for comments without a statement -/
def Block.isStatement (b : Block) : Bool :=
  match b.content with
  | .statement _ => true
  | .comment => false

/-- true for assignments and for commands that are written as calls -/
def Block.mayWait (b : Block) : Bool :=
  match b.content with
  | .statement (.assignment _ _) => true
  | .statement (.command c) => c.form == .call
  | .statement (.declaration _) | .comment => false

theorem Block.isStatement_of_mayWait {b : Block} (h : b.mayWait = true) : b.isStatement = true := by
  unfold Block.mayWait at h
  unfold Block.isStatement
  split at h <;> simp_all

/-- the objects of a script behind a block, the latest first -/
def Block.declare (b : Block) (declared : List (Text × Text)) : List (Text × Text) :=
  match b.content with
  | .statement (.declaration d) => d.names.foldl (fun declared n => (n.name, d.typeName) :: declared) declared
  | .statement (.command _) | .statement (.assignment _ _) | .comment => declared

theorem Block.declare_of_mayWait {b : Block} (h : b.mayWait = true) (declared : List (Text × Text)) :
    b.declare declared = declared := by
  unfold Block.mayWait at h
  unfold Block.declare
  split at h <;> simp_all

/-- the instruction has the line of the block, and its declaration, its command or its target -/
def Instruction.ComesFrom (i : Instruction) (b : Block) : Prop :=
  i.line = b.line ∧
    match b.content, i.action with
    | .statement (.declaration d), .declare d' => d' = d
    | .statement (.command c), .command c' => c' = c
    | .statement (.assignment lhs _), .assign a => a.lhs = lhs
    | _, _ => False

def Instruction.command? (i : Instruction) : Option Command :=
  match i.action with
  | .command c => some c
  | .declare _ | .assign _ => none

def Instruction.assignment? (i : Instruction) : Option Assignment :=
  match i.action with
  | .assign a => some a
  | .declare _ | .command _ => none

namespace Run

variable {s : Setting} {pass : Pass} {run after : Run} {mode : Mode} {b : Block} {i : Instruction} {lhs rhs : Text}

/-! ## What an assignment needs -/

/-- The target is declared, and each object whose properties the value uses is declared or has the name of a
function. -/
structure Supplied (s : Setting) (run : Run) (lhs rhs : Text) : Prop where
  target : (run.scope s).isDeclared (Reference.head lhs) = true
  owners : Text.isQuoted rhs = false → ∀ r ∈ Text.references rhs, Reference.isDotted r = true →
    run.knows s (Reference.head r) = true

/-- An object is missing exactly when the assignment is not supplied, and then nothing has declared it. -/
theorem supplied_or_missing (s : Setting) (run : Run) (lhs rhs : Text) :
    (run.Supplied s lhs rhs ∧ ∀ name, missingName s run lhs rhs ≠ .ok (some (.object name))) ∨
      (¬run.Supplied s lhs rhs ∧ ∃ name, missingName s run lhs rhs = .ok (some (.object name)) ∧
        (run.scope s).isDeclared name = false) := by
  unfold missingName
  cases htarget : (run.scope s).isDeclared (Reference.head lhs) with
  | false =>
    refine .inr ⟨fun h => ?_, _, rfl, htarget⟩
    rw [h.target] at htarget
    exact absurd htarget (by decide)
  | true =>
    cases hquoted : Text.isQuoted rhs with
    | true => exact .inl ⟨⟨htarget, fun h => by simp [hquoted] at h⟩, fun name h => by simp [pure, Except.pure] at h⟩
    | false =>
      simp only [Bool.not_true, Bool.false_eq_true, if_false]
      cases hfind : ((((Text.references rhs).filter Reference.isDotted).map Reference.head).find? fun name =>
          !run.knows s name) with
      | some name =>
        obtain ⟨r, hr, rfl⟩ := List.mem_map.1 (List.mem_of_find?_eq_some hfind)
        obtain ⟨hmem, hdotted⟩ := List.mem_filter.1 hr
        have hunknown : run.knows s (Reference.head r) = false := by simpa using List.find?_some hfind
        refine .inr ⟨fun h => ?_, _, rfl, ?_⟩
        · rw [h.owners hquoted r hmem hdotted] at hunknown
          exact absurd hunknown (by decide)
        · exact (Bool.or_eq_false_iff.1 hunknown).1
      | none =>
        have hknown := List.find?_eq_none.1 hfind
        refine .inl ⟨⟨htarget, fun _ r hr hdotted => ?_⟩, fun name h => ?_⟩
        · simpa using hknown _ (List.mem_map_of_mem (List.mem_filter.2 ⟨hr, hdotted⟩))
        · cases hequation : (isEquation run.vocabulary rhs).mapError ScriptFault.expression with
          | error fault => simp [hequation, bind, Except.bind] at h
          | ok equation =>
            cases equation <;> simp [hequation, bind, Except.bind, pure, Except.pure] at h

theorem not_isDeclared_of_obstacle {name : Text} (h : run.obstacle s b = .ok (some (.object name))) :
    (run.scope s).isDeclared name = false := by
  unfold obstacle at h
  split at h
  · split_ifs at h
    · simp at h
    · simp at h
  · next lhs rhs _ =>
    rcases supplied_or_missing s run lhs rhs with ⟨-, hnone⟩ | ⟨-, name', hmissing, hname⟩
    · exact absurd h (hnone name)
    · rw [hmissing] at h
      obtain rfl : name' = name := by simpa using h
      exact hname
  · simp at h
  · simp at h

theorem supplied_of_obstacle (hcontent : b.content = .statement (.assignment lhs rhs))
    (h : ∀ name, run.obstacle s b ≠ .ok (some (.object name))) : run.Supplied s lhs rhs := by
  simp only [obstacle, hcontent] at h
  rcases supplied_or_missing s run lhs rhs with ⟨hsupplied, -⟩ | ⟨-, name, hmissing, -⟩
  · exact hsupplied
  · exact absurd hmissing (h name)

/-! ## Performing a block -/

/-- What a block leaves alone: the functions known and, in the second pass, the mode of the run. -/
theorem perform_frame (h : run.perform s pass mode b = .ok after) :
    after.vocabulary = run.vocabulary ∧ (pass = .second → after.mode = run.mode) := by
  unfold perform at h
  split at h
  · obtain rfl := Except.ok.inj h
    exact ⟨rfl, fun _ => rfl⟩
  · obtain rfl := Except.ok.inj h
    exact ⟨rfl, fun _ => rfl⟩
  · obtain rfl := Except.ok.inj h
    refine ⟨rfl, fun hpass => ?_⟩
    subst hpass
    rfl
  · obtain ⟨r, -, h⟩ := bind_eq_ok_iff.1 h
    obtain rfl := Except.ok.inj h
    refine ⟨rfl, fun hpass => ?_⟩
    subst hpass
    rfl

/-! ## Handling a statement -/

/-- Handling a statement in a pass and a mode adds an instruction to a run and leads to another run. -/
inductive Handled (s : Setting) (pass : Pass) (run : Run) (mode : Mode) (b : Block) : Instruction → Run → Prop where
  | declaration {d : Declaration} : b.content = .statement (.declaration d) →
      Handled s pass run mode b ⟨b.line, .declare d⟩ ((run.declare d).emit b.line (.declare d))
  | command {c : Command} : b.content = .statement (.command c) →
      Handled s pass run mode b ⟨b.line, .command c⟩
        ({ run with mode := if pass = Pass.first then modeAfter c.keyword run.mode else run.mode }.emit b.line (.command c))
  | assignment {lhs rhs : Text} {r : Resolution} : b.content = .statement (.assignment lhs rhs) →
      run.Supplied s lhs rhs → resolve s.nesting run.vocabulary (run.scope s) mode lhs rhs = .ok r →
      Handled s pass run mode b
        ⟨b.line, .assign ⟨lhs, r.timing.isDeferred, r.target.map fun p : Property => (p.owner, p.id), r.tree⟩⟩
        ({ run with mode := if pass = Pass.first then modeSwitched r.timing run.mode else run.mode }.emit b.line
          (.assign ⟨lhs, r.timing.isDeferred, r.target.map fun p : Property => (p.owner, p.id), r.tree⟩))

theorem handled_of_perform (hb : b.isStatement = true)
    (hneeds : ∀ name, run.obstacle s b ≠ .ok (some (.object name))) (h : run.perform s pass mode b = .ok after) :
    ∃ i, Handled s pass run mode b i after := by
  unfold perform at h
  unfold Block.isStatement at hb
  cases hcontent : b.content with
  | comment => simp [hcontent] at hb
  | statement statement =>
    rw [hcontent] at h
    cases statement with
    | declaration d =>
      obtain rfl := Except.ok.inj h
      exact ⟨_, .declaration hcontent⟩
    | command c =>
      obtain rfl := Except.ok.inj h
      exact ⟨_, .command hcontent⟩
    | assignment lhs rhs =>
      cases hresolve : resolve s.nesting run.vocabulary (run.scope s) mode lhs rhs with
      | error fault => simp [hresolve, bind, Except.bind] at h
      | ok r =>
        simp only [hresolve, bind, Except.bind, pure, Except.pure, Except.ok.injEq] at h
        subst h
        exact ⟨_, .assignment hcontent (supplied_of_obstacle hcontent hneeds) hresolve⟩

theorem Handled.comesFrom (h : Handled s pass run mode b i after) : i.ComesFrom b := by
  cases h with
  | declaration hcontent => exact ⟨rfl, by rw [hcontent]⟩
  | command hcontent => exact ⟨rfl, by rw [hcontent]⟩
  | assignment hcontent _ _ => exact ⟨rfl, by rw [hcontent]⟩

theorem Handled.supplied (h : Handled s pass run mode b i after) (hcontent : b.content = .statement (.assignment lhs rhs)) :
    run.Supplied s lhs rhs := by
  cases h with
  | declaration hother => simp [hcontent] at hother
  | command hother => simp [hcontent] at hother
  | assignment hsame hsupplied _ =>
    rw [hcontent] at hsame
    simp only [Content.statement.injEq, Statement.assignment.injEq] at hsame
    rw [hsame.1, hsame.2]
    exact hsupplied

theorem Handled.program (h : Handled s pass run mode b i after) : after.program = run.program ++ [i] := by
  cases h <;> rfl

theorem Handled.delayed (h : Handled s pass run mode b i after) : after.delayed = run.delayed := by
  cases h <;> rfl

theorem Handled.declared (h : Handled s pass run mode b i after) : after.declared = b.declare run.declared := by
  cases h with
  | declaration hcontent =>
    unfold Block.declare
    rw [hcontent]
    rfl
  | command hcontent =>
    unfold Block.declare
    rw [hcontent]
    rfl
  | assignment hcontent _ _ =>
    unfold Block.declare
    rw [hcontent]
    rfl

theorem Handled.vocabulary (h : Handled s pass run mode b i after) : after.vocabulary = run.vocabulary := by
  cases h <;> rfl

/-! ## Looking for functions -/

theorem learn_eq (s : Setting) (b : Block) (run : Run) : ∃ voc, run.learn s b = { run with vocabulary := voc } := by
  unfold learn
  split
  · split_ifs
    · exact ⟨_, rfl⟩
    · exact ⟨run.vocabulary, rfl⟩
  · exact ⟨_, rfl⟩
  · exact ⟨run.vocabulary, rfl⟩
  · exact ⟨run.vocabulary, rfl⟩

@[simp] theorem mode_learn (s : Setting) (b : Block) (run : Run) : (run.learn s b).mode = run.mode := by
  obtain ⟨voc, h⟩ := learn_eq s b run
  rw [h]

@[simp] theorem declared_learn (s : Setting) (b : Block) (run : Run) : (run.learn s b).declared = run.declared := by
  obtain ⟨voc, h⟩ := learn_eq s b run
  rw [h]

@[simp] theorem delayed_learn (s : Setting) (b : Block) (run : Run) : (run.learn s b).delayed = run.delayed := by
  obtain ⟨voc, h⟩ := learn_eq s b run
  rw [h]

@[simp] theorem program_learn (s : Setting) (b : Block) (run : Run) : (run.learn s b).program = run.program := by
  obtain ⟨voc, h⟩ := learn_eq s b run
  rw [h]

theorem vocabulary_le_learn (s : Setting) (b : Block) (run : Run) : run.vocabulary ≤ (run.learn s b).vocabulary := by
  unfold learn
  split
  · split_ifs
    · exact Vocabulary.le_learn _ _ _
    · exact le_rfl
  · exact Vocabulary.le_learn _ _ _
  · exact le_rfl
  · exact le_rfl

/-! ## Steps of the passes -/

/-- true when the first pass sets the block aside -/
def setsAside (s : Setting) (run : Run) (b : Block) : Bool :=
  match (run.learn s b).obstacle s b with
  | .ok (some _) => true
  | .ok none | .error _ => false

def setAside (s : Setting) (run : Run) (b : Block) : Run :=
  { run.learn s b with delayed := run.delayed ++ [⟨b, run.mode⟩] }

@[simp] theorem mode_setAside (s : Setting) (run : Run) (b : Block) : (run.setAside s b).mode = run.mode :=
  mode_learn s b run

@[simp] theorem declared_setAside (s : Setting) (run : Run) (b : Block) :
    (run.setAside s b).declared = run.declared :=
  declared_learn s b run

@[simp] theorem delayed_setAside (s : Setting) (run : Run) (b : Block) :
    (run.setAside s b).delayed = run.delayed ++ [⟨b, run.mode⟩] := rfl

@[simp] theorem program_setAside (s : Setting) (run : Run) (b : Block) : (run.setAside s b).program = run.program :=
  program_learn s b run

/-- Only assignments and calls meet obstacles. -/
theorem mayWait_of_obstacle {o : Obstacle} (h : run.obstacle s b = .ok (some o)) : b.mayWait = true := by
  unfold obstacle at h
  unfold Block.mayWait
  split at h
  · next c hcontent =>
    rw [hcontent]
    split_ifs at h with hcall
    · simpa using hcall.1
    · simp at h
  · next hcontent => rw [hcontent]
  · simp at h
  · simp at h

theorem firstStep_of_comment (hb : b.isStatement = false) : run.firstStep s b = .ok run := by
  unfold Block.isStatement at hb
  have hcontent : b.content = .comment := by
    cases hcontent : b.content with
    | comment => rfl
    | statement statement => simp [hcontent] at hb
  simp [firstStep, learn, obstacle, perform, hcontent]

theorem mayWait_of_setsAside (h : run.setsAside s b = true) : b.mayWait = true := by
  unfold setsAside at h
  split at h
  · next hobstacle => exact mayWait_of_obstacle hobstacle
  · simp at h
  · simp at h

theorem firstStep_cases (hb : b.isStatement = true) (h : run.firstStep s b = .ok after) :
    (run.setsAside s b = true ∧ after = run.setAside s b) ∨
      (run.setsAside s b = false ∧ ∃ i, Handled s .first (run.learn s b) run.mode b i after) := by
  unfold firstStep at h
  unfold setsAside
  cases hobstacle : (run.learn s b).obstacle s b with
  | error fault => simp [hobstacle] at h
  | ok found =>
    cases found with
    | some o =>
      simp only [hobstacle, Except.ok.injEq] at h
      subst h
      refine .inl ⟨rfl, ?_⟩
      simp only [setAside, delayed_learn, mode_learn]
    | none =>
      simp only [hobstacle, mode_learn] at h
      cases hperform : (run.learn s b).perform s .first run.mode b with
      | error fault => simp [hperform] at h
      | ok next =>
        simp only [hperform, mapError_ok, Except.ok.injEq] at h
        subst h
        exact .inr ⟨rfl, handled_of_perform hb (by simp [hobstacle]) hperform⟩

/-- In the second pass nothing is set aside. -/
theorem replayStep_cases {d : Delayed} (hb : d.block.isStatement = true) (h : run.replayStep s d = .ok after) :
    ∃ i, Handled s .second (run.learn s d.block) d.mode d.block i after := by
  unfold replayStep at h
  have hneeds : ∀ name, (run.learn s d.block).obstacle s d.block ≠ .ok (some (.object name)) := by
    intro name hobstacle
    simp [hobstacle] at h
  simp only at h
  split at h
  · simp at h
  · simp at h
  · simp at h
  all_goals exact handled_of_perform hb hneeds (mapError_eq_ok_iff.1 h)

end Run

end MissionScript
