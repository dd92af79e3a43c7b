/-
Computations that may fail.

What is known of the parts of a computation from its outcome: of the two steps of a bind, of a computation with its
faults or its results renamed, of one of which only the result is seen, and of the steps of a fold.
-/
import MissionScript.Text.Basic

namespace MissionScript

variable {ε ε' α β γ : Type} {x : Except ε α}

theorem bind_eq_ok_iff {f : α → Except ε β} {b : β} : x >>= f = .ok b ↔ ∃ a, x = .ok a ∧ f a = .ok b := by
  cases x with
  | error e => simp [bind, Except.bind]
  | ok a => simp [bind, Except.bind]

theorem bind_eq_error_iff {f : α → Except ε β} {e : ε} :
    x >>= f = .error e ↔ x = .error e ∨ ∃ a, x = .ok a ∧ f a = .error e := by
  cases x with
  | error e' => simp [bind, Except.bind]
  | ok a => simp [bind, Except.bind]

@[simp] theorem mapError_ok (f : ε → ε') (a : α) : (Except.ok a).mapError f = .ok a := rfl

@[simp] theorem mapError_error (f : ε → ε') (e : ε) : (Except.error e : Except ε α).mapError f = .error (f e) := rfl

theorem mapError_eq_error_iff {f : ε → ε'} {e' : ε'} : x.mapError f = .error e' ↔ ∃ e, x = .error e ∧ f e = e' := by
  cases x with
  | error e => simp
  | ok a => simp

theorem mapError_eq_ok_iff {f : ε → ε'} {a : α} : x.mapError f = .ok a ↔ x = .ok a := by
  cases x with
  | error e => simp
  | ok a => simp

theorem map_eq_ok_iff {f : α → β} {b : β} : x.map f = .ok b ↔ ∃ a, x = .ok a ∧ f a = b := by
  cases x with
  | error e => simp [Except.map]
  | ok a => simp [Except.map]

/-- Two results look the same: both fail in the same way, or both hold what looks the same. -/
theorem map_eq_map_iff {f : α → γ} {g : β → γ} {y : Except ε β} :
    x.map f = y.map g ↔
      (∃ e, x = .error e ∧ y = .error e) ∨ ∃ a b, x = .ok a ∧ y = .ok b ∧ f a = g b := by
  cases x <;> cases y <;> simp [Except.map, eq_comm]

/-- What is seen of a computation by its result is seen of a result that it has. -/
theorem toOption_map_eq_some_iff {f : α → β} {b : β} : x.toOption.map f = some b ↔ ∃ a, x = .ok a ∧ f a = b := by
  cases x with
  | error e => simp [Except.toOption]
  | ok a => simp [Except.toOption]

theorem toOption_bind_eq_some_iff {f : α → Option β} {b : β} :
    x.toOption.bind f = some b ↔ ∃ a, x = .ok a ∧ f a = some b := by
  cases x with
  | error e => simp [Except.toOption]
  | ok a => simp [Except.toOption]

/-! ## Folds -/

variable {σ : Type} {f : σ → α → Except ε σ} {xs ys : List α} {init final : σ}

theorem foldlM_cons_eq_ok_iff {a : α} :
    (a :: xs).foldlM f init = .ok final ↔ ∃ next, f init a = .ok next ∧ xs.foldlM f next = .ok final := by
  rw [List.foldlM_cons]
  exact bind_eq_ok_iff

theorem foldlM_append_eq_ok_iff :
    (xs ++ ys).foldlM f init = .ok final ↔
      ∃ middle, xs.foldlM f init = .ok middle ∧ ys.foldlM f middle = .ok final := by
  rw [List.foldlM_append]
  exact bind_eq_ok_iff

/-- A fold that fails has come to an element on which a step fails. -/
theorem exists_of_foldlM_eq_error {e : ε} (h : xs.foldlM f init = .error e) :
    ∃ before x later state, xs = before ++ x :: later ∧ before.foldlM f init = .ok state ∧ f state x = .error e := by
  induction xs generalizing init with
  | nil => simp [pure, Except.pure] at h
  | cons x xs ih =>
    rw [List.foldlM_cons] at h
    rcases bind_eq_error_iff.1 h with h | ⟨next, hstep, h⟩
    · exact ⟨[], x, xs, init, rfl, rfl, h⟩
    · obtain ⟨before, y, later, state, rfl, hbefore, hy⟩ := ih h
      refine ⟨x :: before, y, later, state, rfl, ?_, hy⟩
      rw [List.foldlM_cons, hstep]
      exact hbefore

end MissionScript
