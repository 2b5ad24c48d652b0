import Mathlib.Tactic.Common

/-!
# Results

A `Result` is a variant of nothing, a success value and a failure. Every function
modelled here returns a success or a failure, so most of them return an `Except`.
The one exception is a visit of an empty `OneOf`, which returns a Result that was
only default constructed; reading such a Result fires the assertion of
`Result::Validate`.
-/

theorem Except.bind_eq_ok {ε α β : Type} {x : Except ε α} {f : α → Except ε β} {b : β} :
    x >>= f = .ok b ↔ ∃ a, x = .ok a ∧ f a = .ok b := by
  cases x <;> simp [bind, Except.bind]

theorem Except.foldlM_eq_error_iff {ε α β : Type} {f : β → α → Except ε β} {xs : List α}
    {b : β} {e : ε} : xs.foldlM f b = .error e ↔
      ∃ before x after b', xs = before ++ x :: after ∧ before.foldlM f b = .ok b' ∧
        f b' x = .error e := by
  induction xs generalizing b with
  | nil => simp [pure, Except.pure]
  | cons x xs ih =>
    rw [List.foldlM_cons]
    constructor
    · intro h
      cases hx : f b x with
      | error e' =>
        rw [hx] at h
        cases h
        exact ⟨[], x, xs, b, rfl, rfl, hx⟩
      | ok b₁ =>
        rw [hx] at h
        obtain ⟨before, y, after, b', rfl, hb, hy⟩ := ih.mp h
        refine ⟨x :: before, y, after, b', rfl, ?_, hy⟩
        rw [List.foldlM_cons, hx]
        exact hb
    · intro h
      obtain ⟨before, y, after, b', hxs, hb, hy⟩ := h
      cases before with
      | nil =>
        cases hxs
        cases hb
        rw [hy]
        rfl
      | cons z before =>
        cases hxs
        rw [List.foldlM_cons] at hb
        cases hz : f b x with
        | error e' =>
          rw [hz] at hb
          cases hb
        | ok b₁ =>
          rw [hz] at hb
          exact ih.mpr ⟨before, y, after, b', rfl, hb, hy⟩

theorem Except.allM_eq_ok {ε α : Type} {g : α → Except ε Bool} {P : α → Prop} {xs : List α}
    (h : ∀ x ∈ xs, ∃ r, g x = .ok r ∧ (r = true ↔ P x)) :
    ∃ r, xs.allM g = .ok r ∧ (r = true ↔ ∀ x ∈ xs, P x) := by
  induction xs with
  | nil => exact ⟨true, rfl, by simp⟩
  | cons x xs ih =>
    obtain ⟨r, hr, hP⟩ := h x (List.mem_cons_self ..)
    obtain ⟨s, hs, hPs⟩ := ih fun y hy => h y (List.mem_cons_of_mem _ hy)
    rw [List.allM, hr]
    cases r with
    | false =>
      refine ⟨false, rfl, ?_⟩
      simp only [Bool.false_eq_true, false_iff] at hP ⊢
      exact fun hall => hP (hall x (List.mem_cons_self ..))
    | true =>
      refine ⟨s, hs, ?_⟩
      rw [hPs, List.forall_mem_cons]
      simp only [true_iff] at hP
      simp [hP]

namespace Langsvr

/-- The default error type of a Result. -/
structure Failure where
  reason : String
  deriving DecidableEq, Repr

/-- A Result that holds a success or a failure. -/
abbrev Result (α : Type) := Except Failure α

/-- How a call that returns a Result ends: with one of the three states of the
variant, or in the assertion of `Result::Validate`. -/
inductive Outcome (α : Type) where
  | success (value : α)
  | failure (failure : Failure)
  | unset
  | asserted

namespace Outcome

variable {α β γ : Type}

/-- `if (res != Success) return res.Failure();` followed by a use of `res.Get()`.
The comparison validates the Result first. -/
def andThen : Outcome α → (α → Outcome β) → Outcome β
  | .success a, f => f a
  | .failure e, _ => .failure e
  | .unset, _ => .asserted
  | .asserted, _ => .asserted

@[simp] theorem andThen_success (a : α) (f : α → Outcome β) : (success a).andThen f = f a := rfl

theorem andThen_assoc (r : Outcome α) (f : α → Outcome β) (g : β → Outcome γ) :
    (r.andThen f).andThen g = r.andThen fun a => (f a).andThen g := by
  cases r <;> rfl

theorem andThen_eq_success {r : Outcome α} {f : α → Outcome β} {b : β} :
    r.andThen f = .success b ↔ ∃ a, r = .success a ∧ f a = .success b := by
  cases r <;> simp [andThen]

theorem andThen_eq_failure {r : Outcome α} {f : α → Outcome β} {e : Failure} :
    r.andThen f = .failure e ↔ r = .failure e ∨ ∃ a, r = .success a ∧ f a = .failure e := by
  cases r <;> simp [andThen]

end Outcome

end Langsvr
