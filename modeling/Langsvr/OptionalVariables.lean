import Langsvr.OwningPointers
import Mathlib.Logic.Relation

/-!
# Variables of type `Optional`

The class template `Optional`, which is an owning pointer. The methods act on variables that
are named by numbers. An assignment resets its target first and reads the other variable
afterwards, also where both are the same variable.
-/

namespace Langsvr

variable {α : Type}

/-- The variables that exist, each with its member `ptr`, and the heap. -/
structure OptionalStore (α : Type) where
  vars : ℕ → Option (Option ℕ) := fun _ => none
  heap : Heap α := {}

namespace OptionalStore

def owner (s : OptionalStore α) (i : ℕ) : Option ℕ := (s.vars i).join

def held (s : OptionalStore α) (i : ℕ) : Option α := Langsvr.held s.owner s.heap i

/-- A variable is created, changed or, with `none`, ends. -/
def put (s : OptionalStore α) (i : ℕ) (x : Option (Option ℕ)) : OptionalStore α :=
  { s with vars := Function.update s.vars i x }

def install (s : OptionalStore α) (i : ℕ) (value : α) : OptionalStore α :=
  { s.put i (some (some s.heap.fresh)) with heap := s.heap.new value }

section Methods

variable (s : OptionalStore α)

def construct (i : ℕ) : OptionalStore α := s.put i (some none)

def reset (i : ℕ) : OptionalStore α :=
  match s.vars i with
  | some (some p) => { s.put i (some none) with heap := s.heap.delete (some p) }
  | _ => s

/-- `operator=(const Optional&)`. -/
def copyAssign (i j : ℕ) : OptionalStore α :=
  let r := s.reset i
  match (r.owner j).bind r.heap.read with
  | none => r
  | some value => r.install i value

/-- `operator=(Optional&&)`. -/
def moveAssign (i j : ℕ) : OptionalStore α :=
  let r := s.reset i
  (r.put i (some (r.owner j))).put j (some none)

/-- `operator=(const T&)` and `operator=(T&&)`. -/
def assign (i : ℕ) (value : α) : OptionalStore α :=
  let r := s.reset i
  if r.owner i = none then r.install i value else r

/-- `Optional(const Optional&)`. -/
def copyConstruct (i j : ℕ) : OptionalStore α := (s.construct i).copyAssign i j

/-- `Optional(Optional&&)`. -/
def moveConstruct (i j : ℕ) : OptionalStore α := (s.construct i).moveAssign i j

/-- `Optional(const T&)` and `Optional(T&&)`. -/
def constructValue (i : ℕ) (value : α) : OptionalStore α := (s.construct i).assign i value

def destroy (i : ℕ) : OptionalStore α := (s.reset i).put i none

end Methods

inductive Operation (α : Type) where
  | construct (i : ℕ)
  | copyConstruct (i j : ℕ)
  | moveConstruct (i j : ℕ)
  | constructValue (i : ℕ) (value : α)
  | reset (i : ℕ)
  | copyAssign (i j : ℕ)
  | moveAssign (i j : ℕ)
  | assign (i : ℕ) (value : α)
  | destroy (i : ℕ)

/-- The operations that a program can make in a state: a variable is created once, and it is
used while it exists. -/
def Legal (s : OptionalStore α) : Operation α → Prop
  | .construct i | .constructValue i _ => s.vars i = none
  | .copyConstruct i j | .moveConstruct i j => s.vars i = none ∧ s.vars j ≠ none
  | .reset i | .assign i _ | .destroy i => s.vars i ≠ none
  | .copyAssign i j | .moveAssign i j => s.vars i ≠ none ∧ s.vars j ≠ none

def apply (s : OptionalStore α) : Operation α → OptionalStore α
  | .construct i => s.construct i
  | .copyConstruct i j => s.copyConstruct i j
  | .moveConstruct i j => s.moveConstruct i j
  | .constructValue i value => s.constructValue i value
  | .reset i => s.reset i
  | .copyAssign i j => s.copyAssign i j
  | .moveAssign i j => s.moveAssign i j
  | .assign i value => s.assign i value
  | .destroy i => s.destroy i

def Reachable (s : OptionalStore α) : Prop :=
  Relation.ReflTransGen (fun s s' => ∃ op, Legal s op ∧ s' = s.apply op) {} s

section Members

variable {s : OptionalStore α} {i : ℕ}

theorem owner_put (x : Option (Option ℕ)) :
    (s.put i x).owner = Function.update s.owner i x.join := by
  funext k
  by_cases hk : k = i
  · subst hk
    simp [owner, put]
  · simp [owner, put, hk]

theorem vars_put {k : ℕ} (hk : k ≠ i) (x : Option (Option ℕ)) :
    (s.put i x).vars k = s.vars k :=
  Function.update_of_ne hk ..

theorem owner_install (value : α) :
    (s.install i value).owner = Function.update s.owner i (some s.heap.fresh) :=
  owner_put (some (some s.heap.fresh))

theorem vars_install {k : ℕ} (hk : k ≠ i) (value : α) :
    (s.install i value).vars k = s.vars k :=
  Function.update_of_ne hk ..

theorem reset_spec : (s.reset i).owner = Function.update s.owner i none ∧
    (s.reset i).heap = s.heap.delete (s.owner i) := by
  have hsame : s.owner i = none →
      s.owner = Function.update s.owner i none ∧ s.heap = s.heap.delete (s.owner i) := by
    intro hown
    rw [hown]
    exact ⟨by rw [← hown, Function.update_eq_self], rfl⟩
  cases hi : s.vars i with
  | none =>
    simp only [reset, hi]
    exact hsame (by simp [owner, hi])
  | some x =>
    cases x with
    | none =>
      simp only [reset, hi]
      exact hsame (by simp [owner, hi])
    | some p =>
      have hown : s.owner i = some p := by simp [owner, hi]
      simp only [reset, hi, hown, and_true]
      exact owner_put (some none)

theorem owner_reset_self : (s.reset i).owner i = none := by
  rw [reset_spec.1, Function.update_self]

theorem owner_reset {k : ℕ} (hk : k ≠ i) : (s.reset i).owner k = s.owner k := by
  rw [reset_spec.1, Function.update_of_ne hk]

theorem vars_reset {k : ℕ} (hk : k ≠ i) : (s.reset i).vars k = s.vars k := by
  simp only [reset]
  split
  · exact vars_put hk (some none)
  · rfl

end Members

section Ownership

variable {s : OptionalStore α} {i j : ℕ}

theorem owner_put_null {x : Option (Option ℕ)} (hx : x.join = none) (hi : s.owner i = none) :
    (s.put i x).owner = s.owner := by
  rw [owner_put, hx, ← hi, Function.update_eq_self]

theorem owns_reset (h : Owns s.owner s.heap) (i : ℕ) :
    Owns (s.reset i).owner (s.reset i).heap := by
  rw [reset_spec.1, reset_spec.2]
  exact h.delete i

theorem owns_construct (h : Owns s.owner s.heap) (hi : s.vars i = none) :
    Owns (s.construct i).owner (s.construct i).heap := by
  have hown : (s.construct i).owner = s.owner := owner_put_null rfl (by simp [owner, hi])
  rw [hown]
  exact h

theorem owns_install (h : Owns s.owner s.heap) (hi : s.owner i = none) (value : α) :
    Owns (s.install i value).owner (s.install i value).heap := by
  rw [owner_install]
  exact h.new hi value

theorem owns_copyAssign (h : Owns s.owner s.heap) (i j : ℕ) :
    Owns (s.copyAssign i j).owner (s.copyAssign i j).heap := by
  have hr := owns_reset h i
  simp only [copyAssign]
  cases ((s.reset i).owner j).bind (s.reset i).heap.read with
  | none => exact hr
  | some value => exact owns_install hr owner_reset_self value

theorem owner_moveAssign : (s.moveAssign i j).owner =
    Function.update (Function.update (s.reset i).owner i ((s.reset i).owner j)) j none := by
  rw [moveAssign, owner_put, owner_put]
  rfl

theorem owns_moveAssign (h : Owns s.owner s.heap) (i j : ℕ) :
    Owns (s.moveAssign i j).owner (s.moveAssign i j).heap := by
  have hr := owns_reset h i
  rw [owner_moveAssign]
  by_cases hij : i = j
  · -- nothing is moved, since the reset has emptied the variable
    subst hij
    have hself : Function.update (s.reset i).owner i none = (s.reset i).owner := by
      rw [← owner_reset_self (s := s) (i := i), Function.update_eq_self]
    rw [Function.update_idem, hself]
    exact hr
  · exact hr.move owner_reset_self hij

theorem owns_assign (h : Owns s.owner s.heap) (i : ℕ) (value : α) :
    Owns (s.assign i value).owner (s.assign i value).heap := by
  rw [assign, if_pos owner_reset_self]
  exact owns_install (owns_reset h i) owner_reset_self value

theorem owns_destroy (h : Owns s.owner s.heap) (i : ℕ) :
    Owns (s.destroy i).owner (s.destroy i).heap := by
  have hown : (s.destroy i).owner = (s.reset i).owner := owner_put_null rfl owner_reset_self
  rw [hown]
  exact owns_reset h i

theorem owns_apply (h : Owns s.owner s.heap) {op : Operation α} (hl : Legal s op) :
    Owns (s.apply op).owner (s.apply op).heap := by
  cases op with
  | construct i => exact owns_construct h hl
  | copyConstruct i j => exact owns_copyAssign (owns_construct h hl.1) i j
  | moveConstruct i j => exact owns_moveAssign (owns_construct h hl.1) i j
  | constructValue i value => exact owns_assign (owns_construct h hl) i value
  | reset i => exact owns_reset h i
  | copyAssign i j => exact owns_copyAssign h i j
  | moveAssign i j => exact owns_moveAssign h i j
  | assign i value => exact owns_assign h i value
  | destroy i => exact owns_destroy h i

/-- In every run every object is owned by exactly one variable or released exactly once. -/
theorem owns_of_reachable (hr : Reachable s) : Owns s.owner s.heap := by
  induction hr with
  | refl => exact Owns.init
  | tail _ h ih =>
    obtain ⟨op, hl, rfl⟩ := h
    exact owns_apply ih hl

end Ownership

section Assignments

variable {s : OptionalStore α} {i j k : ℕ}

theorem held_reset_self : (s.reset i).held i = none := by
  rw [held, Langsvr.held, owner_reset_self, Option.bind_none]

theorem held_reset (h : Owns s.owner s.heap) (hk : k ≠ i) : (s.reset i).held k = s.held k := by
  rw [held, reset_spec.1, reset_spec.2]
  exact h.toSeparate.held_delete hk 1

theorem held_copyAssign_self (h : Owns s.owner s.heap) :
    (s.copyAssign i j).held i = (s.reset i).held j := by
  have hr := (owns_reset h i).toSeparate
  simp only [copyAssign]
  cases hv : ((s.reset i).owner j).bind (s.reset i).heap.read with
  | none =>
    rw [held_reset_self]
    exact hv.symm
  | some value =>
    rw [held, owner_install]
    exact (hr.held_new_self value).trans hv.symm

theorem held_copyAssign (h : Owns s.owner s.heap) (hk : k ≠ i) :
    (s.copyAssign i j).held k = s.held k := by
  have hr := (owns_reset h i).toSeparate
  rw [← held_reset h hk]
  simp only [copyAssign]
  cases ((s.reset i).owner j).bind (s.reset i).heap.read with
  | none => rfl
  | some value =>
    rw [held, owner_install]
    exact hr.held_new hk value

theorem held_moveAssign_self :
    (s.moveAssign i j).held i = (s.reset i).held j := by
  rw [held, owner_moveAssign]
  by_cases hij : i = j
  · subst hij
    rw [held_reset_self, Langsvr.held, Function.update_self, Option.bind_none]
  · refine (held_move hij hij).trans ?_
    rw [if_pos rfl]
    rfl

theorem held_moveAssign (h : Owns s.owner s.heap) (hk : k ≠ i) (hkj : k ≠ j) :
    (s.moveAssign i j).held k = s.held k := by
  rw [← held_reset h hk, held, owner_moveAssign, Langsvr.held, Function.update_of_ne hkj,
    Function.update_of_ne hk]
  rfl

theorem vars_copyAssign (hk : k ≠ i) : (s.copyAssign i j).vars k = s.vars k := by
  simp only [copyAssign]
  cases ((s.reset i).owner j).bind (s.reset i).heap.read with
  | none => exact vars_reset hk
  | some value => exact (vars_install hk value).trans (vars_reset hk)

theorem vars_moveAssign (hk : k ≠ i) (hkj : k ≠ j) :
    (s.moveAssign i j).vars k = s.vars k := by
  rw [moveAssign, vars_put hkj, vars_put hk, vars_reset hk]

/-- The copy assignment copies except where a variable that holds a value is assigned to
itself. -/
theorem copied_iff (h : Owns s.owner s.heap) (i j : ℕ) :
    Copied s.held (s.copyAssign i j).held s.heap (s.copyAssign i j).heap i j ↔
      i ≠ j ∨ s.held j = none := by
  rw [copied_iff_of_cleared held_reset_self (fun _ hk => held_reset h hk) (held_copyAssign_self h)
    fun _ hk => held_copyAssign h hk]
  exact and_iff_left ((owns_copyAssign h i j).releasesOnce s.heap)

theorem moved_iff (h : Owns s.owner s.heap) (i j : ℕ) :
    Moved s.held (s.moveAssign i j).held s.heap (s.moveAssign i j).heap i j ↔
      i ≠ j ∨ s.held j = none := by
  rw [moved_iff_of_cleared held_reset_self (fun _ hk => held_reset h hk) held_moveAssign_self
    fun _ hk hkj => held_moveAssign h hk hkj]
  exact and_iff_left ((owns_moveAssign h i j).releasesOnce s.heap)

end Assignments

end OptionalStore

end Langsvr
