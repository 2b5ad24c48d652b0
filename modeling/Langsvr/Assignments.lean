import Langsvr.OneOfVariables
import Langsvr.OptionalVariables

/-!
# Assignments

What the assignment operators of `OneOf` and `Optional` do to the values of all variables.
Each of them resets its target before it reads the other variable. A `OneOf` that has a
type twice deletes its object twice.
-/

namespace Langsvr

variable {τ α β : Type} [DecidableEq τ]

namespace OneOfStore

/-- The type and the value that a variable holds: the first type for which `Get` returns a
pointer, and what it points to. -/
def held (T : TypeList τ) (s : OneOfStore α) (i : ℕ) : Option (τ × α) := do
  let x ← s.vars i
  let t ← T.types.find? fun t => (x.get T t).isSome
  let p ← x.get T t
  let value ← s.heap.read p
  some (t, value)

section Held

variable {T : TypeList τ} {s : OneOfStore α} {i j k : ℕ}

/-- The type comes from the kind and the value from the pointer. -/
theorem held_eq (T : TypeList τ) (s : OneOfStore α) (i : ℕ) :
    s.held T i = (Langsvr.held s.owner s.heap i).bind fun value =>
      (s.vars i).bind fun x => (T.types.find? (x.is T)).map fun t => (t, value) := by
  cases hi : s.vars i with
  | none => simp [held, Langsvr.held, owner, hi]
  | some x =>
    have hown : s.owner i = x.ptr := by simp [owner, hi]
    cases hp : x.ptr with
    | none => simp [held, Langsvr.held, hi, hown, hp, OneOf.get]
    | some p =>
      have hsome : (fun t => (x.get T t).isSome) = x.is T := by
        funext t
        cases ht : x.is T t with
        | false => simp [OneOf.get, ht]
        | true => simp [OneOf.get, ht, hp]
      cases hf : T.types.find? (x.is T) with
      | none => simp [held, Langsvr.held, hi, hown, hp, hsome, hf]
      | some t =>
        have hget : x.get T t = some p := by
          have his := List.find?_some hf
          simp [OneOf.get, his, hp]
        cases hread : s.heap.read p with
        | none => simp [held, Langsvr.held, hi, hown, hp, hsome, hf, hget, hread]
        | some value => simp [held, Langsvr.held, hi, hown, hp, hsome, hf, hget, hread]

/-- A variable holds the same as before if its members and its object are the same. -/
theorem held_congr {s' : OneOfStore α} (hv : s'.vars k = s.vars k)
    (hh : Langsvr.held s'.owner s'.heap k = Langsvr.held s.owner s.heap k) :
    s'.held T k = s.held T k := by
  rw [held_eq, held_eq, hv, hh]

theorem held_eq_none_of_owner (hi : s.owner i = none) : s.held T i = none := by
  rw [held_eq, Langsvr.held, hi, Option.bind_none, Option.bind_none]

theorem held_reset (h : Separate s.owner s.heap) (hk : k ≠ i) :
    (s.reset T i).held T k = s.held T k := by
  obtain ⟨n, hn⟩ := heap_reset (T := T) (s := s) (i := i)
  refine held_congr (vars_reset hk) ?_
  rw [owner_reset, hn]
  exact h.held_delete hk n

/-- `Get` returns a pointer for some type if the variable holds a value. -/
theorem held_eq_none_of_get {x : OneOf} (hi : s.vars i = some x)
    (hx : T.types.findSome? (x.get T) = none) : s.held T i = none := by
  have hf : T.types.find? (fun t => (x.get T t).isSome) = none := by
    rw [List.find?_eq_none]
    intro t ht
    simp [List.findSome?_eq_none_iff.mp hx t ht]
  simp [held, hi, hf]

/-- The target of the copy assignment holds what the other variable holds after the reset. -/
theorem held_copyAssign_self (h : Separate s.owner s.heap) :
    (s.copyAssign T i j).held T i = (s.reset T i).held T j := by
  have hr := separate_reset (T := T) (i := i) h
  cases ho : (s.reset T i).vars j with
  | none =>
    have hown : (s.reset T i).owner j = none := by simp [owner, ho]
    simp only [copyAssign, ho]
    rw [held_eq_none_of_owner owner_reset_self, held_eq_none_of_owner hown]
  | some other =>
    have hnull : ((s.reset T i).put i (some ⟨none, other.kind⟩)).held T i = none :=
      held_eq_none_of_owner (by simp [owner])
    simp only [copyAssign, ho]
    cases hf : T.types.findSome? (other.get T) with
    | none =>
      rw [held_eq_none_of_get ho hf]
      exact hnull
    | some p =>
      obtain ⟨t, -, ht⟩ := List.exists_of_findSome?_eq_some hf
      have hown : (s.reset T i).owner j = some p := by
        simp [owner, ho, (OneOf.get_eq_some.mp ht).2]
      rw [Option.bind_some, held_eq T (s.reset T i) j, Langsvr.held, hown, Option.bind_some, ho]
      cases hv : (s.reset T i).heap.read p with
      | none => exact hnull
      | some value =>
        simp only
        rw [held_eq, owner_install, vars_install_self]
        have hnew := hr.held_new_self (i := i) value
        rw [install, hnew]
        rfl

/-- After the reset the target is left alone, or it gets the kind of the other variable alone or
with a copy. -/
theorem copyAssign_cases (T : TypeList τ) (s : OneOfStore α) (i j : ℕ) :
    s.copyAssign T i j = s.reset T i ∨
      (∃ kind, s.copyAssign T i j = (s.reset T i).put i (some ⟨none, kind⟩)) ∨
      ∃ kind value, s.copyAssign T i j = (s.reset T i).install i kind value := by
  rw [copyAssign]
  cases (s.reset T i).vars j with
  | none => exact .inl rfl
  | some other =>
    simp only
    cases (T.types.findSome? (other.get T)).bind (s.reset T i).heap.read with
    | none => exact .inr (.inl ⟨_, rfl⟩)
    | some value => exact .inr (.inr ⟨_, _, rfl⟩)

theorem held_copyAssign (h : Separate s.owner s.heap) (hk : k ≠ i) :
    (s.copyAssign T i j).held T k = s.held T k := by
  rw [← held_reset h hk]
  obtain heq | ⟨kind, heq⟩ | ⟨kind, value, heq⟩ := copyAssign_cases T s i j
  · rw [heq]
  · rw [heq]
    refine held_congr (vars_put hk _) ?_
    rw [owner_put, Langsvr.held, Langsvr.held, Function.update_of_ne hk]
    rfl
  · rw [heq]
    refine held_congr (vars_install hk _ _) ?_
    rw [owner_install]
    exact (separate_reset h).held_new hk value

theorem vars_copyAssign (hk : k ≠ i) : (s.copyAssign T i j).vars k = s.vars k := by
  have hr : (s.reset T i).vars k = s.vars k := vars_reset hk
  obtain heq | ⟨kind, heq⟩ | ⟨kind, value, heq⟩ := copyAssign_cases T s i j
  · rw [heq, hr]
  · rw [heq, vars_put hk, hr]
  · rw [heq, vars_install hk, hr]

theorem released_copyAssign :
    (s.copyAssign T i j).heap.released = (s.reset T i).heap.released := by
  obtain heq | ⟨kind, heq⟩ | ⟨kind, value, heq⟩ := copyAssign_cases T s i j
  · rw [heq]
  · rw [heq]
    rfl
  · rw [heq]
    rfl

/-- The old object of the target is released as often as the list has its type. -/
theorem releasesOnce_copyAssign_iff (h : Separate s.owner s.heap) :
    s.heap.ReleasesOnce (s.copyAssign T i j).heap ↔ DeletesOnce T s (.copyAssign i j) := by
  simp only [Heap.ReleasesOnce, released_copyAssign]
  cases hi : s.vars i with
  | none =>
    rw [reset_of_none hi]
    refine iff_of_true (fun p hp => ?_) fun x hx => ?_
    · rw [List.count_eq_zero_of_not_mem hp]
      exact Nat.zero_le 1
    · cases hi.symm.trans hx
  | some x =>
    rw [reset_of_some hi]
    cases hp : x.ptr with
    | none =>
      refine iff_of_true (fun q hq => ?_) fun y hy hne => ?_
      · rw [Heap.deleteTimes_none, List.count_eq_zero_of_not_mem hq]
        exact Nat.zero_le 1
      · cases hi.symm.trans hy
        exact absurd hp hne
    | some p =>
      have hlive : p ∉ s.heap.released := h.live i p (by simp [owner, hi, hp])
      simp only [Heap.released_deleteTimes, List.count_append, List.count_replicate]
      constructor
      · intro hone y hy _
        cases hi.symm.trans hy
        have hcount := hone p hlive
        simp only [BEq.rfl, if_true] at hcount
        omega
      · intro hd q hq
        have hle := hd x hi (by simp [hp])
        rw [List.count_eq_zero_of_not_mem hq]
        split <;> omega

/-- The copy assignment copies except where a variable that holds a value is assigned to
itself, and where it deletes the old object of the target twice. -/
theorem copied_iff (h : Separate s.owner s.heap) (i j : ℕ) :
    Copied (s.held T) ((s.copyAssign T i j).held T) s.heap (s.copyAssign T i j).heap i j ↔
      (i ≠ j ∨ s.held T j = none) ∧ DeletesOnce T s (.copyAssign i j) := by
  rw [copied_iff_of_cleared (held_eq_none_of_owner owner_reset_self) (fun _ hk => held_reset h hk)
    (held_copyAssign_self h) fun _ hk => held_copyAssign h hk]
  exact and_congr_right fun _ => releasesOnce_copyAssign_iff h

end Held

end OneOfStore

/-- In every store the assignments do what they should if and only if the operands are
distinct or the operand on the right holds nothing, and the `OneOf` on the left does not
delete its old object twice, which it never does if its types are distinct. No other variable
is written. -/
theorem assignment_iff {T : TypeList τ} {s : OneOfStore α} {o : OptionalStore β}
    (hs : s.Reachable T fun _ _ => True) (ho : o.Reachable) (i j : ℕ) :
    (Copied (s.held T) ((s.copyAssign T i j).held T) s.heap (s.copyAssign T i j).heap i j ↔
      (i ≠ j ∨ s.held T j = none) ∧ OneOfStore.DeletesOnce T s (.copyAssign i j)) ∧
      (T.types.Nodup → OneOfStore.DeletesOnce T s (.copyAssign i j)) ∧
      (Copied o.held (o.copyAssign i j).held o.heap (o.copyAssign i j).heap i j ↔
        i ≠ j ∨ o.held j = none) ∧
      (Moved o.held (o.moveAssign i j).held o.heap (o.moveAssign i j).heap i j ↔
        i ≠ j ∨ o.held j = none) ∧
      ∀ k, k ≠ i → k ≠ j → (s.copyAssign T i j).vars k = s.vars k ∧
        (o.copyAssign i j).vars k = o.vars k ∧ (o.moveAssign i j).vars k = o.vars k := by
  have howns := OptionalStore.owns_of_reachable ho
  refine ⟨OneOfStore.copied_iff (OneOfStore.sound_of_reachable hs).separate i j,
    OneOfStore.deletesOnce_of_nodup_types, OptionalStore.copied_iff howns i j,
    OptionalStore.moved_iff howns i j, ?_⟩
  intro k hki hkj
  exact ⟨OneOfStore.vars_copyAssign hki, OptionalStore.vars_copyAssign hki,
    OptionalStore.vars_moveAssign hki hkj⟩

section Strings

def integerOrString : TypeList String := ⟨["Integer", "String"], by decide⟩

def greeting : OneOfStore String :=
  (({} : OneOfStore String).constructValue integerOrString 0 "String" "hello").construct 1

theorem greeting_reachable : greeting.Reachable integerOrString fun _ _ => True :=
  .tail (.tail .refl ⟨.constructValue 0 "String" "hello", ⟨rfl, by decide⟩, trivial, rfl⟩)
    ⟨.construct 1, rfl, trivial, rfl⟩

/-- The string is copied to the second variable. -/
theorem assignment_iff_string : Copied (greeting.held integerOrString)
    ((greeting.copyAssign integerOrString 1 0).held integerOrString) greeting.heap
    (greeting.copyAssign integerOrString 1 0).heap 1 0 := by
  have ho : OptionalStore.Reachable ({} : OptionalStore String) := .refl
  have h := assignment_iff greeting_reachable ho 1 0
  exact h.1.mpr ⟨.inl (by decide), h.2.1 (by decide)⟩

/-- A string that is assigned to itself is lost. A string that is assigned to a variable
with the type `String` twice deletes the string of this variable twice. -/
theorem self_assignment_loses_value :
    (∃ s : OneOfStore String,
      s.Reachable ⟨["String"], by decide⟩ (fun _ _ => True) ∧
      s.held ⟨["String"], by decide⟩ 0 = some ("String", "hello") ∧
      (s.copyAssign ⟨["String"], by decide⟩ 0 0).held ⟨["String"], by decide⟩ 0 = none) ∧
    (∃ o : OptionalStore String, o.Reachable ∧ o.held 0 = some "hello" ∧
      (o.copyAssign 0 0).held 0 = none ∧ (o.moveAssign 0 0).held 0 = none) ∧
    ∃ s : OneOfStore String,
      s.Reachable ⟨["String", "String"], by decide⟩ (fun _ _ => True) ∧
      s.heap.released = [] ∧
      (s.copyAssign ⟨["String", "String"], by decide⟩ 1 0).heap.released = [1, 1] := by
  refine ⟨?_, ?_, ?_⟩
  · refine ⟨_, .single ⟨.constructValue 0 "String" "hello", ?_, trivial, rfl⟩, ?_, ?_⟩
    · exact ⟨rfl, by decide⟩
    · decide
    · decide
  · refine ⟨_, .single ⟨.constructValue 0 "hello", ?_, rfl⟩, ?_, ?_, ?_⟩
    · rfl
    · decide
    · decide
    · decide
  · refine ⟨_, .tail (.tail .refl ⟨.constructValue 0 "String" "hello", ?_, trivial, rfl⟩)
      ⟨.constructValue 1 "String" "bye", ?_, trivial, rfl⟩, ?_, ?_⟩
    · exact ⟨rfl, by decide⟩
    · exact ⟨rfl, by decide⟩
    · decide
    · decide

end Strings

end Langsvr
