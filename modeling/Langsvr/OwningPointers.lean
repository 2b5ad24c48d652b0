import Mathlib.Data.List.Nodup
import Mathlib.Logic.Function.Iterate
import Mathlib.Tactic.Common

/-!
# Owning pointers

Objects on a heap and variables that own them. The address of an object is its position
among all objects that were ever made, and the heap keeps a list of the addresses that
have been released. Every object is owned by exactly one variable or has been released
exactly once. What a variable holds is changed by the operations on the variable itself
and by no others.
-/

namespace Langsvr

/-- The objects that were ever made, and the addresses on which `delete` was called, the
latest first. -/
structure Heap (α : Type) where
  objects : List α := []
  released : List ℕ := []

namespace Heap

variable {α : Type} (h : Heap α)

def fresh : ℕ := h.objects.length

def new (a : α) : Heap α := { h with objects := h.objects ++ [a] }

/-- `delete`, which ignores a null pointer. -/
def delete : Option ℕ → Heap α
  | none => h
  | some p => { h with released := p :: h.released }

/-- No object is released more than once on the way from one heap to another. -/
def ReleasesOnce (h h' : Heap α) : Prop := ∀ p ∉ h.released, h'.released.count p ≤ 1

def read (p : ℕ) : Option α := if p ∈ h.released then none else h.objects[p]?

@[simp] theorem delete_none : h.delete none = h := rfl

def deleteTimes (p : Option ℕ) (n : ℕ) : Heap α := (fun h : Heap α => h.delete p)^[n] h

theorem deleteTimes_succ (p : Option ℕ) (n : ℕ) :
    h.deleteTimes p (n + 1) = (h.deleteTimes p n).delete p :=
  Function.iterate_succ_apply' _ n h

theorem deleteTimes_none (n : ℕ) : h.deleteTimes none n = h := Function.iterate_fixed rfl n

theorem objects_deleteTimes (p : Option ℕ) (n : ℕ) : (h.deleteTimes p n).objects = h.objects := by
  induction n with
  | zero => rfl
  | succ n ih =>
    rw [deleteTimes_succ]
    cases p with
    | none => exact ih
    | some p => exact ih

theorem released_deleteTimes (p n : ℕ) :
    (h.deleteTimes (some p) n).released = List.replicate n p ++ h.released := by
  induction n with
  | zero => rfl
  | succ n ih => rw [deleteTimes_succ, delete, ih, List.replicate_succ, List.cons_append]

theorem mem_released_deleteTimes {p : Option ℕ} {n q : ℕ}
    (hq : q ∈ (h.deleteTimes p n).released) : q ∈ h.released ∨ p = some q := by
  cases p with
  | none =>
    rw [deleteTimes_none] at hq
    exact .inl hq
  | some p =>
    rw [released_deleteTimes] at hq
    rcases List.mem_append.mp hq with hq | hq
    · exact .inr (by rw [List.eq_of_mem_replicate hq])
    · exact .inl hq

theorem read_deleteTimes {p : ℕ} {q : Option ℕ} (hpq : q ≠ some p) (n : ℕ) :
    (h.deleteTimes q n).read p = h.read p := by
  induction n with
  | zero => rfl
  | succ n ih =>
    rw [deleteTimes_succ, ← ih]
    cases q with
    | none => rfl
    | some q =>
      have hne : p ≠ q := fun he => hpq (by rw [he])
      simp [read, delete, hne]

theorem read_new {p : ℕ} (a : α) (hp : p < h.objects.length) : (h.new a).read p = h.read p := by
  simp [read, new, List.getElem?_append_left hp]

theorem read_fresh (a : α) (hp : h.fresh ∉ h.released) : (h.new a).read h.fresh = some a := by
  simp only [read, new, hp, if_false]
  simp [fresh]

end Heap

variable {ι α : Type}

/-- No two variables have the same pointer, and the pointers are those of live objects. -/
structure Separate (owner : ι → Option ℕ) (heap : Heap α) : Prop where
  unique : ∀ i j p, owner i = some p → owner j = some p → i = j
  live : ∀ i p, owner i = some p → p ∉ heap.released
  lt : ∀ i p, owner i = some p → p < heap.objects.length
  made : ∀ p ∈ heap.released, p < heap.objects.length

/-- Every object is owned by exactly one variable, or it has been released exactly once and
no variable points to it. -/
structure Owns (owner : ι → Option ℕ) (heap : Heap α) : Prop extends Separate owner heap where
  once : heap.released.Nodup
  accounted : ∀ p < heap.objects.length, p ∈ heap.released ∨ ∃ i, owner i = some p

/-- Where every object is released at most once, none is released twice on the way. -/
theorem Owns.releasesOnce {owner : ι → Option ℕ} {heap : Heap α} (h : Owns owner heap)
    (h' : Heap α) : h'.ReleasesOnce heap :=
  fun p _ => List.nodup_iff_count_le_one.mp h.once p

def held (owner : ι → Option ℕ) (heap : Heap α) (i : ι) : Option α := (owner i).bind heap.read

section Init

theorem Separate.init : Separate (fun _ : ι => none) ({} : Heap α) where
  unique i j p h := by cases h
  live i p h := by cases h
  lt i p h := by cases h
  made p h := by cases h

theorem Owns.init : Owns (fun _ : ι => none) ({} : Heap α) where
  toSeparate := Separate.init
  once := List.nodup_nil
  accounted p h := by cases h

end Init

section Held

variable {owner : ι → Option ℕ} {heap : Heap α} {i : ι}

theorem Separate.fresh_not_released (h : Separate owner heap) : heap.fresh ∉ heap.released := by
  intro hmem
  have hlt := h.made heap.fresh hmem
  exact absurd hlt (Nat.lt_irrefl _)

theorem Separate.owner_ne_fresh (h : Separate owner heap) (i : ι) :
    owner i ≠ some heap.fresh := by
  intro hi
  have hlt := h.lt i _ hi
  exact absurd hlt (Nat.lt_irrefl _)

theorem Separate.exists_read (h : Separate owner heap) {p : ℕ} (hp : owner i = some p) :
    ∃ a, heap.read p = some a := by
  have hlt := h.lt i p hp
  refine ⟨heap.objects[p], ?_⟩
  rw [Heap.read, if_neg (h.live i p hp), List.getElem?_eq_getElem hlt]

/-- Without variables every object has been released exactly once. -/
theorem Owns.count_released (h : Owns owner heap) (hn : ∀ i, owner i = none) {p : ℕ}
    (hp : p < heap.objects.length) : heap.released.count p = 1 := by
  have hmem : p ∈ heap.released := by
    rcases h.accounted p hp with hmem | ⟨i, hi⟩
    · exact hmem
    · rw [hn i] at hi
      cases hi
  exact List.count_eq_one_of_mem h.once hmem

end Held

section Delete

variable [DecidableEq ι] {owner : ι → Option ℕ} {heap : Heap α} {i k : ι}

theorem update_none_eq_some {p : ℕ} :
    Function.update owner i none k = some p ↔ k ≠ i ∧ owner k = some p := by
  by_cases hk : k = i
  · subst hk
    simp
  · simp [hk]

/-- The object of a variable is released any number of times and the variable is set to
null. -/
theorem Separate.delete (h : Separate owner heap) (i : ι) (n : ℕ) :
    Separate (Function.update owner i none) (heap.deleteTimes (owner i) n) := by
  constructor
  · intro j k p hj hk
    exact h.unique j k p (update_none_eq_some.mp hj).2 (update_none_eq_some.mp hk).2
  · intro k p hk hmem
    obtain ⟨hki, hk⟩ := update_none_eq_some.mp hk
    rcases heap.mem_released_deleteTimes hmem with hmem | hi
    · exact h.live k p hk hmem
    · exact hki (h.unique k i p hk hi)
  · intro k p hk
    rw [heap.objects_deleteTimes]
    exact h.lt k p (update_none_eq_some.mp hk).2
  · intro p hp
    rw [heap.objects_deleteTimes]
    rcases heap.mem_released_deleteTimes hp with hp | hi
    · exact h.made p hp
    · exact h.lt i p hi

theorem Owns.delete (h : Owns owner heap) (i : ι) :
    Owns (Function.update owner i none) (heap.delete (owner i)) := by
  refine ⟨h.toSeparate.delete i 1, ?_, ?_⟩
  · cases hi : owner i with
    | none => exact h.once
    | some q => exact List.nodup_cons.mpr ⟨h.live i q hi, h.once⟩
  · intro p hp
    have hp : p < heap.objects.length := by
      cases hi : owner i with
      | none => rwa [hi] at hp
      | some q => rwa [hi] at hp
    cases hi : owner i with
    | none =>
      rw [← hi, Function.update_eq_self, hi]
      exact h.accounted p hp
    | some q =>
      rcases h.accounted p hp with hmem | ⟨k, hk⟩
      · exact .inl (List.mem_cons_of_mem _ hmem)
      · by_cases hki : k = i
        · rw [hki, hi] at hk
          cases hk
          exact .inl (List.mem_cons_self ..)
        · exact .inr ⟨k, update_none_eq_some.mpr ⟨hki, hk⟩⟩

theorem Separate.held_delete (h : Separate owner heap) (hk : k ≠ i) (n : ℕ) :
    held (Function.update owner i none) (heap.deleteTimes (owner i) n) k = held owner heap k := by
  simp only [held, Function.update_of_ne hk]
  cases hp : owner k with
  | none => rfl
  | some p =>
    have hpq : owner i ≠ some p := fun hi => hk (h.unique k i p hp hi)
    exact heap.read_deleteTimes hpq n

end Delete

section New

variable [DecidableEq ι] {owner : ι → Option ℕ} {heap : Heap α} {i k : ι}

theorem update_fresh_eq_some {p : ℕ} (hi : owner i = none) :
    Function.update owner i (some heap.fresh) k = some p ↔
      (k = i ∧ p = heap.fresh) ∨ owner k = some p := by
  by_cases hk : k = i
  · subst hk
    simp [hi, eq_comm]
  · simp [hk]

theorem Heap.lt_length_new {a : α} {p : ℕ} :
    p < (heap.new a).objects.length ↔ p < heap.objects.length ∨ p = heap.fresh := by
  simp only [Heap.new, List.length_append, List.length_singleton, Heap.fresh]
  omega

theorem Separate.new (h : Separate owner heap) (hi : owner i = none) (a : α) :
    Separate (Function.update owner i (some heap.fresh)) (heap.new a) := by
  constructor
  · intro j k p hj hk
    rcases (update_fresh_eq_some hi).mp hj with ⟨hji, hjp⟩ | hjp
    · rcases (update_fresh_eq_some hi).mp hk with ⟨hki, -⟩ | hkp
      · rw [hji, hki]
      · exact absurd (hjp ▸ hkp) (h.owner_ne_fresh k)
    · rcases (update_fresh_eq_some hi).mp hk with ⟨-, hkp⟩ | hkp
      · exact absurd (hkp ▸ hjp) (h.owner_ne_fresh j)
      · exact h.unique j k p hjp hkp
  · intro k p hk
    rcases (update_fresh_eq_some hi).mp hk with ⟨-, hp⟩ | hk
    · rw [hp]
      exact h.fresh_not_released
    · exact h.live k p hk
  · intro k p hk
    rcases (update_fresh_eq_some hi).mp hk with ⟨-, hp⟩ | hk
    · exact Heap.lt_length_new.mpr (.inr hp)
    · exact Heap.lt_length_new.mpr (.inl (h.lt k p hk))
  · intro p hp
    exact Heap.lt_length_new.mpr (.inl (h.made p hp))

theorem Owns.new (h : Owns owner heap) (hi : owner i = none) (a : α) :
    Owns (Function.update owner i (some heap.fresh)) (heap.new a) := by
  refine ⟨h.toSeparate.new hi a, h.once, ?_⟩
  intro p hp
  rcases Heap.lt_length_new.mp hp with hp | hp
  · rcases h.accounted p hp with hmem | ⟨k, hk⟩
    · exact .inl hmem
    · exact .inr ⟨k, (update_fresh_eq_some hi).mpr (.inr hk)⟩
  · exact .inr ⟨i, (update_fresh_eq_some hi).mpr (.inl ⟨rfl, hp⟩)⟩

theorem Separate.held_new_self (h : Separate owner heap) (a : α) :
    held (Function.update owner i (some heap.fresh)) (heap.new a) i = some a := by
  simp only [held, Function.update_self, Option.bind_some]
  exact heap.read_fresh a h.fresh_not_released

theorem Separate.held_new (h : Separate owner heap) (hk : k ≠ i) (a : α) :
    held (Function.update owner i (some heap.fresh)) (heap.new a) k = held owner heap k := by
  simp only [held, Function.update_of_ne hk]
  cases hp : owner k with
  | none => rfl
  | some p => exact heap.read_new a (h.lt k p hp)

end New

section Move

variable [DecidableEq ι] {owner : ι → Option ℕ} {heap : Heap α} {i j k : ι}

theorem update_move_eq_some {p : ℕ} (hi : owner i = none) (hij : i ≠ j) :
    Function.update (Function.update owner i (owner j)) j none k = some p ↔
      (k = i ∧ owner j = some p) ∨ (k ≠ j ∧ owner k = some p) := by
  by_cases hk : k = j
  · subst hk
    simp [hij.symm]
  · by_cases hki : k = i
    · subst hki
      simp [hij, hi]
    · simp [hk, hki]

theorem Separate.move (h : Separate owner heap) (hi : owner i = none) (hij : i ≠ j) :
    Separate (Function.update (Function.update owner i (owner j)) j none) heap := by
  refine ⟨?_, ?_, ?_, h.made⟩
  · intro a b p ha hb
    rcases (update_move_eq_some hi hij).mp ha with ⟨hai, hap⟩ | ⟨hne, hap⟩
    · rcases (update_move_eq_some hi hij).mp hb with ⟨hbi, -⟩ | ⟨hne, hbp⟩
      · rw [hai, hbi]
      · exact absurd (h.unique b j p hbp hap) hne
    · rcases (update_move_eq_some hi hij).mp hb with ⟨-, hbp⟩ | ⟨-, hbp⟩
      · exact absurd (h.unique a j p hap hbp) hne
      · exact h.unique a b p hap hbp
  · intro k p hk
    rcases (update_move_eq_some hi hij).mp hk with ⟨-, hp⟩ | ⟨-, hp⟩
    · exact h.live j p hp
    · exact h.live k p hp
  · intro k p hk
    rcases (update_move_eq_some hi hij).mp hk with ⟨-, hp⟩ | ⟨-, hp⟩
    · exact h.lt j p hp
    · exact h.lt k p hp

theorem Owns.move (h : Owns owner heap) (hi : owner i = none) (hij : i ≠ j) :
    Owns (Function.update (Function.update owner i (owner j)) j none) heap := by
  refine ⟨h.toSeparate.move hi hij, h.once, ?_⟩
  intro p hp
  rcases h.accounted p hp with hmem | ⟨k, hk⟩
  · exact .inl hmem
  · by_cases hkj : k = j
    · exact .inr ⟨i, (update_move_eq_some hi hij).mpr (.inl ⟨rfl, hkj ▸ hk⟩)⟩
    · exact .inr ⟨k, (update_move_eq_some hi hij).mpr (.inr ⟨hkj, hk⟩)⟩

theorem held_move (hij : i ≠ j) (hk : k ≠ j) :
    held (Function.update (Function.update owner i (owner j)) j none) heap k =
      if k = i then held owner heap j else held owner heap k := by
  simp only [held, Function.update_of_ne hk]
  by_cases hki : k = i
  · subst hki
    simp
  · simp [hki]

end Move

section Assignments

variable {β : Type} {before after cleared : ι → Option α} {h h' : Heap β} {i j : ι}

/-- After a copy the target holds what the source held, the source still holds it, and no
other variable has changed. No object was released twice. -/
structure Copied (before after : ι → Option α) (h h' : Heap β) (i j : ι) : Prop where
  target : after i = before j
  source : after j = before j
  frame : ∀ k, k ≠ i → k ≠ j → after k = before k
  once : h.ReleasesOnce h'

/-- After a move the target holds what the source held, and no variable but the two has
changed. No object was released twice. -/
structure Moved (before after : ι → Option α) (h h' : Heap β) (i j : ι) : Prop where
  target : after i = before j
  frame : ∀ k, k ≠ i → k ≠ j → after k = before k
  once : h.ReleasesOnce h'

/-- An assignment that clears its target before it reads the source copies if and only if the
two are distinct variables or the source holds nothing, and the target is released once. -/
theorem copied_iff_of_cleared (hi : cleared i = none) (hk : ∀ k, k ≠ i → cleared k = before k)
    (htarget : after i = cleared j) (hframe : ∀ k, k ≠ i → after k = before k) :
    Copied before after h h' i j ↔ (i ≠ j ∨ before j = none) ∧ h.ReleasesOnce h' := by
  by_cases hij : i = j
  · subst hij
    rw [hi] at htarget
    constructor
    · intro hc
      exact ⟨.inr (by rw [← hc.target, htarget]), hc.once⟩
    · intro hc
      have hnone : before i = none := hc.1.resolve_left fun hne => hne rfl
      exact ⟨by rw [htarget, hnone], by rw [htarget, hnone], fun k hki _ => hframe k hki, hc.2⟩
  · refine ⟨fun hc => ⟨.inl hij, hc.once⟩, fun hc => ?_⟩
    exact ⟨by rw [htarget, hk j (Ne.symm hij)], hframe j (Ne.symm hij),
      fun k hki _ => hframe k hki, hc.2⟩

theorem moved_iff_of_cleared (hi : cleared i = none) (hk : ∀ k, k ≠ i → cleared k = before k)
    (htarget : after i = cleared j) (hframe : ∀ k, k ≠ i → k ≠ j → after k = before k) :
    Moved before after h h' i j ↔ (i ≠ j ∨ before j = none) ∧ h.ReleasesOnce h' := by
  by_cases hij : i = j
  · subst hij
    rw [hi] at htarget
    constructor
    · intro hm
      exact ⟨.inr (by rw [← hm.target, htarget]), hm.once⟩
    · intro hm
      have hnone : before i = none := hm.1.resolve_left fun hne => hne rfl
      exact ⟨by rw [htarget, hnone], hframe, hm.2⟩
  · refine ⟨fun hm => ⟨.inl hij, hm.once⟩, fun hm => ?_⟩
    exact ⟨by rw [htarget, hk j (Ne.symm hij)], hframe, hm.2⟩

end Assignments

end Langsvr
