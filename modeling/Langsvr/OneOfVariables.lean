import Langsvr.OwningPointers
import Mathlib.Logic.Relation

/-!
# Variables of type `OneOf`

The class template `OneOf`: an untyped owning pointer with the index of the type of what it
points to. The methods act on variables of one type list, which are named by numbers. They
read and write the same variable where the source does, so an assignment may have one
variable on both sides.
-/

namespace Langsvr

variable {τ α : Type} [DecidableEq τ]

/-- The parameter pack `TYPES`. -/
structure TypeList (τ : Type) where
  types : List τ
  length_lt : types.length < 255

/-- `TypeIndex`, the position of the first occurrence. For a type outside the list it does
not compile. -/
def TypeList.index (T : TypeList τ) (t : τ) : ℕ := T.types.idxOf t

def kNoKind : ℕ := 255

/-- The members of a `OneOf`. -/
structure OneOf where
  ptr : Option ℕ := none
  kind : ℕ := kNoKind
  deriving DecidableEq

namespace OneOf

variable (T : TypeList τ) (x : OneOf)

def is (t : τ) : Bool := decide (x.kind = T.index t)

def get (t : τ) : Option ℕ := if x.is T t then x.ptr else none

end OneOf

/-- The variables that exist, and the heap. -/
structure OneOfStore (α : Type) where
  vars : ℕ → Option OneOf := fun _ => none
  heap : Heap α := {}

namespace OneOfStore

def owner (s : OneOfStore α) (i : ℕ) : Option ℕ := (s.vars i).bind OneOf.ptr

/-- A variable is created, changed or, with `none`, ends. -/
def put (s : OneOfStore α) (i : ℕ) (x : Option OneOf) : OneOfStore α :=
  { s with vars := Function.update s.vars i x }

def install (s : OneOfStore α) (i kind : ℕ) (value : α) : OneOfStore α :=
  { s.put i (some ⟨some s.heap.fresh, kind⟩) with heap := s.heap.new value }

section Methods

variable (T : TypeList τ) (s : OneOfStore α)

/-- `OneOf()`. -/
def construct (i : ℕ) : OneOfStore α := s.put i (some {})

/-- `Reset`. The pointer is deleted for every type whose index is the kind. -/
def reset (i : ℕ) : OneOfStore α :=
  match s.vars i with
  | none => s
  | some x =>
    { s.put i (some {}) with heap := T.types.foldl (fun heap t => heap.delete (x.get T t)) s.heap }

def set (i : ℕ) (t : τ) (value : α) : OneOfStore α := (s.reset T i).install i (T.index t) value

/-- `OneOf(T&&)`. -/
def constructValue (i : ℕ) (t : τ) (value : α) : OneOfStore α :=
  (s.construct i).set T i t value

/-- `operator=(const OneOf&)`. The other variable is read after the reset. The first type
that it has a value of is copied. -/
def copyAssign (i j : ℕ) : OneOfStore α :=
  let r := s.reset T i
  match r.vars j with
  | none => r
  | some other =>
    match (T.types.findSome? (other.get T)).bind r.heap.read with
    | none => r.put i (some ⟨none, other.kind⟩)
    | some value => r.install i other.kind value

/-- `OneOf(const OneOf&)`. -/
def copyConstruct (i j : ℕ) : OneOfStore α := (s.construct i).copyAssign T i j

/-- `OneOf(OneOf&&)`. The kind of the other variable stays. -/
def moveConstruct (i j : ℕ) : OneOfStore α :=
  match s.vars j with
  | none => s
  | some other => (s.put i (some ⟨other.ptr, other.kind⟩)).put j (some { other with ptr := none })

def destroy (i : ℕ) : OneOfStore α := (s.reset T i).put i none

end Methods

/-- The operations on variables. A value is assigned by `Set`. -/
inductive Operation (τ α : Type) where
  | construct (i : ℕ)
  | constructValue (i : ℕ) (t : τ) (value : α)
  | copyConstruct (i j : ℕ)
  | moveConstruct (i j : ℕ)
  | copyAssign (i j : ℕ)
  | assign (i : ℕ) (t : τ) (value : α)
  | set (i : ℕ) (t : τ) (value : α)
  | reset (i : ℕ)
  | destroy (i : ℕ)

def Operation.target : Operation τ α → ℕ
  | .construct i | .constructValue i _ _ | .copyConstruct i _ | .moveConstruct i _
  | .copyAssign i _ | .assign i _ _ | .set i _ _ | .reset i | .destroy i => i

/-- The operations that a program can make in a state: a variable is created once and used
while it exists, and a value has one of the types. -/
def Legal (T : TypeList τ) (s : OneOfStore α) : Operation τ α → Prop
  | .construct i => s.vars i = none
  | .constructValue i t _ => s.vars i = none ∧ t ∈ T.types
  | .copyConstruct i j | .moveConstruct i j => s.vars i = none ∧ s.vars j ≠ none
  | .copyAssign i j => s.vars i ≠ none ∧ s.vars j ≠ none
  | .assign i t _ | .set i t _ => s.vars i ≠ none ∧ t ∈ T.types
  | .reset i | .destroy i => s.vars i ≠ none

def apply (T : TypeList τ) (s : OneOfStore α) : Operation τ α → OneOfStore α
  | .construct i => s.construct i
  | .constructValue i t value => s.constructValue T i t value
  | .copyConstruct i j => s.copyConstruct T i j
  | .moveConstruct i j => s.moveConstruct i j
  | .copyAssign i j => s.copyAssign T i j
  | .assign i t value | .set i t value => s.set T i t value
  | .reset i => s.reset T i
  | .destroy i => s.destroy T i

/-- A state that a program reaches by legal operations, each of which satisfies a condition
in the state before it. -/
def Reachable (T : TypeList τ) (allow : OneOfStore α → Operation τ α → Prop)
    (s : OneOfStore α) : Prop :=
  Relation.ReflTransGen (fun s s' => ∃ op, Legal T s op ∧ allow s op ∧ s' = s.apply T op) {} s

/-- What holds initially and is kept by every operation holds in every reachable state. -/
theorem Reachable.invariant {T : TypeList τ} {allow : OneOfStore α → Operation τ α → Prop}
    {P : OneOfStore α → Prop} {s : OneOfStore α} (hr : Reachable T allow s) (hinit : P {})
    (hstep : ∀ s op, Reachable T allow s → P s → Legal T s op → allow s op →
      P (s.apply T op)) : P s := by
  induction hr with
  | refl => exact hinit
  | tail hr h ih =>
    obtain ⟨op, hl, ha, rfl⟩ := h
    exact hstep _ op hr ih hl ha

end OneOfStore

section Pointers

variable {T : TypeList τ} {x : OneOf}

def OneOf.Named (T : TypeList τ) (x : OneOf) : Prop := ∃ t ∈ T.types, x.kind = T.index t

theorem not_named_of_kind (hk : x.kind = kNoKind) : ¬ x.Named T := by
  intro h
  obtain ⟨t, ht, ht'⟩ := h
  have hlt : T.index t < kNoKind := Nat.lt_trans (List.idxOf_lt_length_of_mem ht) T.length_lt
  rw [← ht', hk] at hlt
  exact absurd hlt (Nat.lt_irrefl _)

theorem OneOf.get_eq_some {t : τ} {p : ℕ} :
    x.get T t = some p ↔ x.kind = T.index t ∧ x.ptr = some p := by
  simp [OneOf.get, OneOf.is]

/-- The first pointer that some `Get` returns is the pointer of the variable. -/
theorem OneOf.findSome?_get (hn : x.ptr ≠ none → x.Named T) :
    T.types.findSome? (x.get T) = x.ptr := by
  cases hf : T.types.findSome? (x.get T) with
  | some q =>
    obtain ⟨t, -, hq⟩ := List.exists_of_findSome?_eq_some hf
    exact (OneOf.get_eq_some.mp hq).2.symm
  | none =>
    cases hp : x.ptr with
    | none => rfl
    | some p =>
      obtain ⟨t, ht, hk⟩ := hn (by simp [hp])
      have hget := List.findSome?_eq_none_iff.mp hf t ht
      rw [OneOf.get_eq_some.mpr ⟨hk, hp⟩] at hget
      cases hget

/-- `Reset` deletes the pointer once for every place at which the list has a type with the
index that is the kind. -/
theorem OneOf.foldl_delete (l : List τ) (heap : Heap α) :
    l.foldl (fun heap t => heap.delete (x.get T t)) heap =
      heap.deleteTimes x.ptr (l.countP (x.is T)) := by
  induction l generalizing heap with
  | nil => rfl
  | cons t l ih =>
    rw [List.foldl_cons, ih]
    cases ht : x.is T t with
    | true =>
      rw [List.countP_cons_of_pos ht, OneOf.get, if_pos ht]
      exact (Function.iterate_succ_apply _ _ heap).symm
    | false =>
      have hget : x.get T t = none := by simp [OneOf.get, ht]
      rw [List.countP_cons_of_neg (by simp [ht]), hget, Heap.delete_none]

end Pointers

namespace OneOfStore

section Members

variable {T : TypeList τ} {s : OneOfStore α} {i : ℕ}

@[simp] theorem vars_put_self (x : Option OneOf) : (s.put i x).vars i = x :=
  Function.update_self ..

@[simp] theorem vars_put {k : ℕ} (hk : k ≠ i) (x : Option OneOf) :
    (s.put i x).vars k = s.vars k :=
  Function.update_of_ne hk ..

@[simp] theorem vars_install_self (kind : ℕ) (value : α) :
    (s.install i kind value).vars i = some ⟨some s.heap.fresh, kind⟩ :=
  Function.update_self ..

@[simp] theorem vars_install {k : ℕ} (hk : k ≠ i) (kind : ℕ) (value : α) :
    (s.install i kind value).vars k = s.vars k :=
  Function.update_of_ne hk ..

theorem owner_put (x : Option OneOf) :
    (s.put i x).owner = Function.update s.owner i (x.bind OneOf.ptr) := by
  funext k
  by_cases hk : k = i
  · subst hk
    simp [owner, put]
  · simp [owner, put, hk]

theorem owner_install (kind : ℕ) (value : α) :
    (s.install i kind value).owner = Function.update s.owner i (some s.heap.fresh) :=
  owner_put (some ⟨some s.heap.fresh, kind⟩)

theorem put_put (x y : Option OneOf) : (s.put i x).put i y = s.put i y := by
  simp [put]

theorem put_eq_self {x : Option OneOf} (hi : s.vars i = x) : s.put i x = s := by
  rw [put, ← hi, Function.update_eq_self]

theorem install_put (x : Option OneOf) (kind : ℕ) (value : α) :
    (s.put i x).install i kind value = s.install i kind value := by
  simp [install, put]

theorem reset_of_none (hi : s.vars i = none) : s.reset T i = s := by
  simp [reset, hi]

theorem reset_of_some {x : OneOf} (hi : s.vars i = some x) :
    s.reset T i =
      { s.put i (some {}) with heap := s.heap.deleteTimes x.ptr (T.types.countP (x.is T)) } := by
  simp [reset, hi, OneOf.foldl_delete]

theorem owner_reset : (s.reset T i).owner = Function.update s.owner i none := by
  cases hi : s.vars i with
  | none =>
    have hown : s.owner i = none := by simp [owner, hi]
    rw [reset_of_none hi, ← hown, Function.update_eq_self]
  | some x =>
    rw [reset_of_some hi]
    exact owner_put (some {})

theorem heap_reset : ∃ n, (s.reset T i).heap = s.heap.deleteTimes (s.owner i) n := by
  cases hi : s.vars i with
  | none =>
    rw [reset_of_none hi]
    exact ⟨0, rfl⟩
  | some x =>
    rw [reset_of_some hi]
    exact ⟨T.types.countP (x.is T), by simp [owner, hi]⟩

theorem vars_reset {k : ℕ} (hk : k ≠ i) : (s.reset T i).vars k = s.vars k := by
  cases hi : s.vars i with
  | none => rw [reset_of_none hi]
  | some x =>
    rw [reset_of_some hi]
    exact vars_put hk (some {})

theorem vars_reset_self {x : OneOf} (hi : s.vars i = some x) :
    (s.reset T i).vars i = some {} := by
  rw [reset_of_some hi]
  exact vars_put_self (some {})

theorem reset_construct : (s.construct i).reset T i = s.construct i := by
  have hi : (s.construct i).vars i = some {} := vars_put_self (some {})
  rw [reset_of_some hi, put_eq_self hi, Heap.deleteTimes_none]

/-- The copy constructor does what the assignment to a new variable does. -/
theorem copyConstruct_of_none {j : ℕ} (hi : s.vars i = none) (hj : s.vars j ≠ none) :
    s.copyConstruct T i j = s.copyAssign T i j := by
  have hij : j ≠ i := by
    intro he
    rw [he] at hj
    exact hj hi
  have hvar : (s.construct i).vars j = s.vars j := vars_put hij (some {})
  have hheap : (s.construct i).heap = s.heap := rfl
  rw [copyConstruct, copyAssign, copyAssign, reset_construct, reset_of_none hi, hvar, hheap]
  cases ho : s.vars j with
  | none => exact absurd ho hj
  | some other =>
    simp only
    cases (T.types.findSome? (other.get T)).bind s.heap.read with
    | none => exact put_put ..
    | some value => exact install_put ..

theorem separate_reset (h : Separate s.owner s.heap) :
    Separate (s.reset T i).owner (s.reset T i).heap := by
  obtain ⟨n, hn⟩ := heap_reset (T := T) (s := s) (i := i)
  rw [owner_reset, hn]
  exact h.delete i n

theorem owner_reset_self : (s.reset T i).owner i = none := by
  rw [owner_reset, Function.update_self]

theorem owner_put_null {x : Option OneOf} (hx : ∀ y, x = some y → y.ptr = none)
    (hi : s.owner i = none) : (s.put i x).owner = s.owner := by
  have hnull : x.bind OneOf.ptr = none := Option.bind_eq_none_iff.mpr hx
  rw [owner_put, hnull, ← hi, Function.update_eq_self]

theorem moveConstruct_of_some {j : ℕ} {other : OneOf} (hj : s.vars j = some other) :
    s.moveConstruct i j =
      (s.put i (some ⟨other.ptr, other.kind⟩)).put j (some { other with ptr := none }) := by
  simp only [moveConstruct, hj]

theorem owner_moveConstruct {j : ℕ} (hj : s.vars j ≠ none) :
    (s.moveConstruct i j).owner =
      Function.update (Function.update s.owner i (s.owner j)) j none := by
  obtain ⟨other, ho⟩ := Option.ne_none_iff_exists'.mp hj
  have hown : s.owner j = other.ptr := by simp [owner, ho]
  rw [moveConstruct_of_some ho, owner_put, owner_put, hown]
  rfl

end Members

/-- Every variable with an object has it to itself, and its kind names a type. -/
structure Sound (T : TypeList τ) (s : OneOfStore α) : Prop where
  separate : Separate s.owner s.heap
  named : ∀ i x, s.vars i = some x → x.ptr ≠ none → x.Named T

section Steps

variable {T : TypeList τ} {s : OneOfStore α} {i j : ℕ}

/-- What a legal operation does to the store: a variable loses its object, it gets a new
object, or a new variable takes over the object of another one. -/
inductive Change (T : TypeList τ) (s : OneOfStore α) (op : Operation τ α) :
    OneOfStore α → Prop where
  | lose (x : Option OneOf) (hx : ∀ y, x = some y → y.ptr = none)
      (hk : ∀ y, x = some y →
        y.kind = kNoKind ∨ ∃ j z, s.vars j = some z ∧ z.ptr = none ∧ z.kind = y.kind) :
      Change T s op ((s.reset T op.target).put op.target x)
  | gain (kind : ℕ) (value : α) (hn : ∃ t ∈ T.types, kind = T.index t) :
      Change T s op ((s.reset T op.target).install op.target kind value)
  | take (i j : ℕ) (hop : op = .moveConstruct i j) (hi : s.vars i = none)
      (hj : s.vars j ≠ none) : Change T s op (s.moveConstruct i j)

variable {op : Operation τ α}

theorem Change.clear : Change T s op ((s.reset T op.target).put op.target (some {})) := by
  refine Change.lose (some {}) ?_ ?_
  · intro y hy
    cases hy
    rfl
  · intro y hy
    cases hy
    exact .inl rfl

theorem change_copyAssign (h : Sound T s) (hj : (s.reset T op.target).vars j ≠ none) :
    Change T s op (s.copyAssign T op.target j) := by
  cases ho : (s.reset T op.target).vars j with
  | none => exact absurd ho hj
  | some other =>
    by_cases hij : op.target = j
    · -- the reset has emptied the other variable, which is the same one
      subst hij
      have hempty : other = {} := by
        cases hi : s.vars op.target with
        | none =>
          rw [reset_of_none hi, hi] at ho
          cases ho
        | some x =>
          rw [vars_reset_self hi] at ho
          cases ho
          rfl
      subst hempty
      have hf : T.types.findSome? (OneOf.get T {}) = none :=
        OneOf.findSome?_get fun h => absurd rfl h
      simp only [copyAssign, ho, hf, Option.bind_none]
      exact Change.clear
    · have hvar : s.vars j = some other := by rw [← vars_reset (T := T) (Ne.symm hij), ho]
      have hf : T.types.findSome? (other.get T) = other.ptr :=
        OneOf.findSome?_get (h.named j other hvar)
      simp only [copyAssign, ho, hf]
      cases hp : other.ptr with
      | none =>
        refine Change.lose _ ?_ ?_
        · intro y hy
          cases hy
          rfl
        · intro y hy
          cases hy
          exact .inr ⟨j, other, hvar, hp, rfl⟩
      | some p =>
        have hown : (s.reset T op.target).owner j = some p := by simp [owner, ho, hp]
        obtain ⟨value, hv⟩ := (separate_reset h.separate).exists_read hown
        simp only [Option.bind_some, hv]
        exact Change.gain other.kind value (h.named j other hvar (by simp [hp]))

theorem change_apply (h : Sound T s) (hl : Legal T s op) : Change T s op (s.apply T op) := by
  cases op with
  | construct i =>
    have hc : Change T s (.construct i) ((s.reset T i).put i (some {})) := Change.clear
    rwa [reset_of_none hl] at hc
  | constructValue i t value =>
    obtain ⟨hi, ht⟩ := hl
    have heq : s.constructValue T i t value = (s.reset T i).install i (T.index t) value := by
      rw [constructValue, set, reset_construct, reset_of_none hi]
      exact install_put ..
    rw [apply, heq]
    exact Change.gain (T.index t) value ⟨t, ht, rfl⟩
  | copyConstruct i j =>
    obtain ⟨hi, hj⟩ := hl
    have hvar : (s.reset T i).vars j ≠ none := by rwa [reset_of_none hi]
    rw [apply, copyConstruct_of_none hi hj]
    have hc : Change T s (.copyConstruct i j) (s.copyAssign T i j) := change_copyAssign h hvar
    exact hc
  | moveConstruct i j => exact Change.take i j rfl hl.1 hl.2
  | copyAssign i j =>
    have hvar : (s.reset T i).vars j ≠ none := by
      by_cases hij : j = i
      · obtain ⟨x, hx⟩ := Option.ne_none_iff_exists'.mp hl.1
        rw [hij, vars_reset_self hx]
        simp
      · rw [vars_reset hij]
        exact hl.2
    exact change_copyAssign h hvar
  | assign i t value | set i t value => exact Change.gain (T.index t) value ⟨t, hl.2, rfl⟩
  | reset i =>
    obtain ⟨x, hx⟩ := Option.ne_none_iff_exists'.mp hl
    have hc : Change T s (.reset i) ((s.reset T i).put i (some {})) := Change.clear
    rwa [put_eq_self (vars_reset_self hx)] at hc
  | destroy i =>
    refine Change.lose none ?_ ?_
    · intro y hy
      cases hy
    · intro y hy
      cases hy

/-- The object of the variable is taken away from it, and what follows leaves it alone. -/
theorem sound_change (h : Sound T s) {s' : OneOfStore α} (hc : Change T s op s') : Sound T s' := by
  cases hc with
  | lose x hx hk =>
    constructor
    · rw [owner_put_null hx owner_reset_self]
      exact separate_reset h.separate
    · intro k y hy hp
      by_cases hki : k = op.target
      · rw [hki, vars_put_self] at hy
        exact absurd (hx y hy) hp
      · rw [vars_put hki, vars_reset hki] at hy
        exact h.named k y hy hp
  | gain kind value hn =>
    constructor
    · rw [owner_install]
      exact (separate_reset h.separate).new owner_reset_self value
    · intro k y hy hp
      by_cases hki : k = op.target
      · rw [hki, vars_install_self] at hy
        cases hy
        exact hn
      · rw [vars_install hki, vars_reset hki] at hy
        exact h.named k y hy hp
  | take i j hop hi hj =>
    obtain ⟨other, ho⟩ := Option.ne_none_iff_exists'.mp hj
    have hij : i ≠ j := by
      intro he
      rw [← he] at hj
      exact hj hi
    constructor
    · rw [owner_moveConstruct hj, moveConstruct_of_some ho]
      exact h.separate.move (by simp [owner, hi]) hij
    · intro k y hy hp
      rw [moveConstruct_of_some ho] at hy
      by_cases hkj : k = j
      · rw [hkj, vars_put_self] at hy
        cases hy
        exact absurd rfl hp
      · rw [vars_put hkj] at hy
        by_cases hki : k = i
        · rw [hki, vars_put_self] at hy
          cases hy
          exact h.named j other ho hp
        · rw [vars_put hki] at hy
          exact h.named k y hy hp

end Steps

section Runs

variable {T : TypeList τ} {s : OneOfStore α} {op : Operation τ α}

theorem sound_of_reachable {allow : OneOfStore α → Operation τ α → Prop}
    (hr : Reachable T allow s) : Sound T s := by
  refine hr.invariant ⟨Separate.init, ?_⟩ ?_
  · intro i x hx
    cases hx
  · intro s op _ h hl _
    exact sound_change h (change_apply h hl)

/-- The type of the object that the operation deletes is not twice in the type list. -/
def DeletesOnce (T : TypeList τ) (s : OneOfStore α) (op : Operation τ α) : Prop :=
  ∀ x, s.vars op.target = some x → x.ptr ≠ none → T.types.countP (x.is T) ≤ 1

/-- With distinct types every operation deletes an object once. -/
theorem deletesOnce_of_nodup_types (hT : T.types.Nodup) : DeletesOnce T s op := by
  intro x _ _
  rcases Nat.eq_zero_or_pos (T.types.countP (x.is T)) with hzero | hpos
  · omega
  · obtain ⟨t, ht, hk⟩ := List.countP_pos_iff.mp hpos
    have hsame : ∀ u ∈ T.types, x.is T u = true ↔ (u == t) = true := by
      intro u hu
      simp only [OneOf.is, decide_eq_true_eq] at hk ⊢
      rw [beq_iff_eq, hk]
      constructor
      · intro h
        exact ((List.idxOf_inj ht).mp h).symm
      · intro h
        rw [h]
    rw [List.countP_congr hsame]
    exact List.nodup_iff_count_le_one.mp hT t

def MovesNothing (s : OneOfStore α) (op : Operation τ α) : Prop :=
  ∀ i j, op = .moveConstruct i j → s.owner j = none

theorem owns_reset {i : ℕ} (h : Sound T s) (ho : Owns s.owner s.heap)
    (hd : ∀ x, s.vars i = some x → x.ptr ≠ none → T.types.countP (x.is T) ≤ 1) :
    Owns (s.reset T i).owner (s.reset T i).heap := by
  have howner : (s.reset T i).owner = Function.update s.owner i none := owner_reset
  have hheap : (s.reset T i).heap = s.heap.delete (s.owner i) := by
    cases hi : s.vars i with
    | none => rw [reset_of_none hi, owner, hi, Option.bind_none, Heap.delete_none]
    | some x =>
      have hown : s.owner i = x.ptr := by simp [owner, hi]
      rw [reset_of_some hi, hown]
      cases hp : x.ptr with
      | none => exact Heap.deleteTimes_none ..
      | some p =>
        obtain ⟨t, ht, hk⟩ := h.named i x hi (by simp [hp])
        have hle := hd x hi (by simp [hp])
        have hpos : 0 < T.types.countP (x.is T) :=
          List.countP_pos_iff.mpr ⟨t, ht, by simp [OneOf.is, hk]⟩
        have hone : T.types.countP (x.is T) = 1 := by omega
        rw [hone]
        rfl
  rw [howner, hheap]
  exact ho.delete i

theorem owns_change (h : Sound T s) (ho : Owns s.owner s.heap) (hd : DeletesOnce T s op)
    {s' : OneOfStore α} (hc : Change T s op s') : Owns s'.owner s'.heap := by
  cases hc with
  | lose x hx hk =>
    rw [owner_put_null hx owner_reset_self]
    exact owns_reset h ho hd
  | gain kind value hn =>
    rw [owner_install]
    exact (owns_reset h ho hd).new owner_reset_self value
  | take i j hop hi hj =>
    obtain ⟨other, hother⟩ := Option.ne_none_iff_exists'.mp hj
    have hij : i ≠ j := by
      intro he
      rw [← he] at hj
      exact hj hi
    rw [owner_moveConstruct hj, moveConstruct_of_some hother]
    exact ho.move (by simp [owner, hi]) hij

def Tagged (T : TypeList τ) (s : OneOfStore α) : Prop :=
  ∀ i x, s.vars i = some x → x.Named T → x.ptr ≠ none

theorem tagged_change (h : Tagged T s) (hm : MovesNothing s op) {s' : OneOfStore α}
    (hc : Change T s op s') : Tagged T s' := by
  intro k y hy hn
  cases hc with
  | lose x hx hk =>
    by_cases hki : k = op.target
    · rw [hki, vars_put_self] at hy
      rcases hk y hy with hkind | ⟨j, z, hz, hzp, hzk⟩
      · exact absurd hn (not_named_of_kind hkind)
      · have hzn : z.Named T := by
          obtain ⟨t, ht, hkt⟩ := hn
          exact ⟨t, ht, by rw [hzk, hkt]⟩
        exact absurd hzp (h j z hz hzn)
    · rw [vars_put hki, vars_reset hki] at hy
      exact h k y hy hn
  | gain kind value =>
    by_cases hki : k = op.target
    · rw [hki, vars_install_self] at hy
      cases hy
      simp
    · rw [vars_install hki, vars_reset hki] at hy
      exact h k y hy hn
  | take i j hop hi hj =>
    obtain ⟨other, ho⟩ := Option.ne_none_iff_exists'.mp hj
    have hnull : other.ptr = none := by
      have hown := hm i j hop
      rwa [owner, ho] at hown
    have hkind : ∀ z : OneOf, z.kind = other.kind → ¬ z.Named T := by
      intro z hz hzn
      obtain ⟨t, ht, hkt⟩ := hzn
      exact absurd hnull (h j other ho ⟨t, ht, by rw [← hz, hkt]⟩)
    rw [moveConstruct_of_some ho] at hy
    by_cases hkj : k = j
    · rw [hkj, vars_put_self] at hy
      cases hy
      exact absurd hn (hkind _ rfl)
    · rw [vars_put hkj] at hy
      by_cases hki : k = i
      · rw [hki, vars_put_self] at hy
        cases hy
        exact absurd hn (hkind _ rfl)
      · rw [vars_put hki] at hy
        exact h k y hy hn

theorem owns_of_reachable {allow : OneOfStore α → Operation τ α → Prop}
    (hallow : ∀ s op, allow s op → DeletesOnce T s op) (hr : Reachable T allow s) :
    Owns s.owner s.heap := by
  apply hr.invariant Owns.init
  intro s op hr ho hl ha
  have h := sound_of_reachable hr
  exact owns_change h ho (hallow s op ha) (change_apply h hl)

theorem tagged_of_reachable {allow : OneOfStore α → Operation τ α → Prop}
    (hallow : ∀ s op, allow s op → MovesNothing s op) (hr : Reachable T allow s) :
    Tagged T s := by
  refine hr.invariant ?_ ?_
  · intro i x hx
    cases hx
  · intro s op hr h hl ha
    exact tagged_change h (hallow s op ha) (change_apply (sound_of_reachable hr) hl)

/-- What the members of a variable say about it. The kind names a type if and only if there
is an object, `Is` and `Get` agree, and at most one type is held. -/
structure Represents (T : TypeList τ) (x : OneOf) : Prop where
  ptr_iff : x.ptr ≠ none ↔ x.Named T
  is_iff : ∀ t ∈ T.types, x.is T t = true ↔ x.get T t ≠ none
  atMostOne : ∀ t ∈ T.types, ∀ u ∈ T.types, x.is T t = true → x.is T u = true → t = u

theorem represents_of_tagged (h : Sound T s) (ht : Tagged T s) {i : ℕ} {x : OneOf}
    (hx : s.vars i = some x) : Represents T x := by
  have hptr : x.ptr ≠ none ↔ x.Named T := ⟨h.named i x hx, ht i x hx⟩
  refine ⟨hptr, ?_, ?_⟩
  · intro t hmem
    cases his : x.is T t with
    | false => simp [OneOf.get, his]
    | true =>
      have hn : x.Named T := ⟨t, hmem, by simpa [OneOf.is] using his⟩
      simpa [OneOf.get, his] using hptr.mpr hn
  · intro t hmem u _ hit hiu
    have hk : T.index t = T.index u := by
      simp only [OneOf.is, decide_eq_true_eq] at hit hiu
      rw [← hit, ← hiu]
    exact (List.idxOf_inj hmem).mp hk

def Invariant (T : TypeList τ) (s : OneOfStore α) : Prop :=
  (∀ i x, s.vars i = some x → Represents T x) ∧ Owns s.owner s.heap

def Keeps (T : TypeList τ) (s : OneOfStore α) (op : Operation τ α) : Prop :=
  DeletesOnce T s op ∧ MovesNothing s op

theorem invariant_of_reachable (hr : Reachable T (Keeps T) s) : Invariant T s := by
  have ht : Tagged T s := tagged_of_reachable (fun _ _ ha => ha.2) hr
  have ho : Owns s.owner s.heap := owns_of_reachable (fun _ _ ha => ha.1) hr
  exact ⟨fun i x hx => represents_of_tagged (sound_of_reachable hr) ht hx, ho⟩

/-- A variable whose object is moved out keeps its kind. -/
theorem movesNothing_of_represents (h : Sound T s) (hl : Legal T s op)
    (hinv : ∀ i x, (s.apply T op).vars i = some x → Represents T x) : MovesNothing s op := by
  intro i j hop
  rw [hop] at hl hinv
  obtain ⟨other, ho⟩ := Option.ne_none_iff_exists'.mp hl.2
  cases hp : other.ptr with
  | none => simp [owner, ho, hp]
  | some p =>
    have hvar : (s.apply T (.moveConstruct i j)).vars j = some { other with ptr := none } := by
      rw [apply, moveConstruct_of_some ho, vars_put_self]
    have hn : other.Named T := h.named j other ho (by simp [hp])
    exact absurd rfl ((hinv j _ hvar).ptr_iff.mpr hn)

/-- An object that is deleted through several types is released several times. -/
theorem deletesOnce_of_change {s' : OneOfStore α} (hc : Change T s op s')
    (ho : s'.heap.released.Nodup) : DeletesOnce T s op := by
  intro x hx hp
  obtain ⟨p, hp⟩ := Option.ne_none_iff_exists'.mp hp
  have hreset : (s.reset T op.target).heap.released.Nodup := by
    cases hc with
    | lose => exact ho
    | gain => exact ho
    | take i j hop hi =>
      rw [hop] at hx
      exact absurd (hi ▸ hx) (by simp)
  rw [reset_of_some hx, hp] at hreset
  simp only [Heap.released_deleteTimes] at hreset
  exact List.nodup_replicate.mp hreset.of_append_left

/-- In every run whose operations meet the condition the invariant holds in every state
reached, and an operation that does not meet the condition breaks it. Ownership does not
depend on the condition on move constructions. -/
theorem representation_invariant_iff (T : TypeList τ) (s : OneOfStore α) :
    (Reachable T (Keeps T) s → Invariant T s ∧
      ∀ op, Legal T s op → (Invariant T (s.apply T op) ↔ Keeps T s op)) ∧
    (Reachable T (DeletesOnce T) s → Owns s.owner s.heap ∧
      ((∀ i, s.vars i = none) → ∀ p < s.heap.objects.length, s.heap.released.count p = 1)) := by
  constructor
  · intro hr
    have h := sound_of_reachable hr
    refine ⟨invariant_of_reachable hr, ?_⟩
    intro op hl
    constructor
    · intro hinv
      exact ⟨deletesOnce_of_change (change_apply h hl) hinv.2.once,
        movesNothing_of_represents h hl hinv.1⟩
    · intro hk
      exact invariant_of_reachable (hr.tail ⟨op, hl, hk, rfl⟩)
  · intro hr
    have ho : Owns s.owner s.heap := owns_of_reachable (fun _ _ ha => ha) hr
    refine ⟨ho, ?_⟩
    intro hn p hp
    exact ho.count_released (fun i => by simp [owner, hn i]) hp

/-- A string is copied, replaced and copied again, and a variable ends. -/
theorem representation_invariant_string : ∃ s : OneOfStore String,
    Invariant ⟨["Integer", "String"], by decide⟩ s ∧ s.heap.objects = ["hello", "hello", "12"] ∧
      s.heap.released = [0, 1] ∧ s.owner 1 = some 2 := by
  refine ⟨_, ((representation_invariant_iff _ _).1 (.tail (.tail (.tail (.tail .refl
    ⟨.constructValue 0 "String" "hello", ?_, ⟨?_, ?_⟩, rfl⟩)
    ⟨.copyConstruct 1 0, ?_, ⟨?_, ?_⟩, rfl⟩)
    ⟨.set 1 "Integer" "12", ?_, ⟨?_, ?_⟩, rfl⟩)
    ⟨.destroy 0, ?_, ⟨?_, ?_⟩, rfl⟩)).1, ?_, ?_, ?_⟩
  · exact ⟨rfl, by decide⟩
  · exact deletesOnce_of_nodup_types (by decide)
  · exact fun _ _ h => by cases h
  · exact ⟨rfl, by decide⟩
  · exact deletesOnce_of_nodup_types (by decide)
  · exact fun _ _ h => by cases h
  · exact ⟨by decide, by decide⟩
  · exact deletesOnce_of_nodup_types (by decide)
  · exact fun _ _ h => by cases h
  · change OneOfStore.vars _ 0 ≠ none
    decide
  · exact deletesOnce_of_nodup_types (by decide)
  · exact fun _ _ h => by cases h
  · decide
  · decide
  · decide

/-- A variable with a string is moved out, and its kind is still that of a string. A string
is deleted twice if the type list has its type twice. -/
theorem moved_variable_has_kind :
    (∃ s : OneOfStore String, Reachable ⟨["Integer", "String"], by decide⟩ (fun _ _ => True) s ∧
      (s.vars 0).map (fun x => x.is ⟨["Integer", "String"], by decide⟩ "String") = some true ∧
      (s.vars 0).map (fun x => x.get ⟨["Integer", "String"], by decide⟩ "String") =
        some none) ∧
    ∃ s : OneOfStore String, Reachable ⟨["String", "String"], by decide⟩ MovesNothing s ∧
      s.heap.released = [0, 0] := by
  constructor
  · refine ⟨_, .tail (.tail .refl ⟨.constructValue 0 "String" "hello", ?_, trivial, rfl⟩)
      ⟨.moveConstruct 1 0, ?_, trivial, rfl⟩, ?_⟩
    · exact ⟨rfl, by decide⟩
    · exact ⟨rfl, by decide⟩
    · decide
  · refine ⟨_, .tail (.tail .refl ⟨.constructValue 0 "String" "hello", ?_, ?_, rfl⟩)
      ⟨.reset 0, ?_, ?_, rfl⟩, ?_⟩
    · exact ⟨rfl, by decide⟩
    · intro i j hop
      cases hop
    · intro hnone
      cases hnone
    · intro i j hop
      cases hop
    · decide

end Runs

end OneOfStore

end Langsvr
