import Langsvr.OwningMemories
import Mathlib.Data.List.FinRange

/-!
# Values of type `Optional` that hold values of type `Optional`

A structure whose members of type `Optional` hold structures of the same type. A structure is
deleted with all that its members hold, the last member first, and a copy is made of all that its
members hold, the first member first.
-/

namespace Langsvr.RecursiveOptional

/-- Structures with `k` members of type `Optional`. -/
abbrev Objects (k : ℕ) (α : Type) := Memory (Fin k) α

variable {k : ℕ} {α : Type}

section Methods

def resetWith (delete : ℕ → Objects k α → Except MemoryFault (Objects k α)) (m : Objects k α)
    (b : Place (Fin k)) : Except MemoryFault (Objects k α) := do
  match ← m.load b with
  | none => return m
  | some p =>
    let m' ← delete p m
    m'.store b none

/-- `delete`: the members end, the last one first, then the memory is given back. -/
def delete : ℕ → ℕ → Objects k α → Except MemoryFault (Objects k α)
  | 0, _, _ => .error .nesting
  | n + 1, p, m => do
    let m' ← (List.finRange k).reverse.foldlM
      (fun m f => resetWith (delete n) m (.member p f)) m
    m'.release p

/-- The part of the copy assignment that follows `Reset`. -/
def copyInto (copy : ℕ → Objects k α → Except MemoryFault (ℕ × Objects k α)) (m : Objects k α)
    (b c : Place (Fin k)) : Except MemoryFault (Objects k α) := do
  match ← m.load c with
  | none => return m
  | some p =>
    let (q, m') ← copy p m
    m'.store b (some q)

/-- `Optional(const Optional&)`: the place is constructed without a value, then the other one is
assigned to it. -/
def copyConstructWith (delete : ℕ → Objects k α → Except MemoryFault (Objects k α))
    (copy : ℕ → Objects k α → Except MemoryFault (ℕ × Objects k α)) (m : Objects k α)
    (b c : Place (Fin k)) : Except MemoryFault (Objects k α) := do
  let m₁ ← m.store b none
  let m₂ ← resetWith delete m₁ b
  copyInto copy m₂ b c

/-- `new T(value)`, where the value is copied, the first member first. -/
def copy : ℕ → ℕ → Objects k α → Except MemoryFault (ℕ × Objects k α)
  | 0, _, _ => .error .nesting
  | n + 1, p, m => do
    let x ← m.read p
    let (q, m') := m.allocate x
    let m'' ← (List.finRange k).foldlM
      (fun m f => copyConstructWith (delete n) (copy n) m (.member q f) (.member p f)) m'
    return (q, m'')

/-- `new T(value)`, where the members of the value hold nothing. -/
def create (x : α) (m : Objects k α) : Except MemoryFault (ℕ × Objects k α) := do
  let (q, m') := m.allocate x
  let m'' ← (List.finRange k).foldlM (fun m f => m.store (.member q f) none) m'
  return (q, m'')

/-- `operator==` of `Optional`, where `equal` compares the values. -/
def equalWith (equal : ℕ → ℕ → Except MemoryFault Bool) (m : Objects k α) (b c : Place (Fin k)) :
    Except MemoryFault Bool := do
  match ← m.load b, ← m.load c with
  | none, none => return true
  | some p, some q => equal p q
  | _, _ => return false

/-- `operator==` of the structures, the first member first. -/
def equal [DecidableEq α] (m : Objects k α) : ℕ → ℕ → ℕ → Except MemoryFault Bool
  | 0, _, _ => .error .nesting
  | n + 1, p, q => do
    let x ← m.read p
    let y ← m.read q
    if x = y then
      (List.finRange k).allM fun f => equalWith (equal m n) m (.member p f) (.member q f)
    else
      return false

variable (m : Objects k α) (b c : Place (Fin k))

/-- `Reset`. A call for each object that was ever made can be nested. -/
def reset : Except MemoryFault (Objects k α) := resetWith (delete m.fresh) m b

def equals [DecidableEq α] : Except MemoryFault Bool := equalWith (equal m m.fresh) m b c

/-- `operator=(const Optional&)`. -/
def copyAssign : Except MemoryFault (Objects k α) := do
  let m' ← reset m b
  copyInto (copy m'.fresh) m' b c

/-- The part of the move assignment that follows `Reset`. -/
def moveInto : Except MemoryFault (Objects k α) := do
  let p ← m.load c
  let m' ← m.store b p
  m'.store c none

/-- `operator=(Optional&&)`. -/
def moveAssign : Except MemoryFault (Objects k α) := do
  let m' ← reset m b
  moveInto m' b c

/-- `Optional(Optional&&)`: the place is constructed without a value, then the other one is moved
to it. -/
def moveConstruct : Except MemoryFault (Objects k α) := do
  let m₁ ← m.store b none
  let m₂ ← reset m₁ b
  moveInto m₂ b c

/-- `new T(std::move(value))`, where the value is moved, the first member first. What it is made of
besides its members is left as `y`. -/
def move (y : α) (p : ℕ) : Except MemoryFault (ℕ × Objects k α) := do
  let x ← m.read p
  let (q, m₁) := m.allocate x
  let m₂ ← m₁.write p y
  let m₃ ← (List.finRange k).foldlM (fun m f => moveConstruct m (.member q f) (.member p f)) m₂
  return (q, m₃)

/-- `Reset`, then a new value. -/
def assignNew (new : Objects k α → Except MemoryFault (ℕ × Objects k α)) :
    Except MemoryFault (Objects k α) := do
  let m' ← reset m b
  match ← m'.load b with
  | none =>
    let (q, m'') ← new m'
    m''.store b (some q)
  | some _ => return m'

/-- `operator=(const T&)` with a value in memory. -/
def assignObject (p : ℕ) : Except MemoryFault (Objects k α) :=
  assignNew m b fun m' => copy m'.fresh p m'

/-- `operator=(T&&)` with a value in memory. -/
def moveObject (y : α) (p : ℕ) : Except MemoryFault (Objects k α) :=
  assignNew m b fun m' => move m' y p

/-- `operator=(T&&)` with a temporary value whose members hold nothing. -/
def assign (x : α) : Except MemoryFault (Objects k α) := assignNew m b (create x)

end Methods

section Deletions

/-- The objects do not exist any more. -/
structure Frees (m m' : Objects k α) (W : Set (Place (Fin k))) (S : Set ℕ) : Prop
    extends m.Changes m' W S where
  freed : ∀ p ∈ S, m'.object p = none
  fresh : m'.fresh = m.fresh

variable {m m' : Objects k α} {W W' : Set (Place (Fin k))} {S S' : Set ℕ} {n : ℕ}
  {t : Contents (Fin k) (ℕ × α)} {b : Place (Fin k)}
  {del : ℕ → Objects k α → Except MemoryFault (Objects k α)}

theorem Frees.bounded (h : Frees m m' W S) (hm : m.Bounded) : m'.Bounded := by
  intro p hp
  rw [h.fresh]
  by_cases hpS : p ∈ S
  · rw [h.freed p hpS] at hp
    cases hp
  · rw [h.object p hpS] at hp
    exact hm p hp

theorem Frees.trans {m'' : Objects k α} (h : Frees m m' W S) (h' : Frees m' m'' W' S') :
    Frees m m'' (W ∪ W') (S ∪ S') where
  toChanges := (h.toChanges.mono Set.subset_union_left Set.subset_union_left).trans
    (h'.toChanges.mono Set.subset_union_right Set.subset_union_right)
  freed p hp := by
    by_cases hpS : p ∈ S'
    · exact h'.freed p hpS
    · rw [h'.object p hpS]
      exact h.freed p (hp.resolve_right hpS)
  fresh := h'.fresh.trans h.fresh

/-- The function deletes the trees of at most so many objects. -/
def Deletes (del : ℕ → Objects k α → Except MemoryFault (Objects k α)) (n : ℕ) : Prop :=
  ∀ ⦃m : Objects k α⦄ ⦃p t⦄, m.Represents (some p) t → t.Separated → t.addresses.card ≤ n →
    ∃ m', del p m = .ok m' ∧ Frees m m' ∅ {q | q ∈ t.addresses}

theorem resetWith_null (hb : m.accessible b) (hnull : m.pointer b = none) :
    resetWith del m b = .ok m := by
  rw [resetWith, Memory.load_eq hb, hnull]
  rfl

theorem resetWith_spec (hdel : Deletes del n) (h : m.Rooted b t) (ht : t.addresses.card ≤ n) :
    ∃ m', resetWith del m b = .ok m' ∧ Frees m m' {b} {q | q ∈ t.addresses} ∧
      m'.pointer b = none := by
  rw [resetWith, Memory.load_eq h.accessible]
  cases hp : m.pointer b with
  | none =>
    have hempty := h.represents.eq_none_iff.mp hp
    subst hempty
    refine ⟨m, rfl, ⟨Memory.Changes.refl m _ _, fun p hp => ?_, rfl⟩, hp⟩
    simp at hp
  | some p =>
    have hrep := h.represents
    rw [hp] at hrep
    obtain ⟨m', hm', hfrees⟩ := hdel hrep h.separated ht
    have hacc : m'.accessible b := (hfrees.accessible h.outside).trans h.accessible
    refine ⟨m'.setPointer b none, ?_, ?_, Function.update_self ..⟩
    · calc (do let m' ← del p m; m'.store b none) = m'.store b none := by rw [hm']; rfl
        _ = .ok (m'.setPointer b none) := Memory.store_eq hacc none
    · have hset := Memory.changes_setPointer m' b none
      exact {
        toChanges := (hfrees.toChanges.mono (Set.empty_subset _) subset_rfl).trans
          (hset.mono subset_rfl (Set.empty_subset _))
        freed := hfrees.freed
        fresh := hfrees.fresh }

/-- The resets of members free what they own. -/
theorem resets_spec (hdel : Deletes del n) {x : ℕ × α} {ms : Fin k → Contents (Fin k) (ℕ × α)}
    (ht : (Contents.value x ms).Separated) (hn : ∀ f, (ms f).addresses.card ≤ n)
    {fs : List (Fin k)} (hfs : fs.Nodup) (hx : (m.object x.1).isSome)
    (h : ∀ f ∈ fs, m.Represents (m.pointer (.member x.1 f)) (ms f)) :
    ∃ m', fs.foldlM (fun m f => resetWith del m (.member x.1 f)) m = .ok m' ∧
      Frees m m' {b | ∃ f ∈ fs, b = .member x.1 f} {q | ∃ f ∈ fs, q ∈ (ms f).addresses} := by
  induction fs generalizing m with
  | nil =>
    refine ⟨m, rfl, Memory.Changes.refl m _ _, fun p hp => ?_, rfl⟩
    simp at hp
  | cons f fs ih =>
    obtain ⟨hf, hnodup⟩ := List.nodup_cons.mp hfs
    have hrooted : m.Rooted (.member x.1 f) (ms f) :=
      ⟨hx, h f (List.mem_cons_self ..), ht.1 f, Place.member_outside (ht.2.1 f) f⟩
    obtain ⟨m₁, hm₁, hfrees, -⟩ := resetWith_spec hdel hrooted (hn f)
    have hx₁ : (m₁.object x.1).isSome := by
      rw [hfrees.object _ (ht.2.1 f)]
      exact hx
    have htail : ∀ g ∈ fs, m₁.Represents (m₁.pointer (.member x.1 g)) (ms g) := by
      intro g hg
      have hgf : g ≠ f := fun he => hf (he ▸ hg)
      have hplace : Place.member x.1 g ∉ ({.member x.1 f} : Set (Place (Fin k))) := by
        simpa using hgf
      rw [hfrees.pointer _ hplace (Place.member_outside (ht.2.1 f) g)]
      refine (h g (List.mem_cons_of_mem _ hg)).of_changes hfrees.toChanges ?_ ?_
      · exact fun q hq hqf => hgf (ht.2.2 g f q hq hqf)
      · intro q hq e he
        cases he
        exact ht.2.1 g hq
    obtain ⟨m', hm', hfrees'⟩ := ih hnodup hx₁ htail
    refine ⟨m', ?_, ?_⟩
    · rw [List.foldlM_cons, hm₁]
      exact hm'
    · have hW : {b | ∃ g ∈ f :: fs, b = Place.member x.1 g} =
          {.member x.1 f} ∪ {b | ∃ g ∈ fs, b = Place.member x.1 g} := by
        ext b
        simp
      have hS : {q | ∃ g ∈ f :: fs, q ∈ (ms g).addresses} =
          {q | q ∈ (ms f).addresses} ∪ {q | ∃ g ∈ fs, q ∈ (ms g).addresses} := by
        ext q
        simp
      rw [hW, hS]
      exact hfrees.trans hfrees'

theorem deletes_delete (n : ℕ) : Deletes (delete (k := k) (α := α) n) n := by
  induction n with
  | zero =>
    intro m p t h _ hcard
    exact absurd h.card_pos (by omega)
  | succ n ih =>
    intro m p t h ht hcard
    obtain ⟨x, ms, rfl, hx, hms⟩ := h.of_some
    have hn := ht.card_le hcard
    have hnodup := List.nodup_reverse.mpr (List.nodup_finRange k)
    obtain ⟨m₁, hm₁, hfrees⟩ := resets_spec ih ht hn hnodup (by rw [hx]; rfl) fun f _ => hms f
    have hx₁ : m₁.object p = some x := by
      rw [hfrees.object p fun hp => ?_]
      · exact hx
      · obtain ⟨f, -, hf⟩ := hp
        exact ht.2.1 f hf
    refine ⟨{ m₁ with object := Function.update m₁.object p none }, ?_, ⟨?_, ?_⟩, ?_, ?_⟩
    · rw [delete, hm₁]
      exact if_pos (by rw [hx₁]; rfl)
    · intro q hq
      have hqp : q ≠ p := fun he => hq (Contents.mem_addresses_value.mpr (.inl he))
      refine (Function.update_of_ne hqp ..).trans (hfrees.object q fun hqS => hq ?_)
      obtain ⟨f, -, hf⟩ := hqS
      exact Contents.mem_addresses_member hf
    · intro b _ hb
      refine hfrees.pointer b (fun hbW => ?_) fun q hq f => hb q ?_ f
      · obtain ⟨f, -, rfl⟩ := hbW
        exact hb p Contents.mem_addresses_self f rfl
      · obtain ⟨f, -, hf⟩ := hq
        exact Contents.mem_addresses_member hf
    · intro q hq
      rcases Contents.mem_addresses_value.mp hq with rfl | ⟨f, hf⟩
      · exact Function.update_self ..
      · have hqp : q ≠ p := fun he => ht.2.1 f (he ▸ hf)
        exact (Function.update_of_ne hqp ..).trans (hfrees.freed q ⟨f, by simp, hf⟩)
    · exact hfrees.fresh

end Deletions

section Copies

/-- Objects are made. -/
structure Grows (m m' : Objects k α) (W : Set (Place (Fin k))) : Prop
    extends m.Changes m' W {p | m.fresh ≤ p ∧ p < m'.fresh} where
  fresh_le : m.fresh ≤ m'.fresh

/-- A pointer represents a tree of new objects with the values of another tree. -/
structure Copied (m m' : Objects k α) (t t' : Contents (Fin k) (ℕ × α)) (p : Option ℕ) : Prop
    where
  represents : m'.Represents p t'
  separated : t'.Separated
  same : t'.map Prod.snd = t.map Prod.snd
  addresses : ∀ q, q ∈ t'.addresses ↔ m.fresh ≤ q ∧ q < m'.fresh

variable {m m' : Objects k α} {W W' : Set (Place (Fin k))} {n : ℕ}
  {t t' : Contents (Fin k) (ℕ × α)} {b c : Place (Fin k)}
  {new : ℕ → Objects k α → Except MemoryFault (ℕ × Objects k α)}

theorem Grows.refl (m : Objects k α) (W : Set (Place (Fin k))) : Grows m m W :=
  ⟨Memory.Changes.refl m W _, le_refl _⟩

theorem Grows.trans {m'' : Objects k α} (h : Grows m m' W) (h' : Grows m' m'' W') :
    Grows m m'' (W ∪ W') where
  toChanges := by
    have hle := h.fresh_le
    have hle' := h'.fresh_le
    refine (h.toChanges.mono Set.subset_union_left fun p hp => ?_).trans
      (h'.toChanges.mono Set.subset_union_right fun p hp => ?_)
    · exact ⟨hp.1, hp.2.trans_le hle'⟩
    · exact ⟨hle.trans hp.1, hp.2⟩
  fresh_le := h.fresh_le.trans h'.fresh_le

theorem Grows.mono (h : Grows m m' W) (hW : W ⊆ W') : Grows m m' W' :=
  ⟨h.toChanges.mono hW subset_rfl, h.fresh_le⟩

theorem Grows.bounded (h : Grows m m' W) (hm : m.Bounded) : m'.Bounded := by
  intro p hp
  by_contra hlt
  rw [h.object p fun hpS => hlt hpS.2] at hp
  exact hlt ((hm p hp).trans_le h.fresh_le)

theorem Grows.setPointer (h : Grows m m' W) (hb : b ∈ W) (p : Option ℕ) :
    Grows m (m'.setPointer b p) W where
  toChanges := h.toChanges.trans ((Memory.changes_setPointer m' b p).mono
    (Set.singleton_subset_iff.mpr hb) (Set.empty_subset _))
  fresh_le := h.fresh_le

theorem Grows.object_eq (h : Grows m m' W) {p : ℕ} (hp : p < m.fresh) :
    m'.object p = m.object p :=
  h.object p fun hpS => absurd hpS.1 (by omega)

theorem Grows.accessible (h : Grows m m' W) (hm : m.Bounded) (hb : m.accessible b) :
    m'.accessible b := by
  cases b with
  | root i => rfl
  | member p f =>
    rw [Memory.accessible, h.object_eq (hm p hb)]
    exact hb

/-- What a pointer represents stays if none of its members is changed. -/
theorem Grows.represents (h : Grows m m' W) {p : Option ℕ} (hp : m.Represents p t)
    (hm : m.Bounded) (hW : ∀ q ∈ t.addresses, ∀ f, Place.member q f ∉ W) :
    m'.Represents p t := by
  refine hp.of_changes h.toChanges (fun q hq hqS => ?_) hW
  have hlt := hm q (hp.isSome hq)
  exact absurd hqS.1 (by omega)

theorem grows_allocate (m : Objects k α) (x : α) : Grows m (m.allocate x).2 ∅ where
  object p hp := by
    have hne : p ≠ m.fresh := by
      rintro rfl
      exact hp ⟨le_refl _, Nat.lt_succ_self _⟩
    exact Function.update_of_ne hne ..
  pointer _ _ _ := rfl
  fresh_le := Nat.le_succ _

/-- The function copies the trees of at most so many objects. -/
def IsCopying (new : ℕ → Objects k α → Except MemoryFault (ℕ × Objects k α)) (n : ℕ) : Prop :=
  ∀ ⦃m : Objects k α⦄ ⦃p t⦄, m.Represents (some p) t → t.Separated → m.Bounded →
    t.addresses.card ≤ n →
      ∃ q m' t', new p m = .ok (q, m') ∧ Grows m m' ∅ ∧ Copied m m' t t' (some q)

theorem Copied.store {q : ℕ} (hcopied : Copied m m' t t' (some q)) (hgrows : Grows m m' ∅)
    (hm : m.Bounded) (hb : m.accessible b) (ho : b.Outside {p | m.fresh ≤ p}) :
    m'.store b (some q) = .ok (m'.setPointer b (some q)) ∧
      Grows m (m'.setPointer b (some q)) {b} ∧
      Copied m (m'.setPointer b (some q)) t t' ((m'.setPointer b (some q)).pointer b) := by
  refine ⟨Memory.store_eq (hgrows.accessible hm hb) _,
    (hgrows.mono (Set.empty_subset {b})).setPointer (Set.mem_singleton b) _,
    ?_, hcopied.separated, hcopied.same, hcopied.addresses⟩
  have hself : (m'.setPointer b (some q)).pointer b = some q := Function.update_self ..
  rw [hself]
  refine hcopied.represents.of_changes (Memory.changes_setPointer m' b (some q)) ?_ ?_
  · exact fun r _ => Set.notMem_empty r
  · intro r hr f he
    have hle := ((hcopied.addresses r).mp hr).1
    exact ho r hle f (Set.mem_singleton_iff.mp he).symm

theorem copyInto_spec (hnew : IsCopying new n) (hm : m.Bounded) (hb : m.accessible b)
    (hnull : m.pointer b = none) (hc : m.accessible c) (h : m.Represents (m.pointer c) t)
    (hs : t.Separated) (ht : t.addresses.card ≤ n) (ho : b.Outside {p | m.fresh ≤ p}) :
    ∃ m' t', copyInto new m b c = .ok m' ∧ Grows m m' {b} ∧ Copied m m' t t' (m'.pointer b) := by
  rw [copyInto, Memory.load_eq hc]
  cases hp : m.pointer c with
  | none =>
    have hempty := h.eq_none_iff.mp hp
    subst hempty
    refine ⟨m, .empty, rfl, Grows.refl m _, hnull, trivial, rfl, fun q => ?_⟩
    simp
  | some p =>
    rw [hp] at h
    obtain ⟨q, m', t', hq, hgrows, hcopied⟩ := hnew h hs hm ht
    obtain ⟨hstore, hgrows', hcopied'⟩ := hcopied.store hgrows hm hb ho
    refine ⟨m'.setPointer b (some q), t', ?_, hgrows', hcopied'⟩
    calc (do let (q, m') ← new p m; m'.store b (some q)) = m'.store b (some q) := by
          rw [hq]
          rfl
      _ = .ok (m'.setPointer b (some q)) := hstore

/-- The copy constructor makes a copy of what another place has. -/
theorem copyConstructWith_spec
    (del : ℕ → Objects k α → Except MemoryFault (Objects k α)) (hnew : IsCopying new n)
    (hm : m.Bounded) (hb : m.accessible b) (hbc : b ≠ c) (hc : m.accessible c)
    (h : m.Represents (m.pointer c) t) (hs : t.Separated) (ht : t.addresses.card ≤ n)
    (ho : b.Outside {p | m.fresh ≤ p})
    (hbt : b.Outside {p | p ∈ t.addresses}) :
    ∃ m' t', copyConstructWith del new m b c = .ok m' ∧ Grows m m' {b} ∧
      Copied m m' t t' (m'.pointer b) := by
  have hset : Grows m (m.setPointer b none) {b} :=
    (Grows.refl m {b}).setPointer (Set.mem_singleton b) none
  have hnull : (m.setPointer b none).pointer b = none := Function.update_self ..
  have hacc : ∀ {a}, m.accessible a → (m.setPointer b none).accessible a :=
    fun ha => hset.accessible hm ha
  have hrep : (m.setPointer b none).Represents ((m.setPointer b none).pointer c) t := by
    have hpc : (m.setPointer b none).pointer c = m.pointer c := Function.update_of_ne hbc.symm ..
    rw [hpc]
    refine hset.represents h hm fun q hq f he => hbt q hq f ?_
    exact (Set.mem_singleton_iff.mp he).symm
  have hreset : resetWith del (m.setPointer b none) b = .ok (m.setPointer b none) :=
    resetWith_null (hacc hb) hnull
  obtain ⟨m', t', hm', hgrows, hcopied⟩ := copyInto_spec (m := m.setPointer b none) hnew
    (hset.bounded hm) (hacc hb) hnull (hacc hc) hrep hs ht ho
  refine ⟨m', t', ?_, ?_, hcopied.represents, hcopied.separated, hcopied.same,
    hcopied.addresses⟩
  · calc copyConstructWith del new m b c
        = resetWith del (m.setPointer b none) b >>= fun m => copyInto new m b c := by
          rw [copyConstructWith, Memory.store_eq hb]
          rfl
      _ = copyInto new (m.setPointer b none) b c := by
          rw [hreset]
          rfl
      _ = .ok m' := hm'
  · have htrans := hset.trans hgrows
    rwa [Set.union_self] at htrans

/-- The members of a structure represent trees of new objects with the values of other trees. -/
structure CopiedMembers (m m' : Objects k α) (q : ℕ) (fs : List (Fin k))
    (ms ms' : Fin k → Contents (Fin k) (ℕ × α)) : Prop where
  represents : ∀ f ∈ fs, m'.Represents (m'.pointer (.member q f)) (ms' f)
  separated : ∀ f ∈ fs, (ms' f).Separated
  same : ∀ f ∈ fs, (ms' f).map Prod.snd = (ms f).map Prod.snd
  apart : ∀ f ∈ fs, ∀ g ∈ fs, ∀ r ∈ (ms' f).addresses, r ∈ (ms' g).addresses → f = g
  addresses : ∀ r, (∃ f ∈ fs, r ∈ (ms' f).addresses) ↔ m.fresh ≤ r ∧ r < m'.fresh

theorem CopiedMembers.cons {m₁ : Objects k α} {q : ℕ} {f : Fin k} {fs : List (Fin k)}
    {ms ms' : Fin k → Contents (Fin k) (ℕ × α)} (hq : q < m.fresh) (hf : f ∉ fs)
    (hm : m₁.Bounded) (hgrows : Grows m m₁ {.member q f})
    (hcopied : Copied m m₁ (ms f) t' (m₁.pointer (.member q f)))
    (hgrows' : Grows m₁ m' {b | ∃ g ∈ fs, b = .member q g})
    (h : CopiedMembers m₁ m' q fs ms ms') :
    CopiedMembers m m' q (f :: fs) ms (Function.update ms' f t') := by
  have hle := hgrows.fresh_le
  have hle' := hgrows'.fresh_le
  have hother : ∀ g ∈ fs, Function.update ms' f t' g = ms' g := by
    intro g hg
    have hgf : g ≠ f := fun he => hf (he ▸ hg)
    exact Function.update_of_ne hgf ..
  have hself : Function.update ms' f t' f = t' := Function.update_self ..
  have hfirst : ∀ r ∈ t'.addresses, ∀ g ∈ fs, r ∉ (ms' g).addresses := by
    intro r hr g hg hr'
    have hlt := ((hcopied.addresses r).mp hr).2
    have hge := ((h.addresses r).mp ⟨g, hg, hr'⟩).1
    omega
  have hrep : m'.Represents (m'.pointer (.member q f)) t' := by
    have hplace : Place.member q f ∉ {b | ∃ g ∈ fs, b = Place.member q g} := by
      intro hb
      obtain ⟨g, hg, he⟩ := hb
      cases he
      exact hf hg
    have hqne : ¬ (m₁.fresh ≤ q ∧ q < m'.fresh) := by omega
    rw [hgrows'.pointer _ hplace (Place.member_outside hqne f)]
    refine hgrows'.represents hcopied.represents hm fun r hr e hb => ?_
    obtain ⟨g, -, he⟩ := hb
    cases he
    have hge := ((hcopied.addresses q).mp hr).1
    omega
  constructor
  · intro g hg
    rcases List.mem_cons.mp hg with rfl | hg
    · rw [hself]
      exact hrep
    · rw [hother g hg]
      exact h.represents g hg
  · intro g hg
    rcases List.mem_cons.mp hg with rfl | hg
    · rw [hself]
      exact hcopied.separated
    · rw [hother g hg]
      exact h.separated g hg
  · intro g hg
    rcases List.mem_cons.mp hg with rfl | hg
    · rw [hself]
      exact hcopied.same
    · rw [hother g hg]
      exact h.same g hg
  · intro g hg e he r hr hr'
    rcases List.mem_cons.mp hg with hgf | hgs
    · subst hgf
      rw [hself] at hr
      rcases List.mem_cons.mp he with heg | hes
      · exact heg.symm
      · rw [hother e hes] at hr'
        exact absurd hr' (hfirst r hr e hes)
    · rw [hother g hgs] at hr
      rcases List.mem_cons.mp he with hef | hes
      · subst hef
        rw [hself] at hr'
        exact absurd hr (hfirst r hr' g hgs)
      · rw [hother e hes] at hr'
        exact h.apart g hgs e hes r hr hr'
  · intro r
    have hsplit : (∃ g ∈ f :: fs, r ∈ (Function.update ms' f t' g).addresses) ↔
        r ∈ t'.addresses ∨ ∃ g ∈ fs, r ∈ (ms' g).addresses := by
      rw [List.exists_mem_cons_iff, hself]
      refine or_congr_right (exists_congr fun g => and_congr_right fun hg => ?_)
      rw [hother g hg]
    rw [hsplit, hcopied.addresses r, h.addresses r]
    omega

/-- The members of a new structure get copies of what the members of another one hold. -/
theorem copies_spec (del : ℕ → Objects k α → Except MemoryFault (Objects k α))
    (hnew : IsCopying new n) {x : ℕ × α}
    {ms : Fin k → Contents (Fin k) (ℕ × α)} (hs : ∀ f, (ms f).Separated)
    (hn : ∀ f, (ms f).addresses.card ≤ n) {q : ℕ} {fs : List (Fin k)} (hfs : fs.Nodup)
    (hm : m.Bounded) (hx : (m.object x.1).isSome)
    (hq : (m.object q).isSome) (hqx : q ≠ x.1) (hqms : ∀ f, q ∉ (ms f).addresses)
    (h : ∀ f ∈ fs, m.Represents (m.pointer (.member x.1 f)) (ms f)) :
    ∃ m' ms', fs.foldlM
        (fun m f => copyConstructWith del new m (.member q f) (.member x.1 f)) m = .ok m' ∧
      Grows m m' {b | ∃ f ∈ fs, b = .member q f} ∧ CopiedMembers m m' q fs ms ms' := by
  induction fs generalizing m with
  | nil =>
    refine ⟨m, ms, rfl, Grows.refl m _, ?_, ?_, ?_, ?_, ?_⟩ <;> simp
  | cons f fs ih =>
    obtain ⟨hf, hnodup⟩ := List.nodup_cons.mp hfs
    have hqlt := hm q hq
    have hxlt := hm _ hx
    have hplace : ∀ f g : Fin k, Place.member x.1 g ≠ Place.member q f := by
      intro f g he
      cases he
      exact hqx rfl
    obtain ⟨m₁, t', hm₁, hgrows, hcopied⟩ := copyConstructWith_spec del hnew hm
      (b := .member q f) hq (hplace f f).symm hx (h f (List.mem_cons_self ..)) (hs f) (hn f)
      (Place.member_outside (by simpa using hqlt) f) (Place.member_outside (hqms f) f)
    have hx₁ : (m₁.object x.1).isSome := by rwa [hgrows.object_eq hxlt]
    have hq₁ : (m₁.object q).isSome := by rwa [hgrows.object_eq hqlt]
    have htail : ∀ g ∈ fs, m₁.Represents (m₁.pointer (.member x.1 g)) (ms g) := by
      intro g hg
      have hne : ¬ (m.fresh ≤ x.1 ∧ x.1 < m₁.fresh) := by omega
      rw [hgrows.pointer _ (hplace f g) (Place.member_outside hne g)]
      refine hgrows.represents (h g (List.mem_cons_of_mem _ hg)) hm fun r hr e he => ?_
      cases he
      exact hqms g hr
    have hbounded := hgrows.bounded hm
    obtain ⟨m', ms', hm', hgrows', hmembers⟩ := ih hnodup hbounded hx₁ hq₁ htail
    refine ⟨m', Function.update ms' f t', ?_, ?_,
      hmembers.cons hqlt hf hbounded hgrows hcopied hgrows'⟩
    · rw [List.foldlM_cons, hm₁]
      exact hm'
    · refine (hgrows.trans hgrows').mono fun b hb => ?_
      rcases hb with rfl | ⟨g, hg, rfl⟩
      · exact ⟨f, List.mem_cons_self .., rfl⟩
      · exact ⟨g, List.mem_cons_of_mem _ hg, rfl⟩

/-- A new structure whose members are copies is a copy. -/
theorem CopiedMembers.value {p : ℕ} {x : α} {ms ms' : Fin k → Contents (Fin k) (ℕ × α)}
    (hgrows : Grows (m.allocate x).2 m' {b | ∃ f ∈ List.finRange k, b = .member m.fresh f})
    (h : CopiedMembers (m.allocate x).2 m' m.fresh (List.finRange k) ms ms') :
    Grows m m' ∅ ∧
      Copied m m' (.value (p, x) ms) (.value (m.fresh, x) ms') (some m.fresh) := by
  have hmake := grows_allocate m x
  have hq : (m.allocate x).2.object m.fresh = some x := Function.update_self ..
  have hle : m.fresh + 1 ≤ m'.fresh := hgrows.fresh_le
  have hnew : ∀ f r, r ∈ (ms' f).addresses → m.fresh + 1 ≤ r := fun f r hr =>
    ((h.addresses r).mp ⟨f, List.mem_finRange f, hr⟩).1
  refine ⟨⟨?_, by omega⟩, ⟨rfl, ?_, ?_⟩, ?_, ?_, ?_⟩
  · have htrans := hmake.trans hgrows
    refine ⟨htrans.object, fun b _ hb => htrans.pointer b (fun hbW => ?_) hb⟩
    rcases hbW with hbW | ⟨f, -, rfl⟩
    · exact hbW
    · exact hb m.fresh ⟨le_refl _, by omega⟩ f rfl
  · rw [hgrows.object_eq (Nat.lt_succ_self _)]
    exact hq
  · exact fun f => h.represents f (List.mem_finRange f)
  · refine ⟨fun f => h.separated f (List.mem_finRange f), fun f hf => ?_, ?_⟩
    · exact absurd (hnew f _ hf) (by omega)
    · exact fun f g r hf hg => h.apart f (List.mem_finRange f) g (List.mem_finRange g) r hf hg
  · simp only [Contents.map_value, Contents.value.injEq, true_and]
    funext f
    exact h.same f (List.mem_finRange f)
  · intro r
    have hr := h.addresses r
    simp only [List.mem_finRange, true_and] at hr
    rw [Contents.mem_addresses_value, hr]
    change r = m.fresh ∨ m.fresh + 1 ≤ r ∧ r < m'.fresh ↔ _
    omega

/-- A structure is copied with all that its members hold. -/
theorem isCopying_copy (n : ℕ) : IsCopying (copy (k := k) (α := α) n) n := by
  induction n with
  | zero =>
    intro m p t h _ _ hcard
    exact absurd h.card_pos (by omega)
  | succ n ih =>
    intro m p t h ht hm hcard
    obtain ⟨x, ms, rfl, hx, hms⟩ := h.of_some
    have hplt : p < m.fresh := hm p (by rw [hx]; rfl)
    have hmake := grows_allocate m x
    have hq : (m.allocate x).2.object m.fresh = some x := Function.update_self ..
    have hp : ((m.allocate x).2.object p).isSome := by
      rw [hmake.object_eq hplt, hx]
      rfl
    have hold : ∀ f, ∀ r ∈ (ms f).addresses, r < m.fresh :=
      fun f r hr => hm r ((hms f).isSome hr)
    have hrep : ∀ f ∈ List.finRange k,
        (m.allocate x).2.Represents ((m.allocate x).2.pointer (.member p f)) (ms f) :=
      fun f _ => hmake.represents (hms f) hm fun _ _ _ => Set.notMem_empty _
    obtain ⟨m', ms', hm', hgrows, hmembers⟩ := copies_spec (delete n) ih
      (x := (p, x)) (q := m.fresh) ht.1 (ht.card_le hcard) (List.nodup_finRange k)
      (hmake.bounded hm) hp (by rw [hq]; rfl) (ne_of_gt hplt)
      (fun f hf => lt_irrefl _ (hold f _ hf)) hrep
    refine ⟨m.fresh, m', .value (m.fresh, x) ms', ?_, hmembers.value hgrows⟩
    have hread : m.read p = .ok x := by rw [Memory.read, hx]
    calc copy (n + 1) p m
        = ((List.finRange k).foldlM (fun m₂ f => copyConstructWith (delete n) (copy n) m₂
            (.member m.fresh f) (.member p f)) (m.allocate x).2 >>=
            fun m₂ => .ok (m.fresh, m₂)) := by
          rw [copy, hread]
          rfl
      _ = .ok (m.fresh, m') := by
          rw [hm']
          rfl

theorem constructs_spec {q : ℕ} (fs : List (Fin k)) (hq : (m.object q).isSome) :
    ∃ m', fs.foldlM (fun m f => m.store (.member q f) none) m = .ok m' ∧
      m'.object = m.object ∧ m'.fresh = m.fresh ∧
      m.Changes m' {b | ∃ f ∈ fs, b = .member q f} ∅ ∧
      ∀ f ∈ fs, m'.pointer (.member q f) = none := by
  induction fs generalizing m with
  | nil =>
    refine ⟨m, rfl, rfl, rfl, Memory.Changes.refl m _ _, fun f hf => ?_⟩
    exact absurd hf List.not_mem_nil
  | cons f fs ih =>
    obtain ⟨m', hm', hobject, hfresh, hc, hnull⟩ := ih (m := m.setPointer (.member q f) none) hq
    refine ⟨m', ?_, hobject, hfresh, ?_, fun g hg => ?_⟩
    · rw [List.foldlM_cons, Memory.store_eq (b := .member q f) hq]
      exact hm'
    · refine ((Memory.changes_setPointer m (.member q f) none).mono ?_ subset_rfl).trans
        (hc.mono ?_ subset_rfl)
      · rintro b rfl
        exact ⟨f, List.mem_cons_self .., rfl⟩
      · rintro b ⟨g, hg, rfl⟩
        exact ⟨g, List.mem_cons_of_mem _ hg, rfl⟩
    · by_cases hgs : g ∈ fs
      · exact hnull g hgs
      · have hgf : g = f := (List.mem_cons.mp hg).resolve_right hgs
        subst hgf
        rw [hc.pointer _ ?_ (Place.member_outside (Set.notMem_empty q) g)]
        · exact Function.update_self ..
        · rintro ⟨e, he, heq⟩
          cases heq
          exact hgs he

theorem create_spec (x : α) (m : Objects k α) :
    ∃ m', create x m = .ok (m.fresh, m') ∧ Grows m m' ∅ ∧
      Copied m m' (.value (m.fresh, x) fun _ => .empty) (.value (m.fresh, x) fun _ => .empty)
        (some m.fresh) := by
  have hq : (m.allocate x).2.object m.fresh = some x := Function.update_self ..
  obtain ⟨m', hm', hobject, hfresh, hc, hnull⟩ :=
    constructs_spec (m := (m.allocate x).2) (List.finRange k) (by rw [hq]; rfl)
  have hgrows : Grows (m.allocate x).2 m' {b | ∃ f ∈ List.finRange k, b = .member m.fresh f} :=
    ⟨hc.mono subset_rfl (Set.empty_subset _), hfresh.ge⟩
  have hmembers : CopiedMembers (m.allocate x).2 m' m.fresh (List.finRange k)
      (fun _ => .empty) fun _ => .empty := by
    refine ⟨hnull, fun _ _ => trivial, fun _ _ => rfl, fun f _ g _ r hr => ?_, fun r => ?_⟩
    · exact absurd hr (Finset.notMem_empty r)
    · simp only [Contents.addresses_empty, Finset.notMem_empty, and_false, exists_false, false_iff]
      omega
  refine ⟨m', ?_, hmembers.value hgrows⟩
  calc create x m
      = ((List.finRange k).foldlM (fun m₂ f => m₂.store (.member m.fresh f) none)
          (m.allocate x).2 >>= fun m₂ => .ok (m.fresh, m₂)) := rfl
    _ = .ok (m.fresh, m') := by
        rw [hm']
        rfl

end Copies

section Moves

variable {m m' : Objects k α} {b c : Place (Fin k)}

theorem moveInto_eq (hb : m.accessible b) (hc : m.accessible c) :
    moveInto m b c = .ok ((m.setPointer b (m.pointer c)).setPointer c none) := by
  have hc' : (m.setPointer b (m.pointer c)).accessible c := hc
  calc moveInto m b c = (do
        let m' ← m.store b (m.pointer c)
        m'.store c none) := by
          rw [moveInto, Memory.load_eq hc]
          rfl
    _ = (m.setPointer b (m.pointer c)).store c none := by
          rw [Memory.store_eq hb]
          rfl
    _ = _ := Memory.store_eq hc' none

/-- The move constructor takes over what another place has. -/
theorem moveConstruct_eq (hb : m.accessible b) (hc : m.accessible c) (hbc : b ≠ c) :
    moveConstruct m b c = .ok ((m.setPointer b (m.pointer c)).setPointer c none) := by
  have hb' : (m.setPointer b none).accessible b := hb
  have hnull : (m.setPointer b none).pointer b = none := Function.update_self ..
  have hpc : (m.setPointer b none).pointer c = m.pointer c := Function.update_of_ne hbc.symm ..
  calc moveConstruct m b c
      = reset (m.setPointer b none) b >>= fun m => moveInto m b c := by
        rw [moveConstruct, Memory.store_eq hb]
        rfl
    _ = moveInto (m.setPointer b none) b c := by
        rw [reset, resetWith_null hb' hnull]
        rfl
    _ = .ok (((m.setPointer b none).setPointer b (m.pointer c)).setPointer c none) := by
        rw [moveInto_eq hb' hc, hpc]
    _ = _ := by
        simp only [Memory.setPointer, Function.update_idem]

/-- The members of a new structure take over what the members of another one hold. -/
theorem moves_spec {p q : ℕ} (hpq : p ≠ q) {fs : List (Fin k)} (hfs : fs.Nodup)
    (hp : (m.object p).isSome) (hq : (m.object q).isSome) :
    ∃ m', fs.foldlM (fun m f => moveConstruct m (.member q f) (.member p f)) m = .ok m' ∧
      m'.object = m.object ∧ m'.fresh = m.fresh ∧
      m.Changes m' {b | ∃ f ∈ fs, b = .member q f ∨ b = .member p f} ∅ ∧
      ∀ f ∈ fs, m'.pointer (.member q f) = m.pointer (.member p f) ∧
        m'.pointer (.member p f) = none := by
  induction fs generalizing m with
  | nil =>
    refine ⟨m, rfl, rfl, rfl, Memory.Changes.refl m _ _, fun f hf => ?_⟩
    exact absurd hf List.not_mem_nil
  | cons f fs ih =>
    obtain ⟨hf, hnodup⟩ := List.nodup_cons.mp hfs
    have hne : Place.member q f ≠ Place.member p f := by
      intro he
      cases he
      exact hpq rfl
    let m₁ := (m.setPointer (.member q f) (m.pointer (.member p f))).setPointer (.member p f) none
    have hm₁ : moveConstruct m (.member q f) (.member p f) = .ok m₁ :=
      moveConstruct_eq (b := .member q f) (c := .member p f) hq hp hne
    have hfirst : m.Changes m₁ {.member q f, .member p f} ∅ :=
      ((Memory.changes_setPointer m _ _).mono (by simp) subset_rfl).trans
        ((Memory.changes_setPointer _ _ _).mono (by simp) subset_rfl)
    obtain ⟨m', hm', hobject, hfresh, hc, hmoved⟩ := ih (m := m₁) hnodup hp hq
    have hkeep : ∀ r, m'.pointer (.member r f) = m₁.pointer (.member r f) := by
      intro r
      refine hc.pointer _ ?_ (Place.member_outside (Set.notMem_empty r) f)
      rintro ⟨g, hg, he | he⟩
      · cases he
        exact hf hg
      · cases he
        exact hf hg
    refine ⟨m', ?_, hobject, hfresh, ?_, fun g hg => ?_⟩
    · rw [List.foldlM_cons, hm₁]
      exact hm'
    · refine (hfirst.mono ?_ subset_rfl).trans (hc.mono ?_ subset_rfl)
      · rintro b (rfl | rfl)
        · exact ⟨f, List.mem_cons_self .., .inl rfl⟩
        · exact ⟨f, List.mem_cons_self .., .inr rfl⟩
      · rintro b ⟨g, hg, hb⟩
        exact ⟨g, List.mem_cons_of_mem _ hg, hb⟩
    · rcases List.mem_cons.mp hg with rfl | hg
      · rw [hkeep, hkeep]
        refine ⟨?_, Function.update_self ..⟩
        exact (Function.update_of_ne hne ..).trans (Function.update_self ..)
      · have hgf : g ≠ f := fun he => hf (he ▸ hg)
        have hsame : m₁.pointer (.member p g) = m.pointer (.member p g) := by
          refine hfirst.pointer _ ?_ (Place.member_outside (Set.notMem_empty p) g)
          simp [hgf]
        rw [← hsame]
        exact hmoved g hg

/-- A value was moved to a new object, and what is left of it holds nothing. -/
structure Moved (m m' : Objects k α) (p : ℕ) (x y : α)
    (ms : Fin k → Contents (Fin k) (ℕ × α)) : Prop extends m.Changes m' ∅ {p, m.fresh} where
  fresh : m'.fresh = m.fresh + 1
  source : m'.Represents (some p) (.value (p, y) fun _ => .empty)
  target : m'.Represents (some m.fresh) (.value (m.fresh, x) ms)

theorem Moved.bounded {p : ℕ} {x y : α} {ms : Fin k → Contents (Fin k) (ℕ × α)}
    (h : Moved m m' p x y ms) (hm : m.Bounded) (hp : p < m.fresh) : m'.Bounded := by
  intro q hq
  rw [h.fresh]
  by_contra hlt
  rw [h.object q fun hqS => hlt ?_] at hq
  · exact hlt ((hm q hq).trans (Nat.lt_succ_self _))
  · rcases hqS with rfl | rfl
    · exact hp.trans (Nat.lt_succ_self _)
    · exact Nat.lt_succ_self _

/-- A structure is moved with all that its members hold. -/
theorem move_spec {p : ℕ} {x : α} {ms : Fin k → Contents (Fin k) (ℕ × α)} (hm : m.Bounded)
    (h : m.Represents (some p) (.value (p, x) ms)) (hs : (Contents.value (p, x) ms).Separated)
    (y : α) : ∃ m', move m y p = .ok (m.fresh, m') ∧ Moved m m' p x y ms := by
  have hx : m.object p = some x := h.2.1
  have hp : p < m.fresh := hm p (by rw [hx]; rfl)
  have hpq : p ≠ m.fresh := ne_of_lt hp
  let m₁ := (m.allocate x).2
  have hp₁ : m₁.object p = some x := (Function.update_of_ne hpq ..).trans hx
  let m₂ := m₁.setObject p y
  have hp₂ : m₂.object p = some y := Function.update_self ..
  have hq₂ : m₂.object m.fresh = some x :=
    (Function.update_of_ne hpq.symm ..).trans (Function.update_self ..)
  obtain ⟨m', hm', hobject, hfresh, hc, hmoved⟩ := moves_spec (m := m₂) hpq
    (List.nodup_finRange k) (by rw [hp₂]; rfl) (by rw [hq₂]; rfl)
  have hchanges : m.Changes m' ∅ {p, m.fresh} := by
    refine ⟨fun r hr => ?_, fun b _ ho => ?_⟩
    · have hrp : r ≠ p := fun he => hr (.inl he)
      have hrq : r ≠ m.fresh := fun he => hr (.inr he)
      rw [hobject]
      exact (Function.update_of_ne hrp ..).trans (Function.update_of_ne hrq ..)
    · refine hc.pointer b ?_ fun _ hq => absurd hq (Set.notMem_empty _)
      rintro ⟨f, -, rfl | rfl⟩
      · exact ho m.fresh (.inr rfl) f rfl
      · exact ho p (.inl rfl) f rfl
  refine ⟨m', ?_, hchanges, hfresh, ⟨rfl, ?_, fun f => ?_⟩, rfl, ?_, fun f => ?_⟩
  · calc move m y p = (m₁.write p y >>= fun m₂ => (List.finRange k).foldlM
            (fun m₀ f => moveConstruct m₀ (.member m.fresh f) (.member p f)) m₂ >>=
            fun m₃ => .ok (m.fresh, m₃)) := by
          rw [move, Memory.read, hx]
          rfl
      _ = ((List.finRange k).foldlM
            (fun m₀ f => moveConstruct m₀ (.member m.fresh f) (.member p f)) m₂ >>=
            fun m₃ => .ok (m.fresh, m₃)) := by
          rw [Memory.write_eq (by rw [hp₁]; rfl)]
          rfl
      _ = .ok (m.fresh, m') := by
          rw [hm']
          rfl
  · rw [hobject]
    exact hp₂
  · exact (hmoved f (List.mem_finRange f)).2
  · rw [hobject]
    exact hq₂
  · rw [(hmoved f (List.mem_finRange f)).1]
    refine (h.2.2 f).of_changes hchanges (fun r hr hrS => ?_) fun _ _ _ => Set.notMem_empty _
    rcases hrS with rfl | rfl
    · exact hs.2.1 f hr
    · exact lt_irrefl _ (hm _ ((h.2.2 f).isSome hr))

end Moves

end Langsvr.RecursiveOptional
