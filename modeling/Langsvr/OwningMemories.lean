import Langsvr.OwnedTrees
import Mathlib.Data.Set.Basic

/-!
# Memories of objects with owning pointers

Pointers are stored in variables and in the members of objects. An object that was freed is not
used any more. A pointer represents a tree if the objects that are reached from it are the values
of the tree. A change of the memory at one place and inside of what is owned there replaces the
contents of this place, and all other contents stay. The variables own a forest: no object is
owned twice.
-/

namespace Langsvr

variable {ι α : Type}

/-- Where a pointer is stored: in a variable, or in a member of an object. -/
inductive Place (ι : Type) where
  | root (i : ℕ)
  | member (p : ℕ) (f : ι)
deriving DecidableEq

/-- The place is in none of the objects. -/
def Place.Outside (b : Place ι) (S : Set ℕ) : Prop := ∀ p ∈ S, ∀ f, b ≠ .member p f

theorem Place.root_outside (i : ℕ) (S : Set ℕ) : (Place.root i : Place ι).Outside S :=
  fun _ _ _ he => by cases he

theorem Place.member_outside {p : ℕ} {S : Set ℕ} (hp : p ∉ S) (f : ι) :
    (Place.member p f).Outside S := by
  intro q hq g he
  cases he
  exact hp hq

/-- The pointers, the objects that exist and the address of the next object. -/
structure Memory (ι α : Type) where
  pointer : Place ι → Option ℕ := fun _ => none
  object : ℕ → Option α := fun _ => none
  fresh : ℕ := 0

/-- Why a program on a memory stops: it uses an object that was freed, it uses the value of a
null pointer, or too many calls are nested. -/
inductive MemoryFault where
  | freed
  | empty
  | nesting
deriving DecidableEq

namespace Memory

section Accesses

variable (m : Memory ι α)

/-- A member can be used while its object exists. -/
def accessible : Place ι → Bool
  | .root _ => true
  | .member p _ => (m.object p).isSome

def load (b : Place ι) : Except MemoryFault (Option ℕ) :=
  if m.accessible b then .ok (m.pointer b) else .error .freed

def read (p : ℕ) : Except MemoryFault α :=
  match m.object p with
  | some x => .ok x
  | none => .error .freed

def setObject (p : ℕ) (y : α) : Memory ι α :=
  { m with object := Function.update m.object p (some y) }

def write (p : ℕ) (y : α) : Except MemoryFault (Memory ι α) :=
  if (m.object p).isSome then .ok (m.setObject p y) else .error .freed

variable [DecidableEq ι]

def setPointer (b : Place ι) (p : Option ℕ) : Memory ι α :=
  { m with pointer := Function.update m.pointer b p }

def store (b : Place ι) (p : Option ℕ) : Except MemoryFault (Memory ι α) :=
  if m.accessible b then .ok (m.setPointer b p) else .error .freed

omit [DecidableEq ι] in
/-- The memory of an object is given back. -/
def release (p : ℕ) : Except MemoryFault (Memory ι α) :=
  if (m.object p).isSome then .ok { m with object := Function.update m.object p none }
  else .error .freed

omit [DecidableEq ι] in
def allocate (x : α) : ℕ × Memory ι α :=
  (m.fresh, { m with
    object := Function.update m.object m.fresh (some x)
    fresh := m.fresh + 1 })

/-- The place behind a path of members. -/
def walk : Place ι → List ι → Except MemoryFault (Place ι)
  | b, [] => .ok b
  | b, f :: π => do
    match ← m.load b with
    | none => .error .empty
    | some p => walk (.member p f) π

end Accesses

/-- The objects that are reached from a pointer are the values of a tree. -/
def Represents (m : Memory ι α) : Option ℕ → Contents ι (ℕ × α) → Prop
  | p, .empty => p = none
  | p, .value x members => p = some x.1 ∧ m.object x.1 = some x.2 ∧
    ∀ f, m.Represents (m.pointer (.member x.1 f)) (members f)

/-- Nothing changes but the given places and objects. -/
structure Changes (m m' : Memory ι α) (W : Set (Place ι)) (S : Set ℕ) : Prop where
  object : ∀ p ∉ S, m'.object p = m.object p
  pointer : ∀ b ∉ W, b.Outside S → m'.pointer b = m.pointer b

/-- All objects have addresses that were given out. -/
def Bounded (m : Memory ι α) : Prop := ∀ p, (m.object p).isSome → p < m.fresh

section Accessible

variable {m m' : Memory ι α} {W W' : Set (Place ι)} {S S' : Set ℕ} {a b : Place ι}

theorem load_eq (hb : m.accessible b) : m.load b = .ok (m.pointer b) := if_pos hb

theorem store_eq [DecidableEq ι] (hb : m.accessible b) (p : Option ℕ) :
    m.store b p = .ok (m.setPointer b p) := if_pos hb

theorem write_eq {p : ℕ} (hp : (m.object p).isSome) (y : α) :
    m.write p y = .ok (m.setObject p y) := if_pos hp

theorem Changes.refl (m : Memory ι α) (W : Set (Place ι)) (S : Set ℕ) : m.Changes m W S :=
  ⟨fun _ _ => rfl, fun _ _ _ => rfl⟩

theorem Changes.mono (h : m.Changes m' W S) (hW : W ⊆ W') (hS : S ⊆ S') : m.Changes m' W' S' where
  object p hp := h.object p fun hS' => hp (hS hS')
  pointer b hb ho := h.pointer b (fun hW' => hb (hW hW')) fun p hp => ho p (hS hp)

theorem Changes.trans {m'' : Memory ι α} (h : m.Changes m' W S) (h' : m'.Changes m'' W S) :
    m.Changes m'' W S where
  object p hp := (h'.object p hp).trans (h.object p hp)
  pointer b hb ho := (h'.pointer b hb ho).trans (h.pointer b hb ho)

theorem changes_setPointer [DecidableEq ι] (m : Memory ι α) (b : Place ι) (p : Option ℕ) :
    m.Changes (m.setPointer b p) {b} ∅ where
  object _ _ := rfl
  pointer _ hc _ := Function.update_of_ne hc ..

theorem Changes.accessible (h : m.Changes m' W S) (hb : b.Outside S) :
    m'.accessible b = m.accessible b := by
  cases b with
  | root i => rfl
  | member p f => simp only [Memory.accessible, h.object p fun hp => hb p hp f rfl]

theorem Changes.load (h : m.Changes m' W S) (hW : b ∉ W) (hb : b.Outside S) :
    m'.load b = m.load b := by
  rw [Memory.load, Memory.load, h.accessible hb, h.pointer b hW hb]

end Accessible

section Representations

variable {m m' : Memory ι α} {W : Set (Place ι)} {S : Set ℕ} {t u v : Contents ι (ℕ × α)}
  {a b : Place ι} {p : Option ℕ} {π ρ τ : List ι} {f : ι}

@[simp] theorem represents_empty : m.Represents p .empty ↔ p = none := Iff.rfl

theorem represents_value {x : ℕ × α} {members : ι → Contents ι (ℕ × α)} :
    m.Represents p (.value x members) ↔ p = some x.1 ∧ m.object x.1 = some x.2 ∧
      ∀ f, m.Represents (m.pointer (.member x.1 f)) (members f) := Iff.rfl

/-- A null pointer represents nothing, and no other pointer does. -/
theorem Represents.eq_none_iff (h : m.Represents p t) : p = none ↔ t = .empty := by
  cases t with
  | empty => simpa using h
  | value x members => simp [h.1]

theorem Represents.of_some {q : ℕ} (h : m.Represents (some q) t) :
    ∃ x members, t = .value (q, x) members ∧ m.object q = some x ∧
      ∀ f, m.Represents (m.pointer (.member q f)) (members f) := by
  cases t with
  | empty => cases h
  | value x members =>
    obtain ⟨q', x⟩ := x
    obtain ⟨hq, hx, hm⟩ := h
    cases hq
    exact ⟨x, members, rfl, hx, hm⟩

/-- A pointer represents one tree. -/
theorem Represents.unique (h : m.Represents p t) (h' : m.Represents p u) : t = u := by
  induction t generalizing p u with
  | empty => exact ((h'.eq_none_iff).mp h).symm
  | value x members ih =>
    cases u with
    | empty => exact absurd (h.1.symm.trans h') (Option.some_ne_none _)
    | value y members' =>
      obtain ⟨hx, hxm⟩ := h.2
      have he : x.1 = y.1 := Option.some.inj (h.1.symm.trans h'.1)
      have hy : m.object x.1 = some y.2 := by
        rw [he]
        exact h'.2.1
      have hxy : x = y := Prod.ext he (Option.some.inj (hx.symm.trans hy))
      subst hxy
      congr 1
      funext f
      exact ih f (hxm f) (h'.2.2 f)

variable [Fintype ι]

theorem Represents.isSome (h : m.Represents p t) {q : ℕ} (hq : q ∈ t.addresses) :
    (m.object q).isSome := by
  induction t generalizing p with
  | empty => simp at hq
  | value x members ih =>
    rcases Contents.mem_addresses_value.mp hq with rfl | ⟨f, hf⟩
    · rw [h.2.1]
      rfl
    · exact ih f (h.2.2 f) hf

theorem Represents.card_pos {q : ℕ} (h : m.Represents (some q) t) : 0 < t.addresses.card := by
  obtain ⟨x, members, rfl, -⟩ := h.of_some
  exact Finset.card_pos.mpr ⟨q, Contents.mem_addresses_self⟩

/-- A pointer represents the same tree if the objects of the tree do not change. -/
theorem Represents.congr (h : m.Represents p t)
    (ho : ∀ q ∈ t.addresses, m'.object q = m.object q)
    (hp : ∀ q ∈ t.addresses, ∀ f, m'.pointer (.member q f) = m.pointer (.member q f)) :
    m'.Represents p t := by
  induction t generalizing p with
  | empty => exact h
  | value x members ih =>
    refine ⟨h.1, (ho _ Contents.mem_addresses_self).trans h.2.1, fun f => ?_⟩
    rw [hp _ Contents.mem_addresses_self f]
    exact ih f (h.2.2 f) (fun q hq => ho q (Contents.mem_addresses_member hq))
      fun q hq => hp q (Contents.mem_addresses_member hq)

theorem Represents.of_changes (h : m.Represents p t) (hc : m.Changes m' W S)
    (hS : ∀ q ∈ t.addresses, q ∉ S) (hW : ∀ q ∈ t.addresses, ∀ f, Place.member q f ∉ W) :
    m'.Represents p t := by
  refine h.congr (fun q hq => hc.object q (hS q hq)) fun q hq f => ?_
  exact hc.pointer _ (hW q hq f) (Place.member_outside (hS q hq) f)

omit [Fintype ι] in
theorem Represents.member_accessible {x : ℕ × α} {members : ι → Contents ι (ℕ × α)}
    (h : m.Represents p (.value x members)) (f : ι) : m.accessible (.member x.1 f) := by
  simp [Memory.accessible, h.2.1]

end Representations

section Walks

variable {m m' : Memory ι α} {W : Set (Place ι)} {S : Set ℕ} {t u v : Contents ι (ℕ × α)}
  {x : ℕ × α} {members : ι → Contents ι (ℕ × α)} {a b : Place ι} {π ρ τ : List ι} {f : ι}

theorem walk_cons_empty (hb : m.accessible b) (h : m.Represents (m.pointer b) .empty) :
    m.walk b (f :: π) = .error .empty := by
  rw [walk, load_eq hb, represents_empty.mp h]
  rfl

theorem walk_cons_value (hb : m.accessible b)
    (h : m.Represents (m.pointer b) (.value x members)) :
    m.walk b (f :: π) = m.walk (.member x.1 f) π := by
  rw [walk, load_eq hb, h.1]
  rfl

theorem walk_append (m : Memory ι α) (b : Place ι) (π τ : List ι) :
    m.walk b (π ++ τ) = m.walk b π >>= fun a => m.walk a τ := by
  induction π generalizing b with
  | nil => rfl
  | cons f π ih =>
    rw [List.cons_append, walk, walk]
    cases m.load b with
    | error e => rfl
    | ok p =>
      cases p with
      | none => rfl
      | some p => exact ih (.member p f)

/-- A path that leads nowhere ends at a null pointer. -/
theorem walk_eq_error (hb : m.accessible b) (h : m.Represents (m.pointer b) t)
    (hf : t.find π = none) : m.walk b π = .error .empty := by
  induction π generalizing b t with
  | nil => simp at hf
  | cons f π ih =>
    cases t with
    | empty => exact walk_cons_empty hb h
    | value x members =>
      rw [walk_cons_value hb h]
      exact ih (h.member_accessible f) (h.2.2 f) hf

/-- A path that leads somewhere leads to a place that has the contents behind it. -/
theorem exists_walk (hb : m.accessible b) (h : m.Represents (m.pointer b) t)
    (hf : t.find π = some v) :
    ∃ a, m.walk b π = .ok a ∧ m.accessible a ∧ m.Represents (m.pointer a) v := by
  induction π generalizing b t with
  | nil =>
    cases Contents.find_nil.symm.trans hf
    exact ⟨b, rfl, hb, h⟩
  | cons f π ih =>
    obtain ⟨x, members, rfl, hv⟩ := Contents.find_cons_eq_some hf
    rw [walk_cons_value hb h]
    exact ih (h.member_accessible f) (h.2.2 f) hv

variable [Fintype ι]

/-- A path leads to its beginning or into an object of the tree. -/
theorem walk_mem (hb : m.accessible b) (h : m.Represents (m.pointer b) t)
    (hw : m.walk b π = .ok a) : a = b ∧ π = [] ∨ ∃ q ∈ t.addresses, ∃ f, a = .member q f := by
  induction π generalizing b t with
  | nil =>
    cases hw
    exact .inl ⟨rfl, rfl⟩
  | cons f π ih =>
    cases t with
    | empty =>
      rw [walk_cons_empty hb h] at hw
      cases hw
    | value x members =>
      rw [walk_cons_value hb h] at hw
      rcases ih (h.member_accessible f) (h.2.2 f) hw with ⟨rfl, -⟩ | ⟨q, hq, g, rfl⟩
      · exact .inr ⟨x.1, Contents.mem_addresses_self, f, rfl⟩
      · exact .inr ⟨q, Contents.mem_addresses_member hq, g, rfl⟩

theorem walk_append_mem (hb : m.accessible b) (h : m.Represents (m.pointer b) t)
    (hf : t.find π = some v) (hτ : τ ≠ []) (hw : m.walk b (π ++ τ) = .ok a) :
    ∃ q ∈ v.addresses, ∃ f, a = .member q f := by
  induction π generalizing b t with
  | nil =>
    cases Contents.find_nil.symm.trans hf
    rcases walk_mem hb h hw with ⟨-, h⟩ | h
    · exact absurd h hτ
    · exact h
  | cons f π ih =>
    obtain ⟨x, members, rfl, hv⟩ := Contents.find_cons_eq_some hf
    rw [List.cons_append, walk_cons_value hb h] at hw
    exact ih (h.member_accessible f) (h.2.2 f) hv hw

/-- A place is in none of the objects that it owns. -/
theorem walk_outside (hb : m.accessible b) (h : m.Represents (m.pointer b) t) (ht : t.Separated)
    (ho : b.Outside {p | p ∈ t.addresses}) (hf : t.find π = some v) (hw : m.walk b π = .ok a) :
    a.Outside {p | p ∈ v.addresses} := by
  induction π generalizing b t with
  | nil =>
    cases Contents.find_nil.symm.trans hf
    cases hw
    exact ho
  | cons f π ih =>
    obtain ⟨x, members, rfl, hv⟩ := Contents.find_cons_eq_some hf
    rw [walk_cons_value hb h] at hw
    exact ih (h.member_accessible f) (h.2.2 f) (ht.1 f) (Place.member_outside (ht.2.1 f) f) hv hw

theorem walk_congr (hb : m.accessible b) (h : m.Represents (m.pointer b) t)
    (hl : m'.load b = m.load b) (hc : m.Changes m' W S) (hS : ∀ q ∈ t.addresses, q ∉ S)
    (hW : ∀ q ∈ t.addresses, ∀ f, Place.member q f ∉ W) (π : List ι) :
    m'.walk b π = m.walk b π := by
  induction π generalizing b t with
  | nil => rfl
  | cons f π ih =>
    rw [walk, walk, hl, load_eq hb]
    cases t with
    | empty =>
      rw [represents_empty.mp h]
      rfl
    | value x members =>
      rw [h.1]
      have hload := hc.load (hW _ Contents.mem_addresses_self f)
        (Place.member_outside (hS _ Contents.mem_addresses_self) f)
      exact ih (h.member_accessible f) (h.2.2 f) hload
        (fun q hq => hS q (Contents.mem_addresses_member hq))
        fun q hq => hW q (Contents.mem_addresses_member hq)

end Walks

section Replacements

variable [Fintype ι]

/-- A place that can be used has a tree, in none of whose objects it is. -/
structure Rooted (m : Memory ι α) (b : Place ι) (t : Contents ι (ℕ × α)) : Prop where
  accessible : m.accessible b
  represents : m.Represents (m.pointer b) t
  separated : t.Separated
  outside : b.Outside {p | p ∈ t.addresses}

variable {m m' : Memory ι α} {S : Set ℕ} {t u v : Contents ι (ℕ × α)} {x : ℕ × α}
  {members : ι → Contents ι (ℕ × α)} {a b : Place ι} {π ρ : List ι} {f g : ι}

theorem Rooted.member (h : m.Rooted b (.value x members)) (f : ι) :
    m.Rooted (.member x.1 f) (members f) where
  accessible := h.represents.member_accessible f
  represents := h.represents.2.2 f
  separated := h.separated.1 f
  outside := Place.member_outside (h.separated.2.1 f) f

/-- A change behind one member is not seen behind the other ones. -/
theorem Rooted.other_member (h : m.Rooted b (.value x members)) (hf : (members f).find π = some v)
    (hw : m.walk (.member x.1 f) π = .ok a) (hgf : g ≠ f)
    (hS : ∀ q ∈ (Contents.value x members).addresses, q ∈ S → q ∈ v.addresses) :
    Place.member x.1 g ∉ ({a} : Set (Place ι)) ∧ (∀ q ∈ (members g).addresses, q ∉ S) ∧
      ∀ q ∈ (members g).addresses, ∀ e, Place.member q e ∉ ({a} : Set (Place ι)) := by
  have hmem := h.member f
  have ha := walk_mem hmem.accessible hmem.represents hw
  refine ⟨fun he => ?_, fun q hq hqS => ?_, fun q hq e he => ?_⟩
  · rcases ha with ⟨ha, -⟩ | ⟨r, hr, e, ha⟩
    · cases (Set.mem_singleton_iff.mp he).trans ha
      exact hgf rfl
    · cases (Set.mem_singleton_iff.mp he).trans ha
      exact h.separated.2.1 f hr
  · have hv := hS q (Contents.mem_addresses_member hq) hqS
    exact hgf (h.separated.2.2 g f q hq (Contents.find_addresses hf hv))
  · rcases ha with ⟨ha, -⟩ | ⟨r, hr, e', ha⟩
    · cases (Set.mem_singleton_iff.mp he).trans ha
      exact h.separated.2.1 g hq
    · cases (Set.mem_singleton_iff.mp he).trans ha
      exact hgf (h.separated.2.2 g f q hq hr)

/-- The object at which a path begins does not change, nor does its place. -/
theorem Rooted.of_find (h : m.Rooted b (.value x members)) (hf : (members f).find π = some v)
    (hw : m.walk (.member x.1 f) π = .ok a)
    (hS : ∀ q ∈ (Contents.value x members).addresses, q ∈ S → q ∈ v.addresses) :
    x.1 ∉ S ∧ b ∉ ({a} : Set (Place ι)) := by
  have hmem := h.member f
  have hx : x.1 ∈ (Contents.value x members).addresses := Contents.mem_addresses_self
  refine ⟨fun hxS => ?_, fun he => ?_⟩
  · exact h.separated.2.1 f (Contents.find_addresses hf (hS _ hx hxS))
  · rcases walk_mem hmem.accessible hmem.represents hw with ⟨ha, -⟩ | ⟨q, hq, g, ha⟩
    · exact h.outside _ hx f ((Set.mem_singleton_iff.mp he).trans ha)
    · refine h.outside q ?_ g ((Set.mem_singleton_iff.mp he).trans ha)
      exact Contents.mem_addresses_member hq

/-- A change of what a place owns replaces its contents. -/
theorem Rooted.put [DecidableEq ι] (h : m.Rooted b t) (hf : t.find π = some v)
    (hw : m.walk b π = .ok a) (hc : m.Changes m' {a} S)
    (hS : ∀ q ∈ t.addresses, q ∈ S → q ∈ v.addresses) (hb : b.Outside S)
    (hu : m'.Represents (m'.pointer a) u) :
    m'.Represents (m'.pointer b) (t.put π u) := by
  induction π generalizing b t with
  | nil =>
    cases hw
    simpa using hu
  | cons f π ih =>
    obtain ⟨x, members, rfl, hv⟩ := Contents.find_cons_eq_some hf
    rw [walk_cons_value h.accessible h.represents] at hw
    obtain ⟨hxS, hba⟩ := h.of_find hv hw hS
    have hmember := fun g : ι => Place.member_outside hxS g
    rw [Contents.put_value_cons, represents_value]
    refine ⟨(hc.pointer b hba hb).trans h.represents.1,
      (hc.object _ hxS).trans h.represents.2.1, fun g => ?_⟩
    by_cases hgf : g = f
    · subst hgf
      rw [Function.update_self]
      refine ih (h.member g) hv hw (fun q hq => hS q ?_) (hmember g)
      exact Contents.mem_addresses_member hq
    · obtain ⟨hga, hgS, hgW⟩ := h.other_member hv hw hgf hS
      rw [Function.update_of_ne hgf, hc.pointer _ hga (hmember g)]
      exact (h.represents.2.2 g).of_changes hc hgS hgW

/-- A path that does not go on behind the place leads where it led. -/
theorem Rooted.walk_eq (h : m.Rooted b t) (hf : t.find π = some v) (hw : m.walk b π = .ok a)
    (hc : m.Changes m' {a} S) (hS : ∀ q ∈ t.addresses, q ∈ S → q ∈ v.addresses)
    (hb : b.Outside S) (hρ : π <+: ρ → π = ρ) : m'.walk b ρ = m.walk b ρ := by
  induction π generalizing b t ρ with
  | nil =>
    cases hρ List.nil_prefix
    rfl
  | cons f π ih =>
    obtain ⟨x, members, rfl, hv⟩ := Contents.find_cons_eq_some hf
    rw [walk_cons_value h.accessible h.represents] at hw
    obtain ⟨hxS, hba⟩ := h.of_find hv hw hS
    have hmember := fun g : ι => Place.member_outside hxS g
    cases ρ with
    | nil => rfl
    | cons g ρ =>
      rw [walk, walk, hc.load hba hb, load_eq h.accessible, h.represents.1]
      change m'.walk (.member x.1 g) ρ = m.walk (.member x.1 g) ρ
      have hmem := h.member g
      by_cases hgf : g = f
      · subst hgf
        refine ih hmem hv hw (fun q hq => hS q ?_) (hmember g) fun hp => ?_
        · exact Contents.mem_addresses_member hq
        · simpa using hρ (List.cons_prefix_cons.mpr ⟨rfl, hp⟩)
      · obtain ⟨hga, hgS, hgW⟩ := h.other_member hv hw hgf hS
        exact walk_congr hmem.accessible hmem.represents (hc.load hga (hmember g)) hc hgS hgW ρ

end Replacements

section Forests

variable [Fintype ι]

/-- The variables own trees of objects, and no object is owned twice. -/
structure Forest (m : Memory ι α) (σ : Variables ι (ℕ × α)) : Prop where
  represents : ∀ i, m.Represents (m.pointer (.root i)) (σ i)
  separated : σ.Separated
  bounded : m.Bounded

/-- The place that a path, a variable and members, leads to. -/
def place (m : Memory ι α) (a : ℕ × List ι) : Except MemoryFault (Place ι) :=
  m.walk (.root a.1) a.2

def Reaches (m : Memory ι α) (p : ℕ) : Prop := ∃ a b, m.place a = .ok b ∧ m.pointer b = some p

/-- An object exists that no variable owns. -/
def Lost (m : Memory ι α) (σ : Variables ι (ℕ × α)) (p : ℕ) : Prop :=
  (m.object p).isSome ∧ ¬ σ.Owns p

variable {m m' : Memory ι α} {σ : Variables ι (ℕ × α)} {W : Set (Place ι)} {S : Set ℕ}
  {u v : Contents ι (ℕ × α)} {a c : ℕ × List ι} {b d : Place ι} {p : ℕ}

namespace Forest

theorem init : ({} : Memory ι α).Forest fun _ => .empty where
  represents _ := rfl
  separated := ⟨fun _ => trivial, fun _ _ _ h => absurd h (Finset.notMem_empty _)⟩
  bounded _ h := by cases h

/-- The variables of a memory own one forest. -/
theorem unique {σ' : Variables ι (ℕ × α)} (h : m.Forest σ) (h' : m.Forest σ') : σ = σ' := by
  funext i
  exact (h.represents i).unique (h'.represents i)

theorem rooted (h : m.Forest σ) (i : ℕ) : m.Rooted (.root i) (σ i) where
  accessible := rfl
  represents := h.represents i
  separated := h.separated.trees i
  outside := Place.root_outside i _

theorem isSome (h : m.Forest σ) (hp : σ.Owns p) : (m.object p).isSome := by
  obtain ⟨i, hi⟩ := hp
  exact (h.represents i).isSome hi

theorem lt_fresh (h : m.Forest σ) (hp : σ.Owns p) : p < m.fresh := h.bounded p (h.isSome hp)

theorem place_eq_error (h : m.Forest σ) (hf : σ.find a = none) : m.place a = .error .empty :=
  walk_eq_error (h.rooted a.1).accessible (h.represents a.1) hf

theorem exists_place (h : m.Forest σ) (hf : σ.find a = some v) :
    ∃ b, m.place a = .ok b ∧ m.Rooted b v := by
  have hr := h.rooted a.1
  obtain ⟨b, hb, hacc, hrep⟩ := exists_walk hr.accessible hr.represents hf
  have ho := walk_outside hr.accessible hr.represents hr.separated hr.outside hf hb
  exact ⟨b, hb, hacc, hrep, hr.separated.find hf, ho⟩

theorem rooted_place (h : m.Forest σ) (hf : σ.find a = some v) (hb : m.place a = .ok b) :
    m.Rooted b v := by
  obtain ⟨b', hb', hr⟩ := h.exists_place hf
  cases hb.symm.trans hb'
  exact hr

theorem place_member (h : m.Forest σ) {x : ℕ × α} {members : ι → Contents ι (ℕ × α)}
    (hf : σ.find a = some (.value x members)) (hb : m.place a = .ok b) (f : ι) :
    m.place (a.1, a.2 ++ [f]) = .ok (.member x.1 f) := by
  have hr := h.rooted_place hf hb
  calc m.place (a.1, a.2 ++ [f]) = m.place a >>= fun b => m.walk b [f] :=
        walk_append m (.root a.1) a.2 [f]
    _ = m.walk b [f] := by
        rw [hb]
        rfl
    _ = .ok (.member x.1 f) := walk_cons_value hr.accessible hr.represents

/-- The places of the other variables and of their objects are other places. -/
theorem other_variable (h : m.Forest σ) (hb : m.place a = .ok b) {i : ℕ} (hi : a.1 ≠ i) :
    (∀ q ∈ (σ i).addresses, ∀ f, Place.member q f ∉ ({b} : Set (Place ι))) ∧
      Place.root i ∉ ({b} : Set (Place ι)) := by
  have hr := h.rooted a.1
  rcases walk_mem hr.accessible hr.represents hb with ⟨hb, -⟩ | ⟨r, hr, g, hb⟩
  · subst hb
    refine ⟨fun q _ f he => ?_, fun he => ?_⟩
    · cases he
    · cases he
      exact hi rfl
  · subst hb
    refine ⟨fun q hq f he => ?_, fun he => ?_⟩
    · cases he
      exact hi (h.separated.apart a.1 i r hr hq)
    · cases he

theorem put [DecidableEq ι] (h : m.Forest σ) (hf : σ.find a = some v) (hb : m.place a = .ok b)
    (hc : m.Changes m' {b} S) (hS : ∀ q ∈ S, σ.Owns q → q ∈ v.addresses)
    (hu : m'.Represents (m'.pointer b) u) (hus : u.Separated)
    (hud : ∀ q ∈ u.addresses, σ.Owns q → q ∈ v.addresses) (hm' : m'.Bounded) :
    m'.Forest (σ.put a u) where
  represents i := by
    by_cases hi : i = a.1
    · subst hi
      rw [Variables.put, Function.update_self]
      exact (h.rooted a.1).put hf hb hc (fun q hq hqS => hS q hqS ⟨a.1, hq⟩)
        (Place.root_outside a.1 S) hu
    · rw [Variables.put, Function.update_of_ne hi]
      obtain ⟨hbi, hroot⟩ := h.other_variable hb fun he => hi he.symm
      rw [hc.pointer _ hroot (Place.root_outside i S)]
      refine (h.represents i).of_changes hc (fun q hq hqS => hi ?_) hbi
      exact h.separated.apart i a.1 q hq (Contents.find_addresses hf (hS q hqS ⟨i, hq⟩))
  separated := h.separated.put hf hus hud
  bounded := hm'

theorem place_eq (h : m.Forest σ) (hf : σ.find a = some v) (hb : m.place a = .ok b)
    (hc : m.Changes m' {b} S) (hS : ∀ q ∈ S, σ.Owns q → q ∈ v.addresses)
    (hac : Leads a c → a = c) : m'.place c = m.place c := by
  by_cases hi : a.1 = c.1
  · obtain ⟨i, π⟩ := a
    obtain ⟨j, ρ⟩ := c
    cases hi
    refine (h.rooted i).walk_eq hf hb hc (fun q hq hqS => hS q hqS ⟨i, hq⟩)
      (Place.root_outside i S) fun hp => ?_
    exact congrArg Prod.snd (hac ⟨rfl, hp⟩)
  · have hr := h.rooted c.1
    obtain ⟨hbi, hroot⟩ := h.other_variable hb hi
    refine walk_congr hr.accessible hr.represents (hc.load hroot (Place.root_outside c.1 S)) hc
      (fun q hq hqS => hi ?_) hbi c.2
    exact h.separated.apart a.1 c.1 q (Contents.find_addresses hf (hS q hqS ⟨c.1, hq⟩)) hq

theorem card_le (h : m.Forest σ) (hf : σ.find a = some v) : v.addresses.card ≤ m.fresh := by
  have hsub : v.addresses ⊆ Finset.range m.fresh := by
    intro p hp
    exact Finset.mem_range.mpr (h.lt_fresh (Variables.owns_find hf hp))
  simpa using Finset.card_le_card hsub

/-- A place is in no object that the variables do not own. -/
theorem place_outside (h : m.Forest σ) (hb : m.place a = .ok b) (hS : ∀ q ∈ S, ¬ σ.Owns q) :
    b.Outside S := by
  have hr := h.rooted a.1
  rcases walk_mem hr.accessible hr.represents hb with ⟨rfl, -⟩ | ⟨q, hq, f, rfl⟩
  · exact Place.root_outside a.1 S
  · exact Place.member_outside (fun hqS => hS q hqS ⟨a.1, hq⟩) f

theorem place_mem (h : m.Forest σ) (hf : σ.find a = some v) (hac : Leads a c) (hne : a ≠ c)
    (hd : m.place c = .ok d) : ∃ q ∈ v.addresses, ∃ f, d = .member q f := by
  obtain ⟨i, π⟩ := a
  obtain ⟨j, ρ⟩ := c
  obtain ⟨hi, τ, hτ⟩ := hac
  simp only at hi hτ
  subst hi hτ
  have hr := h.rooted i
  refine walk_append_mem hr.accessible hr.represents hf (fun hnil => hne ?_) hd
  rw [hnil, List.append_nil]

/-- What the variables do not own can change. -/
theorem frame (h : m.Forest σ) (hc : m.Changes m' W S) (hS : ∀ q ∈ S, ¬ σ.Owns q)
    (hW : ∀ q, σ.Owns q → ∀ f, Place.member q f ∉ W) (hroot : ∀ i, Place.root i ∉ W)
    (hm' : m'.Bounded) : m'.Forest σ where
  represents i := by
    rw [hc.pointer _ (hroot i) (Place.root_outside i S)]
    exact (h.represents i).of_changes hc (fun q hq hqS => hS q hqS ⟨i, hq⟩)
      fun q hq => hW q ⟨i, hq⟩
  separated := h.separated
  bounded := hm'

/-- The variables own the objects that are reached from them. -/
theorem owns_iff_reaches (h : m.Forest σ) : σ.Owns p ↔ m.Reaches p := by
  constructor
  · intro hp
    obtain ⟨i, hi⟩ := hp
    obtain ⟨π, y, members, hf⟩ := Contents.mem_addresses_iff.mp hi
    obtain ⟨b, hb, hr⟩ := h.exists_place (a := (i, π)) hf
    exact ⟨(i, π), b, hb, hr.represents.1⟩
  · intro hp
    obtain ⟨a, b, hb, hpb⟩ := hp
    cases hf : σ.find a with
    | none => cases (h.place_eq_error hf).symm.trans hb
    | some v =>
      have hrep := (h.rooted_place hf hb).represents
      rw [hpb] at hrep
      obtain ⟨y, members, rfl, -⟩ := hrep.of_some
      exact Variables.owns_find hf Contents.mem_addresses_self

variable [DecidableEq ι] {w : Contents ι (ℕ × α)} {x : Option ℕ}

/-- A pointer is set to null, and what it represents is not owned any more. -/
theorem detach (h : m.Forest σ) (hf : σ.find c = some w) (hd : m.place c = .ok d) :
    (m.setPointer d none).Forest (σ.put c .empty) ∧
      (m.setPointer d none).Represents (m.pointer d) w ∧
      ∀ p, (m.setPointer d none).Lost (σ.put c .empty) p ↔ m.Lost σ p ∨ p ∈ w.addresses := by
  have hc := changes_setPointer m d none
  have hr := h.rooted_place hf hd
  refine ⟨?_, ?_, fun p => ?_⟩
  · refine h.put hf hd hc (fun q hq => absurd hq (Set.notMem_empty q)) ?_ trivial ?_ h.bounded
    · exact Function.update_self ..
    · exact fun q hq => absurd hq (Finset.notMem_empty q)
  · refine hr.represents.of_changes hc (fun q _ => Set.notMem_empty q) fun q hq f he => ?_
    exact hr.outside q hq f (Set.mem_singleton_iff.mp he).symm
  · have hown := Variables.owns_put (u := .empty) (p := p) h.separated hf
    have hsome : p ∈ w.addresses → (m.object p).isSome := fun hp =>
      h.isSome (Variables.owns_find hf hp)
    simp only [Lost, hown, setPointer, Contents.addresses_empty, Finset.notMem_empty, false_or]
    tauto

/-- A null pointer is set to one that represents what is not owned. -/
theorem attach (h : m.Forest σ) (hf : σ.find a = some .empty) (hb : m.place a = .ok b)
    (hw : m.Represents x w) (hws : w.Separated) (hd : ∀ q ∈ w.addresses, ¬ σ.Owns q) :
    (m.setPointer b x).Forest (σ.put a w) ∧
      ∀ p, (m.setPointer b x).Lost (σ.put a w) p ↔ m.Lost σ p ∧ p ∉ w.addresses := by
  have hc := changes_setPointer m b x
  have ho : b.Outside {q | q ∈ w.addresses} := h.place_outside hb hd
  refine ⟨?_, fun p => ?_⟩
  · refine h.put hf hb hc (fun q hq => absurd hq (Set.notMem_empty q)) ?_ hws
      (fun q hq hown => absurd hown (hd q hq)) h.bounded
    have hself : (m.setPointer b x).pointer b = x := Function.update_self ..
    rw [hself]
    refine hw.of_changes hc (fun q _ => Set.notMem_empty q) fun q hq f he => ?_
    exact ho q hq f (Set.mem_singleton_iff.mp he).symm
  · have hown := Variables.owns_put (u := w) (p := p) h.separated hf
    simp only [Lost, hown, setPointer, Contents.addresses_empty, Finset.notMem_empty,
      not_false_eq_true, and_true]
    tauto

/-- A null pointer takes over what another place owns. This is lost if and only if the null
pointer was part of it. -/
theorem move (h : m.Forest σ) (ha : σ.find a = some .empty) (hb : m.place a = .ok b)
    (hc : σ.find c = some w) (hd : m.place c = .ok d) (hac : Leads a c → a = c) :
    ((m.setPointer b (m.pointer d)).setPointer d none).Forest ((σ.put c .empty).put a w) ∧
      ∀ p, ((m.setPointer b (m.pointer d)).setPointer d none).Lost ((σ.put c .empty).put a w) p ↔
        m.Lost σ p ∨ p ∈ w.addresses ∧ Leads c a ∧ c ≠ a := by
  have hrd := h.rooted_place hc hd
  have hnull : m.pointer b = none := (h.rooted_place ha hb).represents
  by_cases hempty : w = .empty
  · -- nothing is moved
    subst hempty
    have hdnull : m.pointer d = none := hrd.represents
    have hsame : (m.setPointer b (m.pointer d)).setPointer d none = m := by
      have hone : m.setPointer b none = m := by
        rw [setPointer, ← hnull, Function.update_eq_self]
      rw [hdnull, hone, setPointer, ← hdnull, Function.update_eq_self]
    rw [hsame, Variables.put_find hc, Variables.put_find ha]
    refine ⟨h, fun p => ?_⟩
    simp
  have hbd : b ≠ d := by
    rintro rfl
    exact hempty (hrd.represents.eq_none_iff.mp hnull)
  have hca : c ≠ a := by
    rintro rfl
    exact hempty (Option.some.inj (hc.symm.trans ha))
  have hswap : (m.setPointer b (m.pointer d)).setPointer d none =
      (m.setPointer d none).setPointer b (m.pointer d) := by
    simp only [setPointer]
    rw [Function.update_comm hbd]
  obtain ⟨h₁, hrep, hlost₁⟩ := h.detach hc hd
  have hfree := Variables.not_owns_put_empty h.separated hc
  rw [hswap]
  by_cases hle : Leads c a
  · -- the target is part of what is moved
    obtain ⟨q, hq, f, rfl⟩ := h.place_mem hc hle hca hb
    rw [Variables.put_empty_of_leads hc hle hca]
    refine ⟨?_, fun p => (hlost₁ p).trans (by simp [hle, hca])⟩
    refine h₁.frame (changes_setPointer _ (.member q f) _)
      (fun r hr => absurd hr (Set.notMem_empty r)) (fun r hr e he => ?_) (fun i he => ?_)
      h₁.bounded
    · cases Set.mem_singleton_iff.mp he
      exact hfree _ hq hr
    · cases Set.mem_singleton_iff.mp he
  · have ha₁ : (σ.put c .empty).find a = some .empty :=
      (Variables.find_put_of_ne hle fun hl => hca (hac hl).symm).trans ha
    have hb₁ : (m.setPointer d none).place a = .ok b :=
      (h.place_eq hc hd (changes_setPointer m d none)
        (fun r hr => absurd hr (Set.notMem_empty r)) fun hl => absurd hl hle).trans hb
    obtain ⟨h₂, hlost₂⟩ := h₁.attach ha₁ hb₁ hrep hrd.separated hfree
    refine ⟨h₂, fun p => ?_⟩
    have howned : p ∈ w.addresses → ¬ m.Lost σ p := fun hp hlost =>
      hlost.2 (Variables.owns_find hc hp)
    rw [hlost₂ p, hlost₁ p]
    tauto

end Forest

end Forests

end Memory

end Langsvr
