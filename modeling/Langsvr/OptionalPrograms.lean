import Langsvr.RecursiveOptionals

/-!
# Programs on values of type `Optional` that hold values of type `Optional`

A program assigns to variables and to members of the values that they hold. What the program does
to the memory is compared with what it does to the values: an assignment first empties its target,
then it takes what its source holds.
-/

namespace Langsvr.RecursiveOptional

variable {k : ℕ} {α : Type}

/-- A variable and the members that lead from its value to an `Optional`. -/
abbrev Path (k : ℕ) := ℕ × List (Fin k)

/-- The statements of a program. The last four read another `Optional` or its value. The value that
is moved by the last one is left with `y` besides its members. -/
inductive Operation (k : ℕ) (α : Type) where
  | reset (a : Path k)
  | assign (a : Path k) (x : α)
  | copyAssign (a c : Path k)
  | moveAssign (a c : Path k)
  | assignObject (a c : Path k)
  | moveObject (a c : Path k) (y : α)

namespace Operation

/-- `operator*`. -/
def dereference (m : Objects k α) (c : Path k) : Except MemoryFault ℕ := do
  let d ← m.place c
  match ← m.load d with
  | none => .error .empty
  | some p => return p

/-- What a statement does to the memory: the right operand is evaluated first. -/
def apply (m : Objects k α) : Operation k α → Except MemoryFault (Objects k α)
  | .reset a => do
    let b ← m.place a
    RecursiveOptional.reset m b
  | .assign a x => do
    let b ← m.place a
    RecursiveOptional.assign m b x
  | .copyAssign a c => do
    let d ← m.place c
    let b ← m.place a
    RecursiveOptional.copyAssign m b d
  | .moveAssign a c => do
    let d ← m.place c
    let b ← m.place a
    RecursiveOptional.moveAssign m b d
  | .assignObject a c => do
    let p ← dereference m c
    let b ← m.place a
    RecursiveOptional.assignObject m b p
  | .moveObject a c y => do
    let p ← dereference m c
    let b ← m.place a
    RecursiveOptional.moveObject m b y p

def look (τ : Variables (Fin k) α) (a : Path k) :
    Except MemoryFault (Contents (Fin k) α) :=
  match τ.find a with
  | some v => .ok v
  | none => .error .empty

/-- The value of the source would be freed with the value of the target. -/
def Frees : Operation k α → Prop
  | .copyAssign a c | .moveAssign a c => Leads a c ∧ a ≠ c
  | .assignObject a c | .moveObject a c _ => Leads a c
  | _ => False

/-- An object is moved into what it owns. -/
def Encloses : Operation k α → Prop
  | .moveAssign a c => Leads c a ∧ c ≠ a
  | .moveObject a c _ => Leads c a ∧ c.2.length + 2 ≤ a.2.length
  | _ => False

/-- What the source holds after the target was emptied, where the source is not freed with it. -/
def left (τ : Variables (Fin k) α) (a c : Path k) : Except MemoryFault (Contents (Fin k) α) := do
  let _ ← look τ c
  let _ ← look τ a
  if Leads a c ∧ a ≠ c then .error .freed else look (τ.put a .empty) c

/-- The same for a source with a value, which is freed with the value of the target if they are the
same. -/
def leftValue (τ : Variables (Fin k) α) (a c : Path k) :
    Except MemoryFault (Contents (Fin k) α) := do
  match ← look τ c with
  | .empty => .error .empty
  | .value _ _ => if a = c then .error .freed else left τ a c

/-- What a statement does to the values. -/
def step (τ : Variables (Fin k) α) : Operation k α → Except MemoryFault (Variables (Fin k) α)
  | .reset a => do
    let _ ← look τ a
    return τ.put a .empty
  | .assign a x => do
    let _ ← look τ a
    return τ.put a (.value x fun _ => .empty)
  | .copyAssign a c => do
    let w ← left τ a c
    return τ.put a w
  | .moveAssign a c => do
    let w ← left τ a c
    return ((τ.put a .empty).put c .empty).put a w
  | .assignObject a c => do
    let w ← leftValue τ a c
    return τ.put a w
  | .moveObject a c y => do
    let w ← leftValue τ a c
    return ((τ.put a .empty).put c (.value y fun _ => .empty)).put a w

end Operation

/-- A program runs on the memory. -/
def run (ops : List (Operation k α)) (m : Objects k α) : Except MemoryFault (Objects k α) :=
  ops.foldlM Operation.apply m

/-- A program runs on the values. -/
def steps (ops : List (Operation k α)) (τ : Variables (Fin k) α) :
    Except MemoryFault (Variables (Fin k) α) :=
  ops.foldlM Operation.step τ

/-- Both stop for the same reason, or the variables of the memory own trees of objects that have
the values, and objects are lost if and only if it is said so. -/
inductive Refines (lost : Prop) :
    Except MemoryFault (Objects k α) → Except MemoryFault (Variables (Fin k) α) → Prop where
  | fault (e : MemoryFault) : Refines lost (.error e) (.error e)
  | done {m : Objects k α} {σ : Variables (Fin k) (ℕ × α)} (forest : m.Forest σ)
    (lost_iff : (∃ p, m.Lost σ p) ↔ lost) : Refines lost (.ok m) (.ok (σ.map Prod.snd))

section Statements

variable {m m₁ m' : Objects k α} {σ σ₁ : Variables (Fin k) (ℕ × α)}
  {t t' v w w' : Contents (Fin k) (ℕ × α)} {a c : Path k} {b d : Place (Fin k)}

/-- A reset empties the target, and the paths that do not lead into it stay. -/
theorem reset_spec (h : m.Forest σ) (ha : σ.find a = some v) (hb : m.place a = .ok b) :
    ∃ m', reset m b = .ok m' ∧ m'.Forest (σ.put a .empty) ∧ m'.pointer b = none ∧
      Frees m m' {b} {p | p ∈ v.addresses} ∧
      (∀ c, (Leads a c → a = c) → m'.place c = m.place c) ∧
      ∀ p, m'.Lost (σ.put a .empty) p ↔ m.Lost σ p := by
  obtain ⟨m', hm', hfrees, hnull⟩ :=
    resetWith_spec (deletes_delete m.fresh) (h.rooted_place ha hb) (h.card_le ha)
  refine ⟨m', hm', ?_, hnull, hfrees, fun c hc => ?_, fun p => ?_⟩
  · refine h.put ha hb hfrees.toChanges (fun q hq _ => hq) hnull trivial ?_
      (hfrees.bounded h.bounded)
    exact fun q hq => absurd hq (Finset.notMem_empty q)
  · exact h.place_eq ha hb hfrees.toChanges (fun q hq _ => hq) hc
  · have hown := Variables.owns_put (u := .empty) (p := p) h.separated ha
    have hfind : p ∈ v.addresses → σ.Owns p := Variables.owns_find ha
    by_cases hp : p ∈ v.addresses
    · simp [Memory.Lost, hfrees.freed p hp, hfind hp]
    · simp [Memory.Lost, hown, hfrees.object p hp, hp]

/-- A place is in no object that is not made yet. -/
theorem outside_fresh (h : m.Forest σ) (hb : m.place a = .ok b) :
    b.Outside {p | m.fresh ≤ p} :=
  h.place_outside hb fun _ hq hown => absurd (h.lt_fresh hown) (not_lt.mpr hq)

theorem install_spec (h : m.Forest σ) (ha : σ.find a = some .empty) (hb : m.place a = .ok b)
    (hgrows : Grows m m' {b}) (hcopied : Copied m m' t t' (m'.pointer b)) :
    m'.Forest (σ.put a t') ∧ ∀ p, m'.Lost (σ.put a t') p ↔ m.Lost σ p := by
  have hnew : ∀ q, σ.Owns q → ¬ (m.fresh ≤ q ∧ q < m'.fresh) := by
    intro q hq hle
    have hlt := h.lt_fresh hq
    omega
  have haddr : ∀ q ∈ t'.addresses, m.fresh ≤ q ∧ q < m'.fresh :=
    fun q hq => (hcopied.addresses q).mp hq
  refine ⟨?_, fun p => ?_⟩
  · refine h.put ha hb hgrows.toChanges (fun q hq hown => absurd hq (hnew q hown))
      hcopied.represents hcopied.separated ?_ (hgrows.bounded h.bounded)
    exact fun q hq hown => absurd (haddr q hq) (hnew q hown)
  · have hown := Variables.owns_put (u := t') (p := p) h.separated ha
    simp only [Memory.Lost, hown, hcopied.addresses p, Contents.addresses_empty,
      Finset.notMem_empty, not_false_eq_true, and_true]
    by_cases hp : m.fresh ≤ p ∧ p < m'.fresh
    · have hnone : ¬ (m.object p).isSome := fun hsome => absurd (h.bounded p hsome) (by omega)
      tauto
    · rw [hgrows.object p hp]
      tauto

theorem copyAssign_spec (h : m.Forest σ) (ha : σ.find a = some v) (hb : m.place a = .ok b)
    (hd : m.place c = .ok d) (hac : Leads a c → a = c)
    (hw' : (σ.put a .empty).find c = some w') :
    ∃ m' t, copyAssign m b d = .ok m' ∧ m'.Forest (σ.put a t) ∧
      t.map Prod.snd = w'.map Prod.snd ∧ ∀ p, m'.Lost (σ.put a t) p ↔ m.Lost σ p := by
  obtain ⟨m₁, hm₁, h₁, hnull, -, hplace, hlost₁⟩ := reset_spec h ha hb
  have ha₁ : (σ.put a .empty).find a = some .empty := Variables.find_put ha
  have hb₁ : m₁.place a = .ok b := (hplace a fun _ => rfl).trans hb
  have hd₁ : m₁.place c = .ok d := (hplace c hac).trans hd
  have hrb := h₁.rooted_place ha₁ hb₁
  have hrd := h₁.rooted_place hw' hd₁
  have ho := outside_fresh h₁ hb₁
  obtain ⟨m', t, hm', hgrows, hcopied⟩ := copyInto_spec (isCopying_copy m₁.fresh) h₁.bounded
    hrb.accessible hnull hrd.accessible hrd.represents hrd.separated (h₁.card_le hw') ho
  obtain ⟨h', hlost'⟩ := install_spec h₁ ha₁ hb₁ hgrows hcopied
  rw [Variables.put_put] at h' hlost'
  refine ⟨m', t, ?_, h', hcopied.same, fun p => (hlost' p).trans (hlost₁ p)⟩
  rw [copyAssign, hm₁]
  exact hm'

/-- After the reset of its target a move stores two pointers. -/
theorem moveAssign_eq (hm₁ : reset m b = .ok m₁) (hb : m₁.accessible b) (hd : m₁.accessible d) :
    moveAssign m b d = .ok ((m₁.setPointer b (m₁.pointer d)).setPointer d none) := by
  have haccd : (m₁.setPointer b (m₁.pointer d)).accessible d := hd
  calc moveAssign m b d = (do
        let p ← m₁.load d
        let m₂ ← m₁.store b p
        m₂.store d none) := by
          rw [moveAssign, hm₁]
          rfl
    _ = (do
        let m₂ ← m₁.store b (m₁.pointer d)
        m₂.store d none) := by
          rw [Memory.load_eq hd]
          rfl
    _ = (m₁.setPointer b (m₁.pointer d)).store d none := by
          rw [Memory.store_eq hb]
          rfl
    _ = _ := Memory.store_eq haccd none

/-- What is not owned any more is lost if and only if the target was part of it. -/
theorem moveAssign_spec (h : m.Forest σ) (ha : σ.find a = some v) (hb : m.place a = .ok b)
    (hd : m.place c = .ok d) (hac : Leads a c → a = c)
    (hw' : (σ.put a .empty).find c = some w') :
    ∃ m', moveAssign m b d = .ok m' ∧
      m'.Forest (((σ.put a .empty).put c .empty).put a w') ∧
      ∀ p, m'.Lost (((σ.put a .empty).put c .empty).put a w') p ↔
        m.Lost σ p ∨ p ∈ w'.addresses ∧ Leads c a ∧ c ≠ a := by
  obtain ⟨m₁, hm₁, h₁, -, -, hplace, hlost₁⟩ := reset_spec h ha hb
  have ha₁ : (σ.put a .empty).find a = some .empty := Variables.find_put ha
  have hb₁ : m₁.place a = .ok b := (hplace a fun _ => rfl).trans hb
  have hd₁ : m₁.place c = .ok d := (hplace c hac).trans hd
  obtain ⟨h₂, hlost₂⟩ := h₁.move ha₁ hb₁ hw' hd₁ hac
  refine ⟨_, moveAssign_eq hm₁ (h₁.rooted_place ha₁ hb₁).accessible
    (h₁.rooted_place hw' hd₁).accessible, h₂, fun p => ?_⟩
  rw [hlost₂ p, hlost₁ p]

section Values

variable {new : Objects k α → Except MemoryFault (ℕ × Objects k α)} {p : ℕ}

/-- After the reset the pointer is null. -/
theorem assignNew_eq (hm₁ : reset m b = .ok m₁) (hb : m₁.accessible b)
    (hnull : m₁.pointer b = none) : assignNew m b new = (do
      let (q, m₂) ← new m₁
      m₂.store b (some q)) := by
  have hload : m₁.load b = .ok none := by rw [Memory.load_eq hb, hnull]
  calc assignNew m b new = (do
        match ← m₁.load b with
        | none =>
          let (q, m₂) ← new m₁
          m₂.store b (some q)
        | some _ => return m₁) := by
          rw [assignNew, hm₁]
          rfl
    _ = _ := by
          rw [hload]
          rfl

/-- The target gets a new value that shares no object with the old ones. -/
theorem assignNew_spec (new : Objects k α → Except MemoryFault (ℕ × Objects k α))
    (h : m.Forest σ) (ha : σ.find a = some v) (hb : m.place a = .ok b)
    (hm₁ : reset m b = .ok m₁) {q : ℕ} {m₂ : Objects k α} (hnew : new m₁ = .ok (q, m₂))
    (hgrows : Grows m₁ m₂ ∅) (hcopied : Copied m₁ m₂ t t' (some q)) :
    ∃ m', assignNew m b new = .ok m' ∧ m'.Forest (σ.put a t') ∧
      ∀ p, m'.Lost (σ.put a t') p ↔ m.Lost σ p := by
  obtain ⟨m₁', hm₁', h₁, hnull, -, hplace, hlost₁⟩ := reset_spec h ha hb
  cases hm₁'.symm.trans hm₁
  have ha₁ : (σ.put a .empty).find a = some .empty := Variables.find_put ha
  have hb₁ : m₁.place a = .ok b := (hplace a fun _ => rfl).trans hb
  have hrb := h₁.rooted_place ha₁ hb₁
  obtain ⟨hstore, hgrows', hcopied'⟩ :=
    hcopied.store hgrows h₁.bounded hrb.accessible (outside_fresh h₁ hb₁)
  obtain ⟨h', hlost'⟩ := install_spec h₁ ha₁ hb₁ hgrows' hcopied'
  rw [Variables.put_put] at h' hlost'
  refine ⟨_, ?_, h', fun p => (hlost' p).trans (hlost₁ p)⟩
  calc assignNew m b new = (do
        let (q, m₂) ← new m₁
        m₂.store b (some q)) := assignNew_eq hm₁ hrb.accessible hnull
    _ = m₂.store b (some q) := by
          rw [hnew]
          rfl
    _ = _ := hstore

/-- The value of the source stays where it is while the target is emptied. -/
theorem source_spec (h : m.Forest σ) (ha : σ.find a = some v) (hc : σ.find c = some w)
    (hb : m.place a = .ok b) (hd : m.place c = .ok d) (hp : m.pointer d = some p)
    (hac : ¬ Leads a c) (hw' : (σ.put a .empty).find c = some w') :
    ∃ m₁, reset m b = .ok m₁ ∧ m₁.Forest (σ.put a .empty) ∧ m₁.pointer b = none ∧
      m₁.place a = .ok b ∧ m₁.place c = .ok d ∧ m₁.pointer d = some p ∧
      ∀ p, m₁.Lost (σ.put a .empty) p ↔ m.Lost σ p := by
  obtain ⟨m₁, hm₁, h₁, hnull, hfrees, hplace, hlost₁⟩ := reset_spec h ha hb
  have hb₁ : m₁.place a = .ok b := (hplace a fun _ => rfl).trans hb
  have hd₁ : m₁.place c = .ok d := (hplace c fun hl => absurd hl hac).trans hd
  have hrd := h₁.rooted_place hw' hd₁
  refine ⟨m₁, hm₁, h₁, hnull, hb₁, hd₁, ?_, hlost₁⟩
  have hw : w ≠ .empty := by
    intro hw
    have hnone := (h.rooted_place hc hd).represents.eq_none_iff.mpr hw
    exact Option.some_ne_none p (hp.symm.trans hnone)
  have hne : d ∉ ({b} : Set (Place (Fin k))) := by
    intro he
    rw [Set.mem_singleton_iff.mp he] at hrd
    exact Variables.put_source_ne_empty hc hw hac hw' (hrd.represents.eq_none_iff.mp hnull)
  have ho : d.Outside {q | q ∈ v.addresses} :=
    h₁.place_outside hd₁ (Variables.not_owns_put_empty h.separated ha)
  exact (hfrees.pointer d hne ho).trans hp

/-- The target gets a copy of the value that the source holds afterwards. -/
theorem assignObject_spec (h : m.Forest σ) (ha : σ.find a = some v) (hc : σ.find c = some w)
    (hb : m.place a = .ok b) (hd : m.place c = .ok d) (hp : m.pointer d = some p)
    (hac : ¬ Leads a c) (hw' : (σ.put a .empty).find c = some w') :
    ∃ m' t, assignObject m b p = .ok m' ∧ m'.Forest (σ.put a t) ∧
      t.map Prod.snd = w'.map Prod.snd ∧ ∀ p, m'.Lost (σ.put a t) p ↔ m.Lost σ p := by
  obtain ⟨m₁, hm₁, h₁, -, -, hd₁, hp₁, -⟩ := source_spec h ha hc hb hd hp hac hw'
  have hrd := h₁.rooted_place hw' hd₁
  have hrep := hrd.represents
  rw [hp₁] at hrep
  obtain ⟨q, m₂, t, hcopy, hgrows, hcopied⟩ :=
    isCopying_copy m₁.fresh hrep hrd.separated h₁.bounded (h₁.card_le hw')
  obtain ⟨m', hm', h', hlost'⟩ := assignNew_spec (fun m' => copy m'.fresh p m') h ha hb hm₁ hcopy
    hgrows hcopied
  exact ⟨m', t, hm', h', hcopied.same, hlost'⟩

theorem assign_spec (h : m.Forest σ) (ha : σ.find a = some v) (hb : m.place a = .ok b) (x : α) :
    ∃ m' t, assign m b x = .ok m' ∧ m'.Forest (σ.put a t) ∧
      t.map Prod.snd = .value x (fun _ => .empty) ∧
      ∀ p, m'.Lost (σ.put a t) p ↔ m.Lost σ p := by
  obtain ⟨m₁, hm₁, -⟩ := reset_spec h ha hb
  obtain ⟨m₂, hcreate, hgrows, hcopied⟩ := create_spec x m₁
  obtain ⟨m', hm', h', hlost'⟩ := assignNew_spec (create x) h ha hb hm₁ hcreate hgrows hcopied
  exact ⟨m', _, hm', h', rfl, hlost'⟩

end Values

section Moves

variable {p : ℕ} {x y : α} {ms : Fin k → Contents (Fin k) (ℕ × α)}

theorem Moved.accessible (hmoved : Moved m m' p x y ms) (hb : m.accessible b) :
    m'.accessible b := by
  cases b with
  | root i => rfl
  | member r f =>
    by_cases hr : r ∈ ({p, m.fresh} : Set ℕ)
    · rcases hr with rfl | rfl
      · exact hmoved.source.member_accessible f
      · exact hmoved.target.member_accessible f
    · rwa [hmoved.accessible (Place.member_outside hr f)]

/-- Of the source and the new object the variables own what the source had. -/
theorem owns_source (h : m.Forest σ) (hc : σ.find c = some (.value (p, x) ms)) :
    ∀ q ∈ ({p, m.fresh} : Set ℕ), σ.Owns q → q ∈ (Contents.value (p, x) ms).addresses := by
  intro q hq hown
  rcases hq with rfl | rfl
  · exact Contents.mem_addresses_self
  · exact absurd (h.lt_fresh hown) (lt_irrefl _)

section Sources

variable {f : Fin k} {r : ℕ} (h : m.Forest σ) (hc : σ.find c = some (.value (p, x) ms))
include h hc

theorem source_lt_fresh : p < m.fresh :=
  h.lt_fresh (Variables.owns_find hc Contents.mem_addresses_self)

theorem member_lt_fresh (hr : r ∈ (ms f).addresses) : r < m.fresh :=
  h.lt_fresh (Variables.owns_find hc (Contents.mem_addresses_member hr))

/-- Of the source its own object is left. -/
theorem owns_left_iff : (σ.put c (.value (p, y) fun _ => .empty)).Owns r ↔
    r = p ∨ σ.Owns r ∧ ¬ (r = p ∨ ∃ f, r ∈ (ms f).addresses) := by
  rw [Variables.owns_put h.separated hc]
  simp

variable (hd : m.place c = .ok d)
include hd

theorem member_ne_source (hr : r ∈ (ms f).addresses) : r ≠ p :=
  fun he => (h.rooted_place hc hd).separated.2.1 f (he ▸ hr)

theorem separated_moved : (Contents.value (m.fresh, x) ms).Separated := by
  obtain ⟨hms, -, hapart⟩ := (h.rooted_place hc hd).separated
  exact ⟨hms, fun f hf => lt_irrefl _ (member_lt_fresh h hc hf), hapart⟩

/-- What the new object owns is not owned by the variables. -/
theorem not_owns_moved (hr : r ∈ (Contents.value (m.fresh, x) ms).addresses) :
    ¬ (σ.put c (.value (p, y) fun _ => .empty)).Owns r := by
  rw [owns_left_iff h hc]
  rintro (rfl | ⟨hown, hno⟩)
  · rcases Contents.mem_addresses_value.mp hr with he | ⟨f, hf⟩
    · exact absurd he (ne_of_lt (source_lt_fresh h hc))
    · exact member_ne_source h hc hd hf rfl
  · rcases Contents.mem_addresses_value.mp hr with rfl | hf
    · exact lt_irrefl _ (h.lt_fresh hown)
    · exact hno (.inr hf)

/-- The variables own what is left of the source. -/
theorem Moved.forest (hmoved : Moved m m' p x y ms) :
    m'.Forest (σ.put c (.value (p, y) fun _ => .empty)) := by
  have hr := h.rooted_place hc hd
  have ho : d.Outside {p, m.fresh} := by
    intro q hq f
    rcases hq with rfl | rfl
    · exact hr.outside q Contents.mem_addresses_self f
    · exact outside_fresh h hd m.fresh (le_refl m.fresh) f
  refine h.put hc hd (hmoved.toChanges.mono (Set.empty_subset {d}) subset_rfl)
    (owns_source h hc) ?_ ?_ ?_ (hmoved.bounded h.bounded (source_lt_fresh h hc))
  · rw [hmoved.pointer d (Set.notMem_empty d) ho, hr.represents.1]
    exact hmoved.source
  · simp [Contents.Separated, Contents.Apart]
  · intro q hq _
    have hqp : q = p := by simpa using hq
    rw [hqp]
    exact Contents.mem_addresses_self

/-- As long as the new object has no owner, it is lost with what it owns. -/
theorem Moved.lost_iff (hmoved : Moved m m' p x y ms) :
    m'.Lost (σ.put c (.value (p, y) fun _ => .empty)) r ↔
      m.Lost σ r ∨ r ∈ (Contents.value (m.fresh, x) ms).addresses := by
  by_cases hrt : r ∈ (Contents.value (m.fresh, x) ms).addresses
  · exact iff_of_true ⟨hmoved.target.isSome hrt, not_owns_moved h hc hd hrt⟩ (.inr hrt)
  rw [or_iff_left hrt]
  by_cases hrp : r = p
  · have hown : σ.Owns r := Variables.owns_find hc (Contents.mem_addresses_value.mpr (.inl hrp))
    exact iff_of_false (fun hl => hl.2 ((owns_left_iff h hc).mpr (.inl hrp))) fun hl => hl.2 hown
  · have hrw : ¬ (r = p ∨ ∃ f, r ∈ (ms f).addresses) := fun hrw =>
      hrt (Contents.mem_addresses_value.mpr (.inr (hrw.resolve_left hrp)))
    have hrS : r ∉ ({p, m.fresh} : Set ℕ) := by
      rintro (he | he)
      · exact hrp he
      · exact hrt (Contents.mem_addresses_value.mpr (.inl he))
    have howned : (σ.put c (.value (p, y) fun _ => .empty)).Owns r ↔ σ.Owns r := by
      rw [owns_left_iff h hc, and_iff_left hrw, or_iff_right hrp]
    rw [Memory.Lost, Memory.Lost, howned, hmoved.object r hrS]

end Sources

section Installation

variable (hmoved : Moved m m' p x y ms) (h : m.Forest σ) (hb : m.place a = .ok b)
  (hc : σ.find c = some (.value (p, x) ms)) (hd : m.place c = .ok d) (hac : ¬ Leads a c)
include hmoved h hb hc hd hac

/-- A null pointer in an object that the new object owns goes with it. -/
theorem Moved.install_enclosed (hca : Leads c a) (hlen : c.2.length + 2 ≤ a.2.length) :
    (m'.setPointer b (some m.fresh)).Forest
        ((σ.put c (.value (p, y) fun _ => .empty)).put a (.value (m.fresh, x) ms)) ∧
      ∀ r, (m'.setPointer b (some m.fresh)).Lost
          ((σ.put c (.value (p, y) fun _ => .empty)).put a (.value (m.fresh, x) ms)) r ↔
        m.Lost σ r ∨ r ∈ (Contents.value (m.fresh, x) ms).addresses := by
  obtain ⟨f, τ, rfl⟩ := hca.exists_cons fun he => hac (he ▸ ⟨rfl, List.prefix_rfl⟩)
  have hτ : τ ≠ [] := by
    rintro rfl
    simp at hlen
  have hmember : σ.find (c.1, c.2 ++ [f]) = some (ms f) := by
    rw [Variables.find_append, hc]
    exact Contents.find_nil
  obtain ⟨r, hr, g, rfl⟩ := h.place_mem (c := (c.1, c.2 ++ f :: τ)) hmember ⟨rfl, τ, by simp⟩
    (by simpa using hτ) hb
  have hr' : r ∈ (Contents.value (m.fresh, x) ms).addresses := Contents.mem_addresses_member hr
  have hnone : (σ.put c (.value (p, y) fun _ => .empty)).find (c.1, c.2 ++ f :: τ) = none := by
    rw [Variables.find_put_append hc]
    cases τ with
    | nil => exact absurd rfl hτ
    | cons g τ => rfl
  rw [Variables.put_of_find_eq_none hnone]
  have hlost := fun q => hmoved.lost_iff (r := q) h hc hd
  refine ⟨?_, hlost⟩
  refine (hmoved.forest h hc hd).frame (Memory.changes_setPointer m' (.member r g) _)
    (fun q hq => absurd hq (Set.notMem_empty q)) (fun q hq e he => ?_) (fun i he => ?_)
    (hmoved.forest h hc hd).bounded
  · cases Set.mem_singleton_iff.mp he
    exact not_owns_moved h hc hd hr' hq
  · cases Set.mem_singleton_iff.mp he

variable (ha : σ.find a = some .empty)
include ha

/-- Any other null pointer is still there. -/
theorem Moved.find_target (hinside : ¬ (Leads c a ∧ c.2.length + 2 ≤ a.2.length)) :
    (σ.put c (.value (p, y) fun _ => .empty)).find a = some .empty ∧ m'.place a = .ok b := by
  have hplace : ∀ e, (Leads c e → c = e) → m'.place e = m.place e := fun e he =>
    h.place_eq hc hd (hmoved.toChanges.mono (Set.empty_subset {d}) subset_rfl)
      (owns_source h hc) he
  by_cases hca : Leads c a
  · -- the null pointer is a member of what is left
    obtain ⟨f, τ, rfl⟩ := hca.exists_cons fun he => hac (he ▸ ⟨rfl, List.prefix_rfl⟩)
    obtain rfl : τ = [] := by
      by_contra hτ
      have hpos := List.length_pos_iff.mpr hτ
      refine hinside ⟨hca, ?_⟩
      simp only [List.length_append, List.length_cons]
      omega
    have hd' : m'.place c = .ok d := (hplace c fun _ => rfl).trans hd
    refine ⟨Variables.find_put_append hc [f], ?_⟩
    rw [(hmoved.forest h hc hd).place_member (Variables.find_put hc) hd' f, ← hb,
      h.place_member hc hd f]
  · refine ⟨(Variables.find_put_of_ne hca hac).trans ha, ?_⟩
    exact (hplace a fun hl => absurd hl hca).trans hb

/-- The new object is put into a null pointer. It is lost if and only if that is in an object that
the new object owns. -/
theorem Moved.install :
    (m'.setPointer b (some m.fresh)).Forest
        ((σ.put c (.value (p, y) fun _ => .empty)).put a (.value (m.fresh, x) ms)) ∧
      ∀ r, (m'.setPointer b (some m.fresh)).Lost
          ((σ.put c (.value (p, y) fun _ => .empty)).put a (.value (m.fresh, x) ms)) r ↔
        m.Lost σ r ∨ r ∈ (Contents.value (m.fresh, x) ms).addresses ∧
          Leads c a ∧ c.2.length + 2 ≤ a.2.length := by
  by_cases hinside : Leads c a ∧ c.2.length + 2 ≤ a.2.length
  · simp only [hinside, and_true]
    exact hmoved.install_enclosed h hb hc hd hac hinside.1 hinside.2
  · obtain ⟨hfind, hplace⟩ := hmoved.find_target h hb hc hd hac ha hinside
    obtain ⟨h', hlost⟩ := (hmoved.forest h hc hd).attach hfind hplace hmoved.target
      (separated_moved h hc hd) fun _ => not_owns_moved h hc hd
    refine ⟨h', fun r => ?_⟩
    have hnew : r ∈ (Contents.value (m.fresh, x) ms).addresses → ¬ m.Lost σ r := by
      intro hr hl
      rcases Contents.mem_addresses_value.mp hr with rfl | hf
      · exact lt_irrefl _ (h.bounded _ hl.1)
      · exact hl.2 (Variables.owns_find hc (Contents.mem_addresses_value.mpr (.inr hf)))
    rw [hlost r, hmoved.lost_iff h hc hd]
    tauto

end Installation

theorem moveObject_spec (h : m.Forest σ) (ha : σ.find a = some v) (hc : σ.find c = some w)
    (hb : m.place a = .ok b) (hd : m.place c = .ok d) (hp : m.pointer d = some p)
    (hac : ¬ Leads a c) (hw' : (σ.put a .empty).find c = some w') (y : α) :
    ∃ m' t, moveObject m b y p = .ok m' ∧ t ≠ .empty ∧
      m'.Forest (((σ.put a .empty).put c (.value (p, y) fun _ => .empty)).put a t) ∧
      t.map Prod.snd = w'.map Prod.snd ∧
      ∀ r, m'.Lost (((σ.put a .empty).put c (.value (p, y) fun _ => .empty)).put a t) r ↔
        m.Lost σ r ∨ r ∈ t.addresses ∧ Leads c a ∧ c.2.length + 2 ≤ a.2.length := by
  obtain ⟨m₁, hm₁, h₁, hnull, hb₁, hd₁, hp₁, hlost₁⟩ := source_spec h ha hc hb hd hp hac hw'
  have ha₁ : (σ.put a .empty).find a = some .empty := Variables.find_put ha
  have hrb := h₁.rooted_place ha₁ hb₁
  have hrd := h₁.rooted_place hw' hd₁
  have hrep := hrd.represents
  rw [hp₁] at hrep
  obtain ⟨x, ms, rfl, -⟩ := hrep.of_some
  obtain ⟨m₂, hmove, hmoved⟩ := move_spec h₁.bounded hrep hrd.separated y
  obtain ⟨h₂, hlost₂⟩ := hmoved.install h₁ hb₁ hw' hd₁ hac ha₁
  refine ⟨m₂.setPointer b (some m₁.fresh), .value (m₁.fresh, x) ms, ?_, ?_, h₂, rfl, fun r => ?_⟩
  · calc moveObject m b y p = (do
          let (q, m₂) ← move m₁ y p
          m₂.store b (some q)) := assignNew_eq hm₁ hrb.accessible hnull
      _ = m₂.store b (some m₁.fresh) := by
          rw [hmove]
          rfl
      _ = _ := Memory.store_eq (hmoved.accessible hrb.accessible) _
  · simp
  · rw [hlost₂ r, hlost₁ r]

end Moves

end Statements

section Faults

variable {m : Objects k α} {σ : Variables (Fin k) (ℕ × α)} {v w : Contents (Fin k) (ℕ × α)}
  {a c : Path k} {b d : Place (Fin k)}

/-- After the reset the source is in an object that was freed. -/
theorem not_accessible (h : m.Forest σ) (ha : σ.find a = some v) (hb : m.place a = .ok b)
    (hd : m.place c = .ok d) (hac : Leads a c) (hne : a ≠ c) :
    ∃ m₁, reset m b = .ok m₁ ∧ m₁.load d = .error .freed := by
  obtain ⟨m₁, hm₁, -, -, hfrees, -, -⟩ := reset_spec h ha hb
  obtain ⟨q, hq, f, rfl⟩ := h.place_mem ha hac hne hd
  refine ⟨m₁, hm₁, if_neg ?_⟩
  simp [Memory.accessible, hfrees.freed q hq]

theorem copyAssign_freed (h : m.Forest σ) (ha : σ.find a = some v) (hb : m.place a = .ok b)
    (hd : m.place c = .ok d) (hac : Leads a c) (hne : a ≠ c) :
    copyAssign m b d = .error .freed := by
  obtain ⟨m₁, hm₁, hload⟩ := not_accessible h ha hb hd hac hne
  calc copyAssign m b d = copyInto (copy m₁.fresh) m₁ b d := by
        rw [copyAssign, hm₁]
        rfl
    _ = .error .freed := by
        rw [copyInto, hload]
        rfl

theorem moveAssign_freed (h : m.Forest σ) (ha : σ.find a = some v) (hb : m.place a = .ok b)
    (hd : m.place c = .ok d) (hac : Leads a c) (hne : a ≠ c) :
    moveAssign m b d = .error .freed := by
  obtain ⟨m₁, hm₁, hload⟩ := not_accessible h ha hb hd hac hne
  rw [moveAssign, hm₁]
  calc (do
        let p ← m₁.load d
        let m₂ ← m₁.store b p
        m₂.store d none) = (do
        let p ← (.error .freed : Except MemoryFault (Option ℕ))
        let m₂ ← m₁.store b p
        m₂.store d none) := by rw [hload]
    _ = .error .freed := rfl

/-- After the reset the value of the source was freed. -/
theorem assignNew_freed {new : Objects k α → Except MemoryFault (ℕ × Objects k α)} {p : ℕ}
    (h : m.Forest σ) (ha : σ.find a = some v) (hc : σ.find c = some w) (hb : m.place a = .ok b)
    (hd : m.place c = .ok d) (hp : m.pointer d = some p) (hac : Leads a c)
    (hnew : ∀ m₁ : Objects k α, m₁.object p = none → p < m₁.fresh → new m₁ = .error .freed) :
    assignNew m b new = .error .freed := by
  obtain ⟨m₁, hm₁, h₁, hnull, hfrees, hplace, -⟩ := reset_spec h ha hb
  have ha₁ : (σ.put a .empty).find a = some .empty := Variables.find_put ha
  have hrb := h₁.rooted_place ha₁ ((hplace a fun _ => rfl).trans hb)
  have hpv : p ∈ v.addresses := by
    have hrep := (h.rooted_place hc hd).represents
    rw [hp] at hrep
    obtain ⟨x, members, rfl, -⟩ := hrep.of_some
    exact Variables.addresses_of_leads ha hc hac Contents.mem_addresses_self
  have hlt := h.lt_fresh (Variables.owns_find ha hpv)
  rw [← hfrees.fresh] at hlt
  calc assignNew m b new = (do
        let (q, m₂) ← new m₁
        m₂.store b (some q)) := assignNew_eq hm₁ hrb.accessible hnull
    _ = .error .freed := by
          rw [hnew m₁ (hfrees.freed p hpv) hlt]
          rfl

theorem assignObject_freed {p : ℕ} (h : m.Forest σ) (ha : σ.find a = some v)
    (hc : σ.find c = some w) (hb : m.place a = .ok b) (hd : m.place c = .ok d)
    (hp : m.pointer d = some p) (hac : Leads a c) : assignObject m b p = .error .freed := by
  refine assignNew_freed h ha hc hb hd hp hac fun m₁ hfreed hlt => ?_
  obtain ⟨n, hn⟩ : ∃ n, m₁.fresh = n + 1 := ⟨m₁.fresh - 1, by omega⟩
  rw [hn, copy, Memory.read, hfreed]
  rfl

theorem moveObject_freed {p : ℕ} (h : m.Forest σ) (ha : σ.find a = some v)
    (hc : σ.find c = some w) (hb : m.place a = .ok b) (hd : m.place c = .ok d)
    (hp : m.pointer d = some p) (hac : Leads a c) (y : α) :
    moveObject m b y p = .error .freed := by
  refine assignNew_freed h ha hc hb hd hp hac fun m₁ hfreed _ => ?_
  rw [move, Memory.read, hfreed]
  rfl

end Faults

section Refinement

variable {m : Objects k α} {σ : Variables (Fin k) (ℕ × α)}

/-- The values are those of the objects, and nothing is lost that was not lost before. -/
theorem Refines.of_lost_iff {m' : Objects k α} {σ' : Variables (Fin k) (ℕ × α)}
    {r : Except MemoryFault (Objects k α)} {s : Except MemoryFault (Variables (Fin k) α)}
    (hr : r = .ok m') (h : m'.Forest σ') (hs : s = .ok (σ'.map Prod.snd))
    (hlost : ∀ p, m'.Lost σ' p ↔ m.Lost σ p) : Refines ((∃ p, m.Lost σ p) ∨ False) r s := by
  rw [hr, hs]
  refine .done h ?_
  rw [or_false]
  exact exists_congr hlost

theorem Refines.of_lost {m' : Objects k α} {σ' : Variables (Fin k) (ℕ × α)}
    {t : Contents (Fin k) (ℕ × α)} {lost : Prop} {r : Except MemoryFault (Objects k α)}
    {s : Except MemoryFault (Variables (Fin k) α)} (h : m'.Forest σ') (hr : r = .ok m')
    (hs : s = .ok (σ'.map Prod.snd)) (ht : lost → ∃ p, p ∈ t.addresses)
    (hlost : ∀ p, m'.Lost σ' p ↔ m.Lost σ p ∨ p ∈ t.addresses ∧ lost) :
    Refines ((∃ p, m.Lost σ p) ∨ lost) r s := by
  rw [hr, hs]
  refine .done h ?_
  rw [exists_congr hlost, exists_or, exists_and_right, and_iff_right_of_imp ht]

theorem Refines.of_error {lost : Prop} {e : MemoryFault} {r : Except MemoryFault (Objects k α)}
    {s : Except MemoryFault (Variables (Fin k) α)} (hr : r = .error e) (hs : s = .error e) :
    Refines lost r s := by
  rw [hr, hs]
  exact .fault e

theorem Refines.of_path {lost : Prop} (h : m.Forest σ) {a : Path k}
    {f : Place (Fin k) → Except MemoryFault (Objects k α)}
    {s : Contents (Fin k) α → Except MemoryFault (Variables (Fin k) α)}
    (hfs : ∀ b v, σ.find a = some v → m.place a = .ok b → Refines lost (f b) (s (v.map Prod.snd))) :
    Refines lost (m.place a >>= f) (Operation.look (σ.map Prod.snd) a >>= s) := by
  cases ha : σ.find a with
  | none =>
    rw [h.place_eq_error ha, Operation.look, Variables.find_map, ha]
    exact .fault .empty
  | some v =>
    obtain ⟨b, hb, -⟩ := h.exists_place ha
    rw [hb, Operation.look, Variables.find_map, ha]
    exact hfs b v ha hb

/-- The source and the target are evaluated, and the source is not freed or it is. -/
theorem Refines.of_left {lost : Prop} (h : m.Forest σ) {a c : Path k}
    {f : Place (Fin k) → Place (Fin k) → Except MemoryFault (Objects k α)}
    {s : Contents (Fin k) α → Except MemoryFault (Variables (Fin k) α)}
    (hfreed : ∀ b d v, σ.find a = some v → m.place a = .ok b → m.place c = .ok d →
      Leads a c → a ≠ c → f b d = .error .freed)
    (hfs : ∀ b d v w w', σ.find a = some v → σ.find c = some w → m.place a = .ok b →
      m.place c = .ok d → (Leads a c → a = c) → (σ.put a .empty).find c = some w' →
      Refines lost (f b d) (s (w'.map Prod.snd))) :
    Refines lost (m.place c >>= fun d => m.place a >>= fun b => f b d)
      (Operation.left (σ.map Prod.snd) a c >>= s) := by
  rw [Operation.left]
  simp only [bind_assoc]
  refine Refines.of_path h fun d w hc hd => ?_
  refine Refines.of_path h fun b v ha hb => ?_
  by_cases hac : Leads a c ∧ a ≠ c
  · rw [if_pos hac, hfreed b d v ha hb hd hac.1 hac.2]
    exact .fault .freed
  · have hself : Leads a c → a = c := fun hl => not_not.mp fun hne => hac ⟨hl, hne⟩
    obtain ⟨w', hw'⟩ := Variables.find_put_source ha hc hself
    have hmap : (σ.put a .empty).map Prod.snd = (σ.map Prod.snd).put a .empty :=
      Variables.map_put Prod.snd σ a
    rw [if_neg hac, ← hmap, Operation.look, Variables.find_map, hw']
    exact hfs b d v w w' ha hc hb hd hself hw'

theorem Refines.of_leftValue {lost : Prop} (h : m.Forest σ) {a c : Path k}
    {f : Place (Fin k) → ℕ → Except MemoryFault (Objects k α)}
    {s : Contents (Fin k) α → Except MemoryFault (Variables (Fin k) α)}
    (hfreed : ∀ b d p v w, σ.find a = some v → σ.find c = some w → m.place a = .ok b →
      m.place c = .ok d → m.pointer d = some p → Leads a c → f b p = .error .freed)
    (hfs : ∀ b d p v w w', σ.find a = some v → σ.find c = some w → m.place a = .ok b →
      m.place c = .ok d → m.pointer d = some p → ¬ Leads a c →
      (σ.put a .empty).find c = some w' → Refines lost (f b p) (s (w'.map Prod.snd))) :
    Refines lost (Operation.dereference m c >>= fun p => m.place a >>= fun b => f b p)
      (Operation.leftValue (σ.map Prod.snd) a c >>= s) := by
  rw [Operation.dereference, Operation.leftValue]
  simp only [bind_assoc]
  refine Refines.of_path h fun d w hc hd => ?_
  have hrd := h.rooted_place hc hd
  rw [Memory.load_eq hrd.accessible]
  cases hp : m.pointer d with
  | none =>
    rw [hrd.represents.eq_none_iff.mp hp]
    exact .fault .empty
  | some p =>
    have hrep := hrd.represents
    rw [hp] at hrep
    obtain ⟨x, members, rfl, -⟩ := hrep.of_some
    change Refines lost (m.place a >>= fun b => f b p)
      ((if a = c then .error .freed else Operation.left (σ.map Prod.snd) a c) >>= s)
    by_cases hself : a = c
    · subst hself
      have hf : (m.place a >>= fun b => f b p) = .error .freed := by
        rw [hd]
        exact hfreed d d p _ _ hc hc hd hd hp ⟨rfl, List.prefix_rfl⟩
      refine .of_error hf ?_
      rw [if_pos rfl]
      rfl
    · have hf : (m.place a >>= fun b => f b p) =
          m.place c >>= fun _ => m.place a >>= fun b => f b p := by
        rw [hd]
        rfl
      rw [if_neg hself, hf]
      refine Refines.of_left h (fun b d' v ha hb _ hac _ => ?_)
        fun b d' v w w' ha _ hb _ hac hw' => ?_
      · exact hfreed b d p v _ ha hc hb hd hp hac
      · exact hfs b d p v _ w' ha hc hb hd hp (fun hl => hself (hac hl)) hw'

theorem reset_refines (h : m.Forest σ) (a : Path k) :
    Refines ((∃ p, m.Lost σ p) ∨ False) (Operation.apply m (.reset a))
      (Operation.step (σ.map Prod.snd) (.reset a)) := by
  refine Refines.of_path h fun b v ha hb => ?_
  obtain ⟨m', hm', h', -, -, -, hlost⟩ := reset_spec h ha hb
  refine .of_lost_iff hm' h' ?_ hlost
  rw [Variables.map_put]
  rfl

theorem assign_refines (h : m.Forest σ) (a : Path k) (x : α) :
    Refines ((∃ p, m.Lost σ p) ∨ False) (Operation.apply m (.assign a x))
      (Operation.step (σ.map Prod.snd) (.assign a x)) := by
  refine Refines.of_path h fun b v ha hb => ?_
  obtain ⟨m', t, hm', h', ht, hlost⟩ := assign_spec h ha hb x
  refine .of_lost_iff hm' h' ?_ hlost
  rw [Variables.map_put, ht]
  rfl

theorem copyAssign_refines (h : m.Forest σ) (a c : Path k) :
    Refines ((∃ p, m.Lost σ p) ∨ False) (Operation.apply m (.copyAssign a c))
      (Operation.step (σ.map Prod.snd) (.copyAssign a c)) := by
  refine Refines.of_left h (fun b d v ha hb hd hac hne => ?_)
    fun b d v w w' ha hc hb hd hac hw' => ?_
  · exact copyAssign_freed h ha hb hd hac hne
  · obtain ⟨m', t, hm', h', ht, hlost⟩ := copyAssign_spec h ha hb hd hac hw'
    refine .of_lost_iff hm' h' ?_ hlost
    rw [Variables.map_put, ht]
    rfl

theorem assignObject_refines (h : m.Forest σ) (a c : Path k) :
    Refines ((∃ p, m.Lost σ p) ∨ False) (Operation.apply m (.assignObject a c))
      (Operation.step (σ.map Prod.snd) (.assignObject a c)) := by
  refine Refines.of_leftValue h (fun b d p v w ha hc hb hd hp hac => ?_)
    fun b d p v w w' ha hc hb hd hp hac hw' => ?_
  · exact assignObject_freed h ha hc hb hd hp hac
  · obtain ⟨m', t, hm', h', ht, hlost⟩ := assignObject_spec h ha hc hb hd hp hac hw'
    refine .of_lost_iff hm' h' ?_ hlost
    rw [Variables.map_put, ht]
    rfl

/-- A value that is moved into itself is lost. -/
theorem moveAssign_refines (h : m.Forest σ) (a c : Path k) :
    Refines ((∃ p, m.Lost σ p) ∨ Leads c a ∧ c ≠ a) (Operation.apply m (.moveAssign a c))
      (Operation.step (σ.map Prod.snd) (.moveAssign a c)) := by
  refine Refines.of_left h (fun b d v ha hb hd hac hne => ?_)
    fun b d v w w' ha hc hb hd hac hw' => ?_
  · exact moveAssign_freed h ha hb hd hac hne
  · obtain ⟨m', hm', h', hlost⟩ := moveAssign_spec h ha hb hd hac hw'
    refine .of_lost (t := w') h' hm' ?_ (fun hencl => ?_) hlost
    · rw [Variables.map_put, Variables.map_put, Variables.map_put]
      rfl
    · have hw := Variables.ne_empty_of_leads ha hc hencl.1 hencl.2
      have hne := Variables.put_source_ne_empty hc hw (fun hl => hencl.2 (hac hl).symm) hw'
      exact Contents.exists_mem_addresses hne

theorem moveObject_refines (h : m.Forest σ) (a c : Path k) (y : α) :
    Refines ((∃ p, m.Lost σ p) ∨ Leads c a ∧ c.2.length + 2 ≤ a.2.length)
      (Operation.apply m (.moveObject a c y))
      (Operation.step (σ.map Prod.snd) (.moveObject a c y)) := by
  refine Refines.of_leftValue h (fun b d p v w ha hc hb hd hp hac => ?_)
    fun b d p v w w' ha hc hb hd hp hac hw' => ?_
  · exact moveObject_freed h ha hc hb hd hp hac y
  · obtain ⟨m', t, hm', hne, h', ht, hlost⟩ := moveObject_spec h ha hc hb hd hp hac hw' y
    refine .of_lost h' hm' ?_ (fun _ => Contents.exists_mem_addresses hne) hlost
    rw [Variables.map_put, Variables.map_put, Variables.map_put, ht]
    rfl

/-- What a statement does to the memory is what it does to the values. -/
theorem apply_refines (h : m.Forest σ) (op : Operation k α) :
    Refines ((∃ p, m.Lost σ p) ∨ op.Encloses) (op.apply m) (op.step (σ.map Prod.snd)) := by
  cases op with
  | reset a => exact reset_refines h a
  | assign a x => exact assign_refines h a x
  | copyAssign a c => exact copyAssign_refines h a c
  | moveAssign a c => exact moveAssign_refines h a c
  | assignObject a c => exact assignObject_refines h a c
  | moveObject a c y => exact moveObject_refines h a c y

theorem run_refines (h : m.Forest σ) (ops : List (Operation k α)) :
    Refines ((∃ p, m.Lost σ p) ∨ ∃ op ∈ ops, op.Encloses) (run ops m)
      (steps ops (σ.map Prod.snd)) := by
  induction ops generalizing m σ with
  | nil =>
    refine .done h ?_
    simp
  | cons op ops ih =>
    rw [run, steps, List.foldlM_cons, List.foldlM_cons]
    have happly := apply_refines h op
    generalize Operation.apply m op = r at happly
    generalize Operation.step (σ.map Prod.snd) op = s at happly
    cases happly with
    | fault e => exact .fault e
    | done h' hlost =>
      have hrest := ih h'
      rw [hlost, or_assoc, ← List.exists_mem_cons_iff (Operation.Encloses) op ops] at hrest
      exact hrest

end Refinement

end Langsvr.RecursiveOptional
