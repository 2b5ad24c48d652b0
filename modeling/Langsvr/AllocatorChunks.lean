import Langsvr.AllocatorBlocks

/-!
# The chunks of the allocators

The chunks of an allocator are linked in both directions, and the pointers in them are those to its
objects. All chunks but the last are full, and none is empty.
-/

namespace Langsvr.BlockAllocator

open LinkedLists (Segment BackLinked segment_snoc_iff backLinked_snoc_iff)

variable {T : Template}

section Chains

def listed (cs : List (Address × Pointers)) : List Address := cs.flatMap fun c => c.2.ptrs

/-- The chunks of an allocator are linked, and each is in memory that was handed out for it. -/
structure ChunkLinks (T : Template) (chunks : Address → Option Pointers) (data : Data)
    (regions : List (Region T)) (cs : List (Address × Pointers)) : Prop where
  linked : Segment Pointers.next chunks data.pointersRoot cs none
  back : BackLinked Pointers.prev none cs
  current : data.pointersCurrent = cs.getLast?.map Prod.fst
  placed : ∀ c ∈ cs, ⟨c.1, T.pointers⟩ ∈ regions

/-- All chunks but the last are full, and the last one is not empty. -/
structure Filled (cs : List (Address × Pointers)) : Prop where
  full : ∀ c ∈ cs.dropLast, c.2.ptrs.length = kMax
  last : ∀ c, cs.getLast? = some c → 0 < c.2.ptrs.length ∧ c.2.ptrs.length ≤ kMax

variable {chunks chunks' : Address → Option Pointers} {data data' : Data}
  {regions regions' : List (Region T)} {cs l : List (Address × Pointers)} {a : Address}
  {c : Pointers}

theorem ChunkLinks.initial : ChunkLinks T chunks (Data.initial T) regions [] where
  linked := .nil none
  back := trivial
  current := rfl
  placed c hc := by cases hc

theorem ChunkLinks.congr (h : ChunkLinks T chunks data regions cs)
    (hchunks : ∀ c ∈ cs, chunks' c.1 = chunks c.1) (hroot : data'.pointersRoot = data.pointersRoot)
    (hcurrent : data'.pointersCurrent = data.pointersCurrent)
    (hregions : ∀ r ∈ regions, r ∈ regions') : ChunkLinks T chunks' data' regions' cs where
  linked := by
    rw [hroot]
    exact h.linked.congr hchunks
  back := h.back
  current := by rw [hcurrent, h.current]
  placed c hc := hregions _ (h.placed c hc)

theorem ChunkLinks.setLast (h : ChunkLinks T chunks data regions (l ++ [(a, c)]))
    (ptrs : List Address) : ChunkLinks T (Function.update chunks a (some { c with ptrs := ptrs }))
      data regions (l ++ [(a, { c with ptrs := ptrs })]) := by
  obtain ⟨-, -, hnext⟩ := segment_snoc_iff.mp h.linked
  obtain ⟨hback, hprev⟩ := backLinked_snoc_iff.mp h.back
  refine ⟨h.linked.setLast hnext, backLinked_snoc_iff.mpr ⟨hback, hprev⟩, ?_, fun d hd => ?_⟩
  · rw [h.current, List.getLast?_concat, List.getLast?_concat]
    rfl
  · rcases List.mem_append.mp hd with hd | hd
    · exact h.placed d (List.mem_append_left _ hd)
    · rw [List.mem_singleton.mp hd]
      exact h.placed (a, c) List.mem_concat_self

theorem ChunkLinks.snoc {a' : Address} (h : ChunkLinks T chunks data regions (l ++ [(a, c)]))
    (hfresh : ∀ d ∈ l ++ [(a, c)], d.1 ≠ a') (hplaced : ⟨a', T.pointers⟩ ∈ regions) :
    ChunkLinks T (Function.update (Function.update chunks a'
        (some { ptrs := [], next := none, prev := some a })) a (some { c with next := some a' }))
      { data with pointersCurrent := some a' } regions
      (l ++ [(a, { c with next := some a' })] ++
        [(a', { ptrs := [], next := none, prev := some a })]) := by
  obtain ⟨hback, hprev⟩ := backLinked_snoc_iff.mp h.back
  refine ⟨h.linked.push hfresh rfl rfl,
    backLinked_snoc_iff.mpr ⟨backLinked_snoc_iff.mpr ⟨hback, hprev⟩, ?_⟩, ?_, fun d hd => ?_⟩
  · rw [List.getLast?_concat]
    rfl
  · rw [List.getLast?_concat]
    rfl
  · rcases List.mem_append.mp hd with hd | hd
    · rcases List.mem_append.mp hd with hd | hd
      · exact h.placed d (List.mem_append_left _ hd)
      · rw [List.mem_singleton.mp hd]
        exact h.placed (a, c) List.mem_concat_self
    · rw [List.mem_singleton.mp hd]
      exact hplaced

theorem ChunkLinks.first (hplaced : ⟨a, T.pointers⟩ ∈ regions) :
    ChunkLinks T (Function.update chunks a (some { ptrs := [], next := none, prev := none }))
      { data with pointersRoot := some a, pointersCurrent := some a } regions
      ([] ++ [(a, { ptrs := [], next := none, prev := none })]) where
  linked := .cons (Function.update_self ..) (.nil none)
  back := ⟨rfl, trivial⟩
  current := rfl
  placed d hd := by
    rw [List.mem_singleton.mp hd]
    exact hplaced

theorem filled_snoc : Filled (l ++ [(a, c)]) ↔ (∀ d ∈ l, d.2.ptrs.length = kMax) ∧
    0 < c.ptrs.length ∧ c.ptrs.length ≤ kMax := by
  constructor
  · intro h
    refine ⟨fun d hd => h.full d ?_, h.last (a, c) List.getLast?_concat⟩
    rw [List.dropLast_concat]
    exact hd
  · intro h
    refine ⟨fun d hd => h.1 d ?_, fun d hd => ?_⟩
    · rwa [List.dropLast_concat] at hd
    · rw [List.getLast?_concat] at hd
      cases hd
      exact h.2

/-- The chunks have grown: each is still at its place, with its pointers in front. -/
def Grows (cs cs' : List (Address × Pointers)) : Prop := ∀ l₁ a c l₂, cs = l₁ ++ (a, c) :: l₂ →
  ∃ l₁' c' l₂', cs' = l₁' ++ (a, c') :: l₂' ∧ listed l₁' = listed l₁ ∧ c.ptrs <+: c'.ptrs

theorem Grows.refl (cs : List (Address × Pointers)) : Grows cs cs :=
  fun l₁ _ c l₂ h => ⟨l₁, c, l₂, h, rfl, List.prefix_refl _⟩

theorem Grows.trans {cs cs' cs'' : List (Address × Pointers)} (h : Grows cs cs')
    (h' : Grows cs' cs'') : Grows cs cs'' := by
  intro l₁ a c l₂ hcs
  obtain ⟨l₁', c', l₂', hcs', hl, hc⟩ := h l₁ a c l₂ hcs
  obtain ⟨l₁'', c'', l₂'', hcs'', hl', hc'⟩ := h' l₁' a c' l₂' hcs'
  exact ⟨l₁'', c'', l₂'', hcs'', hl'.trans hl, hc.trans hc'⟩

/-- The last chunk changes and others follow it. -/
theorem grows_snoc {c' : Pointers} (hc : c.ptrs <+: c'.ptrs) (m : List (Address × Pointers)) :
    Grows (l ++ [(a, c)]) (l ++ (a, c') :: m) := by
  intro l₁ b d l₂ h
  rcases List.append_eq_append_iff.mp h with ⟨r, h₁, h₂⟩ | ⟨r, h₁, h₂⟩
  · cases r with
    | nil =>
      cases h₂
      exact ⟨l, c', m, rfl, by rw [h₁, List.append_nil], hc⟩
    | cons p r =>
      rw [List.cons_append, List.cons.injEq] at h₂
      have hlength := congrArg List.length h₂.2
      simp at hlength
  · cases r with
    | nil =>
      cases h₂
      exact ⟨l, c', m, rfl, by rw [h₁, List.append_nil], hc⟩
    | cons p r =>
      rw [List.cons_append, List.cons.injEq] at h₂
      obtain ⟨rfl, rfl⟩ := h₂
      exact ⟨l₁, d, r ++ (a, c') :: m, by rw [h₁]; simp, rfl, List.prefix_refl _⟩

end Chains

section Writes

variable {st st' : Store T} {bs : ℕ → List (ℕ × Block)} {cs : ℕ → List (Address × Pointers)}
  {this i : ℕ} {ptr a : Address}

@[simp] theorem Store.data_setChunk {c : Pointers} : (st.setChunk a c).data i = st.data i := rfl

theorem Store.exists_setData {data : Data} :
    (st.setData this data).Exists i ↔ i = this ∨ st.Exists i := by
  by_cases hi : i = this
  · simp [Store.Exists, Store.setData, hi]
  · simp [Store.Exists, Store.setData, hi]

theorem Store.chunk_eq_ok {c : Pointers} (h : st.chunks a = some c) :
    st.chunk (some a) = .ok c := by
  simp only [Store.chunk, h]

/-- The blocks do not depend on the chunks and on what an allocator knows of them. -/
theorem Blocks.congr (h : Blocks st bs) (hblocks : st'.blocks = st.blocks)
    (hfresh : st'.fresh = st.fresh) (hregions : handedOut st'.history = handedOut st.history)
    (hdata : ∀ i, ((st'.data i).root, (st'.data i).current, (st'.data i).currentOffset) =
      ((st.data i).root, (st.data i).current, (st.data i).currentOffset)) : Blocks st' bs where
  chain i := by
    have hchain := h.chain i
    have heq := hdata i
    simp only [Prod.mk.injEq] at heq
    obtain ⟨hroot, hcurrent, hoffset⟩ := heq
    rw [hblocks, hregions]
    exact ⟨hroot ▸ hchain.linked, hcurrent ▸ hchain.current, hoffset ▸ hchain.offset_le,
      hoffset ▸ hchain.offset_eq, hchain.placed, by rw [hcurrent, hoffset]; exact hchain.before,
      hchain.disjoint⟩
  separate := h.separate
  live b hb := h.live b (hblocks ▸ hb)
  fresh b hb := hfresh ▸ h.fresh b (hblocks ▸ hb)

def Chunks (st : Store T) (cs : ℕ → List (Address × Pointers)) : Prop :=
  ∀ i, ChunkLinks T st.chunks (st.data i) (handedOut st.history i) (cs i)

theorem Chunks.separate (hb : Blocks st bs) (hc : Chunks st cs) {i j : ℕ} (hij : i ≠ j)
    {c d : Address × Pointers} (hci : c ∈ cs i) (hdj : d ∈ cs j) : c.1 ≠ d.1 := by
  intro heq
  have hblock := ((hb.chain i).placed _ ((hc i).placed c hci)).block
  have hblock' := ((hb.chain j).placed _ ((hc j).placed d hdj)).block
  rw [← heq] at hblock'
  exact hb.separate i j hij _ hblock hblock'

/-- A new region is at the place of no chunk. -/
theorem Allocated.chunk_ne {type : T.Layout} (h : Allocated this type st st' ptr)
    (hc : Chunks st cs) {c : Address × Pointers} (hci : c ∈ cs i) : c.1 ≠ ptr :=
  (h.apart i _ ((hc i).placed c hci)).address_ne

theorem Allocated.mem_handedOut {type : T.Layout} (h : Allocated this type st st' ptr) :
    ⟨ptr, type⟩ ∈ handedOut st'.history this := by
  rw [h.history, handedOut_allocated, if_pos rfl]
  exact List.mem_concat_self

theorem Allocated.created {type : T.Layout} (h : Allocated this type st st' ptr) :
    created st'.history = created st.history := by
  rw [h.history, created_allocated]

theorem Allocated.data_eq {type : T.Layout} (h : Allocated this type st st' ptr) (hi : i ≠ this) :
    st'.data i = st.data i := by
  rw [Store.data, h.others i hi, Store.data]

theorem Allocated.handedOut {type : T.Layout} (h : Allocated this type st st' ptr) (i : ℕ) :
    ∀ r ∈ handedOut st.history i, r ∈ handedOut st'.history i := by
  intro r hr
  rw [h.history, handedOut_allocated]
  by_cases hi : i = this
  · rw [if_pos hi]
    exact List.mem_append_left _ hr
  · rwa [if_neg hi]

theorem Allocated.keep_chunks {type : T.Layout} (h : Allocated this type st st' ptr)
    (hc : Chunks st cs) : Chunks st' cs := by
  intro i
  by_cases hi : i = this
  · subst hi
    exact (hc i).congr (fun c _ => by rw [h.chunks]) h.pointersRoot h.pointersCurrent
      (h.handedOut i)
  · exact (hc i).congr (fun c _ => by rw [h.chunks]) (by rw [h.data_eq hi]) (by rw [h.data_eq hi])
      (h.handedOut i)

theorem Allocated.exists_of {type : T.Layout} (h : Allocated this type st st' ptr) {j : ℕ}
    (hj : st.Exists j) : st'.Exists j := by
  by_cases hji : j = this
  · rw [hji]
    exact h.this_exists
  · rw [Store.Exists, h.others j hji]
    exact hj

/-- What `AddObjectPointer` leaves as it was. -/
structure Frame (this : ℕ) (st st' : Store T) : Prop where
  created : created st'.history = created st.history
  handedOut : ∀ i, ∀ r ∈ handedOut st.history i, r ∈ handedOut st'.history i
  others : ∀ j, j ≠ this → st'.data j = st.data j
  count : (st'.data this).count = (st.data this).count
  exists_of : ∀ j, st.Exists j → st'.Exists j

theorem newPointers_eq_none {st₁ : Store T} (hcurrent : (st.data this).pointersCurrent = none)
    (hrun : allocate this T.pointers st = .ok (a, st₁)) : newPointers this st = .ok
      ((st₁.setChunk a { ptrs := [], next := none, prev := none }).setData this
        { st₁.data this with pointersRoot := some a, pointersCurrent := some a }) := by
  simp only [newPointers, hrun, bind, Except.bind, hcurrent, pure, Except.pure, Store.data_setChunk]

theorem newPointers_eq_some {st₁ : Store T} {q : Address} {c : Pointers}
    (hcurrent : (st.data this).pointersCurrent = some q)
    (hrun : allocate this T.pointers st = .ok (a, st₁)) (hq : st₁.chunks q = some c) (hne : q ≠ a) :
    newPointers this st = .ok
      (((st₁.setChunk a { ptrs := [], next := none, prev := some q }).setChunk q
        { c with next := some a }).setData this
          { st₁.data this with pointersCurrent := some a }) := by
  have hread : (st₁.setChunk a { ptrs := [], next := none, prev := some q }).chunk (some q) =
      .ok c := Store.chunk_eq_ok ((Function.update_of_ne hne _ _).trans hq)
  simp only [newPointers, hrun, bind, Except.bind, hcurrent, pure, Except.pure, hread,
    Store.data_setChunk]

theorem addObjectPointer_eq {st₁ : Store T} {b : Bool} {c : Pointers} (hfull : full this st = .ok b)
    (hrun : (if b then newPointers this st else Except.ok st) = .ok st₁)
    (hcurrent : (st₁.data this).pointersCurrent = some a) (ha : st₁.chunks a = some c) :
    addObjectPointer this ptr st = .ok (st₁.setChunk a { c with ptrs := c.ptrs ++ [ptr] }) := by
  cases b with
  | false =>
    cases hrun
    simp only [addObjectPointer, hfull, bind, Except.bind, hcurrent, Store.chunk_eq_ok ha, pure,
      Except.pure, if_neg Bool.false_ne_true]
  | true =>
    rw [if_pos rfl] at hrun
    simp only [addObjectPointer, hfull, bind, Except.bind, if_true, hrun, hcurrent,
      Store.chunk_eq_ok ha, pure, Except.pure]

theorem Frame.refl : Frame this st st :=
  ⟨rfl, fun _ _ h => h, fun _ _ => rfl, rfl, fun _ h => h⟩

/-- The data of an allocator with a new chunk. -/
theorem Allocated.frame {st₁ : Store T} {type : T.Layout} {data : Data}
    (h : Allocated this type st st₁ ptr) (hhistory : st'.history = st₁.history)
    (hallocators : st'.allocators = (st₁.setData this data).allocators)
    (hcount : data.count = (st₁.data this).count) : Frame this st st' where
  created := by rw [hhistory, h.created]
  handedOut i r hr := by
    rw [hhistory]
    exact h.handedOut i r hr
  others j hj := by
    have hdata : st'.data j = (st₁.setData this data).data j := by
      rw [Store.data, hallocators, Store.data]
    rw [hdata, Store.data_setData, if_neg hj, h.data_eq hj]
  count := by
    have hdata : st'.data this = (st₁.setData this data).data this := by
      rw [Store.data, hallocators, Store.data]
    rw [hdata, Store.data_setData, if_pos rfl, hcount, h.count]
  exists_of j hj := by
    rw [Store.Exists, hallocators]
    exact Store.exists_setData.mpr (.inr (h.exists_of hj))

/-- A new chunk is the last one, and it is empty. -/
theorem newPointers_spec (hb : Blocks st bs) (hc : Chunks st cs) (this : ℕ) :
    ∃ st' bs' l a c, newPointers this st = .ok st' ∧ Blocks st' bs' ∧
      Chunks st' (Function.update cs this (l ++ [(a, c)])) ∧ Frame this st st' ∧ c.ptrs = [] ∧
      l.map (fun d => d.2.ptrs) = (cs this).map (fun d => d.2.ptrs) ∧
      ∀ m, Grows (cs this) (l ++ (a, m) :: []) := by
  obtain ⟨a, st₁, bs', hrun, hb', hallocated⟩ := allocate_spec hb this T.pointers
  have hc' := hallocated.keep_chunks hc
  have hplaced := hallocated.mem_handedOut
  rcases List.eq_nil_or_concat' (cs this) with hnil | ⟨l, ⟨q, c⟩, hl⟩
  · have hcurrent : (st.data this).pointersCurrent = none := by
      rw [(hc this).current, hnil]
      rfl
    refine ⟨_, bs', [], a, { ptrs := [], next := none, prev := none },
      newPointers_eq_none hcurrent hrun, hb'.congr rfl rfl rfl (Store.proj_setData
        (fun d => (d.root, d.current, d.currentOffset)) rfl), fun i => ?_,
      hallocated.frame rfl rfl rfl, rfl, by rw [hnil], fun m l₁ b d l₂ h => ?_⟩
    · by_cases hi : i = this
      · subst hi
        rw [Store.data_setData, if_pos rfl, Function.update_self]
        exact ChunkLinks.first hplaced
      · rw [Store.data_setData, if_neg hi, Function.update_of_ne hi]
        exact (hc' i).congr (fun d hd => Function.update_of_ne (hallocated.chunk_ne hc hd) _ _) rfl
          rfl fun r hr => hr
    · rw [hnil] at h
      simp at h
  · have hcurrent : (st.data this).pointersCurrent = some q := by
      rw [(hc this).current, hl, List.getLast?_concat]
      rfl
    have hfresh : ∀ d ∈ l ++ [(q, c)], d.1 ≠ a := fun d hd =>
      hallocated.chunk_ne hc (i := this) (hl ▸ hd)
    have hthis := hc' this
    rw [hl] at hthis
    have hmem : (q, c) ∈ l ++ [(q, c)] := List.mem_concat_self
    refine ⟨_, bs', l ++ [(q, { c with next := some a })], a,
      { ptrs := [], next := none, prev := some q },
      newPointers_eq_some hcurrent hrun (hthis.linked.lookup hmem) (hfresh _ hmem),
      hb'.congr rfl rfl rfl (Store.proj_setData
        (fun d => (d.root, d.current, d.currentOffset)) rfl), fun i => ?_,
      hallocated.frame rfl rfl rfl, rfl, ?_, fun m => ?_⟩
    · by_cases hi : i = this
      · subst hi
        rw [Store.data_setData, if_pos rfl, Function.update_self]
        exact hthis.snoc hfresh hplaced
      · rw [Store.data_setData, if_neg hi, Function.update_of_ne hi]
        refine (hc' i).congr (fun d hd => ?_) rfl rfl fun r hr => hr
        have hdq : d.1 ≠ q := hc.separate hb hi hd (d := (q, c)) (by rw [hl]; exact hmem)
        exact (Function.update_of_ne hdq _ _).trans
          (Function.update_of_ne (hallocated.chunk_ne hc hd) _ _)
    · rw [hl]
      simp
    · rw [hl, List.append_assoc]
      refine grows_snoc ?_ _
      exact List.prefix_refl c.ptrs

/-- What `AddObjectPointer` leaves behind: `ptr` is listed behind the other objects of `this`, and
nothing else has changed. -/
structure Added (this : ℕ) (ptr : Address) (st st' : Store T) (bs' : ℕ → List (ℕ × Block))
    (cs cs' : ℕ → List (Address × Pointers)) : Prop where
  blocks : Blocks st' bs'
  chunks : Chunks st' cs'
  frame : Frame this st st'
  others : ∀ j, j ≠ this → cs' j = cs j
  filled : Filled (cs' this)
  listed : listed (cs' this) = listed (cs this) ++ [ptr]
  grows : Grows (cs this) (cs' this)

/-- The pointer to an object is written into the last chunk, which has room for it. -/
theorem addObjectPointer_room (ptr : Address) {st₁ : Store T} {b : Bool}
    {l : List (Address × Pointers)} {c : Pointers} (hfull : full this st = .ok b)
    (hrun : (if b then newPointers this st else Except.ok st) = .ok st₁) (hb : Blocks st₁ bs)
    (hc : Chunks st₁ (Function.update cs this (l ++ [(a, c)]))) (hframe : Frame this st st₁)
    (hl : ∀ d ∈ l, d.2.ptrs.length = kMax) (hroom : c.ptrs.length < kMax)
    (hlisted : listed l ++ c.ptrs = listed (cs this))
    (hgrows : Grows (cs this) (l ++ [(a, { c with ptrs := c.ptrs ++ [ptr] })])) :
    ∃ st' cs', addObjectPointer this ptr st = .ok st' ∧ Added this ptr st st' bs cs cs' := by
  have hthis := hc this
  rw [Function.update_self] at hthis
  have hcurrent : (st₁.data this).pointersCurrent = some a := by
    rw [hthis.current, List.getLast?_concat]
    rfl
  have hmem : (a, c) ∈ l ++ [(a, c)] := List.mem_concat_self
  refine ⟨_, Function.update cs this (l ++ [(a, { c with ptrs := c.ptrs ++ [ptr] })]),
    addObjectPointer_eq hfull hrun hcurrent (hthis.linked.lookup hmem),
    hb.congr rfl rfl rfl fun _ => rfl, fun i => ?_,
    ⟨hframe.created, hframe.handedOut, hframe.others, hframe.count, hframe.exists_of⟩,
    fun j hj => Function.update_of_ne hj _ _, ?_, ?_, ?_⟩
  · by_cases hi : i = this
    · subst hi
      rw [Function.update_self]
      exact hthis.setLast _
    · have hci := hc i
      rw [Function.update_of_ne hi] at hci ⊢
      refine hci.congr (fun d hd => Function.update_of_ne ?_ _ _) rfl rfl fun r hr => hr
      refine Chunks.separate hb hc hi (c := d) (d := (a, c)) ?_ ?_
      · rw [Function.update_of_ne hi]
        exact hd
      · rw [Function.update_self]
        exact hmem
  · rw [Function.update_self, filled_snoc]
    refine ⟨hl, ?_, ?_⟩
    · simp
    · rw [List.length_append, List.length_singleton]
      exact hroom
  · rw [Function.update_self, ← hlisted]
    simp [listed]
  · rw [Function.update_self]
    exact hgrows

/-- `AddObjectPointer` never fails, and it lists the object behind the others. -/
theorem addObjectPointer_spec (hb : Blocks st bs) (hc : Chunks st cs) (hfilled : Filled (cs this))
    (ptr : Address) : ∃ st' bs' cs', addObjectPointer this ptr st = .ok st' ∧
      Added this ptr st st' bs' cs cs' := by
  -- a new chunk, where there is none or the last one is full
  have hnew : full this st = .ok true → (∀ d ∈ cs this, d.2.ptrs.length = kMax) →
      ∃ st' bs' cs', addObjectPointer this ptr st = .ok st' ∧
        Added this ptr st st' bs' cs cs' := by
    intro hfull hall
    obtain ⟨st₁, bs', l, a, c, hrun, hb', hc', hframe, hempty, hptrs, hgrows⟩ :=
      newPointers_spec hb hc this
    have hl : ∀ d ∈ l, d.2.ptrs.length = kMax := by
      intro d hd
      have hmem : d.2.ptrs ∈ (cs this).map fun d => d.2.ptrs := hptrs ▸ List.mem_map_of_mem hd
      obtain ⟨e, he, heq⟩ := List.mem_map.mp hmem
      rw [← heq]
      exact hall e he
    have hlisted : listed l ++ c.ptrs = listed (cs this) := by
      rw [hempty, List.append_nil, listed, listed, List.flatMap_def, List.flatMap_def, hptrs]
    obtain ⟨st', cs', h⟩ := addObjectPointer_room ptr hfull (by rw [if_pos rfl]; exact hrun)
      hb' hc' hframe hl (by rw [hempty]; decide) hlisted (hgrows _)
    exact ⟨st', bs', cs', h⟩
  rcases List.eq_nil_or_concat' (cs this) with hnil | ⟨l, ⟨a, c⟩, hl⟩
  · have hcurrent : (st.data this).pointersCurrent = none := by
      rw [(hc this).current, hnil]
      rfl
    refine hnew (by rw [full, hcurrent]) fun d hd => ?_
    rw [hnil] at hd
    cases hd
  · have hthis := hc this
    rw [hl] at hthis hfilled
    have hcurrent : (st.data this).pointersCurrent = some a := by
      rw [hthis.current, List.getLast?_concat]
      rfl
    have hmem : (a, c) ∈ l ++ [(a, c)] := List.mem_concat_self
    have hread : full this st = .ok (c.ptrs.length = kMax : Bool) := by
      simp only [full, hcurrent, Store.chunk_eq_ok (hthis.linked.lookup hmem)]
      rfl
    obtain ⟨hall, hpos, hle⟩ := filled_snoc.mp hfilled
    by_cases hmax : c.ptrs.length = kMax
    · refine hnew (by rw [hread, decide_eq_true hmax]) fun d hd => ?_
      rw [hl] at hd
      rcases List.mem_append.mp hd with hd | hd
      · exact hall d hd
      · rw [List.mem_singleton.mp hd]
        exact hmax
    · have hc' : Chunks st (Function.update cs this (l ++ [(a, c)])) := by
        rw [← hl, Function.update_eq_self]
        exact hc
      obtain ⟨st', cs', h⟩ := addObjectPointer_room ptr hread
        (by rw [decide_eq_false hmax]; rfl) hb hc' Frame.refl hall
        (Nat.lt_of_le_of_ne hle hmax) (by rw [hl]; simp [listed])
        (by rw [hl]; exact grows_snoc (List.prefix_append _ _) [])
      exact ⟨st', bs, cs', h⟩

end Writes

end Langsvr.BlockAllocator
