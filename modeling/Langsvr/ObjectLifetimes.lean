import Langsvr.ObjectIteration
import Langsvr.OwnershipLedgers
import Langsvr.Results

/-!
# Lifetimes of objects and blocks

The allocators own objects and blocks. An object that was created is listed by one allocator until
it is destroyed, a block that was allocated is on the chain of one until it is freed, and both
happen once.
-/

namespace Langsvr.BlockAllocator

open OwnershipLedgers (Balanced)

variable {T : Template} {st st' st'' : Store T} {bs : ℕ → List (ℕ × Block)}
  {cs : ℕ → List (Address × Pointers)} {this : ℕ}

section Records

def everCreated (history : List (Event T)) : List Address :=
  history.filterMap fun
    | .created _ object => some object
    | _ => none

def everDestroyed (history : List (Event T)) : List Address :=
  history.filterMap fun
    | .destroyed object => some object
    | _ => none

def everFreed (history : List (Event T)) : List ℕ :=
  history.filterMap fun
    | .freed b => some b
    | _ => none

/-- The block was allocated and is not live. -/
def Store.Gone (st : Store T) (b : ℕ) : Prop := b < st.fresh ∧ st.blocks b = none

/-- No object is created or destroyed, and no block is freed. -/
structure Quiet (st st' : Store T) : Prop where
  created : everCreated st'.history = everCreated st.history
  destroyed : everDestroyed st'.history = everDestroyed st.history
  freed : everFreed st'.history = everFreed st.history
  gone : ∀ b, st'.Gone b ↔ st.Gone b

theorem Quiet.trans (h : Quiet st st') (h' : Quiet st' st'') : Quiet st st'' where
  created := h'.created.trans h.created
  destroyed := h'.destroyed.trans h.destroyed
  freed := h'.freed.trans h.freed
  gone b := (h'.gone b).trans (h.gone b)

theorem Quiet.of_eq (hhistory : st'.history = st.history) (hblocks : st'.blocks = st.blocks)
    (hfresh : st'.fresh = st.fresh) : Quiet st st' where
  created := by rw [hhistory]
  destroyed := by rw [hhistory]
  freed := by rw [hhistory]
  gone b := by rw [Store.Gone, Store.Gone, hblocks, hfresh]

theorem quiet_fresh (block : Block) :
    Quiet st { st.setBlock st.fresh block with fresh := st.fresh + 1 } where
  created := rfl
  destroyed := rfl
  freed := rfl
  gone b := by
    by_cases hb : b = st.fresh
    · simp [Store.Gone, Store.setBlock, hb]
    · simp only [Store.Gone, Store.setBlock, Function.update_of_ne hb]
      constructor
      · exact fun h => ⟨by omega, h.2⟩
      · exact fun h => ⟨by omega, h.2⟩

theorem quiet_setBlock {b : ℕ} {old block : Block} (hb : st.block (some b) = .ok old) :
    Quiet st (st.setBlock b block) where
  created := rfl
  destroyed := rfl
  freed := rfl
  gone k := by
    by_cases hk : k = b
    · have hlive : st.blocks b ≠ none := by
        intro hnone
        rw [Store.block, hnone] at hb
        cases hb
      simp [Store.Gone, Store.setBlock, hk, hlive]
    · simp only [Store.Gone, Store.setBlock, Function.update_of_ne hk]

theorem newBlock_quiet {data data' : Data} (h : newBlock data st = .ok (data', st')) :
    Quiet st st' := by
  cases hcurrent : data.current with
  | none =>
    simp only [newBlock, hcurrent] at h
    cases h
    exact quiet_fresh {}
  | some b =>
    simp only [newBlock, hcurrent] at h
    obtain ⟨block, hblock, h⟩ := Except.bind_eq_ok.mp h
    cases h
    exact (quiet_fresh {}).trans (quiet_setBlock hblock)

theorem makeRoom_quiet {type : T.Layout} {data : Data}
    (h : makeRoom this type st = .ok (data, st')) : Quiet st st' := by
  simp only [makeRoom] at h
  split at h
  · exact newBlock_quiet h
  · cases h
    exact .of_eq rfl rfl rfl

theorem allocate_quiet {type : T.Layout} {ptr : Address}
    (h : allocate this type st = .ok (ptr, st')) : Quiet st st' := by
  obtain ⟨⟨data, st₁⟩, hroom, h⟩ := Except.bind_eq_ok.mp h
  refine (makeRoom_quiet hroom).trans ?_
  cases hcurrent : data.current with
  | none =>
    simp only [hcurrent] at h
    cases h
  | some b =>
    simp only [hcurrent] at h
    obtain ⟨block, -, h⟩ := Except.bind_eq_ok.mp h
    cases h
    exact ⟨rfl, rfl, rfl, fun b => Iff.rfl⟩

theorem newPointers_quiet (h : newPointers this st = .ok st') : Quiet st st' := by
  obtain ⟨⟨current, st₁⟩, hallocate, h⟩ := Except.bind_eq_ok.mp h
  refine (allocate_quiet hallocate).trans ?_
  cases hcurrent : (st.data this).pointersCurrent with
  | none =>
    simp only [hcurrent] at h
    cases h
    exact .of_eq rfl rfl rfl
  | some a =>
    simp only [hcurrent] at h
    obtain ⟨chunk, -, h⟩ := Except.bind_eq_ok.mp h
    cases h
    exact .of_eq rfl rfl rfl

theorem addObjectPointer_quiet {ptr : Address} (h : addObjectPointer this ptr st = .ok st') :
    Quiet st st' := by
  obtain ⟨isFull, -, h⟩ := Except.bind_eq_ok.mp h
  cases isFull with
  | true =>
    obtain ⟨st₁, hnew, h⟩ := Except.bind_eq_ok.mp h
    refine (newPointers_quiet hnew).trans ?_
    beta_reduce at h
    split at h
    · cases h
    · obtain ⟨chunk, -, h⟩ := Except.bind_eq_ok.mp h
      cases h
      exact .of_eq rfl rfl rfl
  | false =>
    obtain ⟨st₁, hsame, h⟩ := Except.bind_eq_ok.mp h
    cases hsame
    beta_reduce at h
    split at h
    · cases h
    · obtain ⟨chunk, -, h⟩ := Except.bind_eq_ok.mp h
      cases h
      exact .of_eq rfl rfl rfl

end Records

section Ledgers

/-- The allocators own the objects that they list. A destroyed object was in a block that is not
live. -/
structure Ledger (st : Store T) : Prop where
  objects : Balanced (everCreated st.history) (everDestroyed st.history) (created st.history)
  freed_nodup : (everFreed st.history).Nodup
  freed_iff : ∀ b, b ∈ everFreed st.history ↔ st.Gone b
  dead : ∀ a ∈ everDestroyed st.history, st.Gone a.block

theorem Ledger.initial : Ledger ({} : Store T) where
  objects := .empty
  freed_nodup := .nil
  freed_iff b := by
    constructor
    · intro hb
      cases hb
    · exact fun hb => absurd hb.1 (Nat.not_lt_zero b)
  dead a ha := by cases ha

theorem Ledger.blocks (h : Ledger st) (hb : Blocks st bs) :
    Balanced (List.range st.fresh) (everFreed st.history) fun i => (bs i).map Prod.fst where
  made_nodup := List.nodup_range
  gone_nodup := h.freed_nodup
  owned_nodup i := (hb.chain i).linked.nodup
  separate := hb.separate
  kept i b hmem hgone := hb.mem_live hmem ((h.freed_iff b).mp hgone).2
  account b := by
    rw [List.mem_range, h.freed_iff b]
    constructor
    · intro hlt
      by_cases hnone : st.blocks b = none
      · exact .inl ⟨hlt, hnone⟩
      · exact .inr (hb.live b hnone)
    · rintro (hgone | ⟨i, hi⟩)
      · exact hgone.1
      · exact hb.fresh b (hb.mem_live hi)

theorem Ledger.quiet (h : Ledger st) (hquiet : Quiet st st')
    (hcreated : created st'.history = created st.history) : Ledger st' where
  objects := by
    rw [hquiet.created, hquiet.destroyed, hcreated]
    exact h.objects
  freed_nodup := by
    rw [hquiet.freed]
    exact h.freed_nodup
  freed_iff b := by rw [hquiet.freed, h.freed_iff, hquiet.gone]
  dead a ha := by
    rw [hquiet.destroyed] at ha
    exact (hquiet.gone _).mpr (h.dead a ha)

/-- The end of a call of `Create`. The object was not created before, since the objects in its
block are listed. -/
theorem Ledger.finished {ptr : Address} (h : Ledger st) (hblocks : Blocks st bs)
    (hadd : addObjectPointer this ptr st = .ok st')
    (howned : ∃ r ∈ handedOut st.history this, r.address = ptr)
    (hnew : ∀ i, ptr ∉ created st.history i)
    (hcreated : ∀ i, created (finish this ptr st').history i =
      if i = this then created st.history i ++ [ptr] else created st.history i) :
    Ledger (finish this ptr st') := by
  have hquiet := addObjectPointer_quiet hadd
  obtain ⟨r, hr, rfl⟩ := howned
  have hlive := hblocks.mem_live ((hblocks.chain this).placed r hr).block
  have hfresh : r.address ∉ everCreated st.history := by
    intro hmem
    rcases (h.objects.account _).mp hmem with hdestroyed | ⟨i, hi⟩
    · exact hlive (h.dead _ hdestroyed).2
    · exact hnew i hi
  have hthis : created (finish this r.address st').history this =
      created st.history this ++ [r.address] := by rw [hcreated, if_pos rfl]
  have hmade := h.objects.make hfresh hthis fun j hj => by rw [hcreated, if_neg hj]
  have hdestroyed : everDestroyed (finish this r.address st').history =
      everDestroyed st.history := hquiet.destroyed
  have hfreed : everFreed (finish this r.address st').history = everFreed st.history :=
    hquiet.freed
  have hgone : ∀ b, (finish this r.address st').Gone b ↔ st.Gone b := hquiet.gone
  refine ⟨?_, ?_, fun b => ?_, fun a ha => ?_⟩
  · rw [← hquiet.created, ← hdestroyed] at hmade
    exact hmade
  · rw [hfreed]
    exact h.freed_nodup
  · rw [hfreed, h.freed_iff, hgone]
  · rw [hdestroyed] at ha
    exact (hgone _).mpr (h.dead a ha)

mutual

theorem create_ledger : ∀ (c : Creation T) {st st' : Store T} {bs : ℕ → List (ℕ × Block)}
    {cs : ℕ → List (Address × Pointers)} {ptr : Address}, Holds st bs cs → Ledger st →
    create c st = .ok (ptr, st') → Ledger st'
  | ⟨this, type, constructor⟩, st, st', bs, cs, ptr, h, hledger, hrun => by
    obtain ⟨⟨object, st₁⟩, hallocate, hrun⟩ := Except.bind_eq_ok.mp hrun
    obtain ⟨st₂, hall, hrun⟩ := Except.bind_eq_ok.mp hrun
    obtain ⟨st₃, hadd, hrun⟩ := Except.bind_eq_ok.mp hrun
    cases hrun
    obtain ⟨_, _, bs₁, heq, hb₁, hallocated⟩ := allocate_spec h.blocks this type
    rw [hallocate] at heq
    cases heq
    obtain ⟨h₁, -⟩ := h.allocated hb₁ hallocated
    obtain ⟨_, bs₂, cs₂, heq, h₂, hgrowth₂, hapart⟩ := createAll_spec constructor h₁
    rw [hall] at heq
    cases heq
    have hledger₂ := createAll_ledger constructor h₁
      (hledger.quiet (allocate_quiet hallocate) hallocated.created) hall
    have hnew := h.unlisted hallocated hapart
    have howned : ∃ r ∈ handedOut st₂.history this, r.address = ptr :=
      ⟨_, hgrowth₂.handedOut this _ hallocated.mem_handedOut, rfl⟩
    obtain ⟨_, bs₃, cs₃, heq, -, -, hcreated⟩ := h₂.pushed (hnew this) howned
    rw [hadd] at heq
    cases heq
    exact hledger₂.finished h₂.blocks hadd howned hnew hcreated

theorem createAll_ledger : ∀ (l : List (Creation T)) {st st' : Store T}
    {bs : ℕ → List (ℕ × Block)} {cs : ℕ → List (Address × Pointers)}, Holds st bs cs → Ledger st →
    createAll l st = .ok st' → Ledger st'
  | [], st, st', bs, cs, h, hledger, hrun => by
    cases hrun
    exact hledger
  | c :: l, st, st', bs, cs, h, hledger, hrun => by
    obtain ⟨⟨ptr, st₁⟩, hcreate, hrun⟩ := Except.bind_eq_ok.mp hrun
    obtain ⟨_, _, bs₁, cs₁, heq, h₁, -, -⟩ := create_spec c h
    rw [hcreate] at heq
    cases heq
    exact createAll_ledger l h₁ (create_ledger c h hledger hcreate) hrun

end

theorem ever_wiped (objects : List Address) (keys : List ℕ) :
    everCreated (wiped this objects keys st).history = everCreated st.history ∧
      everDestroyed (wiped this objects keys st).history =
        objects.reverse ++ everDestroyed st.history ∧
      everFreed (wiped this objects keys st).history = keys.reverse ++ everFreed st.history := by
  simp [history_wiped, everCreated, everDestroyed, everFreed, List.filterMap_append,
    List.filterMap_reverse, List.filterMap_map]

theorem gone_wiped {objects : List Address} {keys : List ℕ} (hkeys : ∀ b ∈ keys, b < st.fresh)
    (b : ℕ) : (wiped this objects keys st).Gone b ↔ b ∈ keys ∨ st.Gone b := by
  have hblocks : (wiped this objects keys st).blocks b = if b ∈ keys then none else st.blocks b :=
    rfl
  have hfresh : (wiped this objects keys st).fresh = st.fresh := rfl
  rw [Store.Gone, Store.Gone, hblocks, hfresh]
  by_cases hb : b ∈ keys
  · simp [hb, hkeys b hb]
  · simp [hb]

/-- A reset destroys the objects of the allocator and frees its blocks. -/
theorem Ledger.wiped (h : Ledger st) (hholds : Holds st bs cs) (this : ℕ) :
    Ledger (wiped this (created st.history this) ((bs this).map Prod.fst) st) := by
  obtain ⟨hcreated, hdestroyed, hfreed⟩ :=
    @ever_wiped T st this (created st.history this) ((bs this).map Prod.fst)
  have hkeys : ∀ b ∈ (bs this).map Prod.fst, b < st.fresh :=
    fun b hb => hholds.blocks.fresh b (hholds.blocks.mem_live hb)
  have hlisted : ∀ i, created (BlockAllocator.wiped this (created st.history this)
      ((bs this).map Prod.fst) st).history i = if i = this then [] else created st.history i :=
    fun i => (collected_wiped _ _ i).1
  have howned : ∀ a ∈ created st.history this, a.block ∈ (bs this).map Prod.fst := by
    intro a ha
    obtain ⟨r, hr, rfl⟩ := (hholds.objects this).owned a ha
    exact ((hholds.blocks.chain this).placed r hr).block
  refine ⟨?_, ?_, fun b => ?_, fun a ha => ?_⟩
  · rw [hcreated, hdestroyed]
    refine h.objects.giveUp ?_ fun j hj => ?_
    · rw [hlisted, if_pos rfl]
    · rw [hlisted, if_neg hj]
  · rw [hfreed, List.nodup_append]
    refine ⟨List.nodup_reverse.mpr (hholds.blocks.chain this).linked.nodup, h.freed_nodup,
      fun b hb c hc heq => ?_⟩
    exact (h.blocks hholds.blocks).kept this b (List.mem_reverse.mp hb) (heq ▸ hc)
  · rw [hfreed, gone_wiped hkeys, List.mem_append, List.mem_reverse, h.freed_iff]
  · rw [hdestroyed, List.mem_append, List.mem_reverse] at ha
    rw [gone_wiped hkeys]
    rcases ha with ha | ha
    · exact .inl (howned a ha)
    · exact .inr (h.dead a ha)

theorem Ledger.congr (h : Ledger st) (hhistory : st'.history = st.history)
    (hblocks : st'.blocks = st.blocks) (hfresh : st'.fresh = st.fresh) : Ledger st' :=
  h.quiet (.of_eq hhistory hblocks hfresh) (by rw [hhistory])

theorem Ledger.swapped (h : Ledger st) (this rhs : ℕ) : Ledger (swap this rhs st) where
  objects := h.objects.passOn (Equiv.swap this rhs)
  freed_nodup := h.freed_nodup
  freed_iff := h.freed_iff
  dead := h.dead

theorem step_ledger {op : Operation T} (hholds : Holds st bs cs) (h : Ledger st)
    (hstep : step st op = .ok st') : Ledger st' := by
  cases op with
  | construct this =>
    cases hstep
    exact h.congr rfl rfl rfl
  | create c =>
    obtain ⟨⟨ptr, st₁⟩, hcreate, hstep⟩ := Except.bind_eq_ok.mp hstep
    cases hstep
    exact create_ledger c hholds h hcreate
  | reset this =>
    rw [step, reset_eq hholds this] at hstep
    cases hstep
    exact h.wiped hholds this
  | moveConstruct this rhs =>
    cases hstep
    have hnew : Ledger (st.setData this (Data.initial T)) := h.congr rfl rfl rfl
    exact hnew.swapped this rhs
  | moveAssign this rhs =>
    by_cases hself : this = rhs
    · rw [step, if_pos hself] at hstep
      cases hstep
      exact h
    · rw [step, if_neg hself, reset_eq hholds this] at hstep
      cases hstep
      exact (h.wiped hholds this).swapped this rhs
  | destroy this =>
    rw [step, reset_eq hholds this] at hstep
    cases hstep
    exact (h.wiped hholds this).congr rfl rfl rfl

theorem reachable_ledger (h : Reachable st) : ∃ bs cs, Holds st bs cs ∧ Ledger st := by
  induction h with
  | initial => exact ⟨_, _, .initial, .initial⟩
  | step _ hop hstep ih =>
    obtain ⟨bs, cs, hholds, h⟩ := ih
    obtain ⟨st', bs', cs', hrun, hholds'⟩ := step_spec hholds hop
    rw [hstep] at hrun
    cases hrun
    exact ⟨bs', cs', hholds', step_ledger hholds h hstep⟩

end Ledgers

section Ownership

/-- A loop over the objects of an allocator visits these. -/
def Lists (st : Store T) (this : ℕ) (objects : List Address) : Prop :=
  ∃ n, iterate (List.replicate n {}) (begin this st) st = .ok (objects, past, st)

theorem Holds.lists_iff (h : Holds st bs cs) {objects : List Address} :
    Lists st this objects ↔ objects = created st.history this := by
  constructor
  · intro hlists
    obtain ⟨n, hrun⟩ := hlists
    obtain ⟨objects', it, st', -, -, hrun', -, -, hpast, -, -⟩ :=
      iterate_begin h this (List.replicate n {})
    rw [hrun] at hrun'
    cases hrun'
    exact hpast.mp rfl
  · rintro rfl
    refine ⟨(st.data this).count, iterate_all h this (fun r hr => ?_) ?_⟩
    · rw [List.eq_of_mem_replicate hr]
      exact ⟨rfl, rfl⟩
    · simp only [List.length_replicate, Nat.le_refl]

theorem Holds.created_nil (h : Holds st bs cs) (hthis : ¬ st.Exists this) :
    created st.history this = [] := by
  have hcount := (h.objects this).count_eq
  rw [Store.data_of_not_exists hthis] at hcount
  exact List.eq_nil_of_length_eq_zero hcount.symm

/-- Each object has one owner until it is destroyed, and each block until it is freed. When no
allocator is left, all objects are destroyed and all blocks, which are numbered from zero, are
freed. -/
structure OwnedOnce (st : Store T) : Prop where
  count : ∀ i, st.Exists i → ∃ objects, Lists st i objects ∧ (st.data i).count = objects.length
  listed : ∀ a ∈ everCreated st.history, a ∉ everDestroyed st.history → ∃ i, st.Exists i ∧
    (∃ objects, Lists st i objects ∧ objects.count a = 1) ∧
    ∀ j objects, Lists st j objects → a ∈ objects → j = i
  alive : ∀ i objects, Lists st i objects → ∀ a ∈ objects,
    a ∈ everCreated st.history ∧ a ∉ everDestroyed st.history
  created_once : (everCreated st.history).Nodup
  destroyed_once : (everDestroyed st.history).Nodup
  destroyed_created : ∀ a ∈ everDestroyed st.history, a ∈ everCreated st.history
  freed_once : (everFreed st.history).Nodup
  live_iff : ∀ b, st.blocks b ≠ none ↔ b < st.fresh ∧ b ∉ everFreed st.history
  ended : (∀ i, ¬ st.Exists i) → (everDestroyed st.history).Perm (everCreated st.history) ∧
    (everFreed st.history).Perm (List.range st.fresh)

theorem Ledger.ownedOnce (h : Ledger st) (hholds : Holds st bs cs) : OwnedOnce st where
  count i _ := ⟨_, hholds.lists_iff.mpr rfl, (hholds.objects i).count_eq⟩
  listed a ha hgone := by
    obtain ⟨i, hi, hunique⟩ := h.objects.owner ha hgone
    refine ⟨i, ?_, ⟨_, hholds.lists_iff.mpr rfl, ?_⟩, fun j objects hlists hmem => ?_⟩
    · by_contra hexists
      rw [hholds.created_nil hexists] at hi
      cases hi
    · exact List.count_eq_one_of_mem (hholds.objects i).distinct hi
    · rw [hholds.lists_iff.mp hlists] at hmem
      exact hunique j hmem
  alive i objects hlists a ha := by
    rw [hholds.lists_iff.mp hlists] at ha
    exact ⟨(h.objects.account a).mpr (.inr ⟨i, ha⟩), h.objects.kept i a ha⟩
  created_once := h.objects.made_nodup
  destroyed_once := h.objects.gone_nodup
  destroyed_created a ha := (h.objects.account a).mpr (.inl ha)
  freed_once := h.freed_nodup
  live_iff b := by
    rw [h.freed_iff, Store.Gone]
    constructor
    · exact fun hlive => ⟨hholds.blocks.fresh b hlive, fun hgone => hlive hgone.2⟩
    · exact fun hlive hnone => hlive.2 ⟨hlive.1, hnone⟩
  ended hnone := by
    refine ⟨h.objects.perm_of_nil fun i => hholds.created_nil (hnone i),
      (h.blocks hholds.blocks).perm_of_nil fun i => ?_⟩
    rw [hholds.chain_nil (hnone i), List.map_nil]

/-- In every run no operation fails, and the objects and the blocks are owned once. -/
theorem objects_owned_once (h : Reachable st) :
    (∀ op : Operation T, op.Allowed st → ∃ st', step st op = .ok st') ∧ OwnedOnce st := by
  obtain ⟨bs, cs, hholds, h⟩ := reachable_ledger h
  refine ⟨fun op hop => ?_, h.ownedOnce hholds⟩
  obtain ⟨st', -, -, hrun, -⟩ := step_spec hholds hop
  exact ⟨st', hrun⟩

theorem objects_owned_once_ints : ∃ st st' : Store intTemplate, createInts 2 noInts = .ok st ∧
    step st (.destroy 0) = .ok st' ∧ everDestroyed st'.history = [⟨0, 288⟩, ⟨0, 0⟩] ∧
    everFreed st'.history = [0] ∧ OwnedOnce st' := by
  obtain ⟨st, hrun, h⟩ := ints_reachable 2
  have hexists : st.Exists 0 := by
    have hsome : (createInts 2 noInts).map (fun st => (st.allocators 0).isSome) = .ok true := by
      decide +kernel
    rw [hrun] at hsome
    exact Except.ok.inj hsome
  obtain ⟨st', hstep⟩ := (objects_owned_once h).1 (.destroy 0) hexists
  have hends : (createInts 2 noInts >>= fun st => step st (.destroy 0)).map (fun st =>
      (everDestroyed st.history, everFreed st.history)) = .ok ([⟨0, 288⟩, ⟨0, 0⟩], [0]) := by
    decide +kernel
  simp only [hrun, hstep, bind, Except.bind, Except.map] at hends
  have hends := Prod.mk.inj (Except.ok.inj hends)
  have hreached : Reachable st' := @Reachable.step _ _ _ (.destroy 0) h hexists hstep
  exact ⟨st, st', hrun, hstep, hends.1, hends.2, (objects_owned_once hreached).2⟩

end Ownership

end Langsvr.BlockAllocator
