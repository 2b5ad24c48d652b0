import Langsvr.BlockAllocators
import Langsvr.LinkedLists

/-!
# The blocks of the allocators

The blocks of an allocator are linked from the first to the current one, and what has been handed
out lies in them without overlaps. An allocation keeps this up, with a new block where the current
one has no room.
-/

namespace Langsvr.BlockAllocator

open LinkedLists (Segment segment_nil_iff segment_snoc_iff)

variable {T : Template}

section Histories

/-- What an allocator was given since it was last reset, the oldest first. A move takes it
along. -/
def collected {α : Type} (pick : Event T → Option (ℕ × α)) : List (Event T) → ℕ → List α
  | [], _ => []
  | .reset this :: es, i => if i = this then [] else collected pick es i
  | .swapped this rhs :: es, i => collected pick es (Equiv.swap this rhs i)
  | e :: es, i =>
    match pick e with
    | some (this, x) => if i = this then collected pick es i ++ [x] else collected pick es i
    | none => collected pick es i

def handedOut (history : List (Event T)) : ℕ → List (Region T) :=
  collected (fun
    | .allocated this region => some (this, region)
    | _ => none) history

def created (history : List (Event T)) : ℕ → List Address :=
  collected (fun
    | .created this object => some (this, object)
    | _ => none) history

variable {history : List (Event T)} {this rhs i : ℕ}

theorem handedOut_allocated {r : Region T} : handedOut (.allocated this r :: history) i =
    if i = this then handedOut history i ++ [r] else handedOut history i := rfl

@[simp] theorem handedOut_created {a : Address} :
    handedOut (.created this a :: history) = handedOut history := rfl

@[simp] theorem handedOut_destroyed {a : Address} :
    handedOut (.destroyed a :: history) = handedOut history := rfl

@[simp] theorem handedOut_freed {b : ℕ} : handedOut (.freed b :: history) = handedOut history := rfl

theorem handedOut_reset : handedOut (.reset this :: history) i =
    if i = this then [] else handedOut history i := rfl

theorem handedOut_swapped : handedOut (.swapped this rhs :: history) i =
    handedOut history (Equiv.swap this rhs i) := rfl

@[simp] theorem created_allocated {r : Region T} :
    created (.allocated this r :: history) = created history := rfl

theorem created_created {a : Address} : created (.created this a :: history) i =
    if i = this then created history i ++ [a] else created history i := rfl

@[simp] theorem created_destroyed {a : Address} :
    created (.destroyed a :: history) = created history := rfl

@[simp] theorem created_freed {b : ℕ} : created (.freed b :: history) = created history := rfl

theorem created_reset : created (.reset this :: history) i =
    if i = this then [] else created history i := rfl

theorem created_swapped : created (.swapped this rhs :: history) i =
    created history (Equiv.swap this rhs i) := rfl

end Histories

section Arithmetic

theorem sizeT_of_lt {n : ℕ} (h : n < 2 ^ 64) : sizeT n = n := Nat.mod_eq_of_lt h

theorem TypeLayout.alignment_pos {B : BlockParameters} (type : TypeLayout B) :
    0 < type.alignment :=
  Nat.pos_of_dvd_of_pos type.alignment_dvd B.alignment_pos

theorem TypeLayout.alignment_le {B : BlockParameters} (type : TypeLayout B) :
    type.alignment ≤ B.blockAlignment :=
  Nat.le_of_dvd B.alignment_pos type.alignment_dvd

theorem roundUp_spec (type : T.Layout) {offset : ℕ} (h : offset ≤ T.blockSize) :
    type.alignment ∣ roundUp type.alignment offset ∧ offset ≤ roundUp type.alignment offset ∧
      sizeT (roundUp type.alignment offset + type.size) =
        roundUp type.alignment offset + type.size := by
  have hpos := type.alignment_pos
  have hle := type.alignment_le
  have hsize := type.size_le
  have hfits := T.fits
  have hsum : sizeT (offset + type.alignment - 1) = offset + type.alignment - 1 :=
    sizeT_of_lt (by omega)
  have hmod := Nat.mod_lt (offset + type.alignment - 1) hpos
  have hdiv := Nat.div_add_mod (offset + type.alignment - 1) type.alignment
  rw [Nat.mul_comm] at hdiv
  have hround : roundUp type.alignment offset =
      (offset + type.alignment - 1) / type.alignment * type.alignment := by
    rw [roundUp, hsum]
    exact sizeT_of_lt (by omega)
  rw [hround]
  exact ⟨Nat.dvd_mul_left _ _, by omega, sizeT_of_lt (by omega)⟩

end Arithmetic

section Chains

def Region.Disjoint (r s : Region T) : Prop :=
  r.address.block ≠ s.address.block ∨ r.address.offset + r.type.size ≤ s.address.offset ∨
    s.address.offset + s.type.size ≤ r.address.offset

theorem Region.Disjoint.symm {r s : Region T} (h : r.Disjoint s) : s.Disjoint r := by
  rcases h with h | h | h
  · exact .inl h.symm
  · exact .inr (.inr h)
  · exact .inr (.inl h)

theorem Region.Disjoint.address_ne {r s : Region T} (h : r.Disjoint s) : r.address ≠ s.address := by
  intro heq
  have hr := r.type.size_pos
  have hs := s.type.size_pos
  rw [Region.Disjoint, heq] at h
  omega

/-- A region lies in one of the blocks and starts at a multiple of its alignment. -/
structure Region.Placed (r : Region T) (bs : List (ℕ × Block)) : Prop where
  block : r.address.block ∈ bs.map Prod.fst
  fits : r.address.offset + r.type.size ≤ T.blockSize
  aligned : r.type.alignment ∣ r.address.offset

/-- The blocks of an allocator, and the regions in them. In the current block they lie before the
offset of the next one. -/
structure BlockChain (T : Template) (blocks : ℕ → Option Block) (data : Data)
    (regions : List (Region T)) (bs : List (ℕ × Block)) : Prop where
  linked : Segment Block.next blocks data.root bs none
  current : data.current = bs.getLast?.map Prod.fst
  offset_le : data.currentOffset ≤ T.blockSize
  offset_eq : bs = [] → data.currentOffset = T.blockSize
  placed : ∀ r ∈ regions, r.Placed bs
  before : ∀ r ∈ regions, data.current = some r.address.block →
    r.address.offset + r.type.size ≤ data.currentOffset
  disjoint : regions.Pairwise Region.Disjoint

variable {blocks blocks' : ℕ → Option Block} {data : Data} {regions : List (Region T)}
  {bs : List (ℕ × Block)}

theorem BlockChain.initial : BlockChain T blocks (Data.initial T) [] [] where
  linked := .nil none
  current := rfl
  offset_le := Nat.le_refl _
  offset_eq _ := rfl
  placed r hr := by cases hr
  before r hr := by cases hr
  disjoint := .nil

theorem BlockChain.congr (h : BlockChain T blocks data regions bs)
    (hblocks : ∀ b ∈ bs.map Prod.fst, blocks' b = blocks b) :
    BlockChain T blocks' data regions bs :=
  { h with linked := h.linked.congr fun p hp => hblocks p.1 (List.mem_map_of_mem hp) }

/-- A region is handed out behind all others in the current block. -/
theorem BlockChain.push (h : BlockChain T blocks data regions bs) (type : T.Layout) {b offset : ℕ}
    (hb : data.current = some b) (hle : data.currentOffset ≤ offset)
    (hfits : offset + type.size ≤ T.blockSize) (haligned : type.alignment ∣ offset) :
    BlockChain T blocks { data with currentOffset := offset + type.size }
        (regions ++ [⟨⟨b, offset⟩, type⟩]) bs ∧
      ∀ r ∈ regions, r.Disjoint ⟨⟨b, offset⟩, type⟩ := by
  have hmem : b ∈ bs.map Prod.fst := by
    have hcurrent := h.current
    rw [hb] at hcurrent
    obtain ⟨p, hp, hpb⟩ := Option.map_eq_some_iff.mp hcurrent.symm
    exact List.mem_map.mpr ⟨p, List.mem_of_getLast? hp, hpb⟩
  have hapart : ∀ r ∈ regions, r.Disjoint ⟨⟨b, offset⟩, type⟩ := by
    intro r hr
    by_cases hrb : r.address.block = b
    · have hbefore := h.before r hr (by rw [hb, hrb])
      exact .inr (.inl (Nat.le_trans hbefore hle))
    · exact .inl hrb
  refine ⟨⟨h.linked, h.current, hfits, fun hnil => ?_, fun r hr => ?_, fun r hr hcurrent => ?_, ?_⟩,
    hapart⟩
  · rw [hnil] at hmem
    cases hmem
  · rcases List.mem_append.mp hr with hr | hr
    · exact h.placed r hr
    · rw [List.mem_singleton.mp hr]
      exact ⟨hmem, hfits, haligned⟩
  · rcases List.mem_append.mp hr with hr | hr
    · have hbefore := h.before r hr hcurrent
      simp only
      omega
    · cases List.mem_singleton.mp hr
      exact Nat.le_refl _
  · refine List.pairwise_append.mpr ⟨h.disjoint, List.pairwise_singleton _ _, fun r hr s hs => ?_⟩
    rw [List.mem_singleton.mp hs]
    exact hapart r hr

end Chains

section Allocation

@[simp] theorem Store.data_setData {st : Store T} {this i : ℕ} {data : Data} :
    (st.setData this data).data i = if i = this then data else st.data i := by
  by_cases h : i = this
  · simp [Store.data, Store.setData, h]
  · simp [Store.data, Store.setData, h]

theorem Store.proj_setData {β : Type} (f : Data → β) {st : Store T} {this : ℕ} {data : Data}
    (hf : f data = f (st.data this)) (i : ℕ) :
    f ((st.setData this data).data i) = f (st.data i) := by
  rw [data_setData]
  by_cases hi : i = this
  · rw [if_pos hi, hf, hi]
  · rw [if_neg hi]

@[simp] theorem Store.data_record {st : Store T} {i : ℕ} {event : Event T} :
    (st.record event).data i = st.data i := rfl

theorem Store.block_eq_ok {st : Store T} {b : ℕ} {block : Block} (h : st.blocks b = some block) :
    st.block (some b) = .ok block := by
  simp only [Store.block, h]

/-- The blocks of all allocators. No block is on two chains, and every live block is on one. -/
structure Blocks (st : Store T) (bs : ℕ → List (ℕ × Block)) : Prop where
  chain : ∀ i, BlockChain T st.blocks (st.data i) (handedOut st.history i) (bs i)
  separate : ∀ i j, i ≠ j → ∀ b ∈ (bs i).map Prod.fst, b ∉ (bs j).map Prod.fst
  live : ∀ b, st.blocks b ≠ none → ∃ i, b ∈ (bs i).map Prod.fst
  fresh : ∀ b, st.blocks b ≠ none → b < st.fresh

/-- What an allocation leaves as it was, and that the new region overlaps with none before. -/
structure Allocated (this : ℕ) (type : T.Layout) (st st' : Store T) (ptr : Address) : Prop where
  history : st'.history = .allocated this ⟨ptr, type⟩ :: st.history
  chunks : st'.chunks = st.chunks
  others : ∀ j, j ≠ this → st'.allocators j = st.allocators j
  this_exists : st'.Exists this
  pointersRoot : (st'.data this).pointersRoot = (st.data this).pointersRoot
  pointersCurrent : (st'.data this).pointersCurrent = (st.data this).pointersCurrent
  count : (st'.data this).count = (st.data this).count
  apart : ∀ j, ∀ r ∈ handedOut st.history j, r.Disjoint ⟨ptr, type⟩

variable {st : Store T} {bs : ℕ → List (ℕ × Block)} {this : ℕ} {type : T.Layout}

theorem Blocks.mem_live (h : Blocks st bs) {i b : ℕ} (hb : b ∈ (bs i).map Prod.fst) :
    st.blocks b ≠ none := by
  obtain ⟨p, hp, rfl⟩ := List.mem_map.mp hb
  rw [(h.chain i).linked.lookup hp]
  simp

theorem Blocks.fresh_notMem (h : Blocks st bs) {i : ℕ} : st.fresh ∉ (bs i).map Prod.fst := by
  intro hmem
  exact Nat.lt_irrefl _ (h.fresh _ (h.mem_live hmem))

theorem Blocks.replace {st' : Store T} {l : List (ℕ × Block)} (h : Blocks st bs)
    (hthis : BlockChain T st'.blocks (st'.data this) (handedOut st'.history this) l)
    (hothers : ∀ i, i ≠ this →
      st'.data i = st.data i ∧ handedOut st'.history i = handedOut st.history i)
    (hdisjoint : ∀ i, i ≠ this → ∀ b ∈ (bs i).map Prod.fst, b ∉ l.map Prod.fst)
    (hsame : ∀ b, b ∉ (bs this).map Prod.fst → b ∉ l.map Prod.fst → st'.blocks b = st.blocks b)
    (hgone : ∀ b ∈ (bs this).map Prod.fst, b ∉ l.map Prod.fst → st'.blocks b = none)
    (hfresh : ∀ b, st'.blocks b ≠ none → b < st'.fresh) :
    Blocks st' (Function.update bs this l) where
  chain i := by
    by_cases hi : i = this
    · subst hi
      rw [Function.update_self]
      exact hthis
    · rw [(hothers i hi).1, (hothers i hi).2, Function.update_of_ne hi]
      exact (h.chain i).congr fun b hb => hsame b (h.separate i this hi b hb) (hdisjoint i hi b hb)
  separate i j hij b hb := by
    by_cases hi : i = this
    · subst hi
      rw [Function.update_self] at hb
      rw [Function.update_of_ne hij.symm]
      exact fun hbj => hdisjoint j hij.symm b hbj hb
    · rw [Function.update_of_ne hi] at hb
      by_cases hj : j = this
      · subst hj
        rw [Function.update_self]
        exact hdisjoint i hi b hb
      · rw [Function.update_of_ne hj]
        exact h.separate i j hij b hb
  live b hb := by
    by_cases hbl : b ∈ l.map Prod.fst
    · exact ⟨this, by rw [Function.update_self]; exact hbl⟩
    · have hold : b ∉ (bs this).map Prod.fst := fun hmem => hb (hgone b hmem hbl)
      rw [hsame b hold hbl] at hb
      obtain ⟨i, hi⟩ := h.live b hb
      have hne : i ≠ this := fun heq => hold (heq ▸ hi)
      exact ⟨i, by rw [Function.update_of_ne hne]; exact hi⟩
  fresh := hfresh

/-- A new block becomes the current one, behind the last block of the chain. -/
theorem newBlock_spec (data : Data) {l : List (ℕ × Block)}
    (hlinked : Segment Block.next st.blocks data.root l none)
    (hcurrent : data.current = l.getLast?.map Prod.fst) (hfresh : st.fresh ∉ l.map Prod.fst) :
    ∃ root blocks' l', newBlock data st =
        .ok ({ data with root := root, current := some st.fresh, currentOffset := 0 },
          { st with blocks := blocks', fresh := st.fresh + 1 }) ∧
      Segment Block.next blocks' root l' none ∧ l'.map Prod.fst = l.map Prod.fst ++ [st.fresh] ∧
      (∀ b, b ∉ l.map Prod.fst → b ≠ st.fresh → blocks' b = st.blocks b) ∧
      ∀ b, blocks' b ≠ none → b = st.fresh ∨ st.blocks b ≠ none := by
  rcases List.eq_nil_or_concat' l with rfl | ⟨l, ⟨prev, block⟩, rfl⟩
  · refine ⟨some st.fresh, Function.update st.blocks st.fresh (some {}), [(st.fresh, {})], ?_, ?_,
      rfl, fun b _ hb => Function.update_of_ne hb _ _, fun b hb => ?_⟩
    · rw [newBlock, hcurrent]
      rfl
    · exact .cons (Function.update_self ..) (.nil none)
    · by_cases hbf : b = st.fresh
      · exact .inl hbf
      · rw [Function.update_of_ne hbf] at hb
        exact .inr hb
  · obtain ⟨-, hprev, -⟩ := segment_snoc_iff.mp hlinked
    have hne : ∀ p ∈ l ++ [(prev, block)], p.1 ≠ st.fresh := by
      intro p hp heq
      exact hfresh (heq ▸ List.mem_map_of_mem hp)
    refine ⟨data.root, Function.update (Function.update st.blocks st.fresh (some {})) prev
      (some { block with next := some st.fresh }),
      l ++ [(prev, { block with next := some st.fresh })] ++ [(st.fresh, { next := none })], ?_,
      hlinked.push hne rfl rfl, ?_,
      fun b hb hbf => ?_, fun b hb => ?_⟩
    · have hread : ({ st.setBlock st.fresh {} with fresh := st.fresh + 1 } : Store T).block
          (some prev) = .ok block := by
        apply Store.block_eq_ok
        exact (Function.update_of_ne (hne _ List.mem_concat_self) _ _).trans hprev
      rw [List.getLast?_concat] at hcurrent
      rw [newBlock, hcurrent]
      simp only [Option.map_some, hread]
      rfl
    · simp
    · have hbprev : b ≠ prev := by
        intro heq
        apply hb
        rw [heq, List.map_append]
        exact List.mem_concat_self
      rw [Function.update_of_ne hbprev, Function.update_of_ne hbf]
    · by_cases hbf : b = st.fresh
      · exact .inl hbf
      · by_cases hbprev : b = prev
        · rw [hbprev, hprev]
          exact .inr (by simp)
        · rw [Function.update_of_ne hbprev, Function.update_of_ne hbf] at hb
          exact .inr hb

theorem allocate_eq {data : Data} {st₁ : Store T} {b : ℕ} {block : Block}
    (hroom : makeRoom this type st = .ok (data, st₁)) (hcurrent : data.current = some b)
    (hb : st₁.blocks b = some block) : allocate this type st = .ok (⟨b, data.currentOffset⟩,
      (st₁.setData this
        { data with currentOffset := sizeT (data.currentOffset + type.size) }).record
          (.allocated this ⟨⟨b, data.currentOffset⟩, type⟩)) := by
  simp only [allocate, hroom, bind, Except.bind, hcurrent, Store.block_eq_ok hb, pure, Except.pure]

/-- The regions of other allocators are in other blocks. -/
theorem Blocks.apart (h : Blocks st bs) {b offset i : ℕ} (hb : ∀ j, j ≠ i → b ∉ (bs j).map Prod.fst)
    (hi : ∀ r ∈ handedOut st.history i, r.Disjoint ⟨⟨b, offset⟩, type⟩) (j : ℕ) :
    ∀ r ∈ handedOut st.history j, r.Disjoint ⟨⟨b, offset⟩, type⟩ := by
  intro r hr
  by_cases hji : j = i
  · rw [hji] at hr
    exact hi r hr
  · refine .inl fun heq => hb j hji ?_
    have hplaced := ((h.chain j).placed r hr).block
    rw [heq] at hplaced
    exact hplaced

/-- The end of an allocation: the region is in the block that has room for it. -/
theorem allocate_room (h : Blocks st bs) {data : Data} {blocks' : ℕ → Option Block} {fresh' b : ℕ}
    {l : List (ℕ × Block)}
    (hroom : makeRoom this type st = .ok (data, { st with blocks := blocks', fresh := fresh' }))
    (hcurrent : data.current = some b)
    (hchain : BlockChain T blocks'
      { data with currentOffset := sizeT (data.currentOffset + type.size) }
      (handedOut st.history this ++ [⟨⟨b, data.currentOffset⟩, type⟩]) l)
    (hapart : ∀ r ∈ handedOut st.history this, r.Disjoint ⟨⟨b, data.currentOffset⟩, type⟩)
    (hothers : ∀ j, j ≠ this → b ∉ (bs j).map Prod.fst)
    (hkeys : ∀ k, k ∈ l.map Prod.fst ↔ k ∈ (bs this).map Prod.fst ∨ k = b)
    (hsame : ∀ k, k ∉ l.map Prod.fst → blocks' k = st.blocks k)
    (hfresh : ∀ k, blocks' k ≠ none → k < fresh')
    (hdata : (data.pointersRoot, data.pointersCurrent, data.count) =
      ((st.data this).pointersRoot, (st.data this).pointersCurrent, (st.data this).count)) :
    ∃ st' bs', allocate this type st = .ok (⟨b, data.currentOffset⟩, st') ∧ Blocks st' bs' ∧
      Allocated this type st st' ⟨b, data.currentOffset⟩ := by
  have hmem : b ∈ l.map Prod.fst := (hkeys b).mpr (.inr rfl)
  obtain ⟨⟨_, block⟩, hp, rfl⟩ := List.mem_map.mp hmem
  have hdisjoint : ∀ j, j ≠ this → ∀ k ∈ (bs j).map Prod.fst, k ∉ l.map Prod.fst := by
    intro j hj k hk hkl
    rcases (hkeys k).mp hkl with hkt | rfl
    · exact h.separate j this hj k hk hkt
    · exact hothers j hj hk
  simp only [Prod.mk.injEq] at hdata
  refine ⟨_, Function.update bs this l, allocate_eq hroom hcurrent (hchain.linked.lookup hp),
    h.replace ?_ (fun i hi => ⟨?_, ?_⟩) hdisjoint (fun k _ => hsame k)
      (fun k hk hkl => absurd ((hkeys k).mpr (.inl hk)) hkl) hfresh,
    rfl, rfl, fun j hj => ?_, ?_, ?_, ?_, ?_, h.apart hothers hapart⟩
  · simp only [Store.data_record, Store.data_setData, if_true]
    rw [Store.record, handedOut_allocated, if_pos rfl]
    exact hchain
  · rw [Store.data_record, Store.data_setData, if_neg hi]
    rfl
  · rw [Store.record, handedOut_allocated, if_neg hi]
    rfl
  · exact Function.update_of_ne hj _ _
  · simp [Store.Exists, Store.record, Store.setData]
  · simp only [Store.data_record, Store.data_setData, if_true]
    exact hdata.1
  · simp only [Store.data_record, Store.data_setData, if_true]
    exact hdata.2.1
  · simp only [Store.data_record, Store.data_setData, if_true]
    exact hdata.2.2

/-- In a new block the region is at the beginning. -/
theorem allocate_newBlock (h : Blocks st bs) (hroom : T.blockSize <
    roundUp type.alignment (st.data this).currentOffset + type.size) : ∃ ptr st' bs',
    allocate this type st = .ok (ptr, st') ∧ Blocks st' bs' ∧ Allocated this type st st' ptr := by
  have hchain := h.chain this
  obtain ⟨-, -, hsum⟩ := roundUp_spec type hchain.offset_le
  obtain ⟨root, blocks', l, hnew, hlinked, hkeys, hsame, hlive⟩ := newBlock_spec
    { st.data this with currentOffset := roundUp type.alignment (st.data this).currentOffset }
    hchain.linked hchain.current h.fresh_notMem
  have hkey : ∀ k, k ∈ l.map Prod.fst ↔ k ∈ (bs this).map Prod.fst ∨ k = st.fresh := by
    intro k
    rw [hkeys, List.mem_append, List.mem_singleton]
  have hmake : makeRoom this type st = .ok ({ st.data this with
      root := root, current := some st.fresh, currentOffset := 0 },
      { st with blocks := blocks', fresh := st.fresh + 1 }) := by
    simp only [makeRoom, hsum, if_pos hroom]
    exact hnew
  have hlast : some st.fresh = l.getLast?.map Prod.fst := by
    rw [← List.getLast?_map, hkeys, List.getLast?_concat]
  have hgrown : BlockChain T blocks' { st.data this with
      root := root, current := some st.fresh, currentOffset := 0 }
      (handedOut st.history this) l := by
    refine ⟨hlinked, hlast, Nat.zero_le _, fun hnil => ?_, fun r hr => ?_,
      fun r hr hcurrent => ?_, hchain.disjoint⟩
    · rw [hnil] at hlast
      cases hlast
    · have hplaced := hchain.placed r hr
      exact ⟨(hkey _).mpr (.inl hplaced.block), hplaced.fits, hplaced.aligned⟩
    · have hblock := (hchain.placed r hr).block
      rw [← Option.some.inj hcurrent] at hblock
      exact absurd hblock h.fresh_notMem
  obtain ⟨hpush, hapart⟩ := hgrown.push type rfl (Nat.le_refl 0)
    (by rw [Nat.zero_add]; exact type.size_le) (Nat.dvd_zero _)
  have hsize : sizeT (0 + type.size) = 0 + type.size := by
    have hle := type.size_le
    have hfits := T.fits
    exact sizeT_of_lt (by omega)
  have hfresh : ∀ k, blocks' k ≠ none → k < st.fresh + 1 := by
    intro k hk
    rcases hlive k hk with rfl | hk
    · exact Nat.lt_succ_self _
    · exact Nat.lt_succ_of_lt (h.fresh k hk)
  obtain ⟨st', bs', hrun, hblocks, hallocated⟩ := allocate_room h hmake rfl
    (by rw [hsize]; exact hpush) hapart (fun j _ => h.fresh_notMem) hkey
    (fun k hk => hsame k (fun hmem => hk ((hkey k).mpr (.inl hmem)))
      (fun heq => hk ((hkey k).mpr (.inr heq)))) hfresh rfl
  exact ⟨_, st', bs', hrun, hblocks, hallocated⟩

/-- If there is room in the current block, there is a current block, since no type is empty. -/
theorem BlockChain.exists_current {blocks : ℕ → Option Block} {data : Data}
    {regions : List (Region T)} {l : List (ℕ × Block)} (h : BlockChain T blocks data regions l)
    (hroom : data.currentOffset < T.blockSize) :
    ∃ b, data.current = some b ∧ b ∈ l.map Prod.fst := by
  rcases List.eq_nil_or_concat' l with hnil | ⟨l', p, hl⟩
  · have hoffset := h.offset_eq hnil
    omega
  · refine ⟨p.1, ?_, ?_⟩
    · rw [h.current, hl, List.getLast?_concat]
      rfl
    · rw [hl, List.map_append]
      exact List.mem_concat_self

/-- In the current block the region is behind all others. -/
theorem allocate_current (h : Blocks st bs)
    (hroom : roundUp type.alignment (st.data this).currentOffset + type.size ≤ T.blockSize) :
    ∃ ptr st' bs', allocate this type st = .ok (ptr, st') ∧ Blocks st' bs' ∧
      Allocated this type st st' ptr := by
  have hchain := h.chain this
  obtain ⟨haligned, hle, hsum⟩ := roundUp_spec type hchain.offset_le
  have hsize := type.size_pos
  obtain ⟨b, hb, hmem⟩ := hchain.exists_current (by omega)
  have hmake : makeRoom this type st = .ok ({ st.data this with
      currentOffset := roundUp type.alignment (st.data this).currentOffset },
      { st with blocks := st.blocks, fresh := st.fresh }) := by
    simp only [makeRoom, hsum, if_neg (Nat.not_lt_of_le hroom)]
  obtain ⟨hpush, hapart⟩ := hchain.push type hb hle hroom haligned
  obtain ⟨st', bs', hrun, hblocks, hallocated⟩ := allocate_room h hmake hb
    (by rw [hsum]; exact hpush) hapart (fun j hj => fun hbj => h.separate j this hj b hbj hmem)
    (fun k => ⟨.inl, fun hk => hk.elim id fun heq => heq ▸ hmem⟩) (fun k _ => rfl) h.fresh rfl
  exact ⟨_, st', bs', hrun, hblocks, hallocated⟩

/-- An allocation never fails, and it keeps the chains of blocks and the regions in them. -/
theorem allocate_spec (h : Blocks st bs) (this : ℕ) (type : T.Layout) : ∃ ptr st' bs',
    allocate this type st = .ok (ptr, st') ∧ Blocks st' bs' ∧ Allocated this type st st' ptr := by
  by_cases hroom : T.blockSize < roundUp type.alignment (st.data this).currentOffset + type.size
  · exact allocate_newBlock h hroom
  · exact allocate_current h (Nat.le_of_not_lt hroom)

end Allocation

end Langsvr.BlockAllocator
