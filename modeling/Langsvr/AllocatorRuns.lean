import Langsvr.ObjectPositions
import Mathlib.Data.List.Perm.Subperm

/-!
# Runs of the allocators

What holds of the memory and the allocators whenever no operation is running. Each operation keeps
it, so it holds of every store that a program reaches.
-/

namespace Langsvr.BlockAllocator

open LinkedLists (Segment)

variable {T : Template} {st st' st'' : Store T} {bs bs' : ℕ → List (ℕ × Block)}
  {cs cs' cs'' : ℕ → List (Address × Pointers)} {this : ℕ}

/-- The chunks of an allocator list the objects that were created in it since its last reset. They
are different objects, and each is in memory that was handed out for it. -/
structure ObjectList (objects : List Address) (regions : List (Region T)) (count : ℕ)
    (cs : List (Address × Pointers)) : Prop where
  filled : Filled cs
  listed_eq : listed cs = objects
  count_eq : count = objects.length
  distinct : objects.Nodup
  owned : ∀ a ∈ objects, ∃ r ∈ regions, r.address = a

section ObjectLists

variable {objects : List Address} {regions regions' : List (Region T)} {count : ℕ}
  {l l' : List (Address × Pointers)} {ptr : Address}

theorem ObjectList.nil : ObjectList [] regions 0 [] where
  filled :=
    { full := fun c hc => by cases hc
      last := fun c hc => by cases hc }
  listed_eq := rfl
  count_eq := rfl
  distinct := .nil
  owned a ha := by cases ha

theorem ObjectList.mono (h : ObjectList objects regions count l)
    (hregions : ∀ r ∈ regions, r ∈ regions') : ObjectList objects regions' count l where
  filled := h.filled
  listed_eq := h.listed_eq
  count_eq := h.count_eq
  distinct := h.distinct
  owned a ha := by
    obtain ⟨r, hr, hra⟩ := h.owned a ha
    exact ⟨r, hregions r hr, hra⟩

/-- One more object is listed behind the others. -/
theorem ObjectList.push (h : ObjectList objects regions count l) (hfilled : Filled l')
    (hlisted : listed l' = listed l ++ [ptr]) (hnew : ptr ∉ objects)
    (howned : ∃ r ∈ regions, r.address = ptr) :
    ObjectList (objects ++ [ptr]) regions (count + 1) l' where
  filled := hfilled
  listed_eq := by rw [hlisted, h.listed_eq]
  count_eq := by rw [List.length_append, List.length_singleton, h.count_eq]
  distinct := List.nodup_append_comm.mp (List.nodup_cons.mpr ⟨hnew, h.distinct⟩)
  owned a ha := by
    rcases List.mem_append.mp ha with ha | ha
    · exact h.owned a ha
    · rw [List.mem_singleton.mp ha]
      exact howned

end ObjectLists

structure Holds (st : Store T) (bs : ℕ → List (ℕ × Block))
    (cs : ℕ → List (Address × Pointers)) : Prop where
  blocks : Blocks st bs
  chunks : Chunks st cs
  objects : ∀ i, ObjectList (created st.history i) (handedOut st.history i) (st.data i).count (cs i)

theorem Holds.initial : Holds ({} : Store T) (fun _ => []) fun _ => [] where
  blocks :=
    { chain := fun _ => .initial
      separate := fun _ _ _ b hb => by cases hb
      live := fun b hb => absurd rfl hb
      fresh := fun b hb => absurd rfl hb }
  chunks _ := .initial
  objects _ := .nil

/-- The allocators have the data of others, as after a move. -/
theorem Holds.relabel (h : Holds st bs cs) (σ : Equiv.Perm ℕ) (hblocks : st'.blocks = st.blocks)
    (hchunks : st'.chunks = st.chunks) (hfresh : st'.fresh = st.fresh)
    (hdata : ∀ i, st'.data i = st.data (σ i))
    (hregions : ∀ i, handedOut st'.history i = handedOut st.history (σ i))
    (hcreated : ∀ i, created st'.history i = created st.history (σ i)) :
    Holds st' (fun i => bs (σ i)) fun i => cs (σ i) where
  blocks :=
    { chain := fun i => by
        rw [hblocks, hdata, hregions]
        exact h.blocks.chain (σ i)
      separate := fun i j hij => h.blocks.separate (σ i) (σ j) fun heq => hij (σ.injective heq)
      live := fun b hb => by
        rw [hblocks] at hb
        obtain ⟨i, hi⟩ := h.blocks.live b hb
        exact ⟨σ.symm i, by rwa [σ.apply_symm_apply]⟩
      fresh := fun b hb => by
        rw [hfresh]
        rw [hblocks] at hb
        exact h.blocks.fresh b hb }
  chunks i := by
    rw [hchunks, hdata, hregions]
    exact h.chunks (σ i)
  objects i := by
    rw [hcreated, hregions, hdata]
    exact h.objects (σ i)

/-- Nothing but the allocators that exist is different. -/
theorem Holds.congr (h : Holds st bs cs) (hblocks : st'.blocks = st.blocks)
    (hchunks : st'.chunks = st.chunks) (hfresh : st'.fresh = st.fresh)
    (hdata : ∀ i, st'.data i = st.data i) (hhistory : st'.history = st.history) :
    Holds st' bs cs :=
  h.relabel (Equiv.refl ℕ) hblocks hchunks hfresh hdata (fun i => by rw [hhistory]; rfl) fun i => by
    rw [hhistory]
    rfl

section Creation

/-- What creations add. -/
structure Growth (st st' : Store T) (cs cs' : ℕ → List (Address × Pointers)) : Prop where
  exists_of : ∀ i, st.Exists i → st'.Exists i
  grows : ∀ i, Grows (cs i) (cs' i)
  created : ∀ i, created st.history i <+: created st'.history i
  handedOut : ∀ i, ∀ r ∈ handedOut st.history i, r ∈ handedOut st'.history i

theorem Growth.refl (st : Store T) (cs : ℕ → List (Address × Pointers)) : Growth st st cs cs :=
  ⟨fun _ h => h, fun _ => .refl _, fun _ => List.prefix_refl _, fun _ _ h => h⟩

theorem Growth.trans (h : Growth st st' cs cs') (h' : Growth st' st'' cs' cs'') :
    Growth st st'' cs cs'' where
  exists_of i hi := h'.exists_of i (h.exists_of i hi)
  grows i := (h.grows i).trans (h'.grows i)
  created i := (h.created i).trans (h'.created i)
  handedOut i r hr := h'.handedOut i r (h.handedOut i r hr)

/-- New objects are not where memory was handed out before. -/
def Apart (st st' : Store T) : Prop := ∀ i, ∀ a ∈ created st'.history i,
  a ∈ created st.history i ∨ ∀ j, ∀ r ∈ handedOut st.history j, r.address ≠ a

theorem Apart.refl (st : Store T) : Apart st st := fun _ _ ha => .inl ha

theorem Apart.trans (h : Apart st st') (h' : Apart st' st'') (hgrowth : Growth st st' cs cs') :
    Apart st st'' := by
  intro i a ha
  rcases h' i a ha with ha | ha
  · exact h i a ha
  · exact .inr fun j r hr => ha j r (hgrowth.handedOut j r hr)

theorem Holds.allocated {ptr : Address} {type : T.Layout} (h : Holds st bs cs)
    (hblocks : Blocks st' bs') (hallocated : Allocated this type st st' ptr) :
    Holds st' bs' cs ∧ Growth st st' cs cs := by
  have hcreated := hallocated.created
  have hcount : ∀ i, (st'.data i).count = (st.data i).count := by
    intro i
    by_cases hi : i = this
    · rw [hi, hallocated.count]
    · rw [hallocated.data_eq hi]
  refine ⟨⟨hblocks, hallocated.keep_chunks h.chunks, fun i => ?_⟩, fun i => hallocated.exists_of,
    fun i => .refl _, fun i => ?_, hallocated.handedOut⟩
  · rw [hcreated, hcount]
    exact (h.objects i).mono (hallocated.handedOut i)
  · simp only [hcreated, List.prefix_refl]

/-- A new object is not listed, whatever is created in its constructor. -/
theorem Holds.unlisted {ptr : Address} {type : T.Layout} (h : Holds st bs cs)
    (hallocated : Allocated this type st st' ptr) (hapart : Apart st' st'') (i : ℕ) :
    ptr ∉ created st''.history i := by
  intro hmem
  rcases hapart i ptr hmem with hmem | hmem
  · rw [hallocated.created] at hmem
    obtain ⟨r, hr, hra⟩ := (h.objects i).owned ptr hmem
    exact (hallocated.apart i r hr).address_ne hra
  · exact hmem this _ hallocated.mem_handedOut rfl

def finish (this : ℕ) (ptr : Address) (st : Store T) : Store T :=
  (st.setData this { st.data this with count := (st.data this).count + 1 }).record
    (.created this ptr)

/-- The end of a call of `Create`: the object is listed behind the others of its allocator. -/
theorem Holds.pushed {ptr : Address} (h : Holds st bs cs)
    (hnew : ptr ∉ created st.history this)
    (howned : ∃ r ∈ handedOut st.history this, r.address = ptr) :
    ∃ st' bs' cs', addObjectPointer this ptr st = .ok st' ∧ Holds (finish this ptr st') bs' cs' ∧
      Growth st (finish this ptr st') cs cs' ∧
      ∀ i, created (finish this ptr st').history i =
        if i = this then created st.history i ++ [ptr] else created st.history i := by
  obtain ⟨st', bs', cs', hrun, hadded⟩ :=
    addObjectPointer_spec h.blocks h.chunks (h.objects this).filled ptr
  have hcreated : ∀ i, created (finish this ptr st').history i =
      if i = this then created st.history i ++ [ptr] else created st.history i := by
    intro i
    rw [finish, Store.record, created_created, ← hadded.frame.created]
    rfl
  have hregions : handedOut (finish this ptr st').history = handedOut st'.history :=
    handedOut_created
  refine ⟨st', bs', cs', hrun, ⟨hadded.blocks.congr rfl rfl hregions (Store.proj_setData
    (fun d => (d.root, d.current, d.currentOffset)) rfl), fun i => ?_, fun i => ?_⟩,
    ⟨fun i hi => ?_, fun i => ?_, fun i => ?_, fun i r hr => ?_⟩, hcreated⟩
  · refine (hadded.chunks i).congr (fun _ _ => rfl) ?_ ?_ fun r hr => hr
    · rw [finish, Store.data_record]
      exact Store.proj_setData Data.pointersRoot (by rfl) i
    · rw [finish, Store.data_record]
      exact Store.proj_setData Data.pointersCurrent (by rfl) i
  · rw [hcreated, hregions, finish, Store.data_record, Store.data_setData]
    have hold := (h.objects i).mono (hadded.frame.handedOut i)
    by_cases hi : i = this
    · subst hi
      rw [if_pos rfl, if_pos rfl]
      obtain ⟨r, hr, hra⟩ := howned
      simp only [hadded.frame.count]
      exact hold.push hadded.filled hadded.listed hnew ⟨r, hadded.frame.handedOut i r hr, hra⟩
    · rw [if_neg hi, if_neg hi, hadded.others i hi, hadded.frame.others i hi]
      exact hold
  · exact Store.exists_setData.mpr (.inr (hadded.frame.exists_of i hi))
  · by_cases hi : i = this
    · rw [hi]
      exact hadded.grows
    · rw [hadded.others i hi]
      exact .refl _
  · rw [hcreated]
    by_cases hi : i = this
    · rw [if_pos hi]
      exact List.prefix_append _ _
    · simp only [if_neg hi, List.prefix_refl]
  · rw [hregions]
    exact hadded.frame.handedOut i r hr

mutual

theorem create_spec : ∀ (c : Creation T) {st : Store T} {bs : ℕ → List (ℕ × Block)}
    {cs : ℕ → List (Address × Pointers)}, Holds st bs cs →
    ∃ ptr st' bs' cs', create c st = .ok (ptr, st') ∧ Holds st' bs' cs' ∧ Growth st st' cs cs' ∧
      Apart st st'
  | ⟨this, type, constructor⟩, st, bs, cs, h => by
    obtain ⟨ptr, st₁, bs₁, hallocate, hb₁, hallocated⟩ := allocate_spec h.blocks this type
    obtain ⟨h₁, hgrowth₁⟩ := h.allocated hb₁ hallocated
    obtain ⟨st₂, bs₂, cs₂, hrun, h₂, hgrowth₂, hapart⟩ := createAll_spec constructor h₁
    obtain ⟨st₃, bs₃, cs₃, hadd, h₃, hgrowth₃, hcreated₃⟩ := h₂.pushed
      (h.unlisted hallocated hapart this)
      ⟨_, hgrowth₂.handedOut this _ hallocated.mem_handedOut, rfl⟩
    refine ⟨ptr, finish this ptr st₃, bs₃, cs₃, ?_, h₃, (hgrowth₁.trans hgrowth₂).trans hgrowth₃,
      fun i a ha => ?_⟩
    · simp only [create, hallocate, hrun, hadd, bind, Except.bind, pure, Except.pure]
      rfl
    · have hold : a ∈ created st₂.history i →
          a ∈ created st.history i ∨ ∀ j, ∀ r ∈ handedOut st.history j, r.address ≠ a := by
        intro ha
        rcases hapart i a ha with ha | ha
        · exact .inl (hallocated.created ▸ ha)
        · exact .inr fun j r hr => ha j r (hgrowth₁.handedOut j r hr)
      rw [hcreated₃] at ha
      by_cases hi : i = this
      · rw [if_pos hi, List.mem_append, List.mem_singleton] at ha
        rcases ha with ha | rfl
        · exact hold ha
        · exact .inr fun j r hr => (hallocated.apart j r hr).address_ne
      · rw [if_neg hi] at ha
        exact hold ha

theorem createAll_spec : ∀ (l : List (Creation T)) {st : Store T} {bs : ℕ → List (ℕ × Block)}
    {cs : ℕ → List (Address × Pointers)}, Holds st bs cs →
    ∃ st' bs' cs', createAll l st = .ok st' ∧ Holds st' bs' cs' ∧ Growth st st' cs cs' ∧
      Apart st st'
  | [], st, bs, cs, h => ⟨st, bs, cs, rfl, h, .refl st cs, .refl st⟩
  | c :: l, st, bs, cs, h => by
    obtain ⟨ptr, st₁, bs₁, cs₁, hrun, h₁, hgrowth₁, hapart₁⟩ := create_spec c h
    obtain ⟨st₂, bs₂, cs₂, hrun', h₂, hgrowth₂, hapart₂⟩ := createAll_spec l h₁
    refine ⟨st₂, bs₂, cs₂, ?_, h₂, hgrowth₁.trans hgrowth₂, hapart₁.trans hapart₂ hgrowth₁⟩
    simp only [createAll, hrun, bind, Except.bind]
    exact hrun'

end

end Creation

section Destruction

/-- Objects and blocks that go are no part of what an allocator was given. -/
def Removal (es : List (Event T)) : Prop := ∀ e ∈ es, (∃ a, e = .destroyed a) ∨ ∃ b, e = .freed b

theorem collected_removal {es : List (Event T)} (h : Removal es) (history : List (Event T)) :
    created (es ++ history) = created history ∧ handedOut (es ++ history) = handedOut history := by
  induction es with
  | nil => exact ⟨rfl, rfl⟩
  | cons e es ih =>
    obtain ⟨hc, hh⟩ := ih fun e' he' => h e' (List.mem_cons_of_mem _ he')
    rcases h e (List.mem_cons_self ..) with ⟨a, rfl⟩ | ⟨b, rfl⟩
    · rw [List.cons_append, created_destroyed, handedOut_destroyed]
      exact ⟨hc, hh⟩
    · rw [List.cons_append, created_freed, handedOut_freed]
      exact ⟨hc, hh⟩

/-- The objects are destroyed from the position of the iterator on. -/
theorem destroyObjects_spec {data : Data} {regions : List (Region T)}
    {l : List (Address × Pointers)} {it : Iterator} {k fuel : ℕ}
    (hlinks : ChunkLinks T st.chunks data regions l) (hfilled : Filled l) (hit : Position l it k)
    (hfuel : (listed l).length ≤ fuel + k) : destroyObjects fuel it st = .ok { st with
      history := (((listed l).drop k).map Event.destroyed).reverse ++ st.history } := by
  induction fuel generalizing st it k with
  | zero =>
    have hle := hit.le
    have hk : k = (listed l).length := by omega
    rw [destroyObjects, if_pos (hit.eq_past_iff.mpr hk), hk, List.drop_length]
    rfl
  | succ fuel ih =>
    by_cases hk : k = (listed l).length
    · rw [destroyObjects, if_pos (hit.eq_past_iff.mpr hk), hk, List.drop_length]
      rfl
    · have hle := hit.le
      obtain ⟨l₁, a, c, l₂, hin⟩ := hit.inChunk (by omega)
      obtain ⟨object, hvalue, hobject⟩ := hin.value hlinks
      have hlinks' : ChunkLinks T (st.record (.destroyed object)).chunks data regions l := hlinks
      obtain ⟨it', hincrement, hit'⟩ := hin.increment hlinks' hfilled
      rw [destroyObjects, if_neg hin.ne_past]
      simp only [hvalue, hincrement, bind, Except.bind]
      rw [ih hlinks' hit' (by omega), List.drop_eq_getElem?_toList_append (i := k), hobject]
      simp [Store.record]

def Store.without (st : Store T) (keys : List ℕ) : Store T :=
  { st with
    blocks := fun b => if b ∈ keys then none else st.blocks b
    chunks := fun a => if a.block ∈ keys then none else st.chunks a
    history := (keys.map Event.freed).reverse ++ st.history }

theorem Store.without_nil : st.without [] = st := by
  simp [Store.without]

theorem Store.delete_without {b : ℕ} {keys : List ℕ} :
    (st.delete b).without keys = st.without (b :: keys) := by
  have hblocks : (fun k => if k ∈ keys then none else Function.update st.blocks b none k) =
      fun k => if k ∈ b :: keys then none else st.blocks k := by
    funext k
    by_cases hkb : k = b
    · simp [hkb]
    · simp [hkb]
  have hchunks : (fun a : Address => if a.block ∈ keys then none
      else if a.block = b then none else st.chunks a) =
      fun a => if a.block ∈ b :: keys then none else st.chunks a := by
    funext a
    by_cases hab : a.block = b
    · simp [hab]
    · simp [hab]
  simp only [Store.without, Store.delete, hblocks, hchunks, List.map_cons, List.reverse_cons,
    List.append_assoc, List.singleton_append]

/-- The blocks of a chain are freed. -/
theorem deleteBlocks_spec (st : Store T) {root : Option ℕ} {l : List (ℕ × Block)} {fuel : ℕ}
    (h : Segment Block.next st.blocks root l none) (hfuel : l.length ≤ fuel) :
    deleteBlocks fuel root st = .ok (st.without (l.map Prod.fst)) := by
  induction l generalizing st root fuel with
  | nil =>
    obtain rfl := LinkedLists.segment_nil_iff.mp h
    rw [List.map_nil, Store.without_nil]
    cases fuel with
    | zero => rfl
    | succ fuel => rfl
  | cons p l ih =>
    obtain ⟨b, block⟩ := p
    have hnodup := h.nodup
    rw [List.map_cons, List.nodup_cons] at hnodup
    obtain ⟨rfl, hb, hl⟩ := LinkedLists.segment_cons_iff.mp h
    cases fuel with
    | zero => cases hfuel
    | succ fuel =>
      simp only [deleteBlocks, Store.block_eq_ok hb, bind, Except.bind]
      have hl' : Segment Block.next (st.delete b).blocks block.next l none := by
        refine hl.congr fun p hp => Function.update_of_ne ?_ _ _
        exact fun heq => hnodup.1 (List.mem_map.mpr ⟨p, hp, heq⟩)
      rw [ih _ hl' (Nat.le_of_succ_le_succ hfuel), Store.delete_without]
      rfl

/-- A chain is not longer than the number of blocks that there ever were. -/
theorem Blocks.length_le (h : Blocks st bs) (i : ℕ) : (bs i).length ≤ st.fresh := by
  have hsub : (bs i).map Prod.fst ⊆ List.range st.fresh := by
    intro b hb
    exact List.mem_range.mpr (h.fresh b (h.mem_live hb))
  have hle := ((h.chain i).linked.nodup.subperm hsub).length_le
  rwa [List.length_map, List.length_range] at hle

def wiped (this : ℕ) (objects : List Address) (keys : List ℕ) (st : Store T) : Store T :=
  ((({ st with history := (objects.map Event.destroyed).reverse ++ st.history }).without
    keys).setData this (Data.initial T)).record (.reset this)

theorem reset_eq (h : Holds st bs cs) (this : ℕ) : reset this st =
    .ok (wiped this (created st.history this) ((bs this).map Prod.fst) st) := by
  have hfuel : (listed (cs this)).length ≤ (st.data this).count + 0 := by
    rw [(h.objects this).listed_eq, (h.objects this).count_eq]
    exact Nat.le_refl _
  have hdestroy := destroyObjects_spec (h.chunks this) (h.objects this).filled
    (position_begin (h.chunks this) (h.objects this).filled) hfuel
  rw [List.drop_zero, (h.objects this).listed_eq] at hdestroy
  have hdelete := deleteBlocks_spec
    { st with history := ((created st.history this).map Event.destroyed).reverse ++ st.history }
    (h.blocks.chain this).linked (h.blocks.length_le this)
  simp only [reset, hdestroy, bind, Except.bind]
  simp only [Store.data] at hdelete ⊢
  simp only [hdelete, pure, Except.pure]
  rfl

theorem history_wiped (objects : List Address) (keys : List ℕ) :
    (wiped this objects keys st).history = .reset this ::
      ((keys.map Event.freed).reverse ++ (objects.map Event.destroyed).reverse ++ st.history) := by
  rw [List.append_assoc]
  rfl

/-- An allocator has nothing after a reset, and the others have what they had. -/
theorem collected_wiped (objects : List Address) (keys : List ℕ) (i : ℕ) :
    created (wiped this objects keys st).history i =
        (if i = this then [] else created st.history i) ∧
      handedOut (wiped this objects keys st).history i =
        if i = this then [] else handedOut st.history i := by
  have hremoval : Removal ((keys.map (Event.freed (T := T))).reverse ++
      (objects.map Event.destroyed).reverse) := by
    intro e he
    rcases List.mem_append.mp he with he | he
    · obtain ⟨b, -, rfl⟩ := List.mem_map.mp (List.mem_reverse.mp he)
      exact .inr ⟨b, rfl⟩
    · obtain ⟨a, -, rfl⟩ := List.mem_map.mp (List.mem_reverse.mp he)
      exact .inl ⟨a, rfl⟩
  obtain ⟨hcreated, hregions⟩ := collected_removal hremoval st.history
  rw [history_wiped, created_reset, handedOut_reset, hcreated, hregions]
  exact ⟨rfl, rfl⟩

theorem data_wiped (objects : List Address) (keys : List ℕ) (i : ℕ) :
    (wiped this objects keys st).data i = if i = this then Data.initial T else st.data i := by
  rw [wiped, Store.data_record, Store.data_setData]
  rfl

theorem Blocks.wiped (h : Blocks st bs) (objects : List Address) :
    Blocks (wiped this objects ((bs this).map Prod.fst) st) (Function.update bs this []) := by
  refine h.replace ?_ (fun i hi => ⟨?_, ?_⟩) (fun _ _ _ _ => List.not_mem_nil)
    (fun b hb _ => if_neg hb) (fun b hb _ => if_pos hb) fun b hb => ?_
  · rw [(collected_wiped objects _ this).2, data_wiped, if_pos rfl, if_pos rfl]
    exact .initial
  · rw [data_wiped, if_neg hi]
  · rw [(collected_wiped objects _ i).2, if_neg hi]
  · have hkeys : b ∉ (bs this).map Prod.fst := fun hmem => hb (if_pos hmem)
    exact h.fresh b fun hnone => hb ((if_neg hkeys).trans hnone)

/-- A reset leaves the chunks of the other allocators, which are in other blocks. -/
theorem Chunks.wiped (hc : Chunks st cs) (hb : Blocks st bs) (objects : List Address) :
    Chunks (wiped this objects ((bs this).map Prod.fst) st) (Function.update cs this []) := by
  intro i
  rw [(collected_wiped objects _ i).2, data_wiped]
  by_cases hi : i = this
  · rw [if_pos hi, if_pos hi, hi, Function.update_self]
    exact .initial
  · rw [if_neg hi, if_neg hi, Function.update_of_ne hi]
    refine (hc i).congr (fun c hci => if_neg ?_) rfl rfl fun r hr => hr
    exact hb.separate i this hi _ ((hb.chain i).placed _ ((hc i).placed c hci)).block

/-- `Reset` never fails, and it leaves what the other allocators have. -/
theorem reset_spec (h : Holds st bs cs) (this : ℕ) : ∃ st', reset this st = .ok st' ∧
    Holds st' (Function.update bs this []) (Function.update cs this []) ∧
    st'.data this = Data.initial T := by
  refine ⟨_, reset_eq h this, ⟨h.blocks.wiped _, h.chunks.wiped h.blocks _, fun i => ?_⟩, ?_⟩
  · rw [(collected_wiped _ _ i).1, (collected_wiped _ _ i).2, data_wiped]
    by_cases hi : i = this
    · rw [if_pos hi, if_pos hi, if_pos hi, hi, Function.update_self]
      exact .nil
    · rw [if_neg hi, if_neg hi, if_neg hi, Function.update_of_ne hi]
      exact h.objects i
  · rw [data_wiped, if_pos rfl]

end Destruction

section Programs

theorem swap_spec (h : Holds st bs cs) (this rhs : ℕ) : Holds (swap this rhs st)
    (fun i => bs (Equiv.swap this rhs i)) fun i => cs (Equiv.swap this rhs i) := by
  refine h.relabel (Equiv.swap this rhs) rfl rfl rfl (fun i => ?_) (fun _ => handedOut_swapped)
    fun _ => created_swapped
  rw [swap, Store.data_record, Store.data_setData, Store.data_setData, Equiv.swap_apply_def]
  by_cases hi : i = rhs
  · rw [if_pos hi]
    by_cases hi' : i = this
    · rw [if_pos hi', ← hi, hi']
    · rw [if_neg hi', if_pos hi]
  · rw [if_neg hi]
    by_cases hi' : i = this
    · rw [if_pos hi', if_pos hi']
    · rw [if_neg hi', if_neg hi', if_neg hi]

theorem Store.data_of_not_exists (h : ¬ st.Exists this) : st.data this = Data.initial T := by
  rw [Store.Exists, Option.not_isSome_iff_eq_none] at h
  rw [Store.data, h]
  rfl

/-- A constructed allocator is empty, as is one that does not exist. -/
theorem construct_spec (h : Holds st bs cs) (hthis : ¬ st.Exists this) :
    Holds (st.setData this (Data.initial T)) bs cs := by
  refine h.congr rfl rfl rfl (fun i => ?_) rfl
  rw [Store.data_setData]
  by_cases hi : i = this
  · rw [if_pos hi, hi, Store.data_of_not_exists hthis]
  · rw [if_neg hi]

theorem destroy_spec (h : Holds st bs cs) (hthis : st.data this = Data.initial T) :
    Holds { st with allocators := Function.update st.allocators this none } bs cs := by
  refine h.congr rfl rfl rfl (fun i => ?_) rfl
  by_cases hi : i = this
  · rw [hi, hthis]
    simp only [Store.data, Function.update_self]
    rfl
  · simp only [Store.data, Function.update_of_ne hi]

/-- No operation fails, and each keeps what holds. -/
theorem step_spec {op : Operation T} (h : Holds st bs cs) (hop : op.Allowed st) :
    ∃ st' bs' cs', step st op = .ok st' ∧ Holds st' bs' cs' := by
  cases op with
  | construct this => exact ⟨_, bs, cs, rfl, construct_spec h hop⟩
  | create c =>
    obtain ⟨ptr, st', bs', cs', hrun, h', -, -⟩ := create_spec c h
    refine ⟨st', bs', cs', ?_, h'⟩
    simp only [step, hrun, bind, Except.bind, pure, Except.pure]
  | reset this =>
    obtain ⟨st', hrun, h', -⟩ := reset_spec h this
    exact ⟨st', _, _, hrun, h'⟩
  | moveConstruct this rhs =>
    exact ⟨_, _, _, rfl, swap_spec (construct_spec h hop.1) this rhs⟩
  | moveAssign this rhs =>
    by_cases hself : this = rhs
    · refine ⟨st, bs, cs, ?_, h⟩
      rw [step, if_pos hself]
    · obtain ⟨st', hrun, h', -⟩ := reset_spec h this
      refine ⟨_, _, _, ?_, swap_spec h' this rhs⟩
      simp only [step, if_neg hself, hrun, bind, Except.bind, pure, Except.pure]
  | destroy this =>
    obtain ⟨st', hrun, h', hdata⟩ := reset_spec h this
    refine ⟨_, _, _, ?_, destroy_spec h' hdata⟩
    simp only [step, hrun, bind, Except.bind, pure, Except.pure]

theorem reachable_holds (h : Reachable st) : ∃ bs cs, Holds st bs cs := by
  induction h with
  | initial => exact ⟨_, _, .initial⟩
  | step _ hop hstep ih =>
    obtain ⟨bs, cs, h⟩ := ih
    obtain ⟨st', bs', cs', hrun, h'⟩ := step_spec h hop
    rw [hstep] at hrun
    cases hrun
    exact ⟨bs', cs', h'⟩

/-- What an allocator hands out lies in a live block of its own, at a multiple of the alignment and
without overlaps. Each live block is on the chain of one allocator, once. -/
structure Safe (st : Store T) (chains : ℕ → List (ℕ × Block)) : Prop where
  linked : ∀ i, Segment Block.next st.blocks (st.data i).root (chains i) none
  once : ∀ b, st.blocks b ≠ none → ∃ i, st.Exists i ∧ ((chains i).map Prod.fst).count b = 1 ∧
    ∀ j, j ≠ i → b ∉ (chains j).map Prod.fst
  live : ∀ i, ∀ r ∈ handedOut st.history i, r.address.block ∈ (chains i).map Prod.fst ∧
    st.blocks r.address.block ≠ none
  fits : ∀ i, ∀ r ∈ handedOut st.history i, r.address.offset + r.type.size ≤ T.blockSize
  aligned : ∀ i, ∀ r ∈ handedOut st.history i, ∀ base, T.blockAlignment ∣ base →
    r.type.alignment ∣ base + r.address.offset
  disjoint : ∀ i, (handedOut st.history i).Pairwise Region.Disjoint
  apart : ∀ i j, i ≠ j → ∀ r ∈ handedOut st.history i, ∀ s ∈ handedOut st.history j, r.Disjoint s

theorem Holds.chain_nil (h : Holds st bs cs) (hthis : ¬ st.Exists this) : bs this = [] := by
  have hlinked := (h.blocks.chain this).linked
  rw [Store.data_of_not_exists hthis] at hlinked
  exact hlinked.unique (.nil none)

theorem Holds.safe (h : Holds st bs cs) : Safe st bs where
  linked i := (h.blocks.chain i).linked
  once b hb := by
    obtain ⟨i, hi⟩ := h.blocks.live b hb
    refine ⟨i, ?_, List.count_eq_one_of_mem (h.blocks.chain i).linked.nodup hi,
      fun j hj => h.blocks.separate i j hj.symm b hi⟩
    by_contra hexists
    rw [h.chain_nil hexists] at hi
    cases hi
  live i r hr := by
    have hblock := ((h.blocks.chain i).placed r hr).block
    exact ⟨hblock, h.blocks.mem_live hblock⟩
  fits i r hr := ((h.blocks.chain i).placed r hr).fits
  aligned i r hr base hbase :=
    Nat.dvd_add (Nat.dvd_trans r.type.alignment_dvd hbase) ((h.blocks.chain i).placed r hr).aligned
  disjoint i := (h.blocks.chain i).disjoint
  apart i j hij r hr s hs := by
    have hblock := ((h.blocks.chain i).placed r hr).block
    have hblock' := ((h.blocks.chain j).placed s hs).block
    exact .inl fun heq => h.blocks.separate i j hij _ hblock (heq ▸ hblock')

/-- No operation takes memory from a block that is not there, and what is handed out is safe. -/
theorem allocations_safe (h : Reachable st) :
    (∀ op : Operation T, op.Allowed st → ∃ st', step st op = .ok st') ∧
    ∃ chains, Safe st chains := by
  obtain ⟨bs, cs, h⟩ := reachable_holds h
  refine ⟨fun op hop => ?_, bs, h.safe⟩
  obtain ⟨st', -, -, hrun, -⟩ := step_spec h hop
  exact ⟨st', hrun⟩

end Programs

section Integers

/-- `BlockAllocator<int>` where a pointer takes eight bytes. -/
def intTemplate : Template where
  blockSize := 64 * 1024
  blockAlignment := 16
  alignment_pos := by decide
  fits := by decide
  pointers := ⟨280, 8, by decide, by decide, by decide⟩

def intLayout : intTemplate.Layout := ⟨4, 4, by decide, by decide, by decide⟩

def noInts : Store intTemplate := ({} : Store intTemplate).setData 0 (Data.initial intTemplate)

def createInts : ℕ → Store intTemplate → Except Fault (Store intTemplate)
  | 0, st => .ok st
  | n + 1, st => do
    let st ← step st (.create ⟨0, intLayout, []⟩)
    createInts n st

theorem createInts_reachable {st : Store intTemplate} (h : Reachable st) (hexists : st.Exists 0)
    (n : ℕ) : ∃ st', createInts n st = .ok st' ∧ Reachable st' := by
  induction n generalizing st with
  | zero => exact ⟨st, rfl, h⟩
  | succ n ih =>
    obtain ⟨bs, cs, hst⟩ := reachable_holds h
    obtain ⟨ptr, st₁, _, _, hrun, -, hgrowth, -⟩ := create_spec ⟨0, intLayout, []⟩ hst
    have hallowed : (Operation.create ⟨0, intLayout, []⟩).Allowed st := ⟨hexists, trivial⟩
    have hstep : step st (.create ⟨0, intLayout, []⟩) = .ok st₁ := by
      simp only [step, hrun, bind, Except.bind, pure, Except.pure]
    obtain ⟨st', hrun', h'⟩ := ih (h.step hallowed hstep) (hgrowth.exists_of 0 hexists)
    refine ⟨st', ?_, h'⟩
    simp only [createInts, hstep, bind, Except.bind]
    exact hrun'

theorem ints_reachable (n : ℕ) : ∃ st, createInts n noInts = .ok st ∧ Reachable st :=
  createInts_reachable (@Reachable.step _ _ _ (.construct 0) .initial Bool.false_ne_true rfl) rfl n

theorem allocations_safe_int : ∃ st : Store intTemplate, createInts 1 noInts = .ok st ∧
    handedOut st.history 0 = [⟨⟨0, 0⟩, intLayout⟩, ⟨⟨0, 8⟩, intTemplate.pointers⟩] ∧
    (∀ op : Operation intTemplate, op.Allowed st → ∃ st', step st op = .ok st') ∧
    ∃ chains, Safe st chains := by
  obtain ⟨st, hrun, h⟩ := ints_reachable 1
  refine ⟨st, hrun, ?_, allocations_safe h⟩
  cases hrun
  rfl

end Integers

end Langsvr.BlockAllocator
