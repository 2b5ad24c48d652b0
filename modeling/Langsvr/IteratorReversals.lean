import Langsvr.ObjectIteration

/-!
# Steps back of iterators

The decrement goes back by one object in a chunk, but from the first object of a chunk by two. Steps
back undo steps forward only where no chunk begins between them.
-/

namespace Langsvr.BlockAllocator

open LinkedLists (Segment)

variable {T : Template} {st : Store T} {data : Data} {regions : List (Region T)}
  {cs l l₁ l₂ : List (Address × Pointers)} {it it' : Iterator} {a b : Address} {c d : Pointers}
  {j k n : ℕ}

def advance : ℕ → Iterator → Store T → Except Fault Iterator
  | 0, it, _ => .ok it
  | n + 1, it, st => do
    let it ← it.increment st
    advance n it st

def retreat : ℕ → Iterator → Store T → Except Fault Iterator
  | 0, it, _ => .ok it
  | n + 1, it, st => do
    let it ← it.decrement st
    retreat n it st

theorem listed_length (h : ∀ d ∈ l, d.2.ptrs.length = kMax) :
    (listed l).length = kMax * l.length := by
  induction l with
  | nil => rfl
  | cons d l ih =>
    obtain ⟨a, c⟩ := d
    have hc : c.ptrs.length = kMax := h (a, c) (List.mem_cons_self ..)
    rw [listed_cons, List.length_append, ih fun d hd => h d (List.mem_cons_of_mem _ hd), hc,
      List.length_cons, Nat.mul_succ]
    exact Nat.add_comm _ _

/-- The chunk and the index of an object follow from its number. -/
theorem InChunk.number_eq (h : InChunk cs it k l₁ a c l₂) (hfilled : Filled cs) :
    k = kMax * l₁.length + it.idx ∧ it.idx < kMax := by
  have hsplit := h.split
  have hfull : ∀ d ∈ l₁, d.2.ptrs.length = kMax := by
    intro d hd
    apply hfilled.full
    rw [hsplit, List.dropLast_append_of_ne_nil (List.cons_ne_nil _ _)]
    exact List.mem_append_left _ hd
  refine ⟨?_, Nat.lt_of_lt_of_le h.idx_lt (hfilled.length_of_split hsplit).2⟩
  rw [h.number, listed_length hfull]

theorem decrement_pos (hptrs : it.ptrs = some a) (hpos : 0 < it.idx) (hlt : it.idx < kMax) :
    it.decrement st = .ok ⟨some a, it.idx - 1⟩ := by
  have hsize : sizeT (it.idx + 2 ^ 64 - 1) = it.idx - 1 := by
    rw [kMax] at hlt
    rw [sizeT]
    omega
  simp only [Iterator.decrement, hptrs, if_neg (Nat.ne_of_gt hpos), bind, Except.bind, pure,
    Except.pure, hsize]

theorem decrement_zero (hptrs : it.ptrs = some a) (hidx : it.idx = 0)
    (hc : st.chunk (some a) = .ok c) (hprev : c.prev = some b) (hd : st.chunk (some b) = .ok d)
    (hlength : d.ptrs.length = kMax) : it.decrement st = .ok ⟨some b, kMax - 2⟩ := by
  simp only [Iterator.decrement, hptrs, hidx, if_true, hc, hprev, hd, hlength, bind, Except.bind,
    pure, Except.pure]
  rfl

theorem decrement_first (hptrs : it.ptrs = some a) (hidx : it.idx = 0)
    (hc : st.chunk (some a) = .ok c) (hprev : c.prev = none) : it.decrement st = .error .null := by
  simp only [Iterator.decrement, hptrs, hidx, if_true, hc, hprev, bind, Except.bind]
  rfl

theorem InChunk.decrement_pos (h : InChunk cs it k l₁ a c l₂) (hfilled : Filled cs)
    (hpos : 0 < it.idx) :
    it.decrement st = .ok ⟨some a, it.idx - 1⟩ ∧
      InChunk cs ⟨some a, it.idx - 1⟩ (k - 1) l₁ a c l₂ := by
  have hidx := h.idx_lt
  refine ⟨BlockAllocator.decrement_pos h.ptrs hpos (h.number_eq hfilled).2, h.split, rfl, ?_, ?_⟩
  · exact Nat.lt_of_le_of_lt (Nat.sub_le _ _) hidx
  · rw [h.number]
    exact Nat.add_sub_assoc hpos _

theorem InChunk.first (h : InChunk cs it 0 l₁ a c l₂) (hfilled : Filled cs) :
    l₁ = [] ∧ it.idx = 0 := by
  obtain ⟨hnumber, -⟩ := h.number_eq hfilled
  rw [kMax] at hnumber
  exact ⟨List.eq_nil_of_length_eq_zero (by omega), by omega⟩

section Decrements

variable (hlinks : ChunkLinks T st.chunks data regions cs) (hfilled : Filled cs)

include hlinks hfilled

/-- From the first object of a chunk the decrement goes to the last but one of the chunk before. -/
theorem InChunk.decrement_zero (h : InChunk cs it k (l ++ [(b, d)]) a c l₂) (hidx : it.idx = 0) :
    it.decrement st = .ok ⟨some b, kMax - 2⟩ ∧
      InChunk cs ⟨some b, kMax - 2⟩ (k - 2) l b d ((a, c) :: l₂) := by
  have hsplit : cs = l ++ (b, d) :: (a, c) :: l₂ := by
    rw [h.split, List.append_assoc]
    rfl
  have hlength : d.ptrs.length = kMax := by
    rw [hsplit] at hfilled
    exact hfilled.full_of_split (List.cons_ne_nil _ _)
  have hprev : c.prev = some b := by
    have hback := hlinks.back
    rw [h.split] at hback
    rw [hback.prev_eq, List.getLast?_concat]
    rfl
  refine ⟨BlockAllocator.decrement_zero h.ptrs hidx (hlinks.lookup h.split) hprev
    (hlinks.lookup hsplit) hlength, hsplit, rfl, ?_, ?_⟩
  · show kMax - 2 < d.ptrs.length
    rw [hlength]
    decide
  · have hnumber : (listed (l ++ [(b, d)])).length = (listed l).length + kMax := by
      rw [listed_append, List.length_append, listed_singleton, hlength]
    rw [h.number, hidx, hnumber]
    rfl

theorem InChunk.decrement_first (h : InChunk cs it 0 l₁ a c l₂) :
    it.decrement st = .error .null := by
  obtain ⟨hnil, hidx⟩ := h.first hfilled
  have hprev : c.prev = none := by
    have hback := hlinks.back
    rw [h.split, hnil] at hback
    exact hback.1
  exact BlockAllocator.decrement_first h.ptrs hidx (hlinks.lookup h.split) hprev

/-- The decrement goes back by one object or by two. -/
theorem InChunk.decrement (h : InChunk cs it k l₁ a c l₂) (hk : 0 < k) :
    ∃ it' l₁' a' c' l₂', it.decrement st = .ok it' ∧
      InChunk cs it' (if k % kMax = 0 then k - 2 else k - 1) l₁' a' c' l₂' := by
  obtain ⟨hnumber, hlt⟩ := h.number_eq hfilled
  have hmod : k % kMax = it.idx := by
    rw [hnumber, Nat.mul_add_mod, Nat.mod_eq_of_lt hlt]
  rw [hmod]
  by_cases hidx : it.idx = 0
  · rcases List.eq_nil_or_concat' l₁ with rfl | ⟨l, ⟨b, d⟩, rfl⟩
    · rw [List.length_nil] at hnumber
      omega
    · obtain ⟨hrun, hin⟩ := h.decrement_zero hlinks hfilled hidx
      rw [if_pos hidx]
      exact ⟨_, _, _, _, _, hrun, hin⟩
  · obtain ⟨hrun, hin⟩ := h.decrement_pos hfilled (Nat.pos_of_ne_zero hidx)
    rw [if_neg hidx]
    exact ⟨_, _, _, _, _, hrun, hin⟩

theorem Position.advance (h : Position cs it k) (hn : k + n ≤ (listed cs).length) :
    ∃ it', BlockAllocator.advance n it st = .ok it' ∧ Position cs it' (k + n) := by
  induction n generalizing it k with
  | zero => exact ⟨it, rfl, h⟩
  | succ n ih =>
    obtain ⟨_, _, _, _, hin⟩ := h.inChunk (by omega)
    obtain ⟨it₁, hrun, h₁⟩ := hin.increment hlinks hfilled
    obtain ⟨it', hrun', h'⟩ := ih h₁ (by omega)
    refine ⟨it', ?_, ?_⟩
    · simp only [BlockAllocator.advance, hrun, bind, Except.bind]
      exact hrun'
    · rw [Nat.add_comm n 1, ← Nat.add_assoc]
      exact h'

/-- Each decrement goes back by at least one object. -/
theorem InChunk.retreat_beyond (h : InChunk cs it k l₁ a c l₂) (hn : k < n) :
    retreat n it st = .error .null := by
  induction n generalizing it k l₁ a c l₂ with
  | zero => omega
  | succ n ih =>
    by_cases hk : k = 0
    · subst hk
      simp only [retreat, h.decrement_first hlinks hfilled, bind, Except.bind]
    · obtain ⟨it', _, _, _, _, hrun, h'⟩ := h.decrement hlinks hfilled (Nat.pos_of_ne_zero hk)
      simp only [retreat, hrun, bind, Except.bind]
      apply ih h'
      split
      · omega
      · omega

/-- Decrements as many as the number of the object lead beyond the first object if a chunk begins
between them. -/
theorem InChunk.retreat_long (h : InChunk cs it k l₁ a c l₂) (hk : kMax ≤ k) :
    retreat k it st = .error .null := by
  induction k generalizing it l₁ a c l₂ with
  | zero => cases hk
  | succ k ih =>
    obtain ⟨it', _, _, _, _, hrun, h'⟩ := h.decrement hlinks hfilled (Nat.succ_pos k)
    simp only [retreat, hrun, bind, Except.bind]
    by_cases hmod : (k + 1) % kMax = 0
    · rw [if_pos hmod] at h'
      apply h'.retreat_beyond hlinks hfilled
      rw [kMax] at hk
      omega
    · rw [if_neg hmod] at h'
      apply ih h'
      rw [kMax] at hk hmod ⊢
      omega

/-- In the first chunk decrements lead back to the beginning. -/
theorem InChunk.retreat_short (h : InChunk cs it k l₁ a c l₂) (hk : k < kMax) :
    retreat k it st = .ok ⟨data.pointersRoot, 0⟩ := by
  induction k generalizing it l₁ a c l₂ with
  | zero =>
    obtain ⟨hnil, hidx⟩ := h.first hfilled
    have hroot : data.pointersRoot = some a := by
      rw [hlinks.linked.start_eq, h.split, hnil]
      rfl
    obtain ⟨ptrs, idx⟩ := it
    obtain rfl : ptrs = some a := h.ptrs
    obtain rfl : idx = 0 := hidx
    rw [retreat, hroot]
  | succ k ih =>
    obtain ⟨it', _, _, _, _, hrun, h'⟩ := h.decrement hlinks hfilled (Nat.succ_pos k)
    have hmod : (k + 1) % kMax ≠ 0 := by
      rw [Nat.mod_eq_of_lt hk]
      exact Nat.succ_ne_zero k
    rw [if_neg hmod] at h'
    simp only [retreat, hrun, bind, Except.bind]
    exact ih h' (Nat.lt_of_succ_lt hk)

/-- A step back undoes a step forward in a chunk, but not from the first object of a chunk. -/
theorem InChunk.step_back (h : InChunk cs it k l₁ a c l₂) (hk : k + 1 < (listed cs).length) :
    (it.increment st >>= fun next => next.decrement st) = .ok it ↔ (k + 1) % kMax ≠ 0 := by
  by_cases hle : c.ptrs.length ≤ it.idx + 1
  · cases l₂ with
    | nil =>
      obtain ⟨-, hlength⟩ := h.increment_last hlinks hfilled hle
      omega
    | cons p l₂ =>
      -- the chunk is full, so that its last object has the index 31
      obtain ⟨hincrement, hin⟩ := h.increment_across hlinks hfilled hle
      obtain ⟨hdecrement, -⟩ := hin.decrement_zero hlinks hfilled rfl
      obtain ⟨hnumber, -⟩ := hin.number_eq hfilled
      have hfull : c.ptrs.length = kMax := by
        rw [h.split] at hfilled
        exact hfilled.full_of_split (List.cons_ne_nil _ _)
      have hmod : (k + 1) % kMax = 0 := by
        rw [hnumber]
        exact Nat.mul_mod_right _ _
      simp only [hincrement, bind, Except.bind, hdecrement]
      refine ⟨fun heq => ?_, fun hne => absurd hmod hne⟩
      have hidx : kMax - 2 = it.idx := congrArg Iterator.idx (Except.ok.inj heq)
      rw [kMax] at hfull hidx
      omega
  · obtain ⟨hincrement, hin⟩ := h.increment_within hlinks hfilled (Nat.lt_of_not_le hle)
    have hdecrement : Iterator.decrement ⟨some a, it.idx + 1⟩ st = .ok ⟨some a, it.idx⟩ :=
      (hin.decrement_pos hfilled (Nat.succ_pos _)).1
    obtain ⟨hnumber, hlt⟩ := hin.number_eq hfilled
    have hmod : (k + 1) % kMax = it.idx + 1 := by
      rw [hnumber, Nat.mul_add_mod, Nat.mod_eq_of_lt hlt]
    simp only [hincrement, bind, Except.bind, hdecrement]
    rw [hmod, ← h.ptrs]
    exact ⟨fun _ => Nat.succ_ne_zero _, fun _ => rfl⟩

end Decrements

/-- A step back undoes a step forward unless the next object is the first one of a chunk. As many
steps back as forward lead back to the beginning only from the first chunk. -/
theorem step_back_iff (h : Reachable st) (this : ℕ) :
    (∀ p, p + 1 < (st.data this).count → ∃ it, advance p (begin this st) st = .ok it ∧
      ((it.increment st >>= fun next => next.decrement st) = .ok it ↔ (p + 1) % kMax ≠ 0)) ∧
    ∀ n, n < (st.data this).count → ∃ it, advance n (begin this st) st = .ok it ∧
      (retreat n it st = .ok (begin this st) ↔ n < kMax) := by
  obtain ⟨bs, cs, h⟩ := reachable_holds h
  have hlinks := h.chunks this
  have hfilled := (h.objects this).filled
  have hlength : (listed (cs this)).length = (st.data this).count := by
    rw [(h.objects this).listed_eq, (h.objects this).count_eq]
  -- the iterator after a number of increments
  have hadvance : ∀ n, n < (st.data this).count → ∃ it l₁ a c l₂,
      advance n (begin this st) st = .ok it ∧ InChunk (cs this) it n l₁ a c l₂ := by
    intro n hn
    rw [← hlength] at hn
    obtain ⟨it, hrun, hit⟩ := (position_begin hlinks hfilled).advance hlinks hfilled (n := n)
      (by omega)
    rw [Nat.zero_add] at hit
    obtain ⟨l₁, a, c, l₂, hin⟩ := hit.inChunk hn
    exact ⟨it, l₁, a, c, l₂, hrun, hin⟩
  constructor
  · intro p hp
    obtain ⟨it, _, _, _, _, hrun, hin⟩ := hadvance p (by omega)
    exact ⟨it, hrun, hin.step_back hlinks hfilled (by rw [hlength]; exact hp)⟩
  · intro n hn
    obtain ⟨it, _, _, _, _, hrun, hin⟩ := hadvance n hn
    refine ⟨it, hrun, ?_⟩
    by_cases hmax : n < kMax
    · exact ⟨fun _ => hmax, fun _ => hin.retreat_short hlinks hfilled hmax⟩
    · have hlong := hin.retreat_long hlinks hfilled (Nat.le_of_not_lt hmax)
      refine ⟨fun heq => ?_, fun hlt => absurd hlt hmax⟩
      rw [hlong] at heq
      cases heq

theorem createInts_count {st : Store intTemplate} (h : createInts 33 noInts = .ok st) :
    (st.data 0).count = 33 := by
  have hcount : (createInts 33 noInts).map (fun st => (st.data 0).count) = .ok 33 := by
    decide +kernel
  rw [h] at hcount
  exact Except.ok.inj hcount

theorem step_back_ints : ∃ st : Store intTemplate, createInts 33 noInts = .ok st ∧
    (∃ it, advance 30 (begin 0 st) st = .ok it ∧
      (it.increment st >>= fun next => next.decrement st) = .ok it) ∧
    ∃ it, advance 31 (begin 0 st) st = .ok it ∧
      (it.increment st >>= fun next => next.decrement st) ≠ .ok it := by
  obtain ⟨st, hrun, h⟩ := ints_reachable 33
  have hcount := createInts_count hrun
  obtain ⟨it, hit, hback⟩ := (step_back_iff h 0).1 30 (by omega)
  obtain ⟨it', hit', hmiss⟩ := (step_back_iff h 0).1 31 (by omega)
  exact ⟨st, hrun, ⟨it, hit, hback.mpr (by decide)⟩, it', hit', fun heq => hmiss.mp heq rfl⟩

/-- Of 33 integers the last is the first one of the second chunk. A step back from it leads to the
31st. -/
theorem step_back_misses : ∃ st : Store intTemplate, Reachable st ∧ (st.data 0).count = 33 ∧
    advance 31 (begin 0 st) st = .ok ⟨some ⟨0, 8⟩, 31⟩ ∧
    Iterator.increment ⟨some ⟨0, 8⟩, 31⟩ st = .ok ⟨some ⟨0, 416⟩, 0⟩ ∧
    Iterator.decrement ⟨some ⟨0, 416⟩, 0⟩ st = .ok ⟨some ⟨0, 8⟩, 30⟩ := by
  obtain ⟨st, hrun, h⟩ := ints_reachable 33
  have hsteps : (createInts 33 noInts).map (fun st => decide
      (advance 31 (begin 0 st) st = .ok ⟨some ⟨0, 8⟩, 31⟩ ∧
        Iterator.increment ⟨some ⟨0, 8⟩, 31⟩ st = .ok ⟨some ⟨0, 416⟩, 0⟩ ∧
        Iterator.decrement ⟨some ⟨0, 416⟩, 0⟩ st = .ok ⟨some ⟨0, 8⟩, 30⟩)) = .ok true := by
    decide +kernel
  rw [hrun] at hsteps
  exact ⟨st, h, createInts_count hrun, of_decide_eq_true (Except.ok.inj hsteps)⟩

end Langsvr.BlockAllocator
