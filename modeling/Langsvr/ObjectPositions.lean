import Langsvr.AllocatorChunks

/-!
# Positions of iterators

An iterator denotes one of the objects in the chunks or is past them, and the increment takes it
from one object to the next.
-/

namespace Langsvr.BlockAllocator

open LinkedLists (Segment)

variable {T : Template} {st : Store T} {data : Data} {regions : List (Region T)}
  {cs l₁ l₂ : List (Address × Pointers)} {it : Iterator} {a a' : Address} {c c' : Pointers}
  {k j : ℕ}

/-- The iterator denotes the object of a number, in the chunk that it is in. -/
structure InChunk (cs : List (Address × Pointers)) (it : Iterator) (k : ℕ)
    (l₁ : List (Address × Pointers)) (a : Address) (c : Pointers)
    (l₂ : List (Address × Pointers)) : Prop where
  split : cs = l₁ ++ (a, c) :: l₂
  ptrs : it.ptrs = some a
  idx_lt : it.idx < c.ptrs.length
  number : k = (listed l₁).length + it.idx

/-- The iterator has passed a number of objects. -/
def Position (cs : List (Address × Pointers)) (it : Iterator) (k : ℕ) : Prop :=
  (∃ l₁ a c l₂, InChunk cs it k l₁ a c l₂) ∨ it = past ∧ k = (listed cs).length

theorem listed_append (l₁ l₂ : List (Address × Pointers)) :
    listed (l₁ ++ l₂) = listed l₁ ++ listed l₂ := List.flatMap_append

theorem listed_cons (l : List (Address × Pointers)) : listed ((a, c) :: l) = c.ptrs ++ listed l :=
  List.flatMap_cons

theorem listed_singleton : listed [(a, c)] = c.ptrs := by
  rw [listed_cons]
  exact List.append_nil _

theorem InChunk.ne_past (h : InChunk cs it k l₁ a c l₂) : it ≠ past := by
  intro hit
  have hptrs := h.ptrs
  rw [hit] at hptrs
  cases hptrs

theorem InChunk.lt (h : InChunk cs it k l₁ a c l₂) : k < (listed cs).length := by
  rw [h.split, h.number, listed_append, listed_cons, List.length_append, List.length_append]
  have hidx := h.idx_lt
  omega

theorem Position.eq_past_iff (h : Position cs it k) : it = past ↔ k = (listed cs).length := by
  rcases h with ⟨l₁, a, c, l₂, h⟩ | ⟨hit, hk⟩
  · exact ⟨fun hit => absurd hit h.ne_past, fun hk => absurd h.lt (by omega)⟩
  · exact ⟨fun _ => hk, fun _ => hit⟩

theorem Position.le (h : Position cs it k) : k ≤ (listed cs).length := by
  rcases h with ⟨l₁, a, c, l₂, h⟩ | ⟨-, hk⟩
  · exact Nat.le_of_lt h.lt
  · exact Nat.le_of_eq hk

theorem Position.inChunk (h : Position cs it k) (hk : k < (listed cs).length) :
    ∃ l₁ a c l₂, InChunk cs it k l₁ a c l₂ := by
  rcases h with h | ⟨-, hk'⟩
  · exact h
  · omega

/-- An iterator other than the end does not move when the chunks grow. -/
theorem InChunk.grow {cs' : List (Address × Pointers)} (h : InChunk cs it k l₁ a c l₂)
    (hgrows : Grows cs cs') : ∃ l₁' a' c' l₂', InChunk cs' it k l₁' a' c' l₂' := by
  obtain ⟨l₁', c', l₂', hcs', hl, hc⟩ := hgrows l₁ a c l₂ h.split
  exact ⟨l₁', a, c', l₂', hcs', h.ptrs, Nat.lt_of_lt_of_le h.idx_lt hc.length_le, by
    rw [hl, h.number]⟩

theorem Filled.length_of_mem {n : Address × Pointers} (h : Filled cs) (hn : n ∈ cs) :
    0 < n.2.ptrs.length ∧ n.2.ptrs.length ≤ kMax := by
  rcases List.eq_nil_or_concat' cs with rfl | ⟨l, ⟨b, d⟩, rfl⟩
  · cases hn
  · obtain ⟨hall, hpos, hle⟩ := filled_snoc.mp h
    rcases List.mem_append.mp hn with hn | hn
    · rw [hall n hn]
      exact ⟨by decide, Nat.le_refl _⟩
    · rw [List.mem_singleton.mp hn]
      exact ⟨hpos, hle⟩

theorem Filled.length_of_split (h : Filled cs) (hcs : cs = l₁ ++ (a, c) :: l₂) :
    0 < c.ptrs.length ∧ c.ptrs.length ≤ kMax := by
  apply h.length_of_mem (n := (a, c))
  rw [hcs]
  exact List.mem_append_cons_self

theorem Filled.full_of_split (h : Filled (l₁ ++ (a, c) :: l₂)) (hl : l₂ ≠ []) :
    c.ptrs.length = kMax := by
  apply h.full (a, c)
  rw [List.dropLast_append_of_ne_nil (List.cons_ne_nil _ _), List.dropLast_cons_of_ne_nil hl]
  exact List.mem_append_right _ (List.mem_cons_self ..)

theorem position_begin (h : ChunkLinks T st.chunks (st.data j) regions cs) (hfilled : Filled cs) :
    Position cs (begin j st) 0 := by
  have hroot := h.linked.start_eq
  cases cs with
  | nil => exact .inr ⟨by rw [begin, hroot]; rfl, rfl⟩
  | cons n cs =>
    obtain ⟨a, c⟩ := n
    exact .inl ⟨[], a, c, cs, rfl, hroot, (hfilled.length_of_mem (List.mem_cons_self ..)).1, rfl⟩

theorem ChunkLinks.lookup (h : ChunkLinks T st.chunks data regions cs)
    (hcs : cs = l₁ ++ (a, c) :: l₂) : st.chunk (some a) = .ok c := by
  apply Store.chunk_eq_ok
  apply h.linked.lookup (p := (a, c))
  rw [hcs]
  exact List.mem_append_cons_self

theorem InChunk.value (h : InChunk cs it k l₁ a c l₂)
    (hlinks : ChunkLinks T st.chunks data regions cs) :
    ∃ object, it.value st = .ok object ∧ (listed cs)[k]? = some object := by
  obtain ⟨object, hobject⟩ : ∃ object, c.ptrs[it.idx]? = some object :=
    ⟨_, List.getElem?_eq_getElem h.idx_lt⟩
  refine ⟨object, ?_, ?_⟩
  · simp only [Iterator.value, h.ptrs, hlinks.lookup h.split, bind, Except.bind, hobject]
    rfl
  · rw [h.split, listed_append, listed_cons, h.number, List.getElem?_append_right (by omega),
      Nat.add_sub_cancel_left, List.getElem?_append_left h.idx_lt, hobject]

/-- After the last object of a chunk comes the first one of the next. -/
theorem InChunk.number_succ (h : InChunk cs it k l₁ a c l₂) (hle : c.ptrs.length ≤ it.idx + 1) :
    k + 1 = (listed (l₁ ++ [(a, c)])).length := by
  have hidx := h.idx_lt
  rw [h.number, listed_append, List.length_append, listed_singleton]
  omega

theorem InChunk.increment_eq (h : InChunk cs it k l₁ a c l₂)
    (hlinks : ChunkLinks T st.chunks data regions cs) (hfilled : Filled cs) : it.increment st =
      .ok (if c.ptrs.length ≤ it.idx + 1 then ⟨c.next, 0⟩ else ⟨some a, it.idx + 1⟩) := by
  have hle : c.ptrs.length ≤ kMax := (hfilled.length_of_split h.split).2
  have hidx := h.idx_lt
  have hsize : sizeT (it.idx + 1) = it.idx + 1 := by
    apply sizeT_of_lt
    rw [kMax] at hle
    omega
  simp only [Iterator.increment, h.ptrs, hlinks.lookup h.split, bind, Except.bind, hsize]
  split
  · rfl
  · rfl

section Increments

variable (hlinks : ChunkLinks T st.chunks data regions cs) (hfilled : Filled cs)

include hlinks hfilled

theorem InChunk.increment_within (h : InChunk cs it k l₁ a c l₂)
    (hlt : it.idx + 1 < c.ptrs.length) : it.increment st = .ok ⟨some a, it.idx + 1⟩ ∧
      InChunk cs ⟨some a, it.idx + 1⟩ (k + 1) l₁ a c l₂ := by
  refine ⟨?_, h.split, rfl, hlt, ?_⟩
  · rw [h.increment_eq hlinks hfilled, if_neg (Nat.not_le_of_lt hlt)]
  · rw [h.number]
    exact Nat.add_assoc _ _ _

theorem InChunk.increment_across (h : InChunk cs it k l₁ a c ((a', c') :: l₂))
    (hle : c.ptrs.length ≤ it.idx + 1) : it.increment st = .ok ⟨some a', 0⟩ ∧
      InChunk cs ⟨some a', 0⟩ (k + 1) (l₁ ++ [(a, c)]) a' c' l₂ := by
  have hnext : c.next = some a' := by
    have hlinked := hlinks.linked
    rw [h.split] at hlinked
    exact hlinked.next_eq
  have hsplit : cs = (l₁ ++ [(a, c)]) ++ (a', c') :: l₂ := by
    rw [h.split, List.append_assoc]
    rfl
  refine ⟨?_, hsplit, rfl, (hfilled.length_of_split hsplit).1, h.number_succ hle⟩
  rw [h.increment_eq hlinks hfilled, if_pos hle, hnext]

theorem InChunk.increment_last (h : InChunk cs it k l₁ a c []) (hle : c.ptrs.length ≤ it.idx + 1) :
    it.increment st = .ok past ∧ k + 1 = (listed cs).length := by
  have hnext : c.next = none := by
    have hlinked := hlinks.linked
    rw [h.split] at hlinked
    exact hlinked.next_eq
  refine ⟨?_, by rw [h.split, h.number_succ hle]⟩
  rw [h.increment_eq hlinks hfilled, if_pos hle, hnext]
  rfl

/-- The increment goes on to the next object or past the last one. -/
theorem InChunk.increment (h : InChunk cs it k l₁ a c l₂) :
    ∃ it', it.increment st = .ok it' ∧ Position cs it' (k + 1) := by
  by_cases hle : c.ptrs.length ≤ it.idx + 1
  · cases l₂ with
    | nil =>
      obtain ⟨hrun, hk⟩ := h.increment_last hlinks hfilled hle
      exact ⟨past, hrun, .inr ⟨rfl, hk⟩⟩
    | cons p l₂ =>
      obtain ⟨hrun, hin⟩ := h.increment_across hlinks hfilled hle
      exact ⟨_, hrun, .inl ⟨_, _, _, _, hin⟩⟩
  · obtain ⟨hrun, hin⟩ := h.increment_within hlinks hfilled (Nat.lt_of_not_le hle)
    exact ⟨_, hrun, .inl ⟨_, _, _, _, hin⟩⟩

end Increments

end Langsvr.BlockAllocator
