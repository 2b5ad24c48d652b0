import Mathlib.Data.List.Basic
import Mathlib.Data.List.Nodup

/-!
# Linked lists in memory

A memory maps keys to nodes, and a node has the key of the next one. The nodes from one key to
another are listed with their keys, so that what a loop along the links visits is a list.
-/

namespace Langsvr.LinkedLists

section Segments

variable {κ ν : Type} (next : ν → Option κ) (mem : κ → Option ν)

/-- The nodes of a list are linked in memory, from its start to its end. -/
inductive Segment : Option κ → List (κ × ν) → Option κ → Prop
  | nil (s : Option κ) : Segment s [] s
  | cons {k : κ} {n : ν} {l : List (κ × ν)} {e : Option κ} (hk : mem k = some n)
      (hl : Segment (next n) l e) : Segment (some k) ((k, n) :: l) e

variable {next mem} {mem' : κ → Option ν} {s e : Option κ} {k : κ} {n : ν}
  {l l₁ l₂ : List (κ × ν)}

theorem segment_nil_iff : Segment next mem s [] e ↔ s = e := by
  constructor
  · intro h
    cases h
    rfl
  · rintro rfl
    exact .nil s

theorem segment_cons_iff : Segment next mem s ((k, n) :: l) e ↔
    s = some k ∧ mem k = some n ∧ Segment next mem (next n) l e := by
  constructor
  · intro h
    cases h with
    | cons hk hl => exact ⟨rfl, hk, hl⟩
  · rintro ⟨rfl, hk, hl⟩
    exact .cons hk hl

theorem segment_append_iff : Segment next mem s (l₁ ++ l₂) e ↔
    ∃ m, Segment next mem s l₁ m ∧ Segment next mem m l₂ e := by
  induction l₁ generalizing s with
  | nil => simp [segment_nil_iff]
  | cons p l ih =>
    obtain ⟨k, n⟩ := p
    simp only [List.cons_append, segment_cons_iff, ih]
    constructor
    · rintro ⟨hs, hk, m, h₁, h₂⟩
      exact ⟨m, ⟨hs, hk, h₁⟩, h₂⟩
    · rintro ⟨m, ⟨hs, hk, h₁⟩, h₂⟩
      exact ⟨hs, hk, m, h₁, h₂⟩

theorem segment_snoc_iff : Segment next mem s (l ++ [(k, n)]) e ↔
    Segment next mem s l (some k) ∧ mem k = some n ∧ next n = e := by
  simp only [segment_append_iff, segment_cons_iff, segment_nil_iff]
  constructor
  · rintro ⟨m, h, rfl, hk, he⟩
    exact ⟨h, hk, he⟩
  · rintro ⟨h, hk, he⟩
    exact ⟨_, h, rfl, hk, he⟩

/-- Writes to other nodes do not matter. -/
theorem Segment.congr (h : Segment next mem s l e) (hmem : ∀ p ∈ l, mem' p.1 = mem p.1) :
    Segment next mem' s l e := by
  induction h with
  | nil s => exact .nil s
  | @cons k n l e hk _ ih =>
    refine .cons ?_ (ih fun p hp => hmem p (List.mem_cons_of_mem _ hp))
    rw [hmem (k, n) (List.mem_cons_self ..), hk]

theorem Segment.lookup (h : Segment next mem s l e) {p : κ × ν} (hp : p ∈ l) :
    mem p.1 = some p.2 := by
  induction h with
  | nil s => cases hp
  | cons hk _ ih =>
    rcases List.mem_cons.mp hp with rfl | hp
    · exact hk
    · exact ih hp

theorem Segment.start_eq (h : Segment next mem s l none) : s = l.head?.map Prod.fst := by
  cases h with
  | nil => rfl
  | cons hk hl => rfl

/-- The link of a node leads to the node that is listed after it. -/
theorem Segment.next_eq (h : Segment next mem s (l₁ ++ (k, n) :: l₂) none) :
    next n = l₂.head?.map Prod.fst := by
  obtain ⟨m, -, h⟩ := segment_append_iff.mp h
  exact (segment_cons_iff.mp h).2.2.start_eq

/-- The list is determined by its start. -/
theorem Segment.unique (h : Segment next mem s l₁ none) (h' : Segment next mem s l₂ none) :
    l₁ = l₂ := by
  induction l₁ generalizing s l₂ with
  | nil =>
    obtain rfl := segment_nil_iff.mp h
    cases h'
    rfl
  | cons p l ih =>
    obtain ⟨k, n⟩ := p
    obtain ⟨rfl, hk, hl⟩ := segment_cons_iff.mp h
    cases h' with
    | cons hk' hl' =>
      rw [hk] at hk'
      cases hk'
      rw [ih hl hl']

/-- A list that ends lists no node twice. -/
theorem Segment.nodup (h : Segment next mem s l none) : (l.map Prod.fst).Nodup := by
  induction l generalizing s with
  | nil => exact List.nodup_nil
  | cons p l ih =>
    obtain ⟨k, n⟩ := p
    obtain ⟨rfl, hk, hl⟩ := segment_cons_iff.mp h
    rw [List.map_cons, List.nodup_cons]
    refine ⟨fun hmem => ?_, ih hl⟩
    -- from a second occurrence on the list would be the whole list again
    obtain ⟨⟨k', n'⟩, hp, rfl⟩ := List.mem_map.mp hmem
    obtain ⟨l₁, l₂, rfl⟩ := List.append_of_mem hp
    obtain ⟨m, -, hrest⟩ := segment_append_iff.mp hl
    obtain ⟨rfl, -, -⟩ := segment_cons_iff.mp hrest
    have heq := congrArg List.length (hrest.unique h)
    simp only [List.length_cons, List.length_append] at heq
    omega

theorem Segment.key_ne (h : Segment next mem s (l ++ [(k, n)]) none) {p : κ × ν} (hp : p ∈ l) :
    p.1 ≠ k := by
  have hnodup := h.nodup
  rw [List.map_append, List.nodup_append] at hnodup
  exact hnodup.2.2 p.1 (List.mem_map_of_mem hp) k (List.mem_singleton_self _)

variable [DecidableEq κ] {k' : κ} {n₁ n₂ : ν}

theorem Segment.setLast (h : Segment next mem s (l ++ [(k, n)]) none) (hn : next n₁ = none) :
    Segment next (Function.update mem k (some n₁)) s (l ++ [(k, n₁)]) none := by
  obtain ⟨hl, -, -⟩ := segment_snoc_iff.mp h
  refine segment_snoc_iff.mpr ⟨hl.congr fun p hp => ?_, Function.update_self .., hn⟩
  exact Function.update_of_ne (h.key_ne hp) _ _

theorem Segment.push (h : Segment next mem s (l ++ [(k, n)]) none)
    (hfresh : ∀ p ∈ l ++ [(k, n)], p.1 ≠ k') (hn₁ : next n₁ = some k') (hn₂ : next n₂ = none) :
    Segment next (Function.update (Function.update mem k' (some n₂)) k (some n₁)) s
      (l ++ [(k, n₁)] ++ [(k', n₂)]) none := by
  obtain ⟨hl, -, -⟩ := segment_snoc_iff.mp h
  have hne : k ≠ k' := hfresh (k, n) List.mem_concat_self
  rw [segment_snoc_iff, segment_snoc_iff]
  refine ⟨⟨hl.congr fun p hp => ?_, Function.update_self .., hn₁⟩, ?_, hn₂⟩
  · rw [Function.update_of_ne (h.key_ne hp),
      Function.update_of_ne (hfresh p (List.mem_append_left _ hp))]
  · rw [Function.update_of_ne hne.symm, Function.update_self]

end Segments

section BackLinks

variable {κ ν : Type} (prev : ν → Option κ)

/-- Each node of a list has a link back to the one before it, and the first one to a given
node. -/
def BackLinked : Option κ → List (κ × ν) → Prop
  | _, [] => True
  | p, (k, n) :: l => prev n = p ∧ BackLinked (some k) l

variable {prev} {p : Option κ} {k : κ} {n : ν} {l l₁ l₂ : List (κ × ν)}

theorem backLinked_append_iff : BackLinked prev p (l₁ ++ l₂) ↔
    BackLinked prev p l₁ ∧ BackLinked prev ((l₁.getLast?.map Prod.fst).or p) l₂ := by
  induction l₁ generalizing p with
  | nil => simp [BackLinked]
  | cons q l ih =>
    obtain ⟨k, n⟩ := q
    rw [List.cons_append, BackLinked, BackLinked, ih, and_assoc]
    cases hlast : l.getLast? with
    | none =>
      rw [List.getLast?_eq_none_iff.mp hlast]
      rfl
    | some q => simp [List.getLast?_cons, hlast]

theorem backLinked_snoc_iff : BackLinked prev none (l ++ [(k, n)]) ↔
    BackLinked prev none l ∧ prev n = l.getLast?.map Prod.fst := by
  rw [backLinked_append_iff, BackLinked, Option.or_none]
  simp [BackLinked]

/-- The link back of a node leads to the node that is listed before it. -/
theorem BackLinked.prev_eq (h : BackLinked prev none (l₁ ++ (k, n) :: l₂)) :
    prev n = l₁.getLast?.map Prod.fst := by
  rw [backLinked_append_iff, Option.or_none] at h
  exact h.2.1

end BackLinks

end Langsvr.LinkedLists
