import Mathlib.Order.Lattice
import Mathlib.Data.List.Forall2
import Mathlib.Data.List.Pairwise
import Mathlib.Data.List.Perm.Subperm
import Mathlib.Tactic.Common

/-!
# Ordered association lists

A finite map is the list of its entries in strictly increasing key order, as an
ordered container of a standard library keeps them. Assignment overwrites the
entry of an existing key in place. Lookup and assignment need no ordering to
interact; the ordering makes the representation of a map unique and makes a list
that is already ordered survive a sequence of assignments unchanged.
-/

namespace Langsvr.OrderedEntries

variable {κ α β : Type*} [LinearOrder κ]

/-- Ordered assignment: overwrite the entry of `k`, or insert one in key order. -/
def assign (k : κ) (a : α) : List (κ × α) → List (κ × α)
  | [] => [(k, a)]
  | (j, b) :: es =>
    if k = j then (k, a) :: es
    else if k < j then (k, a) :: (j, b) :: es
    else (j, b) :: assign k a es

def remove (k : κ) (es : List (κ × α)) : List (κ × α) :=
  es.filter (fun e => e.1 ≠ k)

/-- A sequence of assignments, the later ones overwriting the earlier ones. -/
def assignAll (es : List (κ × α)) (ws : List (κ × α)) : List (κ × α) :=
  ws.foldl (fun es w => assign w.1 w.2 es) es

def keys (es : List (κ × α)) : List κ := es.map Prod.fst

/-- Strictly increasing keys. -/
def Ordered (es : List (κ × α)) : Prop := es.Pairwise (fun e f => e.1 < f.1)

instance (es : List (κ × α)) : Decidable (Ordered es) := by
  unfold Ordered; infer_instance

/-- The last value written under `k` in a sequence of writes. -/
def lastWrite (k : κ) (ws : List (κ × α)) : Option α := List.lookup k ws.reverse

theorem lookup_cons (k j : κ) (a : α) (es : List (κ × α)) :
    List.lookup k ((j, a) :: es) = if k = j then some a else List.lookup k es := by
  by_cases h : k = j
  · simp [h]
  · simp [List.lookup_cons, h, beq_eq_false_iff_ne.mpr h]

@[simp] theorem assignAll_nil (es : List (κ × α)) : assignAll es [] = es := rfl

@[simp] theorem assignAll_cons (es : List (κ × α)) (w : κ × α) (ws : List (κ × α)) :
    assignAll es (w :: ws) = assignAll (assign w.1 w.2 es) ws := rfl

/-- Assignment changes exactly one observable key. -/
theorem lookup_assign (k j : κ) (a : α) (es : List (κ × α)) :
    List.lookup j (assign k a es) = if j = k then some a else List.lookup j es := by
  induction es with
  | nil => simp [assign, lookup_cons]
  | cons e es ih =>
    obtain ⟨i, b⟩ := e
    by_cases hki : k = i
    · subst hki
      by_cases hjk : j = k <;> simp [assign, lookup_cons, hjk]
    · by_cases hlt : k < i
      · simp [assign, hki, hlt, lookup_cons]
      · by_cases hji : j = i
        · subst hji
          simp [assign, hki, hlt, Ne.symm hki]
        · simp [assign, hki, hlt, lookup_cons, hji, ih]

theorem lookup_remove (k j : κ) (es : List (κ × α)) :
    List.lookup j (remove k es) = if j = k then none else List.lookup j es := by
  induction es with
  | nil => simp [remove]
  | cons e es ih =>
    obtain ⟨i, b⟩ := e
    simp only [remove] at ih ⊢
    by_cases hik : i = k
    · subst hik
      by_cases hji : j = i
      · simpa [lookup_cons, hji] using ih
      · simpa [lookup_cons, hji] using ih
    · by_cases hji : j = i
      · subst hji
        simp [hik]
      · simpa [lookup_cons, hik, hji] using ih

@[simp] theorem lookup_remove_self (k : κ) (es : List (κ × α)) :
    List.lookup k (remove k es) = none := by simp [lookup_remove]

/-- After a sequence of writes a key reads the last value written under it. -/
theorem lookup_assignAll (k : κ) (es ws : List (κ × α)) :
    List.lookup k (assignAll es ws) = (lastWrite k ws).or (List.lookup k es) := by
  induction ws generalizing es with
  | nil => simp [lastWrite]
  | cons w ws ih =>
    obtain ⟨j, a⟩ := w
    rw [assignAll_cons, ih, lookup_assign, lastWrite, lastWrite, List.reverse_cons,
      List.lookup_append, lookup_cons, List.lookup_nil, Option.or_assoc]
    by_cases h : k = j <;> simp [h]

theorem lookup_isSome_iff (k : κ) (es : List (κ × α)) :
    (List.lookup k es).isSome ↔ k ∈ keys es := by
  simp [keys]

theorem lookup_eq_none_iff (k : κ) (es : List (κ × α)) :
    List.lookup k es = none ↔ k ∉ keys es := by
  rw [← lookup_isSome_iff, Option.not_isSome_iff_eq_none]

theorem mem_of_lookup {k : κ} {a : α} {es : List (κ × α)} (h : List.lookup k es = some a) :
    (k, a) ∈ es := by
  obtain ⟨fs, gs, rfl, -⟩ := List.lookup_eq_some_iff.mp h
  exact List.mem_append_right _ (List.mem_cons_self ..)

theorem lookup_of_mem_nodup {k : κ} {a : α} {es : List (κ × α)} (hn : (keys es).Nodup)
    (h : (k, a) ∈ es) : List.lookup k es = some a := by
  induction es with
  | nil => simp at h
  | cons e es ih =>
    obtain ⟨j, b⟩ := e
    obtain ⟨hj, hn⟩ := List.nodup_cons.mp hn
    rcases List.mem_cons.mp h with he | he
    · cases he
      simp
    · have hk : k ≠ j := by
        rintro rfl
        exact hj (List.mem_map.mpr ⟨(k, a), he, rfl⟩)
      rw [lookup_cons, if_neg hk]
      exact ih hn he

theorem lookup_forall₂ {R : α → β → Prop} {es : List (κ × α)} {fs : List (κ × β)}
    (h : List.Forall₂ (fun e f => f.1 = e.1 ∧ R e.2 f.2) es fs) (k : κ) :
    Option.Rel R (List.lookup k es) (List.lookup k fs) := by
  induction h with
  | nil => exact .none
  | @cons e f es fs hef _ ih =>
    obtain ⟨j, a⟩ := e
    obtain ⟨i, b⟩ := f
    have hi : i = j := hef.1
    subst hi
    by_cases hk : k = i
    · simpa [lookup_cons, hk] using Option.Rel.some hef.2
    · simpa [lookup_cons, hk] using ih

section LastWrite

variable {k : κ} {a : α} {ws : List (κ × α)}

theorem lastWrite_forall₂ {R : α → β → Prop} {es : List (κ × α)} {fs : List (κ × β)}
    (h : List.Forall₂ (fun e f => f.1 = e.1 ∧ R e.2 f.2) es fs) (k : κ) :
    Option.Rel R (lastWrite k es) (lastWrite k fs) :=
  lookup_forall₂ (List.forall₂_reverse_iff.mpr h) k

theorem mem_of_lastWrite (h : lastWrite k ws = some a) : (k, a) ∈ ws :=
  List.mem_reverse.mp (mem_of_lookup h)

theorem lastWrite_eq_none_iff : lastWrite k ws = none ↔ k ∉ keys ws := by
  rw [lastWrite, lookup_eq_none_iff]
  simp [keys]

theorem exists_lastWrite (h : (k, a) ∈ ws) : ∃ b, lastWrite k ws = some b := by
  cases hl : lastWrite k ws with
  | some b => exact ⟨b, rfl⟩
  | none => exact absurd (List.mem_map_of_mem h) (lastWrite_eq_none_iff.mp hl)

theorem lastWrite_of_mem_nodup (hn : (keys ws).Nodup) (h : (k, a) ∈ ws) :
    lastWrite k ws = some a := by
  refine lookup_of_mem_nodup ?_ (List.mem_reverse.mpr h)
  have hr : keys ws.reverse = (keys ws).reverse := List.map_reverse
  rw [hr]
  exact List.pairwise_reverse.mpr (hn.imp Ne.symm)

end LastWrite

namespace Ordered

theorem nodup_keys {es : List (κ × α)} (h : Ordered es) : (keys es).Nodup := by
  unfold keys List.Nodup
  exact List.pairwise_map.mpr (h.imp (fun hlt => ne_of_lt hlt))

theorem lookup_of_mem {k : κ} {a : α} {es : List (κ × α)} (h : Ordered es)
    (he : (k, a) ∈ es) : List.lookup k es = some a :=
  lookup_of_mem_nodup h.nodup_keys he

theorem nil : Ordered ([] : List (κ × α)) := List.Pairwise.nil

theorem tail {e : κ × α} {es : List (κ × α)} (h : Ordered (e :: es)) : Ordered es :=
  (List.pairwise_cons.mp h).2

private theorem mem_assign {k : κ} {a : α} {es : List (κ × α)} {e : κ × α}
    (h : e ∈ assign k a es) : e = (k, a) ∨ e ∈ es := by
  induction es with
  | nil => simpa [assign] using h
  | cons f es ih =>
    obtain ⟨j, b⟩ := f
    by_cases hkj : k = j
    · simp only [assign, hkj, if_true, List.mem_cons] at h ⊢
      rcases h with h | h
      · exact Or.inl h
      · exact Or.inr (Or.inr h)
    · by_cases hlt : k < j
      · simpa [assign, hkj, hlt] using h
      · simp only [assign, hkj, hlt, if_false, List.mem_cons] at h ⊢
        rcases h with h | h
        · exact Or.inr (Or.inl h)
        · rcases ih h with h | h
          · exact Or.inl h
          · exact Or.inr (Or.inr h)

protected theorem assign {es : List (κ × α)} (h : Ordered es) (k : κ) (a : α) :
    Ordered (assign k a es) := by
  induction es with
  | nil => simp [OrderedEntries.assign, Ordered]
  | cons e es ih =>
    obtain ⟨j, b⟩ := e
    have hc := List.pairwise_cons.mp h
    by_cases hkj : k = j
    · subst hkj
      simp only [OrderedEntries.assign, if_true]
      exact List.pairwise_cons.mpr ⟨hc.1, hc.2⟩
    · by_cases hlt : k < j
      · simp only [OrderedEntries.assign, hkj, hlt, if_true, if_false]
        refine List.pairwise_cons.mpr ⟨?_, h⟩
        intro f hf
        rcases List.mem_cons.mp hf with rfl | hf
        · exact hlt
        · exact lt_trans hlt (hc.1 f hf)
      · simp only [OrderedEntries.assign, hkj, hlt, if_false]
        refine List.pairwise_cons.mpr ⟨?_, ih hc.2⟩
        intro f hf
        rcases mem_assign hf with rfl | hf
        · exact lt_of_le_of_ne (not_lt.mp hlt) (Ne.symm hkj)
        · exact hc.1 f hf

protected theorem assignAll {es : List (κ × α)} (h : Ordered es) (ws : List (κ × α)) :
    Ordered (assignAll es ws) := by
  induction ws generalizing es with
  | nil => exact h
  | cons w ws ih => exact ih (h.assign w.1 w.2)

/-- Assigning a key above all present ones appends its entry. -/
theorem assign_of_forall_lt {es : List (κ × α)} {k : κ} (a : α)
    (h : ∀ e ∈ es, e.1 < k) : OrderedEntries.assign k a es = es ++ [(k, a)] := by
  induction es with
  | nil => rfl
  | cons e es ih =>
    obtain ⟨j, b⟩ := e
    have hj : j < k := h (j, b) (List.mem_cons_self ..)
    simp only [OrderedEntries.assign, ne_of_gt hj, not_lt_of_gt hj, if_false, List.cons_append]
    rw [ih (fun f hf => h f (List.mem_cons_of_mem _ hf))]

private theorem assignAll_append {es ws : List (κ × α)} (h : Ordered (es ++ ws)) :
    OrderedEntries.assignAll es ws = es ++ ws := by
  induction ws generalizing es with
  | nil => simp
  | cons w ws ih =>
    have hlt : ∀ e ∈ es, e.1 < w.1 := fun e he =>
      (List.pairwise_append.mp h).2.2 e he w (List.mem_cons_self ..)
    rw [assignAll_cons, assign_of_forall_lt w.2 hlt]
    have ho : Ordered ((es ++ [w]) ++ ws) := by simpa using h
    simpa using ih ho

/-- Writing the entries of an ordered list one by one rebuilds that list. -/
theorem assignAll_self {ws : List (κ × α)} (h : Ordered ws) :
    OrderedEntries.assignAll [] ws = ws := by
  have hn : Ordered ([] ++ ws) := h
  simpa using assignAll_append hn

/-- The ordering makes the representation of a map unique. -/
protected theorem ext {es fs : List (κ × α)} (he : Ordered es) (hf : Ordered fs)
    (h : ∀ k, List.lookup k es = List.lookup k fs) : es = fs := by
  have hmem : ∀ e, e ∈ es ↔ e ∈ fs := by
    intro e
    obtain ⟨k, a⟩ := e
    constructor
    · intro hm
      have hl := he.lookup_of_mem hm
      rw [h k] at hl
      exact mem_of_lookup hl
    · intro hm
      have hl := hf.lookup_of_mem hm
      rw [← h k] at hl
      exact mem_of_lookup hl
  have hperm : es.Perm fs := (List.perm_ext_iff_of_nodup
    (he.imp fun hlt heq => absurd (congrArg Prod.fst heq) (ne_of_lt hlt))
    (hf.imp fun hlt heq => absurd (congrArg Prod.fst heq) (ne_of_lt hlt))).mpr hmem
  exact hperm.eq_of_pairwise (fun e f _ _ hef hfe => absurd hef (not_lt_of_gt hfe)) he hf

/-- Maps of one size, of which one has all the keys of the other, have the same keys. -/
theorem keys_eq {es : List (κ × α)} {fs : List (κ × β)} (he : Ordered es) (hf : Ordered fs)
    (hl : es.length = fs.length) (h : ∀ k ∈ keys es, k ∈ keys fs) : keys es = keys fs := by
  have hsub : (keys es).Subperm (keys fs) := List.subperm_of_subset he.nodup_keys h
  have hperm : (keys es).Perm (keys fs) := hsub.perm_of_length_le (by simp [keys, hl])
  have hes : (keys es).Pairwise (· < ·) := List.pairwise_map.mpr he
  have hfs : (keys fs).Pairwise (· < ·) := List.pairwise_map.mpr hf
  exact hperm.eq_of_pairwise (fun j k _ _ hjk hkj => absurd hjk (not_lt_of_gt hkj)) hes hfs

/-- Maps of one size, every entry of one of which is related to the entry of the other under
the same key, are related entry by entry. -/
theorem forall₂_of_lookup {R : α → β → Prop} {es : List (κ × α)} {fs : List (κ × β)}
    (he : Ordered es) (hf : Ordered fs) (hl : es.length = fs.length)
    (h : ∀ e ∈ es, ∃ b, List.lookup e.1 fs = some b ∧ R e.2 b) :
    List.Forall₂ (fun e f => e.1 = f.1 ∧ R e.2 f.2) es fs := by
  have hkeys : keys es = keys fs := he.keys_eq hf hl fun k hk => by
    obtain ⟨e, hmem, rfl⟩ := List.mem_map.mp hk
    obtain ⟨b, hb, -⟩ := h e hmem
    exact List.mem_map.mpr ⟨_, mem_of_lookup hb, rfl⟩
  clear hl
  induction es generalizing fs with
  | nil =>
    cases fs with
    | nil => exact .nil
    | cons f fs => simp [keys] at hkeys
  | cons e es ih =>
    cases fs with
    | nil => simp [keys] at hkeys
    | cons f fs =>
      simp only [keys, List.map_cons, List.cons.injEq] at hkeys
      obtain ⟨b, hb, hr⟩ := h e (List.mem_cons_self ..)
      have hfirst : b = f.2 := by
        obtain ⟨j, c⟩ := f
        simpa [lookup_cons, hkeys.1, eq_comm] using hb
      refine .cons ⟨hkeys.1, hfirst ▸ hr⟩ (ih he.tail hf.tail (fun d hd => ?_) hkeys.2)
      obtain ⟨c, hc, hrc⟩ := h d (List.mem_cons_of_mem _ hd)
      have hne : d.1 ≠ f.1 := by
        rw [← hkeys.1]
        exact ne_of_gt ((List.pairwise_cons.mp he).1 d hd)
      rw [lookup_cons, if_neg hne] at hc
      exact ⟨c, hc, hrc⟩

protected theorem map {es : List (κ × α)} (h : Ordered es) (f : α → β) :
    Ordered (es.map (fun e => (e.1, f e.2))) :=
  List.pairwise_map.mpr h

protected theorem remove {es : List (κ × α)} (h : Ordered es) (k : κ) :
    Ordered (remove k es) :=
  h.filter _

end Ordered

end Langsvr.OrderedEntries
