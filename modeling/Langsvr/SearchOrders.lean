import Langsvr.GraphTraversals
import Mathlib.Data.Set.Insert

/-!
# The order of a depth-first search

A depth-first search from a list of nodes lists a node after all that follow it, but for those
that it has entered and not left when it enters the node. These are the nodes that the search
for the node passes: from each of them it goes on to the first node from which the one searched
for can be reached along nodes that were not passed.
-/

namespace Langsvr.Traversal

section Paths

variable {κ : Type} (succ : κ → List κ)

/-- A path to a node along nodes outside a set. -/
inductive Reaches (A : Set κ) : κ → κ → Prop
  | refl {a : κ} (ha : a ∉ A) : Reaches A a a
  | step {a b c : κ} (ha : a ∉ A) (hab : b ∈ succ a) (hbc : Reaches A b c) : Reaches A a c

/-- The nodes that a search for `s` passes when it starts from the nodes of a list, one after the
other, and never enters a set. -/
inductive Passes (s : κ) : Set κ → List κ → κ → Prop
  | skip {A : Set κ} {y d : κ} {ys : List κ} (hy : ¬ Reaches succ A y s) (hd : Passes s A ys d) :
      Passes s A (y :: ys) d
  | enter {A : Set κ} {y : κ} {ys : List κ} (hy : Reaches succ A y s) : Passes s A (y :: ys) y
  | search {A : Set κ} {y d : κ} {ys : List κ} (hy : Reaches succ A y s) (hne : y ≠ s)
      (hd : Passes s (insert y A) (succ y) d) : Passes s A (y :: ys) d

variable {succ} {A B D : Set κ} {a b c x y s d : κ} {ys zs : List κ}

theorem Reaches.notMem (h : Reaches succ A a b) : a ∉ A := by
  cases h with
  | refl ha => exact ha
  | step ha _ _ => exact ha

theorem Reaches.notMem_right (h : Reaches succ A a b) : b ∉ A := by
  induction h with
  | refl ha => exact ha
  | step _ _ _ ih => exact ih

theorem Reaches.mono (hAB : A ⊆ B) (h : Reaches succ B a b) : Reaches succ A a b := by
  induction h with
  | refl ha => exact .refl fun hA => ha (hAB hA)
  | step ha hab _ ih => exact .step (fun hA => ha (hAB hA)) hab ih

/-- A node other than `x` that is reached from `x` is reached from a node that follows `x`,
without a return to `x`. -/
theorem Reaches.leave (h : Reaches succ A a s) : Reaches succ (insert x A) a s ∨ s = x ∨
    ∃ y ∈ succ x, Reaches succ (insert x A) y s := by
  induction h with
  | @refl a ha =>
    by_cases hax : a = x
    · exact .inr (.inl hax)
    · exact .inl (.refl fun hmem => hmem.elim hax ha)
  | @step a b c ha hab _ ih =>
    rcases ih with hb | hrest
    · by_cases hax : a = x
      · exact .inr (.inr ⟨b, hax ▸ hab, hb⟩)
      · exact .inl (.step (fun hmem => hmem.elim hax ha) hab hb)
    · exact .inr hrest

/-- A set that cannot be left along nodes outside another one. -/
def ClosedUnder (succ : κ → List κ) (A D : Set κ) : Prop := ∀ z ∈ D, ∀ w ∈ succ z, w ∉ A → w ∈ D

/-- A closed set does not lie on the paths to the nodes outside of it. -/
theorem ClosedUnder.reaches_iff (hD : ClosedUnder succ A D) :
    Reaches succ (A ∪ D) a s ↔ Reaches succ A a s ∧ s ∉ D := by
  constructor
  · intro h
    exact ⟨h.mono Set.subset_union_left, fun hs => h.notMem_right (.inr hs)⟩
  · intro h
    obtain ⟨h, hs⟩ := h
    induction h with
    | refl ha => exact .refl fun hmem => hmem.elim ha hs
    | @step a b c ha hab hbc ih =>
      have hb := ih hs
      refine .step (fun hmem => ?_) hab hb
      rcases hmem with hA | hDa
      · exact ha hA
      · exact hb.notMem (.inr (hD a hDa b hab hbc.notMem))

theorem ClosedUnder.insert (hD : ClosedUnder succ A D) (x : κ) :
    ClosedUnder succ (insert x A) D :=
  fun z hz w hw hwA => hD z hz w hw fun hA => hwA (.inr hA)

/-- A closed set does not change the search for a node outside of it. -/
theorem ClosedUnder.passes_iff (hD : ClosedUnder succ A D) (hs : s ∉ D) :
    Passes succ s (A ∪ D) ys d ↔ Passes succ s A ys d := by
  constructor
  · intro h
    generalize hB : A ∪ D = B at h
    induction h generalizing A with
    | skip hy _ ih =>
      subst hB
      exact .skip (fun h => hy (hD.reaches_iff.mpr ⟨h, hs⟩)) (ih hD rfl)
    | enter hy =>
      subst hB
      exact .enter (hD.reaches_iff.mp hy).1
    | search hy hne _ ih =>
      subst hB
      exact .search (hD.reaches_iff.mp hy).1 hne (ih (hD.insert _) Set.insert_union)
  · intro h
    induction h with
    | skip hy _ ih => exact .skip (fun h => hy (hD.reaches_iff.mp h).1) (ih hD)
    | enter hy => exact .enter (hD.reaches_iff.mpr ⟨hy, hs⟩)
    | search hy hne _ ih =>
      refine .search (hD.reaches_iff.mpr ⟨hy, hs⟩) hne ?_
      rw [← Set.insert_union]
      exact ih (hD.insert _)

theorem Passes.reaches (h : Passes succ s A ys d) : Reaches succ A d s := by
  induction h with
  | skip _ _ ih => exact ih
  | enter hy => exact hy
  | search _ _ _ ih => exact ih.mono (Set.subset_insert _ _)

theorem Passes.append_left (h : Passes succ s A ys d) (zs : List κ) :
    Passes succ s A (ys ++ zs) d := by
  induction ys with
  | nil => cases h
  | cons y ys ih =>
    cases h with
    | skip hy hd => exact .skip hy (ih hd)
    | enter hy => exact .enter hy
    | search hy hne hd => exact .search hy hne hd

theorem passes_append_right (hys : ∀ y ∈ ys, ¬ Reaches succ A y s) :
    Passes succ s A (ys ++ zs) d ↔ Passes succ s A zs d := by
  induction ys with
  | nil => exact Iff.rfl
  | cons y ys ih =>
    have hy := hys y (List.mem_cons_self ..)
    rw [List.cons_append, ← ih fun z hz => hys z (List.mem_cons_of_mem _ hz)]
    constructor
    · intro h
      cases h with
      | skip _ hd => exact hd
      | enter hy' => exact absurd hy' hy
      | search hy' _ _ => exact absurd hy' hy
    · exact .skip hy

theorem passes_cons_self (hs : s ∉ A) : Passes succ s A (s :: ys) d ↔ d = s := by
  constructor
  · intro h
    cases h with
    | skip hy _ => exact absurd (.refl hs) hy
    | enter _ => rfl
    | search _ hne _ => exact absurd rfl hne
  · rintro rfl
    exact .enter (.refl hs)

/-- A search ends in the first part of a list if its aim can be reached from there. -/
theorem Passes.of_append (hy : y ∈ ys) (hs : Reaches succ A y s)
    (h : Passes succ s A (ys ++ zs) d) : Passes succ s A ys d := by
  induction ys with
  | nil => cases hy
  | cons x xs ih =>
    cases h with
    | skip hx hd =>
      rcases List.mem_cons.mp hy with rfl | hy
      · exact absurd hs hx
      · exact .skip hx (ih hy hd)
    | enter hx => exact .enter hx
    | search hx hne hd => exact .search hx hne hd

end Paths

section Explorations

variable {κ : Type} {succ : κ → List κ} {A : Set κ} {x y s d : κ} {ys zs l l' : List κ}

/-- What a search from the nodes of a list finds outside a set, in the order in which it leaves
the nodes: when it leaves a node it has not left those that it passed on the way to the node,
and of the nodes that follow it it has left all others. -/
structure Explores (succ : κ → List κ) (A : Set κ) (ys l : List κ) : Prop where
  mem : ∀ s, s ∈ l ↔ ∃ y ∈ ys, Reaches succ A y s
  nodup : l.Nodup
  late : ∀ l₁ s l₂, l = l₁ ++ s :: l₂ → ∀ d, Passes succ s A ys d → d ∈ s :: l₂
  early : ∀ l₁ s l₂, l = l₁ ++ s :: l₂ → ∀ d ∈ succ s, d ∈ A ∨ d ∈ l₁ ∨ Passes succ s A ys d

theorem Explores.nil : Explores succ A [] [] where
  mem s := by simp
  nodup := List.nodup_nil
  late l₁ s l₂ h := by simp at h
  early l₁ s l₂ h := by simp at h

theorem Explores.seen (hx : x ∈ A) : Explores succ A [x] [] where
  mem s := by
    constructor
    · intro h
      cases h
    · intro h
      obtain ⟨y, hy, hs⟩ := h
      rw [List.mem_singleton.mp hy] at hs
      exact absurd hx hs.notMem
  nodup := List.nodup_nil
  late l₁ s l₂ h := by simp at h
  early l₁ s l₂ h := by simp at h

theorem Explores.notMem (h : Explores succ A ys l) (hs : s ∈ l) : s ∉ A := by
  obtain ⟨y, -, hy⟩ := (h.mem s).mp hs
  exact hy.notMem_right

theorem Explores.closed (h : Explores succ A ys l) : ClosedUnder succ A {k | k ∈ l} := by
  intro z hz w hw hA
  obtain ⟨y, hy, hyz⟩ := (h.mem z).mp hz
  refine (h.mem w).mpr ⟨y, hy, ?_⟩
  clear hz hy
  induction hyz with
  | refl ha => exact .step ha hw (.refl hA)
  | step ha hab _ ih => exact .step ha hab (ih hw)

theorem split_append {α : Type} {l l' l₁ l₂ : List α} {s : α} (h : l ++ l' = l₁ ++ s :: l₂) :
    (∃ r, l = l₁ ++ s :: r ∧ l₂ = r ++ l') ∨ ∃ r, l₁ = l ++ r ∧ l' = r ++ s :: l₂ := by
  rcases List.append_eq_append_iff.mp h with ⟨r, h₁, h₂⟩ | ⟨r, h₁, h₂⟩
  · exact .inr ⟨r, h₁, h₂⟩
  · cases r with
    | nil =>
      refine .inr ⟨[], ?_, ?_⟩
      · rw [h₁]
        simp
      · rw [List.nil_append]
        exact h₂.symm
    | cons z r =>
      rw [List.cons_append, List.cons.injEq] at h₂
      obtain ⟨rfl, rfl⟩ := h₂
      exact .inl ⟨r, h₁, rfl⟩

theorem split_singleton {α : Type} {x s : α} {r l₂ : List α} (h : [x] = r ++ s :: l₂) : s = x := by
  cases r with
  | nil => exact (List.cons.inj h).1.symm
  | cons z r => simp at h

/-- Two searches one after the other. The second one does not enter what the first one found. -/
theorem Explores.append (h : Explores succ A ys l) (h' : Explores succ (A ∪ {k | k ∈ l}) zs l') :
    Explores succ A (ys ++ zs) (l ++ l') where
  mem s := by
    have hclosed := h.closed
    rw [List.mem_append, h.mem, h'.mem]
    constructor
    · rintro (⟨y, hy, hs⟩ | ⟨y, hy, hs⟩)
      · exact ⟨y, List.mem_append_left _ hy, hs⟩
      · exact ⟨y, List.mem_append_right _ hy, (hclosed.reaches_iff.mp hs).1⟩
    · rintro ⟨y, hy, hs⟩
      rcases List.mem_append.mp hy with hy | hy
      · exact .inl ⟨y, hy, hs⟩
      · by_cases hl : s ∈ l
        · exact .inl ((h.mem s).mp hl)
        · exact .inr ⟨y, hy, hclosed.reaches_iff.mpr ⟨hs, hl⟩⟩
  nodup := by
    refine h.nodup.append h'.nodup ?_
    intro k hk hk'
    exact h'.notMem hk' (.inr hk)
  late l₁ s l₂ hl d hd := by
    rcases split_append hl with ⟨r, hr, rfl⟩ | ⟨r, rfl, hr⟩
    · have hs : s ∈ l := hr ▸ List.mem_append_right _ (List.mem_cons_self ..)
      obtain ⟨y, hy, hys⟩ := (h.mem s).mp hs
      have hmem := h.late l₁ s r hr d (hd.of_append hy hys)
      exact List.mem_append_left l' hmem
    · have hs' : s ∈ l' := hr ▸ List.mem_append_right _ (List.mem_cons_self ..)
      have hs : s ∉ l := fun hs => h'.notMem hs' (.inr hs)
      have hys : ∀ y ∈ ys, ¬ Reaches succ A y s := fun y hy hy' => hs ((h.mem s).mpr ⟨y, hy, hy'⟩)
      exact h'.late r s l₂ hr d (h.closed.passes_iff hs |>.mpr ((passes_append_right hys).mp hd))
  early l₁ s l₂ hl d hd := by
    rcases split_append hl with ⟨r, hr, rfl⟩ | ⟨r, rfl, hr⟩
    · rcases h.early l₁ s r hr d hd with hA | hl₁ | hp
      · exact .inl hA
      · exact .inr (.inl hl₁)
      · exact .inr (.inr (hp.append_left zs))
    · have hs' : s ∈ l' := hr ▸ List.mem_append_right _ (List.mem_cons_self ..)
      have hs : s ∉ l := fun hs => h'.notMem hs' (.inr hs)
      have hys : ∀ y ∈ ys, ¬ Reaches succ A y s := fun y hy hy' => hs ((h.mem s).mpr ⟨y, hy, hy'⟩)
      rcases h'.early r s l₂ hr d hd with (hA | hl) | hr' | hp
      · exact .inl hA
      · exact .inr (.inl (List.mem_append_left _ hl))
      · exact .inr (.inl (List.mem_append_right _ hr'))
      · exact .inr (.inr ((passes_append_right hys).mpr ((h.closed.passes_iff hs).mp hp)))

theorem reaches_iff (hx : x ∉ A) :
    Reaches succ A x s ↔ s = x ∨ ∃ y ∈ succ x, Reaches succ (insert x A) y s := by
  constructor
  · intro h
    rcases h.leave (x := x) with h | h
    · exact absurd (Set.mem_insert x A) h.notMem
    · exact h
  · rintro (rfl | ⟨y, hy, hs⟩)
    · exact .refl hx
    · exact .step hx hy (hs.mono (Set.subset_insert _ _))

/-- A node is left after the search from the nodes that follow it. -/
theorem Explores.wrap (hx : x ∉ A) (h : Explores succ (insert x A) (succ x) l) :
    Explores succ A [x] (l ++ [x]) where
  mem s := by
    simp only [List.mem_append, List.mem_singleton, exists_eq_left, h.mem, reaches_iff hx]
    exact or_comm
  nodup := by
    refine h.nodup.append (List.nodup_singleton x) ?_
    intro k hk hkx
    rw [List.mem_singleton.mp hkx] at hk
    exact h.notMem hk (Set.mem_insert x A)
  late l₁ s l₂ hl d hd := by
    rcases split_append hl with ⟨r, hr, rfl⟩ | ⟨r, rfl, hr⟩
    · cases hd with
      | skip _ hd => cases hd
      | enter _ => exact List.mem_cons_of_mem _ List.mem_concat_self
      | search _ _ hd => exact List.mem_append_left [x] (h.late l₁ s r hr d hd)
    · obtain rfl := split_singleton hr
      cases hd with
      | skip _ hd => cases hd
      | enter _ => exact List.mem_cons_self ..
      | search _ hne _ => exact absurd rfl hne
  early l₁ s l₂ hl d hd := by
    rcases split_append hl with ⟨r, hr, rfl⟩ | ⟨r, rfl, hr⟩
    · have hs : s ∈ l := hr ▸ List.mem_append_right _ (List.mem_cons_self ..)
      have hsx : x ≠ s := fun hxs => h.notMem hs (.inl hxs.symm)
      have hreach : Reaches succ A x s := (reaches_iff hx).mpr (.inr ((h.mem s).mp hs))
      rcases h.early l₁ s r hr d hd with (rfl | hA) | hl₁ | hp
      · exact .inr (.inr (.enter hreach))
      · exact .inl hA
      · exact .inr (.inl hl₁)
      · exact .inr (.inr (.search hreach hsx hp))
    · obtain rfl := split_singleton hr
      by_cases hmem : d ∈ insert s A
      · rcases hmem with rfl | hA
        · exact .inr (.inr (.enter (.refl hx)))
        · exact .inl hA
      · have hdl : d ∈ l := (h.mem d).mpr ⟨d, hd, .refl hmem⟩
        exact .inr (.inl (List.mem_append_left _ hdl))

/-- A node that follows another one is left before it if and only if the search for the other
node does not pass it. -/
theorem Explores.precedes_iff {l₁ l₂ : List κ} (h : Explores succ ∅ ys l)
    (hl : l = l₁ ++ s :: l₂) (hd : d ∈ succ s) : d ∈ l₁ ↔ ¬ Passes succ s ∅ ys d := by
  constructor
  · intro hd₁ hp
    have hnodup := h.nodup
    rw [hl] at hnodup
    exact (List.nodup_append.mp hnodup).2.2 d hd₁ d (h.late l₁ s l₂ hl d hp) rfl
  · intro hp
    rcases h.early l₁ s l₂ hl d hd with hA | hd₁ | hp'
    · exact absurd hA (Set.notMem_empty d)
    · exact hd₁
    · exact absurd hp' hp

end Explorations

section Visits

variable {α κ : Type} {key : α → κ} {next : α → Except Stop (List α)} {succ : κ → List κ}
  {P : α → Prop}

/-- A node of the key has the property, and what follows it is computed. -/
def Computed (key : α → κ) (next : α → Except Stop (List α)) (P : α → Prop) (k : κ) : Prop :=
  ∃ x, P x ∧ key x = k ∧ ∃ ys, next x = .ok ys

/-- The nodes that a run lists are those that a search of the graph of the keys finds. -/
structure Finds (key : α → κ) (next : α → Except Stop (List α)) (P : α → Prop) (succ : κ → List κ)
    (ys : List κ) (m m' : Marks α κ) (l : List κ) : Prop where
  sorted : m'.sorted.map key = m.sorted.map key ++ l
  seen : {k | k ∈ m'.seen} = {k | k ∈ m.seen} ∪ {k | k ∈ l}
  explores : Explores succ {k | k ∈ m.seen} ys l
  computed : ∀ k ∈ l, Computed key next P k

theorem foldlM_finds {step : Marks α κ → α → Except Stop (Marks α κ)} {xs : List α}
    (hstep : ∀ x ∈ xs, ∀ m m', step m x = .ok m' → ∃ l, Finds key next P succ [key x] m m' l)
    {m m' : Marks α κ} (hrun : xs.foldlM step m = .ok m') :
    ∃ l, Finds key next P succ (xs.map key) m m' l := by
  induction xs generalizing m with
  | nil =>
    cases hrun
    exact ⟨[], by simp, by simp, Explores.nil, fun k hk => by cases hk⟩
  | cons x xs ih =>
    rw [List.foldlM_cons] at hrun
    obtain ⟨m₁, hx, hrun⟩ := Except.bind_eq_ok.mp hrun
    obtain ⟨l, hl⟩ := hstep x (List.mem_cons_self ..) m m₁ hx
    obtain ⟨l', hl'⟩ := ih (fun y hy => hstep y (List.mem_cons_of_mem _ hy)) hrun
    refine ⟨l ++ l', ?_, ?_, hl.explores.append (hl.seen ▸ hl'.explores), fun k hk => ?_⟩
    · rw [hl'.sorted, hl.sorted, List.append_assoc]
    · rw [hl'.seen, hl.seen, Set.union_assoc]
      congr 1
      ext k
      simp
    · rcases List.mem_append.mp hk with hk | hk
      · exact hl.computed k hk
      · exact hl'.computed k hk

variable [DecidableEq κ]

theorem visit_finds (hclosed : ∀ x ys, P x → next x = .ok ys → ∀ y ∈ ys, P y)
    (hsucc : ∀ x ys, P x → next x = .ok ys → succ (key x) = ys.map key) {n : ℕ} {x : α} (hx : P x)
    {m m' : Marks α κ} (hrun : visit key next n x m = .ok m') :
    ∃ l, Finds key next P succ [key x] m m' l := by
  induction n generalizing x m m' with
  | zero => cases hrun
  | succ n ih =>
    obtain ⟨hseen, rfl⟩ | ⟨hseen, ys, m₁, hys, hfold, rfl⟩ := visit_succ_eq_ok hrun
    · exact ⟨[], by simp, by simp, Explores.seen hseen, fun k hk => by cases hk⟩
    · obtain ⟨l, hfinds⟩ := foldlM_finds (fun y hy _ _ => ih (hclosed x ys hx hys y hy)) hfold
      have hl := hfinds.explores
      have hmarks : {k | k ∈ key x :: m.seen} = insert (key x) {k | k ∈ m.seen} := by
        ext k
        simp
      rw [hmarks, ← hsucc x ys hx hys] at hl
      refine ⟨l ++ [key x], ?_, ?_, hl.wrap hseen, fun k hk => ?_⟩
      · rw [List.map_append, hfinds.sorted, List.append_assoc]
        rfl
      · rw [hfinds.seen, hmarks]
        ext k
        simp only [Set.mem_union, Set.mem_insert_iff, Set.mem_ofPred_eq, List.mem_append,
          List.mem_singleton]
        tauto
      · rcases List.mem_append.mp hk with hk | hk
        · exact hfinds.computed k hk
        · rw [List.mem_singleton.mp hk]
          exact ⟨x, hx, rfl, ys, hys⟩

end Visits

section Loops

variable {α κ : Type} {key : α → κ} {next : α → Except Stop (List α)}

/-- Each node of the list stands after all nodes that it refers to. -/
def Ordered (refers : α → α → Prop) (l : List α) : Prop :=
  ∀ l₁ x l₂, l = l₁ ++ x :: l₂ → ∀ d, refers x d → d ∈ l₁

def Follows (next : α → Except Stop (List α)) (x d : α) : Prop := ∃ ys, next x = .ok ys ∧ d ∈ ys

theorem Ordered.congr {R R' : α → α → Prop} {l : List α} (h : ∀ x ∈ l, ∀ d, R x d ↔ R' x d) :
    Ordered R l ↔ Ordered R' l := by
  have hmem : ∀ l₁ x l₂, l = l₁ ++ x :: l₂ → x ∈ l := by
    intro l₁ x l₂ hl
    rw [hl]
    exact List.mem_append_right _ (List.mem_cons_self ..)
  constructor
  · intro ho l₁ x l₂ hl d hd
    exact ho l₁ x l₂ hl d ((h x (hmem l₁ x l₂ hl) d).mpr hd)
  · intro ho l₁ x l₂ hl d hd
    exact ho l₁ x l₂ hl d ((h x (hmem l₁ x l₂ hl) d).mp hd)

/-- An order that will do for the reversed list has each node before those that it refers to. -/
theorem ordered_reverse {R : α → α → Prop} {l : List α} : Ordered R l.reverse ↔
    ∀ l₁ x l₂, l = l₁ ++ x :: l₂ → ∀ d, R x d → d ∈ l₂ := by
  constructor
  · intro h l₁ x l₂ hl d hd
    have hmem := h l₂.reverse x l₁.reverse (by rw [hl]; simp) d hd
    exact List.mem_reverse.mp hmem
  · intro h l₁ x l₂ hl d hd
    have hl' : l = l₂.reverse ++ x :: l₁.reverse := by
      rw [← List.reverse_reverse l, hl]
      simp
    exact List.mem_reverse.mp (h l₂.reverse x l₁.reverse hl' d hd)

/-- If the nodes on the stack are taken in their order and each has been preceded by those that
follow it, then what the loop pushes above them has been seen. This is so if either the stack or
the outcome is ordered. -/
theorem Drains.sorted_eq {all pushed stack : List α} {m m' : Marks α κ}
    (h : Drains key next all m m') (hall : all = pushed ++ stack)
    (hpushed : ∀ x ∈ pushed, key x ∈ m.seen) (hsorted : ∀ x ∈ m.sorted, key x ∈ m.seen)
    (hnodup : (stack.map key).Nodup) (hfresh : ∀ x ∈ stack, key x ∉ m.seen)
    (hordered : Ordered (Follows next) m'.sorted ∨
      Ordered (Follows next) (m.sorted ++ stack)) : m'.sorted = m.sorted ++ stack := by
  induction h generalizing pushed stack with
  | nil =>
    obtain ⟨-, rfl⟩ := List.append_eq_nil_iff.mp hall.symm
    rw [List.append_nil]
  | seen hseen _ ih =>
    cases pushed with
    | nil =>
      cases hall
      exact absurd hseen (hfresh _ (List.mem_cons_self ..))
    | cons y pushed =>
      cases hall
      exact ih rfl (fun z hz => hpushed z (List.mem_cons_of_mem _ hz)) hsorted hnodup hfresh
        hordered
  | @mark x ys rest m m' hseen hys hrun ih =>
    cases pushed with
    | cons y pushed =>
      cases hall
      exact absurd (hpushed x (List.mem_cons_self ..)) hseen
    | nil =>
      cases hall
      have hlisted : ∀ y ∈ ys, y ∈ m.sorted := by
        intro y hy
        rcases hordered with ho | ho
        · obtain ⟨⟨l, hl⟩, -⟩ := hrun.adds (P := fun _ => True) (fun _ _ _ _ _ _ => trivial)
            (fun _ _ => trivial)
          apply ho m.sorted x l _ y ⟨ys, hys, hy⟩
          rw [hl.sorted, List.append_assoc]
          rfl
        · exact ho m.sorted x rest rfl y ⟨ys, hys, hy⟩
      rw [List.map_cons, List.nodup_cons] at hnodup
      have hrest := ih rfl (fun y hy => ?_) (fun y hy => ?_) hnodup.2 (fun y hy => ?_)
        (by rwa [List.append_assoc, List.singleton_append])
      · rw [hrest, List.append_assoc]
        rfl
      · exact List.mem_cons_of_mem _ (hsorted y (hlisted y (List.mem_reverse.mp hy)))
      · rcases List.mem_append.mp hy with hy | hy
        · exact List.mem_cons_of_mem _ (hsorted y hy)
        · rw [List.mem_singleton.mp hy]
          exact List.mem_cons_self ..
      · intro hmem
        rcases List.mem_cons.mp hmem with heq | hmem
        · exact hnodup.1 (heq ▸ List.mem_map_of_mem hy)
        · exact hfresh y (List.mem_cons_of_mem _ hy) hmem

variable [DecidableEq κ]

/-- The loop orders the nodes if and only if they are on the stack in an order that will do. -/
theorem drain_ordered_iff {n : ℕ} {stack : List α} {m' : Marks α κ}
    (hrun : drain key next n stack {} = .ok m') (hnodup : (stack.map key).Nodup) :
    Ordered (Follows next) m'.sorted ↔ Ordered (Follows next) stack := by
  have heq := (drains_of_drain hrun).sorted_eq (List.nil_append _).symm (fun x hx => by cases hx)
    (fun x hx => by cases hx) hnodup (fun x _ hmem => by cases hmem)
  constructor
  · intro h
    have hsorted : m'.sorted = stack := heq (.inl h)
    exact hsorted ▸ h
  · intro h
    have hsorted : m'.sorted = stack := heq (.inr h)
    exact hsorted.symm ▸ h

end Loops

end Langsvr.Traversal
