import Mathlib.Data.List.Forall2
import Mathlib.Data.List.Nodup
import Mathlib.Tactic.Common

/-!
# Lists related entry by entry

What the relation of two lists says about their positions and their members.
-/

namespace Langsvr.ListRelations

variable {α β : Type*} {R : α → β → Prop} {as : List α} {bs : List β}

/-- Lists whose entries agree position by position. -/
theorem forall₂_iff_getElem? : List.Forall₂ R as bs ↔ bs.length = as.length ∧
    ∀ (i : ℕ) (a : α), as[i]? = some a → ∃ b, bs[i]? = some b ∧ R a b := by
  induction as generalizing bs with
  | nil => cases bs <;> simp
  | cons a as ih =>
    cases bs with
    | nil => simp
    | cons b bs =>
      simp only [List.forall₂_cons, ih, List.length_cons, Nat.add_right_cancel_iff]
      constructor
      · intro h
        obtain ⟨hab, hl, h⟩ := h
        refine ⟨hl, fun i c hi => ?_⟩
        cases i with
        | zero => exact ⟨b, rfl, by simpa using (by simpa using hi : a = c) ▸ hab⟩
        | succ i => exact h i c (by simpa using hi)
      · intro h
        obtain ⟨hl, h⟩ := h
        refine ⟨?_, hl, fun i c hi => h (i + 1) c (by simpa using hi)⟩
        obtain ⟨c, hc, hac⟩ := h 0 a rfl
        simp only [List.getElem?_cons_zero, Option.some.injEq] at hc
        exact hc ▸ hac

/-- A list all of whose entries have a counterpart. -/
theorem exists_forall₂_iff : (∃ bs, List.Forall₂ R as bs) ↔ ∀ a ∈ as, ∃ b, R a b := by
  induction as with
  | nil => simp
  | cons a as ih =>
    rw [List.forall_mem_cons, ← ih]
    constructor
    · intro h
      obtain ⟨_, _ | ⟨hb, hbs⟩⟩ := h
      exact ⟨⟨_, hb⟩, _, hbs⟩
    · intro h
      obtain ⟨⟨b, hb⟩, bs, hbs⟩ := h
      exact ⟨b :: bs, .cons hb hbs⟩

theorem exists_getElem?_of_length_eq (hl : as.length = bs.length) {i : ℕ} {a : α}
    (ha : as[i]? = some a) : ∃ b, bs[i]? = some b := by
  have hlt : i < bs.length := hl ▸ (List.getElem?_eq_some_iff.mp ha).1
  exact ⟨bs[i], List.getElem?_eq_getElem hlt⟩

/-- Positions at which something is found make a list. -/
theorem exists_list_of_getElem? {P : ℕ → α → β → Prop} {xs : List α}
    (h : ∀ i x, xs[i]? = some x → ∃ y, P i x y) :
    ∃ ys : List β, ys.length = xs.length ∧
      ∀ i x, xs[i]? = some x → ∃ y, ys[i]? = some y ∧ P i x y := by
  induction xs generalizing P with
  | nil => exact ⟨[], rfl, fun i x hx => by cases hx⟩
  | cons x xs ih =>
    obtain ⟨y, hy⟩ := h 0 x rfl
    obtain ⟨ys, hl, hys⟩ := @ih (fun i => P (i + 1)) fun i z hz => h (i + 1) z hz
    refine ⟨y :: ys, by rw [List.length_cons, hl, List.length_cons], ?_⟩
    intro i z hz
    cases i with
    | zero =>
      cases hz
      exact ⟨y, rfl, hy⟩
    | succ i => exact hys i z hz

theorem exists_of_mem_right (h : List.Forall₂ R as bs) {b : β} (hb : b ∈ bs) :
    ∃ a ∈ as, R a b := by
  induction h with
  | nil => simp at hb
  | cons hr _ ih =>
    rcases List.mem_cons.mp hb with rfl | hb
    · exact ⟨_, List.mem_cons_self .., hr⟩
    · obtain ⟨a, ha, hab⟩ := ih hb
      exact ⟨a, List.mem_cons_of_mem _ ha, hab⟩

theorem exists_of_mem_left (h : List.Forall₂ R as bs) {a : α} (ha : a ∈ as) :
    ∃ b, b ∈ bs ∧ R a b :=
  exists_of_mem_right h.flip ha

theorem map_eq_map {γ : Type*} {f : α → γ} {g : β → γ} (h : List.Forall₂ R as bs)
    (hfg : ∀ a b, R a b → g b = f a) : bs.map g = as.map f := by
  induction h with
  | nil => rfl
  | cons hab _ ih => simp [hfg _ _ hab, ih]

theorem forall₂_congr_of_mem {S : α → β → Prop} (h : ∀ a ∈ as, ∀ b ∈ bs, (R a b ↔ S a b)) :
    List.Forall₂ R as bs ↔ List.Forall₂ S as bs := by
  induction as generalizing bs with
  | nil => cases bs <;> simp
  | cons a as ih =>
    cases bs with
    | nil => simp
    | cons b bs =>
      rw [List.forall₂_cons, List.forall₂_cons, h a (List.mem_cons_self ..) b
        (List.mem_cons_self ..), ih fun c hc d hd => h c (List.mem_cons_of_mem _ hc) d
        (List.mem_cons_of_mem _ hd)]

theorem symm_of_mem {α : Type} {R : α → α → Prop} {as bs : List α}
    (hs : ∀ a ∈ as, ∀ b ∈ bs, R a b → R b a) (h : List.Forall₂ R as bs) :
    List.Forall₂ R bs as := by
  induction h with
  | nil => exact .nil
  | cons hab _ ih =>
    refine .cons (hs _ (List.mem_cons_self ..) _ (List.mem_cons_self ..) hab) (ih ?_)
    intro a ha b hb
    exact hs a (List.mem_cons_of_mem _ ha) b (List.mem_cons_of_mem _ hb)

theorem trans_of_mem {α : Type} {R : α → α → Prop} {as bs cs : List α}
    (ht : ∀ a ∈ as, ∀ b ∈ bs, ∀ c ∈ cs, R a b → R b c → R a c) (h : List.Forall₂ R as bs)
    (h' : List.Forall₂ R bs cs) : List.Forall₂ R as cs := by
  induction h generalizing cs with
  | nil =>
    cases h'
    exact .nil
  | cons hab _ ih =>
    cases h' with
    | cons hbc hrest =>
      refine .cons (ht _ (List.mem_cons_self ..) _ (List.mem_cons_self ..) _
        (List.mem_cons_self ..) hab hbc) (ih (fun a ha b hb c hc => ?_) hrest)
      exact ht a (List.mem_cons_of_mem _ ha) b (List.mem_cons_of_mem _ hb) c
        (List.mem_cons_of_mem _ hc)

theorem forall₂_of_common {γ : Type*} {S : α → γ → Prop} {T : β → γ → Prop} {cs : List γ}
    (h : List.Forall₂ R as bs) (h' : List.Forall₂ S as cs)
    (ht : ∀ a ∈ as, ∀ b ∈ bs, ∀ c ∈ cs, R a b → S a c → T b c) : List.Forall₂ T bs cs := by
  induction h generalizing cs with
  | nil =>
    cases h'
    exact .nil
  | cons hab _ ih =>
    cases h' with
    | cons hac hrest =>
      refine .cons (ht _ (List.mem_cons_self ..) _ (List.mem_cons_self ..) _
        (List.mem_cons_self ..) hab hac) (ih hrest fun a ha b hb c hc => ?_)
      exact ht a (List.mem_cons_of_mem _ ha) b (List.mem_cons_of_mem _ hb) c
        (List.mem_cons_of_mem _ hc)

/-- The same for a list that is compared with the first one position by position. -/
theorem forall₂_of_zip {γ : Type*} {T : β → γ → Prop} {cs : List γ} (h : List.Forall₂ R as bs)
    (hl : as.length = cs.length) (ht : ∀ p ∈ as.zip cs, ∀ b, R p.1 b → T b p.2) :
    List.Forall₂ T bs cs := by
  have hs : List.Forall₂ (fun a c => ∀ b, R a b → T b c) as cs :=
    List.forall₂_iff_zip.mpr ⟨hl, fun hp => ht _ hp⟩
  exact forall₂_of_common h hs fun a _ b _ c _ hab hac => hac b hab

/-- When each entry of the first list determines whether its counterpart reads back. -/
theorem forall₂_flip_iff {P : α → Prop} {S : β → α → Prop} (h : List.Forall₂ R as bs)
    (hs : ∀ a ∈ as, ∀ b, R a b → (S b a ↔ P a)) :
    List.Forall₂ S bs as ↔ ∀ a ∈ as, P a := by
  induction h with
  | nil => simp
  | @cons a b as bs hab _ ih =>
    rw [List.forall₂_cons, List.forall_mem_cons, hs a (List.mem_cons_self ..) b hab,
      ih fun c hc => hs c (List.mem_cons_of_mem _ hc)]

theorem eq_of_filterMap_nodup {f : α → Option β} (h : (as.filterMap f).Nodup) {a a' : α} {b : β}
    (ha : a ∈ as) (ha' : a' ∈ as) (hb : f a = some b) (hb' : f a' = some b) : a = a' := by
  induction as with
  | nil => simp at ha
  | cons c as ih =>
    by_cases hc : f c = none
    · rw [List.filterMap_cons_none hc] at h
      have hne : ∀ d, f d = some b → d ≠ c := by
        rintro d hd rfl
        simp [hc] at hd
      exact ih h ((List.mem_cons.mp ha).resolve_left (hne a hb))
        ((List.mem_cons.mp ha').resolve_left (hne a' hb'))
    · obtain ⟨d, hd⟩ := Option.ne_none_iff_exists'.mp hc
      rw [List.filterMap_cons_some hd, List.nodup_cons] at h
      have hmem : ∀ e, f e = some b → e ∈ as → d ≠ b := by
        rintro e he hm rfl
        exact h.1 (List.mem_filterMap.mpr ⟨e, hm, he⟩)
      rcases List.mem_cons.mp ha with rfl | hm <;> rcases List.mem_cons.mp ha' with rfl | hm'
      · rfl
      · exact absurd (Option.some.inj (hd.symm.trans hb)) (hmem a' hb' hm')
      · exact absurd (Option.some.inj (hd.symm.trans hb')) (hmem a hb hm)
      · exact ih h.2 hm hm'

theorem filter_eq_singleton {p : α → Bool} (h : as.countP p ≤ 1) {a : α} (ha : a ∈ as)
    (hp : p a = true) : as.filter p = [a] := by
  have hmem : a ∈ as.filter p := List.mem_filter.mpr ⟨ha, hp⟩
  rw [List.countP_eq_length_filter] at h
  obtain ⟨b, hb⟩ := List.length_eq_one_iff.mp (Nat.le_antisymm h (List.length_pos_of_mem hmem))
  rw [hb] at hmem ⊢
  rw [List.mem_singleton.mp hmem]

section Options

variable {γ : Type*}

theorem mapM_eq_some {α β : Type} {f : α → Option β} {as : List α} {bs : List β}
    (h : as.mapM f = some bs) : List.Forall₂ (fun a b => f a = some b) as bs := by
  induction as generalizing bs with
  | nil =>
    cases h
    exact .nil
  | cons a as ih =>
    rw [List.mapM_cons] at h
    obtain ⟨b, hb, h⟩ := Option.bind_eq_some_iff.mp h
    obtain ⟨cs, hcs, h⟩ := Option.bind_eq_some_iff.mp h
    cases h
    exact .cons hb (ih hcs)

theorem mapM_of_forall₂ {α β : Type} {f : α → Option β} {as : List α} {bs : List β}
    (h : List.Forall₂ (fun a b => f a = some b) as bs) : as.mapM f = some bs := by
  induction h with
  | nil => rw [List.mapM_nil]; rfl
  | cons hab _ ih => rw [List.mapM_cons, hab, ih]; rfl

/-- What two functions select from lists whose entries agree under them. -/
theorem filterMap_eq_filterMap {f : α → Option γ} {g : β → Option γ} (h : List.Forall₂ R as bs)
    (hfg : ∀ a b, R a b → g b = f a) : bs.filterMap g = as.filterMap f := by
  induction h with
  | nil => rfl
  | cons hab _ ih => rw [List.filterMap_cons, List.filterMap_cons, hfg _ _ hab, ih]

end Options

section Zips

variable {γ : Type*}

theorem mem_zip_getElem (hl : as.length = bs.length) {i : ℕ} (hi : i < bs.length) :
    (as[i], bs[i]) ∈ as.zip bs := by
  apply List.mem_iff_getElem.mpr
  exact ⟨i, by simp; omega, by simp⟩

/-- Lists whose members satisfy equivalent conditions with the members of a third list. -/
theorem forall_zip_iff {R : α → γ → Prop} {S : β → γ → Prop} (hl : as.length = bs.length)
    {cs : List γ} (h : ∀ p ∈ as.zip bs, ∀ c ∈ cs, (R p.1 c ↔ S p.2 c)) :
    (∀ p ∈ as.zip cs, R p.1 p.2) ↔ ∀ p ∈ bs.zip cs, S p.1 p.2 := by
  induction as generalizing bs cs with
  | nil =>
    cases bs with
    | nil => simp
    | cons b bs => cases hl
  | cons a as ih =>
    cases bs with
    | nil => cases hl
    | cons b bs =>
      cases cs with
      | nil => simp
      | cons c cs =>
        rw [List.zip_cons_cons, List.forall_mem_cons] at h
        have hrest := ih (Nat.succ.inj hl) fun p hp d hd => h.2 p hp d (List.mem_cons_of_mem _ hd)
        rw [List.zip_cons_cons, List.zip_cons_cons, List.forall_mem_cons, List.forall_mem_cons,
          h.1 c (List.mem_cons_self ..), hrest]

theorem exists_mem_iff {P : α → Prop} {Q : β → Prop} (hl : as.length = bs.length)
    (h : ∀ p ∈ as.zip bs, (P p.1 ↔ Q p.2)) : (∃ a ∈ as, P a) ↔ ∃ b ∈ bs, Q b := by
  induction as generalizing bs with
  | nil =>
    cases bs with
    | nil => simp
    | cons b bs => cases hl
  | cons a as ih =>
    cases bs with
    | nil => cases hl
    | cons b bs =>
      rw [List.zip_cons_cons, List.forall_mem_cons] at h
      rw [List.exists_mem_cons_iff, List.exists_mem_cons_iff, h.1, ih (Nat.succ.inj hl) h.2]

end Zips

section Keys

variable {κ : Type} [DecidableEq κ] {f : α → κ}

theorem find?_of_nodup (h : (as.map f).Nodup) {a : α} (ha : a ∈ as) :
    as.find? (fun b => decide (f b = f a)) = some a := by
  cases hfind : as.find? (fun b => decide (f b = f a)) with
  | none => exact absurd (decide_eq_true rfl) (List.find?_eq_none.mp hfind a ha)
  | some b =>
    have hb : decide (f b = f a) = true := List.find?_some (p := fun b => decide (f b = f a)) hfind
    rw [List.inj_on_of_nodup_map h (List.mem_of_find?_eq_some hfind) ha (of_decide_eq_true hb)]

theorem find?_eq_none_of_notMem {k : κ} (h : k ∉ as.map f) :
    as.find? (fun b => decide (f b = k)) = none := by
  apply List.find?_eq_none.mpr
  intro b hb hk
  exact h (List.mem_map.mpr ⟨b, hb, of_decide_eq_true hk⟩)

theorem findIdx_of_nodup (h : (as.map f).Nodup) {i : ℕ} {a : α} (hi : as[i]? = some a) :
    as.findIdx (fun b => decide (f b = f a)) = i := by
  obtain ⟨hlt, rfl⟩ := List.getElem?_eq_some_iff.mp hi
  rw [List.findIdx_eq hlt]
  refine ⟨decide_eq_true rfl, fun j hj => decide_eq_false fun hk => ?_⟩
  have hjlt : j < as.length := Nat.lt_trans hj hlt
  have hmap : (as.map f)[j]? = (as.map f)[i]? := by
    rw [List.getElem?_map, List.getElem?_map, List.getElem?_eq_getElem hjlt,
      List.getElem?_eq_getElem hlt, Option.map_some, Option.map_some, hk]
  have hji := (List.getElem?_inj (by simpa using hjlt) h).mp hmap
  omega

end Keys

end Langsvr.ListRelations
