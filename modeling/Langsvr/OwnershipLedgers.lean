import Mathlib.Data.List.Nodup
import Mathlib.Logic.Equiv.Defs

/-!
# Ledgers of ownership

Things are made, owned and given up. As long as the ledger balances, each thing that was made has
one owner or was given up once, and when nobody owns anything, all was given up.
-/

namespace Langsvr.OwnershipLedgers

variable {ι α : Type} {made gone : List α} {owned owned' : ι → List α} {i : ι} {a : α}

/-- What was made is what was given up and what the owners have, without duplicates. -/
structure Balanced (made gone : List α) (owned : ι → List α) : Prop where
  made_nodup : made.Nodup
  gone_nodup : gone.Nodup
  owned_nodup : ∀ i, (owned i).Nodup
  separate : ∀ i j, i ≠ j → ∀ a ∈ owned i, a ∉ owned j
  kept : ∀ i, ∀ a ∈ owned i, a ∉ gone
  account : ∀ a, a ∈ made ↔ a ∈ gone ∨ ∃ i, a ∈ owned i

theorem Balanced.empty : Balanced ([] : List α) [] fun _ : ι => [] where
  made_nodup := .nil
  gone_nodup := .nil
  owned_nodup _ := .nil
  separate _ _ _ a ha := by cases ha
  kept _ a ha := by cases ha
  account a := by simp

theorem Balanced.make (h : Balanced made gone owned) (ha : a ∉ made)
    (hi : owned' i = owned i ++ [a]) (hothers : ∀ j, j ≠ i → owned' j = owned j) :
    Balanced (a :: made) gone owned' := by
  have hgone : a ∉ gone := fun hmem => ha ((h.account a).mpr (.inl hmem))
  have hfree : ∀ j, a ∉ owned j := fun j hmem => ha ((h.account a).mpr (.inr ⟨j, hmem⟩))
  have hmem : ∀ j b, b ∈ owned' j ↔ b ∈ owned j ∨ j = i ∧ b = a := by
    intro j b
    by_cases hj : j = i
    · rw [hj, hi]
      simp
    · rw [hothers j hj]
      simp [hj]
  refine ⟨List.nodup_cons.mpr ⟨ha, h.made_nodup⟩, h.gone_nodup, fun j => ?_,
    fun j k hjk b hb hbk => ?_, fun j b hb => ?_, fun b => ?_⟩
  · by_cases hj : j = i
    · rw [hj, hi, List.nodup_append_comm]
      exact List.nodup_cons.mpr ⟨hfree i, h.owned_nodup i⟩
    · rw [hothers j hj]
      exact h.owned_nodup j
  · rcases (hmem j b).mp hb with hb | ⟨rfl, rfl⟩
    · rcases (hmem k b).mp hbk with hbk | ⟨-, rfl⟩
      · exact h.separate j k hjk b hb hbk
      · exact hfree j hb
    · rcases (hmem k b).mp hbk with hbk | ⟨rfl, -⟩
      · exact hfree k hbk
      · exact hjk rfl
  · rcases (hmem j b).mp hb with hb | ⟨-, rfl⟩
    · exact h.kept j b hb
    · exact hgone
  · rw [List.mem_cons, h.account b]
    simp only [hmem]
    constructor
    · rintro (rfl | hb | ⟨j, hb⟩)
      · exact .inr ⟨i, .inr ⟨rfl, rfl⟩⟩
      · exact .inl hb
      · exact .inr ⟨j, .inl hb⟩
    · rintro (hb | ⟨j, hb | ⟨-, rfl⟩⟩)
      · exact .inr (.inl hb)
      · exact .inr (.inr ⟨j, hb⟩)
      · exact .inl rfl

theorem Balanced.giveUp (h : Balanced made gone owned) (hi : owned' i = [])
    (hothers : ∀ j, j ≠ i → owned' j = owned j) :
    Balanced made ((owned i).reverse ++ gone) owned' := by
  have hmem : ∀ j b, b ∈ owned' j ↔ j ≠ i ∧ b ∈ owned j := by
    intro j b
    by_cases hj : j = i
    · rw [hj, hi]
      simp
    · rw [hothers j hj]
      simp [hj]
  refine ⟨h.made_nodup, ?_, fun j => ?_, fun j k hjk b hb hbk => ?_, fun j b hb => ?_, fun b => ?_⟩
  · rw [List.nodup_append]
    refine ⟨List.nodup_reverse.mpr (h.owned_nodup i), h.gone_nodup, fun b hb c hc heq => ?_⟩
    exact h.kept i b (List.mem_reverse.mp hb) (heq ▸ hc)
  · by_cases hj : j = i
    · rw [hj, hi]
      exact .nil
    · rw [hothers j hj]
      exact h.owned_nodup j
  · exact h.separate j k hjk b ((hmem j b).mp hb).2 ((hmem k b).mp hbk).2
  · obtain ⟨hj, hb⟩ := (hmem j b).mp hb
    rw [List.mem_append, List.mem_reverse, not_or]
    exact ⟨h.separate j i hj b hb, h.kept j b hb⟩
  · rw [h.account b, List.mem_append, List.mem_reverse]
    simp only [hmem]
    constructor
    · rintro (hb | ⟨j, hb⟩)
      · exact .inl (.inr hb)
      · by_cases hj : j = i
        · exact .inl (.inl (hj ▸ hb))
        · exact .inr ⟨j, hj, hb⟩
    · rintro ((hb | hb) | ⟨j, -, hb⟩)
      · exact .inr ⟨i, hb⟩
      · exact .inl hb
      · exact .inr ⟨j, hb⟩

theorem Balanced.passOn (h : Balanced made gone owned) (σ : Equiv.Perm ι) :
    Balanced made gone fun i => owned (σ i) where
  made_nodup := h.made_nodup
  gone_nodup := h.gone_nodup
  owned_nodup i := h.owned_nodup (σ i)
  separate i j hij := h.separate (σ i) (σ j) fun heq => hij (σ.injective heq)
  kept i := h.kept (σ i)
  account a := by
    rw [h.account a, ← σ.exists_congr_right]

/-- A thing that was not given up has one owner. -/
theorem Balanced.owner (h : Balanced made gone owned) (ha : a ∈ made) (hgone : a ∉ gone) :
    ∃ i, a ∈ owned i ∧ ∀ j, a ∈ owned j → j = i := by
  obtain ⟨i, hi⟩ := ((h.account a).mp ha).resolve_left hgone
  refine ⟨i, hi, fun j hj => ?_⟩
  by_contra hne
  exact h.separate j i hne a hj hi

/-- All was given up once nobody has anything. -/
theorem Balanced.perm_of_nil (h : Balanced made gone owned) (hnil : ∀ i, owned i = []) :
    gone.Perm made := by
  refine (List.perm_ext_iff_of_nodup h.gone_nodup h.made_nodup).mpr fun a => ?_
  rw [h.account a]
  simp [hnil]

end Langsvr.OwnershipLedgers
