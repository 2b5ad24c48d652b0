import Mathlib.Data.List.Basic
import Mathlib.Data.List.Infix

/-!
# Occurrences in lists

A list is split at the leftmost occurrences of another one, which do not overlap. There is at most
one way to do so.
-/

namespace Langsvr.Occurrences

variable {α : Type} {sep s p rest : List α} {ps qs : List (List α)} {i : ℕ}

def OccursAt (sep s : List α) (i : ℕ) : Prop := sep <+: s.drop i

/-- The parts of a list between the leftmost occurrences of another one, each searched for behind
the one before. -/
inductive Splits (sep : List α) : List α → List (List α) → Prop
  | last {s : List α} (h : ∀ i, ¬ OccursAt sep s i) : Splits sep s [s]
  | cut {p rest : List α} {ps : List (List α)}
      (h : ∀ i, i < p.length → ¬ OccursAt sep (p ++ sep ++ rest) i) (hrest : Splits sep rest ps) :
      Splits sep (p ++ sep ++ rest) (p :: ps)

theorem occursAt_length : OccursAt sep (p ++ sep ++ rest) p.length := by
  rw [OccursAt, List.append_assoc, List.drop_left]
  exact List.prefix_append sep rest

theorem OccursAt.eq_append (h : OccursAt sep s i) :
    s = s.take i ++ sep ++ s.drop (i + sep.length) := by
  obtain ⟨rest, hrest⟩ := h
  have hdrop : s.drop (i + sep.length) = rest := by
    rw [← List.drop_drop, ← hrest, List.drop_left]
  rw [hdrop, List.append_assoc, hrest, List.take_append_drop]

theorem occursAt_append : OccursAt sep (p ++ s) (p.length + i) ↔ OccursAt sep s i := by
  rw [OccursAt, OccursAt, List.drop_length_add_append]

theorem OccursAt.lt_length (h : OccursAt sep s i) (hsep : sep ≠ []) : i < s.length := by
  have hle := h.length_le
  rw [List.length_drop] at hle
  have hpos := List.length_pos_iff.mpr hsep
  omega

theorem splits_iff : Splits sep s qs ↔ ((∀ i, ¬ OccursAt sep s i) ∧ qs = [s]) ∨
    ∃ p rest ps, s = p ++ sep ++ rest ∧ (∀ i, i < p.length → ¬ OccursAt sep s i) ∧
      Splits sep rest ps ∧ qs = p :: ps := by
  constructor
  · intro h
    cases h with
    | last h => exact .inl ⟨h, rfl⟩
    | cut h hrest => exact .inr ⟨_, _, _, rfl, h, hrest, rfl⟩
  · rintro (⟨h, rfl⟩ | ⟨p, rest, ps, rfl, h, hrest, rfl⟩)
    · exact .last h
    · exact .cut h hrest

theorem Splits.unique (h : Splits sep s ps) (h' : Splits sep s qs) : ps = qs := by
  induction h generalizing qs with
  | last h =>
    rcases splits_iff.mp h' with ⟨-, rfl⟩ | ⟨p, rest, _, rfl, -⟩
    · rfl
    · exact absurd occursAt_length (h p.length)
  | @cut p rest ps h hrest ih =>
    rcases splits_iff.mp h' with ⟨hnone, -⟩ | ⟨p', rest', ps', heq, hfirst, hrest', rfl⟩
    · exact absurd occursAt_length (hnone p.length)
    · -- neither of the two first occurrences is before the other
      have hlength : p.length = p'.length := by
        rcases Nat.lt_trichotomy p.length p'.length with hlt | hlt | hlt
        · exact absurd occursAt_length (hfirst p.length hlt)
        · exact hlt
        · exact absurd (heq ▸ occursAt_length) (h p'.length hlt)
      rw [List.append_assoc, List.append_assoc] at heq
      obtain ⟨rfl, htail⟩ := List.append_inj heq hlength
      obtain rfl := List.append_cancel_left htail
      rw [ih hrest']

theorem Splits.ne_nil (h : Splits sep s ps) : ps ≠ [] := by
  cases h with
  | last h => exact List.cons_ne_nil _ _
  | cut h hrest => exact List.cons_ne_nil _ _

theorem Splits.intercalate_eq (h : Splits sep s ps) : sep.intercalate ps = s := by
  induction h with
  | last h => exact List.intercalate_singleton
  | cut h hrest ih => rw [List.intercalate_cons_of_ne_nil hrest.ne_nil, ih]

end Langsvr.Occurrences
