import Langsvr.ListRelations
import Mathlib.Order.Filter.AtTopBot.Basic
import Mathlib.Order.Filter.Finite

/-!
# Limits on recursion

A recursive function that is given the number of calls that may be nested computes the same for
almost all numbers. What is known of almost all numbers is put together call by call.
-/

namespace Langsvr.RecursionLimits

open Filter (Eventually atTop)

variable {α β γ : Type}

theorem eventually_succ {P Q : ℕ → Prop} (h : ∀ᶠ n in atTop, P n) (hPQ : ∀ n, P n → Q (n + 1)) :
    ∀ᶠ n in atTop, Q n := by
  obtain ⟨N, hN⟩ := Filter.eventually_atTop.mp h
  refine Filter.eventually_atTop.mpr ⟨N + 1, fun n hn => ?_⟩
  obtain ⟨k, rfl⟩ : ∃ k, n = k + 1 := ⟨n - 1, by omega⟩
  exact hPQ k (hN k (by omega))

theorem eventually_of_succ {P : ℕ → Prop} (h : ∀ n, P (n + 1)) : ∀ᶠ n in atTop, P n :=
  eventually_succ (P := fun _ => True) (.of_forall fun _ => trivial) fun n _ => h n

/-- What holds of almost all numbers for each member of a list. -/
theorem eventually_forall_mem {as : List α} {P : α → ℕ → Prop}
    (h : ∀ a ∈ as, ∀ᶠ n in atTop, P a n) : ∀ᶠ n in atTop, ∀ a ∈ as, P a n :=
  (Filter.eventually_all_finite (List.finite_toSet as)).mpr h

theorem eventually_map_eq {as : List α} {bs : List β} {f : ℕ → α → γ} {g : β → γ}
    (hl : as.length = bs.length) (h : ∀ p ∈ as.zip bs, ∀ᶠ n in atTop, f n p.1 = g p.2) :
    ∀ᶠ n in atTop, as.map (f n) = bs.map g := by
  refine (eventually_forall_mem h).mono fun n hn => ?_
  apply List.ext_getElem (by simpa using hl)
  intro i hi hi'
  simp only [List.length_map] at hi hi'
  simpa using hn _ (ListRelations.mem_zip_getElem hl hi')

end Langsvr.RecursionLimits
