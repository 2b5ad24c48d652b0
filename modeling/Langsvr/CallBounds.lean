import Langsvr.ReentrantPrograms

/-!
# How many calls a program makes

A bound for the calls of a program holds whatever the replies are and whatever happens to
the state while a call lasts.
-/

namespace Langsvr.Program

variable {σ ε κ : Type} {ρ : κ → Type} {α β : Type}

inductive CallsAtMost : ℕ → Program σ ε κ ρ α → Prop
  | ret {k : ℕ} (a : α) : CallsAtMost k (.ret a)
  | abort {k : ℕ} (e : ε) : CallsAtMost k (.abort e)
  | update {k : ℕ} {f : σ → σ} {next : σ → Program σ ε κ ρ α}
      (h : ∀ s, CallsAtMost k (next s)) : CallsAtMost k (.update f next)
  | call {k : ℕ} {c : κ} {next : ρ c → Program σ ε κ ρ α} (h : ∀ r, CallsAtMost k (next r)) :
      CallsAtMost (k + 1) (.call c next)

namespace CallsAtMost

variable {k l : ℕ}

theorem mono {p : Program σ ε κ ρ α} (h : CallsAtMost k p) (hkl : k ≤ l) : CallsAtMost l p := by
  induction h generalizing l with
  | ret a => exact .ret a
  | abort e => exact .abort e
  | update _ ih => exact .update fun s => ih s hkl
  | @call k c next _ ih =>
    obtain ⟨l, rfl⟩ : ∃ m, l = m + 1 := ⟨l - 1, by omega⟩
    exact .call fun r => ih r (by omega)

theorem bind {p : Program σ ε κ ρ α} {g : α → Program σ ε κ ρ β} (hp : CallsAtMost k p)
    (hg : ∀ a, CallsAtMost l (g a)) : CallsAtMost (k + l) (p >>= g) := by
  induction hp with
  | @ret k a => exact (hg a).mono (Nat.le_add_left l k)
  | abort e => exact .abort e
  | update _ ih => exact .update ih
  | @call k c next _ ih =>
    rw [Nat.add_right_comm]
    exact .call ih

/-- A program without calls is followed by one with calls. -/
theorem after {p : Program σ ε κ ρ α} {g : α → Program σ ε κ ρ β} (hp : CallsAtMost 0 p)
    (hg : ∀ a, CallsAtMost l (g a)) : CallsAtMost l (p >>= g) := by
  rw [← Nat.zero_add l]
  exact hp.bind hg

theorem pure (a : α) : CallsAtMost k (pure a : Program σ ε κ ρ α) := .ret a

theorem get : CallsAtMost 0 (get : Program σ ε κ ρ σ) := .update .ret

theorem modifyGet (f : σ → α × σ) : CallsAtMost 0 (modifyGet f : Program σ ε κ ρ α) :=
  .update fun _ => .ret _

theorem modify (f : σ → σ) : CallsAtMost 0 (modify f : Program σ ε κ ρ Unit) :=
  .update fun _ => .ret ()

theorem request (c : κ) : CallsAtMost 1 (request c : Program σ ε κ ρ (ρ c)) := .call .ret

/-- What runs after the first call has one call less. -/
theorem of_run {p : Program σ ε κ ρ α} (h : CallsAtMost k p) {s t : σ} {c : κ}
    {next : ρ c → Program σ ε κ ρ α} (hr : p.run s = (.waiting c next, t)) :
    ∃ l, k = l + 1 ∧ ∀ r, CallsAtMost l (next r) := by
  induction h generalizing s with
  | ret a => cases hr
  | abort e => cases hr
  | update _ ih => exact ih s hr
  | @call k c next h _ =>
    cases hr
    exact ⟨k, rfl, h⟩

end CallsAtMost

end Langsvr.Program
