import Mathlib.Tactic.Common

/-!
# Reading from a finite stream

A reading consumes symbols from the front of a stream and ends with a value or an
error. It frames a word if it consumes exactly that word, whatever follows, and fails on
what is left when the word is cut short. Framings compose, and a sequence of framed words
is read back word by word.
-/

namespace Langsvr

/-- A computation that reads from a stream, with the stream that it leaves. -/
def Reading (β ε α : Type) : Type := List β → Except ε α × List β

namespace Reading

variable {β ε α γ : Type}

def fail (e : ε) : Reading β ε α := fun s => (.error e, s)

def take (n : ℕ) : Reading β ε (List β) := fun s => (.ok (s.take n), s.drop n)

instance : Monad (Reading β ε) where
  pure a := fun s => (.ok a, s)
  bind p f := fun s =>
    match p s with
    | (.ok a, t) => f a t
    | (.error e, t) => (.error e, t)

theorem bind_eq_ok {p : Reading β ε α} {f : α → Reading β ε γ} {s u : List β} {c : γ} :
    (p >>= f) s = (.ok c, u) ↔ ∃ a t, p s = (.ok a, t) ∧ f a t = (.ok c, u) := by
  simp only [Bind.bind]
  cases hp : p s with
  | mk o t =>
    cases o with
    | ok a => simp
    | error e => simp

/-- The outcomes of a reading that is repeated on one stream. -/
def outcomes (p : Reading β ε α) : ℕ → List β → List (Except ε α)
  | 0, _ => []
  | n + 1, s => (p s).1 :: outcomes p n (p s).2

def Cut (q s : List β) : Prop := q <+: s ∧ q ≠ s

/-- The reading consumes the word, yields the value, and fails on a word cut short. -/
structure Frames (p : Reading β ε α) (s : List β) (a : α) : Prop where
  consumes : ∀ t, p (s ++ t) = (.ok a, t)
  fails : ∀ q, Cut q s → ∃ e, (p q).1 = .error e

theorem cut_append {q s t : List β} (h : Cut q (s ++ t)) :
    Cut q s ∨ ∃ r, q = s ++ r ∧ Cut r t := by
  obtain ⟨⟨u, hu⟩, hne⟩ := h
  rcases List.append_eq_append_iff.mp hu with ⟨r, hs, ht⟩ | ⟨r, hq, ht⟩
  · cases r with
    | nil => exact .inr ⟨[], by simp [hs], ⟨t, rfl⟩, fun ht => hne (by simp [hs, ← ht])⟩
    | cons b r => exact .inl ⟨⟨b :: r, hs.symm⟩, fun h => by simp [h] at hs⟩
  · exact .inr ⟨r, hq, ⟨u, ht.symm⟩, fun h => hne (by rw [hq, h])⟩

theorem Frames.pure (a : α) : Frames (pure a : Reading β ε α) [] a where
  consumes _ := rfl
  fails _ h := absurd (List.prefix_nil.mp h.1) h.2

theorem Frames.bind {p : Reading β ε α} {f : α → Reading β ε γ} {s t : List β} {a : α} {c : γ}
    (hp : Frames p s a) (hf : Frames (f a) t c) : Frames (p >>= f) (s ++ t) c where
  consumes u := by
    have hs := hp.consumes (t ++ u)
    have ht := hf.consumes u
    simp only [List.append_assoc, Bind.bind, hs, ht]
  fails q hq := by
    rcases cut_append hq with hq | ⟨r, rfl, hr⟩
    · obtain ⟨e, he⟩ := hp.fails q hq
      refine ⟨e, ?_⟩
      simp only [Bind.bind]
      cases hpq : p q with
      | mk o u =>
        rw [hpq] at he
        simp only at he
        subst he
        rfl
    · obtain ⟨e, he⟩ := hf.fails r hr
      exact ⟨e, by simp only [Bind.bind, hp.consumes r, he]⟩

/-- Framed words are read back one by one, and then a word that is cut short fails. -/
theorem Frames.outcomes_flatMap {p : Reading β ε α} {write : γ → List β} {value : γ → α}
    (h : ∀ c, Frames p (write c) (value c)) (cs : List γ) {d : γ} {q : List β}
    (hq : Cut q (write d)) : ∃ e, outcomes p (cs.length + 1) (cs.flatMap write ++ q) =
      cs.map (fun c => .ok (value c)) ++ [.error e] := by
  induction cs with
  | nil =>
    obtain ⟨e, he⟩ := (h d).fails q hq
    exact ⟨e, by simp [outcomes, he]⟩
  | cons c cs ih =>
    obtain ⟨e, he⟩ := ih
    have hc := (h c).consumes (cs.flatMap write ++ q)
    refine ⟨e, ?_⟩
    rw [List.flatMap_cons, List.append_assoc, List.length_cons, outcomes, hc]
    simp [he]

end Reading

end Langsvr
