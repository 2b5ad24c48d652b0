import Mathlib.Logic.Relation
import Mathlib.Tactic.Common

/-!
# Programs that can be entered again

A program acts on a shared state and calls an environment. While a call lasts, the
environment may enter the state through other programs, so the state may have changed
when the call returns. Between two calls a program runs undisturbed.

An execution of one program lets the environment change the state at every call, within
a given relation. A pool runs any number of programs, each of them started and resumed
at any time. A call stack is the special case in which only the newest suspended program
is resumed.
-/

namespace Langsvr

/-- A program over a state `σ` with calls `κ`, their replies `ρ`, aborts `ε` and a result. -/
inductive Program (σ ε κ : Type) (ρ : κ → Type) (α : Type) where
  | ret (a : α)
  | abort (e : ε)
  | update (f : σ → σ) (next : σ → Program σ ε κ ρ α)
  | call (c : κ) (next : ρ c → Program σ ε κ ρ α)

namespace Program

variable {σ ε κ : Type} {ρ : κ → Type} {α β : Type}

def bind : Program σ ε κ ρ α → (α → Program σ ε κ ρ β) → Program σ ε κ ρ β
  | .ret a, g => g a
  | .abort e, _ => .abort e
  | .update f next, g => .update f fun s => (next s).bind g
  | .call c next, g => .call c fun r => (next r).bind g

instance : Monad (Program σ ε κ ρ) where
  pure := .ret
  bind := .bind

def get : Program σ ε κ ρ σ := .update id .ret

/-- Change the state and use what it was before. The next step gets the old state. -/
def modifyGet (f : σ → α × σ) : Program σ ε κ ρ α := .update (fun s => (f s).2) fun s => .ret (f s).1

def modify (f : σ → σ) : Program σ ε κ ρ Unit := .update f fun _ => .ret ()

/-- A call whose reply is the result. -/
def request (c : κ) : Program σ ε κ ρ (ρ c) := .call c .ret

/-- Where a program stops: at its end, at an abort, or at its next call. -/
inductive Stop (σ ε κ : Type) (ρ : κ → Type) (α : Type) where
  | returned (a : α)
  | aborted (e : ε)
  | waiting (c : κ) (next : ρ c → Program σ ε κ ρ α)

/-- How a program stops, without what it would do next. -/
inductive Ending (ε κ : Type) where
  | returned
  | aborted (e : ε)
  | calling (c : κ)

def Ending.abort : Ending ε κ → Option ε
  | .aborted e => some e
  | _ => none

def Stop.ending : Stop σ ε κ ρ α → Ending ε κ
  | .returned _ => .returned
  | .aborted e => .aborted e
  | .waiting c _ => .calling c

def run : Program σ ε κ ρ α → σ → Stop σ ε κ ρ α × σ
  | .ret a, s => (.returned a, s)
  | .abort e, s => (.aborted e, s)
  | .update f next, s => (next s).run (f s)
  | .call c next, s => (.waiting c next, s)

section Run

variable (s : σ)

@[simp] theorem run_pure (a : α) :
    (pure a : Program σ ε κ ρ α).run s = (.returned a, s) := rfl

@[simp] theorem run_modify (f : σ → σ) :
    (modify f : Program σ ε κ ρ Unit).run s = (.returned (), f s) := rfl

/-- What follows a program continues where the program has stopped. -/
theorem run_bind (p : Program σ ε κ ρ α) (g : α → Program σ ε κ ρ β) :
    (p >>= g).run s = match p.run s with
      | (.returned a, t) => (g a).run t
      | (.aborted e, t) => (.aborted e, t)
      | (.waiting c next, t) => (.waiting c fun r => next r >>= g, t) := by
  induction p generalizing s with
  | ret a => rfl
  | abort e => rfl
  | update f next ih => exact ih s (f s)
  | call c next => rfl

@[simp] theorem run_pure_bind (a : α) (g : α → Program σ ε κ ρ β) :
    ((pure a : Program σ ε κ ρ α) >>= g).run s = (g a).run s := rfl

@[simp] theorem run_get_bind (g : σ → Program σ ε κ ρ β) :
    ((get : Program σ ε κ ρ σ) >>= g).run s = (g s).run s := rfl

@[simp] theorem run_modifyGet_bind (f : σ → α × σ) (g : α → Program σ ε κ ρ β) :
    ((modifyGet f : Program σ ε κ ρ α) >>= g).run s = (g (f s).1).run (f s).2 := rfl

@[simp] theorem run_modify_bind (f : σ → σ) (g : Unit → Program σ ε κ ρ β) :
    ((modify f : Program σ ε κ ρ Unit) >>= g).run s = (g ()).run (f s) := rfl

end Run

section Executions

/-- A call of an execution: the state in which it was made, its reply, and the state in
which the program went on. -/
structure Visit (σ κ : Type) (ρ : κ → Type) where
  call : κ
  before : σ
  reply : ρ call
  after : σ

/-- A complete execution of a program with the calls that it makes. The environment
changes the state within `rely` at every call. -/
inductive Execution (rely : σ → σ → Prop) :
    Program σ ε κ ρ α → σ → List (Visit σ κ ρ) → Except ε α → σ → Prop
  | ret (a : α) (s : σ) : Execution rely (.ret a) s [] (.ok a) s
  | abort (e : ε) (s : σ) : Execution rely (.abort e) s [] (.error e) s
  | update {f : σ → σ} {next : σ → Program σ ε κ ρ α} {s t : σ} {vs : List (Visit σ κ ρ)}
      {o : Except ε α} (h : Execution rely (next s) (f s) vs o t) :
      Execution rely (.update f next) s vs o t
  | call {c : κ} {next : ρ c → Program σ ε κ ρ α} {s u t : σ} {r : ρ c}
      {vs : List (Visit σ κ ρ)} {o : Except ε α} (hr : rely s u)
      (h : Execution rely (next r) u vs o t) :
      Execution rely (.call c next) s (⟨c, s, r, u⟩ :: vs) o t

/-- The stretches between the calls of an execution: where each of them begins and ends. -/
def stretches : σ → List (Visit σ κ ρ) → σ → List (σ × σ)
  | s, [], t => [(s, t)]
  | s, v :: vs, t => (s, v.before) :: stretches v.after vs t

variable {rely : σ → σ → Prop}

/-- An execution begins with the run up to where the program stops. -/
theorem execution_iff_run (p : Program σ ε κ ρ α) (s : σ) {vs : List (Visit σ κ ρ)}
    {o : Except ε α} {t : σ} : Execution rely p s vs o t ↔
      match p.run s with
      | (.returned a, u) => vs = [] ∧ o = .ok a ∧ t = u
      | (.aborted e, u) => vs = [] ∧ o = .error e ∧ t = u
      | (.waiting c next, u) => ∃ r v ws, rely u v ∧ vs = ⟨c, u, r, v⟩ :: ws ∧
          Execution rely (next r) v ws o t := by
  induction p generalizing s with
  | ret a =>
    constructor
    · intro h
      cases h
      exact ⟨rfl, rfl, rfl⟩
    · intro h
      obtain ⟨rfl, rfl, rfl⟩ := h
      exact .ret a t
  | abort e =>
    constructor
    · intro h
      cases h
      exact ⟨rfl, rfl, rfl⟩
    · intro h
      obtain ⟨rfl, rfl, rfl⟩ := h
      exact .abort e t
  | update f next ih =>
    have hn := ih s (f s)
    constructor
    · intro h
      cases h with
      | update h => exact hn.mp h
    · intro h
      exact .update (hn.mpr h)
  | call c next ih =>
    constructor
    · intro h
      cases h with
      | call hr h => exact ⟨_, _, _, hr, rfl, h⟩
    · intro h
      obtain ⟨r, v, ws, hr, rfl, h⟩ := h
      exact .call hr h

section Stops

variable {p : Program σ ε κ ρ α} {s t u : σ} {vs : List (Visit σ κ ρ)} {o : Except ε α}

theorem returned_of_run {a : α} (h : Execution rely p s vs o t)
    (hr : p.run s = (.returned a, u)) : vs = [] ∧ o = .ok a ∧ t = u := by
  have hx := (execution_iff_run p s).mp h
  rwa [hr] at hx

theorem aborted_of_run {e : ε} (h : Execution rely p s vs o t)
    (hr : p.run s = (.aborted e, u)) : vs = [] ∧ o = .error e ∧ t = u := by
  have hx := (execution_iff_run p s).mp h
  rwa [hr] at hx

theorem execution_of_aborted {e : ε} (hr : p.run s = (.aborted e, u)) :
    Execution rely p s [] (.error e) u := by
  apply (execution_iff_run p s).mpr
  rw [hr]
  exact ⟨rfl, rfl, rfl⟩

theorem waiting_of_run {c : κ} {next : ρ c → Program σ ε κ ρ α} (h : Execution rely p s vs o t)
    (hr : p.run s = (.waiting c next, u)) :
    ∃ r v ws, rely u v ∧ vs = ⟨c, u, r, v⟩ :: ws ∧ Execution rely (next r) v ws o t := by
  have hx := (execution_iff_run p s).mp h
  rwa [hr] at hx

end Stops

end Executions

section Pools

/-- A program that waits for the reply to its call. -/
structure Frame (σ ε κ : Type) (ρ : κ → Type) (α : Type) where
  call : κ
  next : ρ call → Program σ ε κ ρ α

/-- A state with the programs that wait on it. An abort ends everything. -/
structure Pool (σ ε κ : Type) (ρ : κ → Type) (α : Type) where
  state : σ
  frames : List (Frame σ ε κ ρ α) := []
  aborted : Option ε := none

/-- The pool after one of its programs has run to where it stops. -/
def Pool.settle (frames : List (Frame σ ε κ ρ α)) :
    Stop σ ε κ ρ α × σ → Pool σ ε κ ρ α
  | (.returned _, s) => { state := s, frames := frames }
  | (.aborted e, s) => { state := s, frames := frames, aborted := some e }
  | (.waiting c next, s) => { state := s, frames := ⟨c, next⟩ :: frames }

/-- A program is started, or one that waits gets its reply. -/
inductive Pool.Step (entry : σ → Program σ ε κ ρ α → Prop) :
    Pool σ ε κ ρ α → Pool σ ε κ ρ α → Prop
  | start {s : σ} {fs : List (Frame σ ε κ ρ α)} {p : Program σ ε κ ρ α} (hp : entry s p) :
      Pool.Step entry { state := s, frames := fs } (.settle fs (p.run s))
  | resume {s : σ} (fs gs : List (Frame σ ε κ ρ α)) {fr : Frame σ ε κ ρ α} (r : ρ fr.call) :
      Pool.Step entry { state := s, frames := fs ++ fr :: gs }
        (.settle (fs ++ gs) ((fr.next r).run s))

/-- The pools that can be reached from a state in which nothing runs. -/
def Pool.Reachable (entry : σ → Program σ ε κ ρ α → Prop) (s : σ) (c : Pool σ ε κ ρ α) : Prop :=
  Relation.ReflTransGen (Pool.Step entry) { state := s } c

/-- What is seen of a pool: a call that is made, and the reply that it gets. -/
inductive Observation (κ : Type) (ρ : κ → Type) where
  | called (c : κ)
  | replied (c : κ) (r : ρ c)

def Ending.observed : Ending ε κ → List (Observation κ ρ)
  | .calling c => [.called c]
  | _ => []

/-- The pools that can be reached, with what was seen on the way, the newest first. The
replies are those that `replies` allows. -/
inductive Pool.Run (entry : σ → Program σ ε κ ρ α → Prop) (replies : (c : κ) → ρ c → Prop)
    (s : σ) : List (Observation κ ρ) → Pool σ ε κ ρ α → Prop
  | refl : Pool.Run entry replies s [] { state := s }
  | start {log : List (Observation κ ρ)} {t : σ} {fs : List (Frame σ ε κ ρ α)}
      {p : Program σ ε κ ρ α} (h : Pool.Run entry replies s log { state := t, frames := fs })
      (hp : entry t p) :
      Pool.Run entry replies s ((p.run t).1.ending.observed ++ log) (.settle fs (p.run t))
  | resume {log : List (Observation κ ρ)} {t : σ} (fs gs : List (Frame σ ε κ ρ α))
      {fr : Frame σ ε κ ρ α} (r : ρ fr.call)
      (h : Pool.Run entry replies s log { state := t, frames := fs ++ fr :: gs })
      (hr : replies fr.call r) :
      Pool.Run entry replies s
        (((fr.next r).run t).1.ending.observed ++ .replied fr.call r :: log)
        (.settle (fs ++ gs) ((fr.next r).run t))

/-- What was seen does not matter for what is reached. -/
theorem Pool.Run.reachable {entry : σ → Program σ ε κ ρ α → Prop}
    {replies : (c : κ) → ρ c → Prop} {s : σ} {log : List (Observation κ ρ)}
    {c : Pool σ ε κ ρ α} (h : Pool.Run entry replies s log c) : Pool.Reachable entry s c := by
  induction h with
  | refl => exact .refl
  | start _ hp ih => exact ih.tail (.start hp)
  | resume fs gs r _ _ ih => exact ih.tail (.resume fs gs r)

/-- `Obeys G Q p s t`: a program that has come from `s` to `t` since it was started or
resumed gets from `s` to where it stops within `G`, and so it does from every state in
which it is resumed later. Its result satisfies `Q` in place of `G`. -/
def Obeys (G : σ → Ending ε κ → σ → Prop) (Q : σ → α → σ → Prop) :
    Program σ ε κ ρ α → σ → σ → Prop
  | .ret a, s, t => Q s a t
  | .abort e, s, t => G s (.aborted e) t
  | .update f next, s, t => (next t).Obeys G Q s (f t)
  | .call c next, s, t => G s (.calling c) t ∧ ∀ r u, (next r).Obeys G Q u u

/-- Every stretch of the program from `s` is within `G`. -/
def Guarantees (G : σ → Ending ε κ → σ → Prop) (p : Program σ ε κ ρ α) (s : σ) : Prop :=
  p.Obeys G (fun s _ t => G s .returned t) s s

section Obeys

variable {G : σ → Ending ε κ → σ → Prop} {s t : σ}

@[simp] theorem obeys_pure {Q : σ → α → σ → Prop} {a : α} :
    (pure a : Program σ ε κ ρ α).Obeys G Q s t ↔ Q s a t := Iff.rfl

@[simp] theorem obeys_get {Q : σ → σ → σ → Prop} :
    (get : Program σ ε κ ρ σ).Obeys G Q s t ↔ Q s t t := Iff.rfl

@[simp] theorem obeys_modifyGet {Q : σ → α → σ → Prop} {f : σ → α × σ} :
    (modifyGet f : Program σ ε κ ρ α).Obeys G Q s t ↔ Q s (f t).1 (f t).2 := Iff.rfl

@[simp] theorem obeys_modify {Q : σ → Unit → σ → Prop} {f : σ → σ} :
    (modify f : Program σ ε κ ρ Unit).Obeys G Q s t ↔ Q s () (f t) := Iff.rfl

@[simp] theorem obeys_request {c : κ} {Q : σ → ρ c → σ → Prop} :
    (request c : Program σ ε κ ρ (ρ c)).Obeys G Q s t ↔
      G s (.calling c) t ∧ ∀ r u, Q u r u := Iff.rfl

@[simp] theorem obeys_bind {Q : σ → β → σ → Prop} {p : Program σ ε κ ρ α}
    {g : α → Program σ ε κ ρ β} :
    (p >>= g).Obeys G Q s t ↔ p.Obeys G (fun s a t => (g a).Obeys G Q s t) s t := by
  induction p generalizing s t with
  | ret a => exact Iff.rfl
  | abort e => exact Iff.rfl
  | update f next ih => exact ih t
  | call c next ih => exact and_congr_right fun _ => forall₂_congr fun r _ => ih r

end Obeys

/-- The runs of a system whose steps are given by `G`. An abort ends a run. -/
inductive Runs (G : σ → Ending ε κ → σ → Prop) (s : σ) : Option ε → σ → Prop
  | refl : Runs G s none s
  | step {t u : σ} {e : Ending ε κ} (h : Runs G s none t) (hg : G t e u) : Runs G s e.abort u

section Rules

variable {G : σ → Ending ε κ → σ → Prop} {s : σ}

/-- What every step preserves holds at the end of a run. -/
theorem Runs.invariant {I : Option ε → σ → Prop} {e : Option ε} {t : σ} (h : Runs G s e t)
    (hs : I none s) (hstep : ∀ t e u, I none t → G t e u → I e.abort u) : I e t := by
  induction h with
  | refl => exact hs
  | step _ hg ih => exact hstep _ _ _ ih hg

/-- The first stretch of a program is within `G`, and what waits after it stays within `G`. -/
private theorem Pool.guarantee_settle {fs : List (Frame σ ε κ ρ α)} {t : σ}
    (hf : ∀ fr ∈ fs, ∀ r u, (fr.next r).Guarantees G u) {p : Program σ ε κ ρ α}
    (hp : p.Guarantees G t) : G t (p.run t).1.ending (Pool.settle fs (p.run t)).state ∧
      (Pool.settle fs (p.run t)).aborted = (p.run t).1.ending.abort ∧
        ∀ fr ∈ (Pool.settle fs (p.run t)).frames, ∀ r u, (fr.next r).Guarantees G u := by
  suffices h : ∀ u, p.Obeys G (fun s _ t => G s .returned t) t u →
      G t (p.run u).1.ending (Pool.settle fs (p.run u)).state ∧
        (Pool.settle fs (p.run u)).aborted = (p.run u).1.ending.abort ∧
          ∀ fr ∈ (Pool.settle fs (p.run u)).frames, ∀ r v, (fr.next r).Guarantees G v from
    h t hp
  clear hp
  intro u hu
  induction p generalizing u with
  | ret a => exact ⟨hu, rfl, hf⟩
  | abort e => exact ⟨hu, rfl, hf⟩
  | update f next ih => exact ih u (f u) hu
  | call c next _ =>
    refine ⟨hu.1, rfl, fun fr hfr => ?_⟩
    rcases List.mem_cons.mp hfr with rfl | hfr
    · exact hu.2
    · exact hf fr hfr

private theorem Pool.guarantee_rest {fs gs : List (Frame σ ε κ ρ α)} {fr : Frame σ ε κ ρ α}
    (hf : ∀ fr' ∈ fs ++ fr :: gs, ∀ r u, (fr'.next r).Guarantees G u) :
    ∀ fr' ∈ fs ++ gs, ∀ r u, (fr'.next r).Guarantees G u := by
  intro fr' hfr
  apply hf fr'
  rcases List.mem_append.mp hfr with hfr | hfr
  · exact List.mem_append_left _ hfr
  · exact List.mem_append_right _ (List.mem_cons_of_mem _ hfr)

/-- If every program that is started is within `G`, then a pool is a run of `G`,
whatever is started and resumed when. -/
theorem Pool.Reachable.runs {entry : σ → Program σ ε κ ρ α → Prop} {c : Pool σ ε κ ρ α}
    (h : Pool.Reachable entry s c) (he : ∀ t p, entry t p → p.Guarantees G t) :
    Runs G s c.aborted c.state := by
  suffices hc : Runs G s c.aborted c.state ∧ ∀ fr ∈ c.frames, ∀ r u, (fr.next r).Guarantees G u from
    hc.1
  induction h with
  | refl => exact ⟨.refl, by simp⟩
  | tail _ hstep ih =>
    obtain ⟨hr, hf⟩ := ih
    cases hstep with
    | start hp =>
      obtain ⟨hg, ha, hw⟩ := Pool.guarantee_settle hf (he _ _ hp)
      exact ⟨ha ▸ hr.step hg, hw⟩
    | resume fs gs r =>
      obtain ⟨hg, ha, hw⟩ := Pool.guarantee_settle (Pool.guarantee_rest hf)
        (hf _ (List.mem_append_right _ (List.mem_cons_self ..)) r _)
      exact ⟨ha ▸ hr.step hg, hw⟩

/-- What the stretches within `G` and the replies preserve of the state and of what was
seen holds at the end of a run. -/
theorem Pool.Run.invariant {entry : σ → Program σ ε κ ρ α → Prop}
    {replies : (c : κ) → ρ c → Prop} {log : List (Observation κ ρ)} {c : Pool σ ε κ ρ α}
    (h : Pool.Run entry replies s log c) (he : ∀ t p, entry t p → p.Guarantees G t)
    {I : List (Observation κ ρ) → σ → Prop} (hs : I [] s)
    (hstep : ∀ log t e u, I log t → G t e u → I (e.observed ++ log) u)
    (hreply : ∀ log t c r, I log t → replies c r → I (.replied c r :: log) t) : I log c.state := by
  suffices hc : I log c.state ∧ ∀ fr ∈ c.frames, ∀ r u, (fr.next r).Guarantees G u from hc.1
  induction h with
  | refl => exact ⟨hs, by simp⟩
  | start _ hp ih =>
    obtain ⟨hi, hf⟩ := ih
    obtain ⟨hg, -, hw⟩ := Pool.guarantee_settle hf (he _ _ hp)
    exact ⟨hstep _ _ _ _ hi hg, hw⟩
  | resume fs gs r _ hr ih =>
    obtain ⟨hi, hf⟩ := ih
    obtain ⟨hg, -, hw⟩ := Pool.guarantee_settle (Pool.guarantee_rest hf)
      (hf _ (List.mem_append_right _ (List.mem_cons_self ..)) r _)
    exact ⟨hstep _ _ _ _ (hreply _ _ _ r hi hr) hg, hw⟩

end Rules

end Pools

end Program

end Langsvr
