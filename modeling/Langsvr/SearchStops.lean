import Langsvr.SearchOrders

/-!
# When a search stops

A search panics if and only if it enters a node for which the nodes that follow it cannot be
computed. Which nodes it enters is told by their keys: of several nodes with one key it enters
at most one, and the nodes that follow others are those with a property that makes their keys
distinct.
-/

namespace Langsvr

theorem Stop.bind_ne_panic {α β : Type} {x : Except Stop α} {f : α → Except Stop β} :
    (x >>= f) ≠ .error .panic ↔ x ≠ .error .panic ∧ ∀ a, x = .ok a → f a ≠ .error .panic := by
  cases x with
  | error e => simp [bind, Except.bind]
  | ok a => simp [bind, Except.bind]

theorem Stop.exists_eq_ok {α : Type} {x : Except Stop α} (hfuel : x ≠ .error .outOfFuel) :
    (∃ a, x = .ok a) ↔ x ≠ .error .panic := by
  cases x with
  | error e =>
    cases e with
    | panic => simp
    | outOfFuel => exact absurd rfl hfuel
  | ok a => simp

namespace Traversal

section Loops

variable {α κ : Type} {key : α → κ} {next : α → Except Stop (List α)} {P : α → Prop}

/-- The first node of each key that is not seen has the property. -/
def Led (P : α → Prop) (key : α → κ) : List κ → List α → Prop
  | _, [] => True
  | seen, x :: xs => (P x ∨ key x ∈ seen) ∧ Led P key (key x :: seen) xs

theorem Led.mono {seen seen' : List κ} {l : List α} (hseen : ∀ k ∈ seen, k ∈ seen')
    (h : Led P key seen l) : Led P key seen' l := by
  induction l generalizing seen seen' with
  | nil => trivial
  | cons x xs ih =>
    refine ⟨h.1.imp_right (hseen _), ih (fun k hk => ?_) h.2⟩
    rcases List.mem_cons.mp hk with rfl | hk
    · exact List.mem_cons_self ..
    · exact List.mem_cons_of_mem _ (hseen k hk)

theorem Led.append {seen : List κ} {ys l : List α} (hys : ∀ y ∈ ys, P y) (h : Led P key seen l) :
    Led P key seen (ys ++ l) := by
  induction ys generalizing seen with
  | nil => exact h
  | cons y ys ih =>
    refine ⟨.inl (hys y (List.mem_cons_self ..)), ?_⟩
    exact ih (fun z hz => hys z (List.mem_cons_of_mem _ hz))
      (h.mono fun k hk => List.mem_cons_of_mem _ hk)

/-- The loop lists nodes with the property, and has computed the nodes that follow them. -/
theorem Drains.listed (hnext : ∀ x ys, P x → next x = .ok ys → ∀ y ∈ ys, P y) {stack : List α}
    {m m' : Marks α κ} (h : Drains key next stack m m') (hled : Led P key m.seen stack) {x : α}
    (hx : x ∈ m'.sorted) : x ∈ m.sorted ∨ P x ∧ ∃ ys, next x = .ok ys := by
  induction h with
  | nil => exact .inl hx
  | seen hseen _ ih =>
    refine ih (hled.2.mono fun k hk => ?_) hx
    rcases List.mem_cons.mp hk with rfl | hk
    · exact hseen
    · exact hk
  | @mark y ys stack m m' hseen hys _ ih =>
    have hy : P y := hled.1.resolve_right hseen
    have hpush : Led P key (key y :: m.seen) (ys.reverse ++ stack) :=
      Led.append (fun z hz => hnext y ys hy hys z (List.mem_reverse.mp hz)) hled.2
    rcases ih hpush hx with hmem | hlisted
    · rcases List.mem_append.mp hmem with hmem | hmem
      · exact .inl hmem
      · rw [List.mem_singleton.mp hmem]
        exact .inr ⟨hy, ys, hys⟩
    · exact .inr hlisted

variable [DecidableEq κ]

/-- The loop does not panic if all nodes with the property have nodes that follow them. -/
theorem drain_ne_panic (hnext : ∀ x ys, P x → next x = .ok ys → ∀ y ∈ ys, P y)
    (hok : ∀ x, P x → next x ≠ .error .panic) {n : ℕ} {stack : List α} {m : Marks α κ}
    (hled : Led P key m.seen stack) : drain key next n stack m ≠ .error .panic := by
  induction n generalizing stack m with
  | zero =>
    cases stack with
    | nil => simp [drain]
    | cons x stack => simp [drain]
  | succ n ih =>
    cases stack with
    | nil => simp [drain]
    | cons x stack =>
      rw [drain]
      by_cases hseen : key x ∈ m.seen
      · rw [if_pos hseen]
        refine ih (hled.2.mono fun k hk => ?_)
        rcases List.mem_cons.mp hk with rfl | hk
        · exact hseen
        · exact hk
      · rw [if_neg hseen]
        have hx : P x := hled.1.resolve_right hseen
        refine Stop.bind_ne_panic.mpr
          ⟨hok x hx, fun ys hys => ih (Led.append (fun y hy => ?_) hled.2)⟩
        exact hnext x ys hx hys y (List.mem_reverse.mp hy)

end Loops

section Visits

variable {α κ : Type} (key : α → κ) (succ : κ → List κ) (follow : α → List κ) (P : α → Prop)

/-- The keys that a visit to a node reaches after its own. -/
def Beyond (A : Set κ) (x : α) : Set κ := {k | ∃ y ∈ follow x, Reaches succ (insert (key x) A) y k}

/-- The nodes that visits to the nodes of a list enter, one after the other, when the keys of a
set have been seen. Other than the nodes of the list they enter nodes with the property. -/
inductive Enters : Set κ → List α → α → Prop
  | skip {A : Set κ} {x s : α} {xs : List α} (hx : key x ∈ A) (h : Enters A xs s) :
      Enters A (x :: xs) s
  | root {A : Set κ} {x : α} {xs : List α} (hx : key x ∉ A) : Enters A (x :: xs) x
  | beyond {A : Set κ} {x s : α} {xs : List α} (hx : key x ∉ A) (hs : P s)
      (h : key s ∈ Beyond key succ follow A x) : Enters A (x :: xs) s
  | later {A : Set κ} {x s : α} {xs : List α} (hx : key x ∉ A)
      (h : Enters (insert (key x) A ∪ Beyond key succ follow A x) xs s) : Enters A (x :: xs) s

variable {key succ follow P} {next : α → Except Stop (List α)} {A : Set κ} {x s : α} {xs : List α}

theorem Enters.mem_or (h : Enters key succ follow P A xs s) : s ∈ xs ∨ P s := by
  induction h with
  | skip _ _ ih => exact ih.imp_left (List.mem_cons_of_mem _)
  | root _ => exact .inl (List.mem_cons_self ..)
  | beyond _ hs _ => exact .inr hs
  | later _ _ ih => exact ih.imp_left (List.mem_cons_of_mem _)

/-- A node is entered if it is the first one in the list with its key, or if it has the
property. -/
theorem enters_of_mem (hs : s ∈ xs) (hinj : ∀ x ∈ xs, key x = key s → x = s) (hP : P s)
    (hA : key s ∉ A) : Enters key succ follow P A xs s := by
  induction xs generalizing A with
  | nil => cases hs
  | cons x xs ih =>
    by_cases hxs : x = s
    · rw [hxs]
      exact .root hA
    · have hkey : key s ≠ key x := fun h => hxs (hinj x (List.mem_cons_self ..) h.symm)
      have hmem : s ∈ xs := (List.mem_cons.mp hs).resolve_left (Ne.symm hxs)
      have hinj' : ∀ y ∈ xs, key y = key s → y = s := fun y hy => hinj y (List.mem_cons_of_mem _ hy)
      by_cases hx : key x ∈ A
      · exact .skip hx (ih hmem hinj' hA)
      · by_cases hbeyond : key s ∈ Beyond key succ follow A x
        · exact .beyond hx hP hbeyond
        · refine .later hx (ih hmem hinj' fun h => ?_)
          rcases h with (h | h) | h
          · exact hkey h
          · exact hA h
          · exact hbeyond h

theorem foldlM_ne_panic {β : Type} {step : β → α → Except Stop β} {I : β → Prop} {m : β}
    (hm : I m) (hstep : ∀ x ∈ xs, ∀ m, I m → step m x ≠ .error .panic)
    (hkeep : ∀ x ∈ xs, ∀ m m', I m → step m x = .ok m' → I m') :
    xs.foldlM step m ≠ .error .panic := by
  induction xs generalizing m with
  | nil => simp [pure, Except.pure]
  | cons x xs ih =>
    rw [List.foldlM_cons]
    refine Stop.bind_ne_panic.mpr ⟨hstep x (List.mem_cons_self ..) m hm, fun m' hrun => ?_⟩
    exact ih (hkeep x (List.mem_cons_self ..) m m' hm hrun)
      (fun y hy => hstep y (List.mem_cons_of_mem _ hy))
      (fun y hy => hkeep y (List.mem_cons_of_mem _ hy))

variable [DecidableEq κ]

/-- A visit does not panic if all nodes that it can reach have nodes that follow them. -/
theorem visit_ne_panic (hnext : ∀ x ys, next x = .ok ys → follow x = ys.map key ∧ ∀ y ∈ ys, P y)
    (hsucc : ∀ x, P x → succ (key x) = follow x) {n : ℕ} {m : Marks α κ}
    (hok : key x ∉ m.seen → next x ≠ .error .panic ∧ ∀ s, P s →
      key s ∈ Beyond key succ follow {k | k ∈ m.seen} x → next s ≠ .error .panic) :
    visit key next n x m ≠ .error .panic := by
  induction n generalizing x m with
  | zero => simp [visit]
  | succ n ih =>
    rw [visit]
    by_cases hseen : key x ∈ m.seen
    · rw [if_pos hseen]
      simp
    · rw [if_neg hseen]
      obtain ⟨hx, hbeyond⟩ := hok hseen
      refine Stop.bind_ne_panic.mpr ⟨hx, fun ys hys => ?_⟩
      obtain ⟨hfollow, hall⟩ := hnext x ys hys
      refine Stop.bind_ne_panic.mpr ⟨?_, fun m' _ => by simp [pure, Except.pure]⟩
      refine foldlM_ne_panic (I := fun m' => ∀ k ∈ key x :: m.seen, k ∈ m'.seen) (fun k hk => hk)
        (fun y hy m' hm' => ih fun hfresh => ?_) fun y hy m₁ m₂ hm₁ hrun k hk => ?_
      · have hyx : key y ∈ follow x := hfollow ▸ List.mem_map_of_mem hy
        have hsub : insert (key x) {k | k ∈ m.seen} ⊆ {k | k ∈ m'.seen} := by
          intro k hk
          exact hm' k (List.mem_cons.mpr hk)
        refine ⟨hbeyond y (hall y hy) ⟨key y, hyx, .refl fun hk => hfresh (hsub hk)⟩, ?_⟩
        intro z hz hyz
        obtain ⟨k, hk, hkz⟩ := hyz
        refine hbeyond z hz ⟨key y, hyx, .step (fun hk => hfresh (hsub hk)) ?_ (hkz.mono ?_)⟩
        · rw [hsucc y (hall y hy)]
          exact hk
        · exact hsub.trans (Set.subset_insert _ _)
      · obtain ⟨⟨l, hl⟩, -⟩ := visit_adds (P := P) (fun x ys _ hys => (hnext x ys hys).2)
          (hall y hy) hrun
        exact hl.seen_mono (hm₁ k hk)

theorem visit_enters (hnext : ∀ x ys, next x = .ok ys → follow x = ys.map key ∧ ∀ y ∈ ys, P y)
    (hsucc : ∀ x, P x → succ (key x) = follow x) (hinj : ∀ x y, P x → P y → key x = key y → x = y)
    {n : ℕ} {m m' : Marks α κ} (hseen : key x ∉ m.seen) (hrun : visit key next n x m = .ok m') :
    {k | k ∈ m'.seen} = insert (key x) {k | k ∈ m.seen} ∪
        Beyond key succ follow {k | k ∈ m.seen} x ∧
      next x ≠ .error .panic ∧ ∀ s, P s → key s ∈ Beyond key succ follow {k | k ∈ m.seen} x →
        next s ≠ .error .panic := by
  cases n with
  | zero => cases hrun
  | succ n =>
    obtain ⟨-, ys, m₁, hys, hfold, rfl⟩ :=
      (visit_succ_eq_ok hrun).resolve_left fun h => hseen h.1
    obtain ⟨hfollow, hall⟩ := hnext x ys hys
    have hclosed : ∀ x ys, P x → next x = .ok ys → ∀ y ∈ ys, P y :=
      fun x ys _ hys => (hnext x ys hys).2
    have hlink : ∀ x ys, P x → next x = .ok ys → succ (key x) = ys.map key :=
      fun x ys hx hys => (hsucc x hx).trans (hnext x ys hys).1
    obtain ⟨l, hfinds⟩ := foldlM_finds (fun y hy _ _ => visit_finds hclosed hlink (hall y hy)) hfold
    have hmarks : {k | k ∈ key x :: m.seen} = insert (key x) {k | k ∈ m.seen} := by
      ext k
      simp
    have hl := hfinds.explores
    rw [hmarks, ← hfollow] at hl
    have hbeyond : {k | k ∈ l} = Beyond key succ follow {k | k ∈ m.seen} x := by
      ext k
      exact hl.mem k
    refine ⟨?_, by rw [hys]; simp, fun s hs hmem => ?_⟩
    · rw [hfinds.seen, hmarks, hbeyond]
    · rw [← hbeyond] at hmem
      obtain ⟨z, hz, hkey, ws, hws⟩ := hfinds.computed _ hmem
      rw [← hinj z s hz hs hkey, hws]
      simp

/-- Visits to the nodes of a list panic if and only if they enter a node without nodes that
follow it. -/
theorem visits_ne_panic_iff
    (hnext : ∀ x ys, next x = .ok ys → follow x = ys.map key ∧ ∀ y ∈ ys, P y)
    (hsucc : ∀ x, P x → succ (key x) = follow x) (hinj : ∀ x y, P x → P y → key x = key y → x = y)
    {n : ℕ} (hfuel : ∀ x ∈ xs, ∀ m, visit key next n x m ≠ .error .outOfFuel) (m : Marks α κ) :
    xs.foldlM (fun m x => visit key next n x m) m ≠ .error .panic ↔
      ∀ s, Enters key succ follow P {k | k ∈ m.seen} xs s → next s ≠ .error .panic := by
  induction xs generalizing m with
  | nil =>
    constructor
    · intro _ s hs
      cases hs
    · intro _
      simp [pure, Except.pure]
  | cons x xs ih =>
    have hfuel' := fun y hy => hfuel y (List.mem_cons_of_mem _ hy)
    rw [List.foldlM_cons, Stop.bind_ne_panic]
    by_cases hseen : key x ∈ m.seen
    · have hrun : visit key next n x m = .ok m := by
        cases n with
        | zero => exact absurd rfl (hfuel x (List.mem_cons_self ..) m)
        | succ n => rw [visit, if_pos hseen]
      rw [hrun]
      constructor
      · intro h s hs
        cases hs with
        | skip _ hs => exact (ih hfuel' m).mp (h.2 m rfl) s hs
        | root hx => exact absurd hseen hx
        | beyond hx _ _ => exact absurd hseen hx
        | later hx _ => exact absurd hseen hx
      · intro h
        refine ⟨by simp, fun m' hm' => ?_⟩
        cases hm'
        exact (ih hfuel' m).mpr fun s hs => h s (.skip hseen hs)
    · constructor
      · intro h
        obtain ⟨m', hrun⟩ := (Stop.exists_eq_ok (hfuel x (List.mem_cons_self ..) m)).mpr h.1
        obtain ⟨hmarks, hx, hbeyond⟩ := visit_enters hnext hsucc hinj hseen hrun
        have hlater := (ih hfuel' m').mp (h.2 m' hrun)
        rw [hmarks] at hlater
        intro s hs
        cases hs with
        | skip hx _ => exact absurd hx hseen
        | root _ => exact hx
        | beyond _ hs h => exact hbeyond s hs h
        | later _ h => exact hlater s h
      · intro h
        refine ⟨visit_ne_panic hnext hsucc fun _ => ⟨h x (.root hseen), fun s hs hmem => ?_⟩,
          fun m' hrun => (ih hfuel' m').mpr fun s hs => ?_⟩
        · exact h s (.beyond hseen hs hmem)
        · rw [(visit_enters hnext hsucc hinj hseen hrun).1] at hs
          exact h s (.later hseen hs)

end Visits

end Traversal

end Langsvr
