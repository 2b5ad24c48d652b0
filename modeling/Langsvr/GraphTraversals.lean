import Langsvr.Results
import Mathlib.Data.List.Nodup
import Mathlib.Tactic.Common

/-!
# Traversals of graphs

Two traversals that list every node of a graph once, a recursion and a loop over an explicit
stack. A node is recognised by a key. The nodes that follow a node may fail to be computed,
and a bound limits the number of calls or rounds. A traversal never stops for lack of it if
it starts with as many as there are nodes and edges.
-/

namespace Langsvr

/-- Why a computation stops without a result. -/
inductive Stop where
  | panic
  | outOfFuel
  deriving DecidableEq

theorem bind_fuel {α β : Type} {x : Except Stop α} {f : α → Except Stop β}
    (hx : x ≠ .error .outOfFuel) (hf : ∀ a, x = .ok a → f a ≠ .error .outOfFuel) :
    (x >>= f) ≠ .error .outOfFuel := by
  cases x with
  | error e =>
    intro h
    cases h
    exact hx rfl
  | ok a => exact hf a rfl

theorem ok_fuel {α : Type} (a : α) : (.ok a : Except Stop α) ≠ .error .outOfFuel := by
  intro h
  cases h

theorem mapM_fuel {α β : Type} {f : α → Except Stop β} {xs : List α}
    (hf : ∀ x ∈ xs, f x ≠ .error .outOfFuel) : xs.mapM f ≠ .error .outOfFuel := by
  induction xs with
  | nil => exact ok_fuel _
  | cons x xs ih =>
    rw [List.mapM_cons]
    refine bind_fuel (hf x (List.mem_cons_self ..)) fun y _ => ?_
    exact bind_fuel (ih fun x hx => hf x (List.mem_cons_of_mem _ hx)) fun ys _ => ok_fuel _

namespace Traversal

variable {α κ : Type}

/-- The keys that have been seen and the nodes listed so far. -/
structure Marks (α κ : Type) where
  seen : List κ := []
  sorted : List α := []

section Marks

/-- What a traversal adds: nodes with the property `P`, one for each key that is seen now and
was not before. -/
structure Adds (key : α → κ) (P : α → Prop) (m m' : Marks α κ) (l : List α) : Prop where
  sorted : m'.sorted = m.sorted ++ l
  all : ∀ x ∈ l, P x
  seen : ∀ k, k ∈ m'.seen ↔ k ∈ m.seen ∨ ∃ x ∈ l, key x = k
  fresh : ∀ x ∈ l, key x ∉ m.seen
  nodup : (l.map key).Nodup

variable {key : α → κ} {P : α → Prop} {m m' m'' : Marks α κ} {l l' : List α}

theorem Adds.refl : Adds key P m m [] where
  sorted := (List.append_nil _).symm
  all x hx := by cases hx
  seen k := by simp
  fresh x hx := by cases hx
  nodup := List.nodup_nil

theorem Adds.seen_mono (h : Adds key P m m' l) {k : κ} (hk : k ∈ m.seen) : k ∈ m'.seen :=
  (h.seen k).mpr (.inl hk)

theorem Adds.trans (h : Adds key P m m' l) (h' : Adds key P m' m'' l') :
    Adds key P m m'' (l ++ l') where
  sorted := by rw [h'.sorted, h.sorted, List.append_assoc]
  all x hx := by
    rcases List.mem_append.mp hx with hx | hx
    · exact h.all x hx
    · exact h'.all x hx
  seen k := by
    rw [h'.seen, h.seen]
    simp only [List.mem_append, or_and_right, exists_or, or_assoc]
  fresh x hx := by
    rcases List.mem_append.mp hx with hx | hx
    · exact h.fresh x hx
    · exact fun hk => h'.fresh x hx (h.seen_mono hk)
  nodup := by
    rw [List.map_append]
    refine h.nodup.append h'.nodup ?_
    intro k hk hk'
    obtain ⟨x, hx, hxk⟩ := List.mem_map.mp hk
    obtain ⟨y, hy, rfl⟩ := List.mem_map.mp hk'
    exact h'.fresh y hy ((h.seen _).mpr (.inr ⟨x, hx, hxk⟩))

/-- A traversal that has seen all nodes of a list lists exactly these, each one once. -/
theorem Adds.perm {nodes : List α} (h : Adds key (· ∈ nodes) {} m' l)
    (hall : ∀ x ∈ nodes, key x ∈ m'.seen) (hnodup : (nodes.map key).Nodup) :
    m'.sorted.Perm nodes := by
  have hsorted : m'.sorted = l := h.sorted
  rw [hsorted]
  refine (List.perm_ext_iff_of_nodup h.nodup.of_map hnodup.of_map).mpr ?_
  intro x
  constructor
  · exact h.all x
  · intro hx
    have hseen := (h.seen (key x)).mp (hall x hx)
    rcases hseen with hk | ⟨y, hy, hkey⟩
    · cases hk
    · have hyx := List.inj_on_of_nodup_map hnodup (h.all y hy) hx hkey
      exact hyx ▸ hy

/-- A node is marked first and listed last. -/
theorem Adds.wrap {x : α} (hx : P x) (hfresh : key x ∉ m.seen)
    (h : Adds key P ⟨key x :: m.seen, m.sorted⟩ m' l) :
    Adds key P m ⟨m'.seen, m'.sorted ++ [x]⟩ (l ++ [x]) where
  sorted := by rw [h.sorted, List.append_assoc]
  all y hy := by
    rcases List.mem_append.mp hy with hy | hy
    · exact h.all y hy
    · rw [List.mem_singleton.mp hy]
      exact hx
  seen k := by
    rw [h.seen]
    simp only [List.mem_cons, List.mem_append, List.not_mem_nil, or_false, or_and_right,
      exists_or, exists_eq_left]
    rw [or_assoc, or_comm, or_assoc, eq_comm (a := k)]
  fresh y hy := by
    rcases List.mem_append.mp hy with hy | hy
    · exact fun hk => h.fresh y hy (List.mem_cons_of_mem _ hk)
    · rw [List.mem_singleton.mp hy]
      exact hfresh
  nodup := by
    rw [List.map_append]
    refine h.nodup.append (List.nodup_singleton _) ?_
    intro k hk hk'
    obtain ⟨y, hy, hyk⟩ := List.mem_map.mp hk
    have hkx : k = key x := by simpa using hk'
    exact h.fresh y hy (by rw [hyk, hkx]; exact List.mem_cons_self ..)

theorem Adds.mark {x : α} (hx : P x) (hfresh : key x ∉ m.seen) :
    Adds key P m ⟨key x :: m.seen, m.sorted ++ [x]⟩ [x] where
  sorted := rfl
  all y hy := by rw [List.mem_singleton.mp hy]; exact hx
  seen k := by simp [or_comm, eq_comm]
  fresh y hy := by rw [List.mem_singleton.mp hy]; exact hfresh
  nodup := List.nodup_singleton _

/-- The visits to the nodes of a list, one after the other. -/
theorem foldlM_adds {step : Marks α κ → α → Except Stop (Marks α κ)} {xs : List α}
    (hstep : ∀ x ∈ xs, ∀ m m', step m x = .ok m' → (∃ l, Adds key P m m' l) ∧ key x ∈ m'.seen)
    {m m' : Marks α κ} (hrun : xs.foldlM step m = .ok m') :
    (∃ l, Adds key P m m' l) ∧ ∀ x ∈ xs, key x ∈ m'.seen := by
  induction xs generalizing m with
  | nil =>
    cases hrun
    exact ⟨⟨[], Adds.refl⟩, fun x hx => by cases hx⟩
  | cons x xs ih =>
    rw [List.foldlM_cons] at hrun
    obtain ⟨m₁, hx, hrun⟩ := Except.bind_eq_ok.mp hrun
    obtain ⟨⟨l, hl⟩, hseen⟩ := hstep x (List.mem_cons_self ..) m m₁ hx
    obtain ⟨⟨l', hl'⟩, hall⟩ := ih (fun y hy => hstep y (List.mem_cons_of_mem _ hy)) hrun
    refine ⟨⟨l ++ l', hl.trans hl'⟩, ?_⟩
    intro y hy
    rcases List.mem_cons.mp hy with rfl | hy
    · exact hl'.seen_mono hseen
    · exact hall y hy

theorem foldlM_fuel {step : Marks α κ → α → Except Stop (Marks α κ)} {xs : List α}
    {seen : List κ}
    (hmono : ∀ x ∈ xs, ∀ m m', step m x = .ok m' → ∀ k ∈ m.seen, k ∈ m'.seen)
    (hfuel : ∀ x ∈ xs, ∀ m, (∀ k ∈ seen, k ∈ m.seen) → step m x ≠ .error .outOfFuel)
    {m : Marks α κ} (hm : ∀ k ∈ seen, k ∈ m.seen) : xs.foldlM step m ≠ .error .outOfFuel := by
  induction xs generalizing m with
  | nil => exact ok_fuel _
  | cons x xs ih =>
    rw [List.foldlM_cons]
    refine bind_fuel (hfuel x (List.mem_cons_self ..) m hm) fun m' hrun => ?_
    have hm' := hmono x (List.mem_cons_self ..) m m' hrun
    exact ih (fun y hy => hmono y (List.mem_cons_of_mem _ hy))
      (fun y hy => hfuel y (List.mem_cons_of_mem _ hy)) fun k hk => hm' k (hm k hk)

end Marks

/-- A run of the loop over the stack that returns: what is on the stack and the marks before and
after it. -/
inductive Drains (key : α → κ) (next : α → Except Stop (List α)) :
    List α → Marks α κ → Marks α κ → Prop
  | nil {m : Marks α κ} : Drains key next [] m m
  | seen {x : α} {stack : List α} {m m' : Marks α κ} (hseen : key x ∈ m.seen)
      (h : Drains key next stack m m') : Drains key next (x :: stack) m m'
  | mark {x : α} {ys stack : List α} {m m' : Marks α κ} (hseen : key x ∉ m.seen)
      (hys : next x = .ok ys)
      (h : Drains key next (ys.reverse ++ stack) ⟨key x :: m.seen, m.sorted ++ [x]⟩ m') :
      Drains key next (x :: stack) m m'

section Drains

variable {key : α → κ} {next : α → Except Stop (List α)} {P : α → Prop}

/-- The loop lists nodes with a property that the following nodes inherit, and it has seen all
nodes of the stack afterwards. -/
theorem Drains.adds (hnext : ∀ x ys, P x → next x = .ok ys → ∀ y ∈ ys, P y)
    {stack : List α} {m m' : Marks α κ} (h : Drains key next stack m m')
    (hstack : ∀ x ∈ stack, P x) : (∃ l, Adds key P m m' l) ∧ ∀ x ∈ stack, key x ∈ m'.seen := by
  induction h with
  | nil => exact ⟨⟨[], Adds.refl⟩, fun x hx => by cases hx⟩
  | seen hseen _ ih =>
    obtain ⟨⟨l, hl⟩, hall⟩ := ih fun y hy => hstack y (List.mem_cons_of_mem _ hy)
    refine ⟨⟨l, hl⟩, ?_⟩
    intro y hy
    rcases List.mem_cons.mp hy with rfl | hy
    · exact hl.seen_mono hseen
    · exact hall y hy
  | @mark x ys stack m m' hseen hys _ ih =>
    have hx := hstack x (List.mem_cons_self ..)
    have hpush : ∀ y ∈ ys.reverse ++ stack, P y := by
      intro y hy
      rcases List.mem_append.mp hy with hy | hy
      · exact hnext x ys hx hys y (List.mem_reverse.mp hy)
      · exact hstack y (List.mem_cons_of_mem _ hy)
    obtain ⟨⟨l, hl⟩, hall⟩ := ih hpush
    refine ⟨⟨[x] ++ l, (Adds.mark hx hseen).trans hl⟩, ?_⟩
    intro y hy
    rcases List.mem_cons.mp hy with rfl | hy
    · exact hl.seen_mono (List.mem_cons_self ..)
    · exact hall y (List.mem_append_right _ hy)

end Drains

variable [DecidableEq κ] (key : α → κ) (next : α → Except Stop (List α))

/-- A node is listed after the visits to the nodes that follow it. -/
def visit : ℕ → α → Marks α κ → Except Stop (Marks α κ)
  | 0, _, _ => .error .outOfFuel
  | n + 1, x, m =>
    if key x ∈ m.seen then .ok m
    else do
      let m' ← (← next x).foldlM (fun m y => visit n y m) ⟨key x :: m.seen, m.sorted⟩
      return ⟨m'.seen, m'.sorted ++ [x]⟩

/-- The node on top of the stack is listed and the nodes that follow it are pushed, the last
one uppermost. -/
def drain : ℕ → List α → Marks α κ → Except Stop (Marks α κ)
  | _, [], m => .ok m
  | 0, _ :: _, _ => .error .outOfFuel
  | n + 1, x :: stack, m =>
    if key x ∈ m.seen then drain n stack m
    else do
      let nodes ← next x
      drain n (nodes.reverse ++ stack) ⟨key x :: m.seen, m.sorted ++ [x]⟩

section Runs

variable {key next} {P : α → Prop}

/-- A visit that returns has either found its node seen or visited the nodes that follow it. -/
theorem visit_succ_eq_ok {n : ℕ} {x : α} {m m' : Marks α κ}
    (hrun : visit key next (n + 1) x m = .ok m') : (key x ∈ m.seen ∧ m' = m) ∨
      key x ∉ m.seen ∧ ∃ ys m₁, next x = .ok ys ∧
        ys.foldlM (fun m y => visit key next n y m) ⟨key x :: m.seen, m.sorted⟩ = .ok m₁ ∧
        m' = ⟨m₁.seen, m₁.sorted ++ [x]⟩ := by
  rw [visit] at hrun
  by_cases hseen : key x ∈ m.seen
  · rw [if_pos hseen] at hrun
    cases hrun
    exact .inl ⟨hseen, rfl⟩
  · rw [if_neg hseen] at hrun
    obtain ⟨ys, hys, hrun⟩ := Except.bind_eq_ok.mp hrun
    obtain ⟨m₁, hfold, hrun⟩ := Except.bind_eq_ok.mp hrun
    cases hrun
    exact .inr ⟨hseen, ys, m₁, hys, hfold, rfl⟩

/-- A visit lists nodes with a property that the following nodes inherit, and it has seen its
node afterwards. -/
theorem visit_adds (hnext : ∀ x ys, P x → next x = .ok ys → ∀ y ∈ ys, P y) {n : ℕ} {x : α}
    (hx : P x) {m m' : Marks α κ} (hrun : visit key next n x m = .ok m') :
    (∃ l, Adds key P m m' l) ∧ key x ∈ m'.seen := by
  induction n generalizing x m m' with
  | zero => cases hrun
  | succ n ih =>
    obtain ⟨hseen, rfl⟩ | ⟨hseen, ys, m₁, hys, hfold, rfl⟩ := visit_succ_eq_ok hrun
    · exact ⟨⟨[], Adds.refl⟩, hseen⟩
    · obtain ⟨⟨l, hl⟩, -⟩ := foldlM_adds (fun y hy _ _ => ih (hnext x ys hx hys y hy)) hfold
      exact ⟨⟨l ++ [x], hl.wrap hx hseen⟩, hl.seen_mono (List.mem_cons_self ..)⟩

theorem drains_of_drain {n : ℕ} {stack : List α} {m m' : Marks α κ}
    (hrun : drain key next n stack m = .ok m') : Drains key next stack m m' := by
  induction n generalizing stack m with
  | zero =>
    cases stack with
    | nil =>
      cases hrun
      exact .nil
    | cons x stack => cases hrun
  | succ n ih =>
    cases stack with
    | nil =>
      cases hrun
      exact .nil
    | cons x stack =>
      rw [drain] at hrun
      by_cases hseen : key x ∈ m.seen
      · rw [if_pos hseen] at hrun
        exact .seen hseen (ih hrun)
      · rw [if_neg hseen] at hrun
        obtain ⟨ys, hys, hrun⟩ := Except.bind_eq_ok.mp hrun
        exact .mark hseen hys (ih hrun)

end Runs

section Fuel

variable {key next} {nodes : List α} (w : α → ℕ)

/-- The weight of the nodes that have not been seen. -/
def unseen (key : α → κ) (w : α → ℕ) (seen : List κ) : List α → ℕ
  | [] => 0
  | x :: xs => (if key x ∈ seen then 0 else w x) + unseen key w seen xs

theorem unseen_mono {seen seen' : List κ} (h : ∀ k ∈ seen, k ∈ seen') (nodes : List α) :
    unseen key w seen' nodes ≤ unseen key w seen nodes := by
  induction nodes with
  | nil => exact Nat.le_refl _
  | cons x xs ih =>
    have hx : (if key x ∈ seen' then 0 else w x) ≤ if key x ∈ seen then 0 else w x := by
      by_cases hk : key x ∈ seen
      · simp [hk, h _ hk]
      · rw [if_neg hk]
        split
        · exact Nat.zero_le _
        · exact Nat.le_refl _
    exact Nat.add_le_add hx ih

/-- A node that is seen for the first time takes its weight away. -/
theorem unseen_cons {x : α} (hx : x ∈ nodes) {seen : List κ} (hfresh : key x ∉ seen) :
    unseen key w (key x :: seen) nodes + w x ≤ unseen key w seen nodes := by
  have hsub : ∀ k ∈ seen, k ∈ key x :: seen := fun k hk => List.mem_cons_of_mem _ hk
  induction nodes with
  | nil => cases hx
  | cons y ys ih =>
    have hmono : unseen key w (key x :: seen) ys ≤ unseen key w seen ys := unseen_mono w hsub ys
    rcases List.mem_cons.mp hx with rfl | hx
    · simp only [unseen, List.mem_cons_self, if_true, if_neg hfresh]
      omega
    · have hys := ih hx
      have hy : unseen key w (key x :: seen) [y] ≤ unseen key w seen [y] := unseen_mono w hsub [y]
      simp only [unseen] at hy ⊢
      omega

theorem unseen_nil_cons (x : α) (xs : List α) :
    unseen key w [] (x :: xs) = w x + unseen key w [] xs := by
  rw [unseen, if_neg (List.not_mem_nil)]

theorem unseen_one (nodes : List α) : unseen key (fun _ => 1) [] nodes = nodes.length := by
  induction nodes with
  | nil => rfl
  | cons x xs ih => rw [unseen_nil_cons, ih, List.length_cons, Nat.add_comm]

theorem visit_fuel (hclosed : ∀ x ∈ nodes, ∀ ys, next x = .ok ys → ∀ y ∈ ys, y ∈ nodes)
    (hnext : ∀ x ∈ nodes, next x ≠ .error .outOfFuel) {n : ℕ} {x : α} (hx : x ∈ nodes)
    {m : Marks α κ} (hn : unseen key (fun _ => 1) m.seen nodes < n) :
    visit key next n x m ≠ .error .outOfFuel := by
  induction n generalizing x m with
  | zero => exact absurd hn (Nat.not_lt_zero _)
  | succ n ih =>
    rw [visit]
    by_cases hseen : key x ∈ m.seen
    · rw [if_pos hseen]
      exact ok_fuel _
    · rw [if_neg hseen]
      have hlt := unseen_cons (fun _ => 1) hx hseen
      refine bind_fuel (hnext x hx) fun ys hys => ?_
      have hmem := hclosed x hx ys hys
      refine bind_fuel ?_ fun m' _ => ok_fuel _
      refine foldlM_fuel (fun y hy m m' hrun k hk => ?_) (fun y hy m' hm' => ?_) (fun k hk => hk)
      · obtain ⟨⟨l, hl⟩, -⟩ := visit_adds (fun _ _ hx hys => hclosed _ hx _ hys) (hmem y hy) hrun
        exact hl.seen_mono hk
      · have hmono : unseen key (fun _ => 1) m'.seen nodes ≤
            unseen key (fun _ => 1) (key x :: m.seen) nodes := unseen_mono _ hm' nodes
        exact ih (hmem y hy) (by omega)

/-- The loop does not run out of fuel if it has as much as there are entries on the stack and
nodes that follow unseen nodes. -/
theorem drain_fuel (hclosed : ∀ x ∈ nodes, ∀ ys, next x = .ok ys → ∀ y ∈ ys, y ∈ nodes)
    (hnext : ∀ x ∈ nodes, next x ≠ .error .outOfFuel)
    (hw : ∀ x ∈ nodes, ∀ ys, next x = .ok ys → ys.length ≤ w x) {n : ℕ} {stack : List α}
    (hstack : ∀ x ∈ stack, x ∈ nodes) {m : Marks α κ}
    (hn : stack.length + unseen key w m.seen nodes ≤ n) :
    drain key next n stack m ≠ .error .outOfFuel := by
  induction n generalizing stack m with
  | zero =>
    cases stack with
    | nil => exact ok_fuel _
    | cons x stack =>
      rw [List.length_cons] at hn
      omega
  | succ n ih =>
    cases stack with
    | nil => exact ok_fuel _
    | cons x stack =>
      have hx := hstack x (List.mem_cons_self ..)
      have htail : ∀ y ∈ stack, y ∈ nodes := fun y hy => hstack y (List.mem_cons_of_mem _ hy)
      rw [List.length_cons] at hn
      rw [drain]
      by_cases hseen : key x ∈ m.seen
      · rw [if_pos hseen]
        exact ih htail (by omega)
      · rw [if_neg hseen]
        have hlt := unseen_cons w hx hseen
        refine bind_fuel (hnext x hx) fun ys hys => ?_
        have hlen := hw x hx ys hys
        refine ih (fun y hy => ?_) ?_
        · rcases List.mem_append.mp hy with hy | hy
          · exact hclosed x hx ys hys y (List.mem_reverse.mp hy)
          · exact htail y hy
        · rw [List.length_append, List.length_reverse]
          simp only at hlt ⊢
          omega

end Fuel

end Traversal

end Langsvr
