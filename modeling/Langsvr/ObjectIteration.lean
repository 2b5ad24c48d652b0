import Langsvr.AllocatorRuns

/-!
# Iteration over the objects

A loop over the objects of an allocator visits them in the order of their creation, those that are
created meanwhile too.
-/

namespace Langsvr.BlockAllocator

variable {T : Template} {st st' : Store T} {bs : ℕ → List (ℕ × Block)}
  {cs : ℕ → List (Address × Pointers)} {this k : ℕ} {it : Iterator}

/-- What is created in a pass of a loop, before the object is read and after. -/
structure Round (T : Template) where
  before : List (Creation T) := []
  body : List (Creation T) := []

/-- The passes of a loop over objects, up to the end of the objects or of the list. -/
def iterate : List (Round T) → Iterator → Store T →
    Except Fault (List Address × Iterator × Store T)
  | [], it, st => .ok ([], it, st)
  | r :: rs, it, st =>
    if it = past then .ok ([], it, st)
    else do
      let st ← createAll r.before st
      let object ← it.value st
      let st ← createAll r.body st
      let it ← it.increment st
      let (objects, it, st) ← iterate rs it st
      return (object :: objects, it, st)

theorem round_spec (h : Holds st bs cs) (hit : Position (cs this) it k) (hpast : it ≠ past)
    (r : Round T) : ∃ st₁ object st' bs' cs' it', createAll r.before st = .ok st₁ ∧
      it.value st₁ = .ok object ∧ createAll r.body st₁ = .ok st' ∧ it.increment st' = .ok it' ∧
      Holds st' bs' cs' ∧ created st.history this <+: created st'.history this ∧
      (created st'.history this)[k]? = some object ∧ Position (cs' this) it' (k + 1) := by
  have hk : k ≠ (listed (cs this)).length := fun hk => hpast (hit.eq_past_iff.mpr hk)
  obtain ⟨_, _, _, _, hin⟩ := hit.inChunk (Nat.lt_of_le_of_ne hit.le hk)
  obtain ⟨st₁, bs₁, cs₁, hbefore, h₁, hgrowth₁, -⟩ := createAll_spec r.before h
  obtain ⟨_, _, _, _, hin₁⟩ := hin.grow (hgrowth₁.grows this)
  obtain ⟨object, hvalue, hobject⟩ := hin₁.value (h₁.chunks this)
  obtain ⟨st₂, bs₂, cs₂, hbody, h₂, hgrowth₂, -⟩ := createAll_spec r.body h₁
  obtain ⟨_, _, _, _, hin₂⟩ := hin₁.grow (hgrowth₂.grows this)
  obtain ⟨it', hincrement, hit'⟩ := hin₂.increment (h₂.chunks this) (h₂.objects this).filled
  refine ⟨st₁, object, st₂, bs₂, cs₂, it', hbefore, hvalue, hbody, hincrement, h₂,
    (hgrowth₁.created this).trans (hgrowth₂.created this), ?_, hit'⟩
  rw [(h₁.objects this).listed_eq] at hobject
  obtain ⟨hlt, -⟩ := List.getElem?_eq_some_iff.mp hobject
  obtain ⟨rest, hrest⟩ := hgrowth₂.created this
  rw [← hrest, List.getElem?_append_left hlt, hobject]

/-- The loop visits the objects from its first position on, one in each pass. -/
theorem iterate_spec (h : Holds st bs cs) (hit : Position (cs this) it k)
    (rounds : List (Round T)) :
    ∃ objects it' st' bs' cs', iterate rounds it st = .ok (objects, it', st') ∧ Holds st' bs' cs' ∧
      created st.history this <+: created st'.history this ∧
      objects <+: (created st'.history this).drop k ∧
      Position (cs' this) it' (k + objects.length) ∧
      (it' ≠ past → objects.length = rounds.length) ∧
      ((∀ r ∈ rounds, r.before = [] ∧ r.body = []) → st' = st) := by
  induction rounds generalizing st bs cs it k with
  | nil =>
    exact ⟨[], it, st, bs, cs, rfl, h, List.prefix_refl _, List.nil_prefix, hit, fun _ => rfl,
      fun _ => rfl⟩
  | cons r rs ih =>
    by_cases hpast : it = past
    · refine ⟨[], it, st, bs, cs, ?_, h, List.prefix_refl _, List.nil_prefix, hit,
        fun hne => absurd hpast hne, fun _ => rfl⟩
      rw [iterate, if_pos hpast]
    · obtain ⟨st₁, object, st₂, bs₂, cs₂, it₂, hbefore, hvalue, hbody, hincrement, h₂, hcreated,
        hobject, hit₂⟩ := round_spec h hit hpast r
      obtain ⟨objects, it', st', bs', cs', hrun, h', hcreated', hvisited, hit', hlength, hquiet⟩ :=
        ih h₂ hit₂
      refine ⟨object :: objects, it', st', bs', cs', ?_, h', hcreated.trans hcreated', ?_, ?_, ?_,
        ?_⟩
      · simp only [iterate, if_neg hpast, hbefore, hvalue, hbody, hincrement, hrun, bind,
          Except.bind, pure, Except.pure]
      · obtain ⟨hlt, -⟩ := List.getElem?_eq_some_iff.mp hobject
        obtain ⟨rest, hrest⟩ := hcreated'
        have hobject' : (created st'.history this)[k]? = some object := by
          rw [← hrest, List.getElem?_append_left hlt, hobject]
        rw [List.drop_eq_getElem?_toList_append, hobject']
        exact List.cons_prefix_cons.mpr ⟨rfl, hvisited⟩
      · rw [List.length_cons, Nat.add_comm objects.length 1, ← Nat.add_assoc]
        exact hit'
      · intro hne
        rw [List.length_cons, List.length_cons, hlength hne]
      · intro hall
        obtain ⟨hbefore', hbody'⟩ := hall r (List.mem_cons_self ..)
        rw [hbefore'] at hbefore
        cases hbefore
        rw [hbody'] at hbody
        cases hbody
        exact hquiet fun r hr => hall r (List.mem_cons_of_mem _ hr)

theorem iterate_begin (h : Holds st bs cs) (this : ℕ) (rounds : List (Round T)) :
    ∃ objects it st' bs' cs', iterate rounds (begin this st) st = .ok (objects, it, st') ∧
      Holds st' bs' cs' ∧ objects <+: created st'.history this ∧
      (it = past ↔ objects = created st'.history this) ∧
      (it ≠ past → objects.length = rounds.length) ∧
      ((∀ r ∈ rounds, r.before = [] ∧ r.body = []) → st' = st) := by
  obtain ⟨objects, it, st', bs', cs', hrun, h', -, hvisited, hit, hlength, hquiet⟩ :=
    iterate_spec h (position_begin (h.chunks this) (h.objects this).filled) rounds
  rw [List.drop_zero] at hvisited
  rw [Nat.zero_add] at hit
  refine ⟨objects, it, st', bs', cs', hrun, h', hvisited, ?_, hlength, hquiet⟩
  rw [hit.eq_past_iff, (h'.objects this).listed_eq]
  exact ⟨hvisited.eq_of_length, congrArg List.length⟩

/-- A loop without creations visits all the objects if it is long enough. -/
theorem iterate_all (h : Holds st bs cs) (this : ℕ) {rounds : List (Round T)}
    (hall : ∀ r ∈ rounds, r.before = [] ∧ r.body = [])
    (hle : (st.data this).count ≤ rounds.length) :
    iterate rounds (begin this st) st = .ok (created st.history this, past, st) := by
  obtain ⟨objects, it, st', -, -, hrun, -, hvisited, hpast, hlength, hquiet⟩ :=
    iterate_begin h this rounds
  obtain rfl := hquiet hall
  have hobjects : objects = created st'.history this := by
    by_cases hit : it = past
    · exact hpast.mp hit
    · refine hvisited.eq_of_length (Nat.le_antisymm hvisited.length_le ?_)
      rw [hlength hit, ← (h.objects this).count_eq]
      exact hle
  rw [hrun, hpast.mpr hobjects, hobjects]

/-- A loop visits objects of an allocator once and in the order of their creation. It goes on until
it has visited all that there are then, and without creations that is the number of objects. -/
theorem iterate_visits (h : Reachable st) (this : ℕ) (rounds : List (Round T)) :
    ∃ objects it st', iterate rounds (begin this st) st = .ok (objects, it, st') ∧
      objects <+: created st'.history this ∧ objects.Nodup ∧
      (it = past ↔ objects = created st'.history this) ∧
      (it = past → objects.length = (st'.data this).count) ∧
      (it ≠ past → objects.length = rounds.length) ∧
      ((∀ r ∈ rounds, r.before = [] ∧ r.body = []) → (st.data this).count ≤ rounds.length →
        it = past ∧ objects.length = (st.data this).count) := by
  obtain ⟨bs, cs, h⟩ := reachable_holds h
  obtain ⟨objects, it, st', bs', cs', hrun, h', hvisited, hpast, hlength, -⟩ :=
    iterate_begin h this rounds
  have hcount : it = past → objects.length = (st'.data this).count := by
    intro hit
    rw [hpast.mp hit, (h'.objects this).count_eq]
  refine ⟨objects, it, st', hrun, hvisited, (h'.objects this).distinct.sublist hvisited.sublist,
    hpast, hcount, hlength, fun hall hle => ?_⟩
  rw [iterate_all h this hall hle] at hrun
  cases hrun
  exact ⟨rfl, (h.objects this).count_eq.symm⟩

/-- The second object, which is created in the first pass, lies behind the chunk of pointers. -/
theorem iterate_visits_int : ∃ st : Store intTemplate, createInts 1 noInts = .ok st ∧
    ∃ it st', iterate [{ body := [⟨0, intLayout, []⟩] }, {}] (begin 0 st) st =
        .ok ([⟨0, 0⟩, ⟨0, 288⟩], it, st') ∧ it = past ∧
      created st'.history 0 = [⟨0, 0⟩, ⟨0, 288⟩] := by
  obtain ⟨st, hrun, h⟩ := ints_reachable 1
  obtain ⟨objects, it, st', hiterate, -, -, hpast, -⟩ :=
    iterate_visits h 0 [{ body := [⟨0, intLayout, []⟩] }, {}]
  have hloop : (createInts 1 noInts >>= fun st =>
      iterate [{ body := [⟨0, intLayout, []⟩] }, {}] (begin 0 st) st).map
        (fun r => (r.1, decide (r.2.1 = past))) = .ok ([⟨0, 0⟩, ⟨0, 288⟩], true) := by
    rfl
  rw [hrun] at hloop
  change (iterate _ (begin 0 st) st).map _ = _ at hloop
  rw [hiterate] at hloop
  obtain ⟨rfl, hit⟩ := Prod.mk.inj (Except.ok.inj hloop)
  have hend := of_decide_eq_true hit
  exact ⟨st, hrun, it, st', hiterate, hend, (hpast.mp hend).symm⟩

end Langsvr.BlockAllocator
