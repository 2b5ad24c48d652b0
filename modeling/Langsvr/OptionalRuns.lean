import Langsvr.OptionalPrograms
import Langsvr.Results

/-!
# Runs of programs on values of type `Optional`

A program that starts with empty variables stops if and only if a statement uses a null pointer or
assigns to an `Optional` from inside of its own value. Objects are lost if and only if an object is
moved into what it owns. A statement leads to what it says where neither operand is part of the
other one.
-/

namespace Langsvr.RecursiveOptional

variable {k : ℕ} {α : Type}

section Programs

/-- The values after a program that starts with empty variables. -/
def values (ops : List (Operation k α)) : Except MemoryFault (Variables (Fin k) α) :=
  steps ops fun _ => .empty

/-- A program that starts with empty variables does to the memory what it does to the values, and
an object is lost if and only if an object is moved into what it owns. -/
theorem run_refines_values (ops : List (Operation k α)) :
    Refines (∃ op ∈ ops, op.Encloses) (run ops {}) (values ops) := by
  have hrun := run_refines (Memory.Forest.init (ι := Fin k) (α := α)) ops
  have hnone : ¬ ∃ p, Memory.Lost ({} : Objects k α) (fun _ => .empty) p := by
    rintro ⟨p, hp, -⟩
    cases hp
  simp only [hnone, false_or] at hrun
  exact hrun

variable {m : Objects k α} {τ τ' : Variables (Fin k) α} {op : Operation k α}
  {ops : List (Operation k α)} {e : MemoryFault}

theorem Refines.eq_error_iff {lost : Prop} {r : Except MemoryFault (Objects k α)}
    {s : Except MemoryFault (Variables (Fin k) α)} (h : Refines lost r s) :
    r = .error e ↔ s = .error e := by
  cases h with
  | fault e' => simp
  | done h' hlost => simp

theorem Refines.exists_forest {lost : Prop} {s : Except MemoryFault (Variables (Fin k) α)}
    (h : Refines lost (.ok m) s) : ∃ σ, m.Forest σ ∧ s = .ok (σ.map Prod.snd) ∧
      ((∃ p, m.Lost σ p) ↔ lost) := by
  cases h with
  | done h' hlost => exact ⟨_, h', rfl, hlost⟩

/-- A program that starts with empty variables stops for the reason for which it stops on the
values. If it ends, the variables own trees of objects that have the values, and they own all
objects that exist if and only if no object was moved into what it owns. -/
theorem run_computes (ops : List (Operation k α)) :
    (∀ e, run ops {} = .error e ↔ values ops = .error e) ∧
    ∀ m, run ops {} = .ok m → ∃ σ, m.Forest σ ∧ values ops = .ok (σ.map Prod.snd) ∧
      ((∀ p, (m.object p).isSome → σ.Owns p) ↔ ∀ op ∈ ops, ¬ op.Encloses) := by
  have hrun := run_refines_values ops
  refine ⟨fun e => hrun.eq_error_iff, fun m hm => ?_⟩
  rw [hm] at hrun
  obtain ⟨σ, h, hτ, hlost⟩ := hrun.exists_forest
  refine ⟨σ, h, hτ, ?_⟩
  have hnone := not_congr hlost
  simp only [Memory.Lost, not_exists, not_and, not_not] at hnone
  exact hnone

/-- A program that ends for the values ends for the memory. -/
theorem exists_run (hτ : values ops = .ok τ) : ∃ m, run ops {} = .ok m := by
  have hrun := run_refines_values ops
  rw [hτ] at hrun
  generalize run ops {} = r at hrun ⊢
  cases hrun with
  | done h _ => exact ⟨_, rfl⟩

/-- After a program an object exists that is not reached from any variable if and only if the
program has moved an object into what it owns. -/
theorem unreached_iff (hm : run ops {} = .ok m) :
    (∃ p, (m.object p).isSome ∧ ¬ m.Reaches p) ↔ ∃ op ∈ ops, op.Encloses := by
  have hrun := run_refines_values ops
  rw [hm] at hrun
  obtain ⟨σ, h, -, hlost⟩ := hrun.exists_forest
  rw [← hlost]
  exact exists_congr fun p => and_congr_right fun _ => not_congr h.owns_iff_reaches.symm

/-- Selection ranges, of which the member `parent` is optional: one has a parent, the other one has
none. -/
def selectionRanges : List (Operation 1 ℕ) :=
  [.assign (0, []) 1, .assign (0, [0]) 2, .assign (1, []) 3]

/-- A range that is moved into its own parent is lost, and so is a range the value of which is moved
into the parent of its parent. If the value is moved into its parent, the range holds it. -/
theorem unreached_iff_parent :
    (∃ m, run (selectionRanges ++ [.moveAssign (0, [0]) (0, [])]) {} = .ok m ∧
      ∃ p, (m.object p).isSome ∧ ¬ m.Reaches p) ∧
    (∃ m, run (selectionRanges ++ [.moveObject (0, [0, 0]) (0, []) 0]) {} = .ok m ∧
      ∃ p, (m.object p).isSome ∧ ¬ m.Reaches p) ∧
    ∃ m, run (selectionRanges ++ [.moveObject (0, [0]) (0, []) 0]) {} = .ok m ∧
      ¬ ∃ p, (m.object p).isSome ∧ ¬ m.Reaches p := by
  refine ⟨?_, ?_, ?_⟩
  · have hvalues : values (selectionRanges ++ [.moveAssign (0, [0]) (0, [])]) = .ok _ := rfl
    obtain ⟨m, hm⟩ := exists_run hvalues
    refine ⟨m, hm, (unreached_iff hm).mpr ⟨.moveAssign (0, [0]) (0, []), ?_, ?_⟩⟩
    · exact List.mem_append_right _ (List.mem_singleton_self _)
    · exact ⟨⟨rfl, by decide⟩, by decide⟩
  · have hvalues : values (selectionRanges ++ [.moveObject (0, [0, 0]) (0, []) 0]) = .ok _ := rfl
    obtain ⟨m, hm⟩ := exists_run hvalues
    refine ⟨m, hm, (unreached_iff hm).mpr ⟨.moveObject (0, [0, 0]) (0, []) 0, ?_, ?_⟩⟩
    · exact List.mem_append_right _ (List.mem_singleton_self _)
    · exact ⟨⟨rfl, by decide⟩, by decide⟩
  · have hvalues : values (selectionRanges ++ [.moveObject (0, [0]) (0, []) 0]) = .ok _ := rfl
    obtain ⟨m, hm⟩ := exists_run hvalues
    refine ⟨m, hm, fun hlost => ?_⟩
    obtain ⟨op, hop, hencl⟩ := (unreached_iff hm).mp hlost
    simp only [selectionRanges, List.cons_append, List.nil_append, List.mem_cons,
      List.not_mem_nil, or_false] at hop
    rcases hop with rfl | rfl | rfl | rfl
    · exact hencl
    · exact hencl
    · exact hencl
    · exact absurd hencl.2 (by decide)

namespace Operation

/-- The paths of a statement lead somewhere, and a value that is read exists. -/
def Operands (τ : Variables (Fin k) α) : Operation k α → Prop
  | .reset a | .assign a _ => τ.find a ≠ none
  | .copyAssign a c | .moveAssign a c => τ.find a ≠ none ∧ τ.find c ≠ none
  | .assignObject a c | .moveObject a c _ =>
    τ.find a ≠ none ∧ τ.find c ≠ none ∧ τ.find c ≠ some .empty

end Operation

theorem look_eq_ok {a : Path k} {v : Contents (Fin k) α} (ha : τ.find a = some v) :
    Operation.look τ a = .ok v := by
  rw [Operation.look, ha]

theorem look_eq_error {a : Path k} (ha : τ.find a = none) :
    Operation.look τ a = .error .empty := by
  rw [Operation.look, ha]

theorem left_of_found {a c : Path k} (ha : τ.find a ≠ none) (hc : τ.find c ≠ none) :
    (Leads a c ∧ a ≠ c) ∧ Operation.left τ a c = .error .freed ∨
      ¬ (Leads a c ∧ a ≠ c) ∧ ∃ w, Operation.left τ a c = .ok w := by
  obtain ⟨v, ha⟩ := Option.ne_none_iff_exists'.mp ha
  obtain ⟨w, hc⟩ := Option.ne_none_iff_exists'.mp hc
  rw [Operation.left, look_eq_ok ha, look_eq_ok hc]
  by_cases hac : Leads a c ∧ a ≠ c
  · exact .inl ⟨hac, if_pos hac⟩
  · obtain ⟨w', hw'⟩ := Variables.find_put_source ha hc fun hl =>
      not_not.mp fun hne => hac ⟨hl, hne⟩
    exact .inr ⟨hac, w', (if_neg hac).trans (look_eq_ok hw')⟩

theorem left_of_not_found {a c : Path k} (h : ¬ (τ.find a ≠ none ∧ τ.find c ≠ none)) :
    Operation.left τ a c = .error .empty := by
  cases hc : τ.find c with
  | none =>
    rw [Operation.left, look_eq_error hc]
    rfl
  | some w =>
    have ha : τ.find a = none := by
      by_contra ha
      exact h ⟨ha, by simp [hc]⟩
    rw [Operation.left, look_eq_ok hc, look_eq_error ha]
    rfl

theorem leftValue_of_found {a c : Path k} (ha : τ.find a ≠ none) (hc : τ.find c ≠ none)
    (hne : τ.find c ≠ some .empty) :
    Leads a c ∧ Operation.leftValue τ a c = .error .freed ∨
      ¬ Leads a c ∧ ∃ w, Operation.leftValue τ a c = .ok w := by
  obtain ⟨w, hw⟩ := Option.ne_none_iff_exists'.mp hc
  rw [Operation.leftValue, look_eq_ok hw]
  cases w with
  | empty => exact absurd hw hne
  | value x members =>
    by_cases hself : a = c
    · subst hself
      exact .inl ⟨⟨rfl, List.prefix_rfl⟩, if_pos rfl⟩
    · rcases left_of_found ha hc with ⟨hac, hl⟩ | ⟨hac, w, hl⟩
      · exact .inl ⟨hac.1, (if_neg hself).trans hl⟩
      · exact .inr ⟨fun hle => hac ⟨hle, hself⟩, w, (if_neg hself).trans hl⟩

theorem leftValue_of_not_found {a c : Path k}
    (h : ¬ (τ.find a ≠ none ∧ τ.find c ≠ none ∧ τ.find c ≠ some .empty)) :
    Operation.leftValue τ a c = .error .empty := by
  cases hc : τ.find c with
  | none =>
    rw [Operation.leftValue, look_eq_error hc]
    rfl
  | some w =>
    rw [Operation.leftValue, look_eq_ok hc]
    cases w with
    | empty => rfl
    | value x members =>
      have ha : τ.find a = none := by
        by_contra ha
        exact h ⟨ha, by simp [hc], by simp [hc]⟩
      have hself : a ≠ c := by
        rintro rfl
        exact absurd (ha.symm.trans hc) (Option.some_ne_none _).symm
      exact (if_neg hself).trans (left_of_not_found fun h => h.1 ha)

theorem step_of_operands (ho : op.Operands τ) :
    op.Frees ∧ op.step τ = .error .freed ∨ ¬ op.Frees ∧ ∃ τ', op.step τ = .ok τ' := by
  cases op with
  | reset a =>
    obtain ⟨v, ha⟩ := Option.ne_none_iff_exists'.mp ho
    refine .inr ⟨id, τ.put a .empty, ?_⟩
    rw [Operation.step, look_eq_ok ha]
    rfl
  | assign a x =>
    obtain ⟨v, ha⟩ := Option.ne_none_iff_exists'.mp ho
    refine .inr ⟨id, τ.put a (.value x fun _ => .empty), ?_⟩
    rw [Operation.step, look_eq_ok ha]
    rfl
  | copyAssign a c =>
    rw [Operation.step]
    rcases left_of_found ho.1 ho.2 with ⟨hac, hl⟩ | ⟨hac, w, hl⟩
    · rw [hl]
      exact .inl ⟨hac, rfl⟩
    · rw [hl]
      exact .inr ⟨hac, _, rfl⟩
  | moveAssign a c =>
    rw [Operation.step]
    rcases left_of_found ho.1 ho.2 with ⟨hac, hl⟩ | ⟨hac, w, hl⟩
    · rw [hl]
      exact .inl ⟨hac, rfl⟩
    · rw [hl]
      exact .inr ⟨hac, _, rfl⟩
  | assignObject a c | moveObject a c y =>
    rw [Operation.step]
    rcases leftValue_of_found ho.1 ho.2.1 ho.2.2 with ⟨hac, hl⟩ | ⟨hac, w, hl⟩
    · rw [hl]
      exact .inl ⟨hac, rfl⟩
    · rw [hl]
      exact .inr ⟨hac, _, rfl⟩

/-- A statement one of whose operands is not there uses a null pointer. -/
theorem step_of_not_operands (ho : ¬ op.Operands τ) : op.step τ = .error .empty := by
  cases op with
  | reset a =>
    rw [Operation.step, look_eq_error (not_not.mp ho)]
    rfl
  | assign a x =>
    rw [Operation.step, look_eq_error (not_not.mp ho)]
    rfl
  | copyAssign a c =>
    rw [Operation.step, left_of_not_found ho]
    rfl
  | moveAssign a c =>
    rw [Operation.step, left_of_not_found ho]
    rfl
  | assignObject a c | moveObject a c y =>
    rw [Operation.step, leftValue_of_not_found ho]
    rfl

/-- A statement uses what was freed if and only if its operands are there and the value of the
source is freed with the value of the target. -/
theorem step_eq_freed_iff : op.step τ = .error .freed ↔ op.Operands τ ∧ op.Frees := by
  by_cases ho : op.Operands τ
  · rcases step_of_operands ho with ⟨hf, hs⟩ | ⟨hf, τ', hs⟩
    · simp [ho, hf, hs]
    · simp [hf, hs]
  · simp [ho, step_of_not_operands ho]

theorem step_eq_empty_iff : op.step τ = .error .empty ↔ ¬ op.Operands τ := by
  by_cases ho : op.Operands τ
  · rcases step_of_operands ho with ⟨-, hs⟩ | ⟨-, τ', hs⟩
    · simp [ho, hs]
    · simp [ho, hs]
  · simp [ho, step_of_not_operands ho]

/-- A program uses what was freed if and only if it comes to a statement that assigns to an
`Optional` from inside of its own value. It uses a null pointer if and only if it comes to a
statement one of whose operands is not there. Nothing else stops it. -/
theorem run_fails_iff (ops : List (Operation k α)) :
    (run ops {} = .error .freed ↔ ∃ before op after τ, ops = before ++ op :: after ∧
      values before = .ok τ ∧ op.Operands τ ∧ op.Frees) ∧
    (run ops {} = .error .empty ↔ ∃ before op after τ, ops = before ++ op :: after ∧
      values before = .ok τ ∧ ¬ op.Operands τ) ∧
    run ops {} ≠ .error .nesting := by
  have hrun := run_refines_values ops
  refine ⟨?_, ?_, fun h => ?_⟩
  · rw [hrun.eq_error_iff, values, steps, Except.foldlM_eq_error_iff]
    simp only [step_eq_freed_iff]
    rfl
  · rw [hrun.eq_error_iff, values, steps, Except.foldlM_eq_error_iff]
    simp only [step_eq_empty_iff]
    rfl
  · rw [hrun.eq_error_iff, values, steps, Except.foldlM_eq_error_iff] at h
    obtain ⟨before, op, after, τ, -, -, hop⟩ := h
    by_cases ho : op.Operands τ
    · rcases step_of_operands ho with ⟨-, hs⟩ | ⟨-, τ', hs⟩
      · cases hs.symm.trans hop
      · cases hs.symm.trans hop
    · cases (step_of_not_operands ho).symm.trans hop

end Programs

section Assignments

variable {m : Objects k α} {τ τ' : Variables (Fin k) α} {op : Operation k α}
  {ops : List (Operation k α)} {a c : Path k} {v w : Contents (Fin k) α}

def Holds (m : Objects k α) (τ : Variables (Fin k) α) : Prop :=
  ∃ σ, m.Forest σ ∧ σ.map Prod.snd = τ

/-- A statement leads to values in the memory if and only if it leads to them. -/
theorem Holds.apply_iff (h : Holds m τ) :
    (∃ m', op.apply m = .ok m' ∧ Holds m' τ') ↔ op.step τ = .ok τ' := by
  obtain ⟨σ, hσ, rfl⟩ := h
  have happly := apply_refines hσ op
  generalize Operation.apply m op = r at happly ⊢
  generalize Operation.step (σ.map Prod.snd) op = s at happly ⊢
  cases happly with
  | fault e => simp
  | @done m' σ' h' _ =>
    simp only [Except.ok.injEq, exists_eq_left']
    constructor
    · intro hholds
      obtain ⟨σ'', h'', rfl⟩ := hholds
      rw [h'.unique h'']
    · rintro rfl
      exact ⟨σ', h', rfl⟩

theorem holds_of_run (hm : run ops {} = .ok m) (hτ : values ops = .ok τ) : Holds m τ := by
  have hrun := run_refines_values ops
  rw [hm, hτ] at hrun
  obtain ⟨σ, h, hs, -⟩ := hrun.exists_forest
  exact ⟨σ, h, (Except.ok.inj hs).symm⟩

/-- The source still holds what it held after the target was emptied if and only if the target
held nothing, or neither of them is part of the other one. -/
theorem left_eq_iff (ha : τ.find a = some v) (hc : τ.find c = some w) :
    Operation.left τ a c = .ok w ↔ v = .empty ∨ ¬ Leads a c ∧ ¬ Leads c a := by
  rw [Operation.left, look_eq_ok hc, look_eq_ok ha]
  change (if Leads a c ∧ a ≠ c then .error .freed else Operation.look (τ.put a .empty) c) =
    .ok w ↔ _
  by_cases hca : Leads c a
  · obtain ⟨δ, hδ, hput⟩ := Variables.find_put_of_leads (σ := τ) (u := .empty) hca
    rw [hc] at hput
    have hwδ : w.find δ = some v := by
      rw [Variables.find, ← hca.1, hδ, Contents.find_append] at ha
      rw [Variables.find] at hc
      rw [hc] at ha
      exact ha
    have hput' : (τ.put a .empty).find c = some (w.put δ .empty) := hput
    have hif : ¬ (Leads a c ∧ a ≠ c) := fun h => h.2 (h.1.antisymm hca)
    rw [if_neg hif, look_eq_ok hput', Except.ok.injEq]
    constructor
    · intro hw
      have hfind := Contents.find_put (u := .empty) hwδ
      rw [hw, hwδ] at hfind
      exact .inl (Option.some.inj hfind)
    · rintro (rfl | hne)
      · exact Contents.put_find hwδ
      · exact absurd hca hne.2
  · by_cases hac : Leads a c
    · have hne : a ≠ c := by
        rintro rfl
        exact hca hac
      have hv := Variables.ne_empty_of_leads hc ha hac hne
      rw [if_pos ⟨hac, hne⟩]
      simp [hv, hac]
    · rw [if_neg fun h => hac h.1, look_eq_ok ((Variables.find_put_of_ne hac hca).trans hc)]
      simp [hac, hca]

theorem put_inj (ha : τ.find a = some v) {u w : Contents (Fin k) α} :
    τ.put a u = τ.put a w ↔ u = w := by
  refine ⟨fun h => ?_, fun h => by rw [h]⟩
  have hu := Variables.find_put (u := u) ha
  rw [h, Variables.find_put ha] at hu
  exact (Option.some.inj hu).symm

theorem left_put_iff (ha : τ.find a = some v) :
    (do
      let w' ← Operation.left τ a c
      return τ.put a w') = (.ok (τ.put a w) : Except MemoryFault (Variables (Fin k) α)) ↔
      Operation.left τ a c = .ok w := by
  cases Operation.left τ a c with
  | error e =>
    constructor
    · intro h
      cases h
    · intro h
      cases h
  | ok w' =>
    change (.ok (τ.put a w') : Except MemoryFault (Variables (Fin k) α)) = _ ↔ _
    rw [Except.ok.injEq, Except.ok.injEq, put_inj ha]

/-- The target holds a copy of what the source held if and only if the target held nothing, or
neither of them is part of the other one. -/
theorem step_copyAssign_iff (ha : τ.find a = some v) (hc : τ.find c = some w) :
    Operation.step τ (.copyAssign a c) = .ok (τ.put a w) ↔
      v = .empty ∨ ¬ Leads a c ∧ ¬ Leads c a := by
  rw [← left_eq_iff ha hc, Operation.step, left_put_iff ha]

theorem step_assignObject_iff (ha : τ.find a = some v) (hc : τ.find c = some w)
    (hw : w ≠ .empty) : Operation.step τ (.assignObject a c) = .ok (τ.put a w) ↔
      v = .empty ∨ ¬ Leads a c ∧ ¬ Leads c a := by
  cases w with
  | empty => exact absurd rfl hw
  | value x members =>
    have hvalue : Operation.leftValue τ a c =
        if a = c then .error .freed else Operation.left τ a c := by
      rw [Operation.leftValue, look_eq_ok hc]
      rfl
    rw [Operation.step, hvalue]
    by_cases hself : a = c
    · subst hself
      cases ha.symm.trans hc
      rw [if_pos rfl]
      change (.error .freed : Except MemoryFault (Variables (Fin k) α)) = _ ↔ _
      simp [Leads]
    · rw [if_neg hself, left_put_iff ha, left_eq_iff ha hc]

/-- The target holds what the source held, and the source holds nothing, if and only if neither
of them is part of the other one, or they are the same and hold nothing. -/
theorem step_moveAssign_iff (ha : τ.find a = some v) (hc : τ.find c = some w) :
    Operation.step τ (.moveAssign a c) = .ok ((τ.put c .empty).put a w) ∧
        ((τ.put c .empty).put a w).find a = some w ↔
      a = c ∧ w = .empty ∨ ¬ Leads a c ∧ ¬ Leads c a := by
  have hleft := left_eq_iff ha hc
  by_cases hself : a = c
  · subst hself
    cases ha.symm.trans hc
    have hstep : Operation.step τ (.moveAssign a a) = .ok (τ.put a .empty) := by
      have hl : Operation.left τ a a = .ok .empty := by
        rw [Operation.left, look_eq_ok ha]
        exact (if_neg fun h => h.2 rfl).trans (look_eq_ok (Variables.find_put ha))
      rw [Operation.step, hl]
      simp only [Variables.put_put]
      rfl
    rw [hstep, Variables.put_put, Except.ok.injEq, put_inj ha]
    simp [Variables.find_put ha, eq_comm, Leads]
  by_cases hac : Leads a c
  · have hstep : Operation.step τ (.moveAssign a c) = .error .freed := by
      have hl : Operation.left τ a c = .error .freed := by
        rw [Operation.left, look_eq_ok ha, look_eq_ok hc]
        exact if_pos ⟨hac, hself⟩
      rw [Operation.step, hl]
      rfl
    simp [hstep, hself, hac]
  by_cases hca : Leads c a
  · -- the target goes with the source
    have hca' : c ≠ a := fun he => hself he.symm
    have hlost : ((τ.put c .empty).put a w).find a ≠ some w := by
      rw [Variables.put_empty_of_leads hc hca hca', Variables.find_put_empty hc hca hca']
      exact (Option.some_ne_none w).symm
    simp [hlost, hself, hca]
  · have hl : Operation.left τ a c = .ok w := hleft.mpr (.inr ⟨hac, hca⟩)
    have hfind : (τ.put c .empty).find a = some v :=
      (Variables.find_put_of_ne hca hac).trans ha
    rw [Operation.step, hl]
    simp only [hac, hca, not_false_eq_true, and_self, or_true, iff_true]
    refine ⟨?_, Variables.find_put hfind⟩
    rw [Variables.put_comm τ hac hca]
    change (.ok _ : Except MemoryFault (Variables (Fin k) α)) = _
    rw [Variables.put_put]

/-- The target holds the value that the source held, and the source holds what is left of it, if and
only if neither of them is part of the other one, or the target is a member of the value and held
nothing. -/
theorem step_moveObject_iff (ha : τ.find a = some v) (hc : τ.find c = some w) (hw : w ≠ .empty)
    (y : α) :
    Operation.step τ (.moveObject a c y) = .ok ((τ.put c (.value y fun _ => .empty)).put a w) ∧
        ((τ.put c (.value y fun _ => .empty)).put a w).find a = some w ↔
      ¬ Leads a c ∧ (¬ Leads c a ∨ v = .empty ∧ a.2.length = c.2.length + 1) := by
  have hne : τ.find c ≠ some .empty := by
    rw [hc]
    simpa using hw
  have ha' : τ.find a ≠ none := by simp [ha]
  rcases leftValue_of_found ha' (by simp [hc]) hne with ⟨hac, hl⟩ | ⟨hac, w', hl⟩
  · have hstep : Operation.step τ (.moveObject a c y) = .error .freed := by
      rw [Operation.step, hl]
      rfl
    simp [hstep, hac]
  have hleft := left_eq_iff ha hc
  have hself : a ≠ c := by
    rintro rfl
    exact hac ⟨rfl, List.prefix_rfl⟩
  have hstep : Operation.step τ (.moveObject a c y) =
      .ok (((τ.put a .empty).put c (.value y fun _ => .empty)).put a w') := by
    rw [Operation.step, hl]
    rfl
  have hl' : Operation.left τ a c = .ok w' := by
    rw [← hl, Operation.leftValue, look_eq_ok hc]
    cases w with
    | empty => exact absurd rfl hw
    | value x members => exact (if_neg hself).symm
  rw [hl'] at hleft
  rw [hstep, Except.ok.injEq]
  by_cases hca : Leads c a
  · obtain ⟨f, δ, rfl⟩ := hca.exists_cons hself.symm
    have hfind := Variables.find_put_append (u := .value y fun _ => .empty) hc (f :: δ)
    rw [Variables.put_append_put]
    cases δ with
    | nil =>
      have hempty : (τ.put c (.value y fun _ => .empty)).find (c.1, c.2 ++ [f]) = some .empty :=
        hfind
      have hiff : w' = w ↔ v = .empty := by
        simpa [hac, hca] using hleft
      rw [put_inj hempty, hiff]
      simp [Variables.find_put hempty, hac, hca]
    | cons g δ =>
      -- the target goes with the members of the source
      have hnone : (τ.put c (.value y fun _ => .empty)).find (c.1, c.2 ++ f :: g :: δ) = none :=
        hfind
      simp only [Variables.put_of_find_eq_none hnone, hnone]
      simp [hca]
  · have hww : w' = w := Except.ok.inj (hleft.mpr (.inr ⟨hac, hca⟩))
    have hfind : (τ.put c (.value y fun _ => .empty)).find a = some v :=
      (Variables.find_put_of_ne hca hac).trans ha
    rw [hww, Variables.put_comm τ hac hca, Variables.put_put]
    simp [Variables.find_put hfind, hac, hca]

/-- After every program, a copy leaves its target with what the source held if and only if the
target held nothing or neither of the two was part of the other one. A move takes what the source
held to the target if and only if neither was part of the other one or they were the same and held
nothing, and a move of the value if and only if neither was part of the other one or the target was
a member of the value that held nothing. -/
theorem assigns_iff (hm : run ops {} = .ok m) (hτ : values ops = .ok τ) (ha : τ.find a = some v)
    (hc : τ.find c = some w) :
    ((∃ m', Operation.apply m (.copyAssign a c) = .ok m' ∧ Holds m' (τ.put a w)) ↔
      v = .empty ∨ ¬ Leads a c ∧ ¬ Leads c a) ∧
    (w ≠ .empty →
      ((∃ m', Operation.apply m (.assignObject a c) = .ok m' ∧ Holds m' (τ.put a w)) ↔
        v = .empty ∨ ¬ Leads a c ∧ ¬ Leads c a)) ∧
    ((∃ m', Operation.apply m (.moveAssign a c) = .ok m' ∧
        Holds m' ((τ.put c .empty).put a w)) ∧ ((τ.put c .empty).put a w).find a = some w ↔
      a = c ∧ w = .empty ∨ ¬ Leads a c ∧ ¬ Leads c a) ∧
    (w ≠ .empty → ∀ y,
      ((∃ m', Operation.apply m (.moveObject a c y) = .ok m' ∧
          Holds m' ((τ.put c (.value y fun _ => .empty)).put a w)) ∧
          ((τ.put c (.value y fun _ => .empty)).put a w).find a = some w ↔
        ¬ Leads a c ∧ (¬ Leads c a ∨ v = .empty ∧ a.2.length = c.2.length + 1))) := by
  have h := holds_of_run hm hτ
  simp only [h.apply_iff]
  exact ⟨step_copyAssign_iff ha hc, step_assignObject_iff ha hc, step_moveAssign_iff ha hc,
    step_moveObject_iff ha hc⟩

/-- A range can be replaced by the parent of another one, but not by its own parent. -/
theorem assigns_iff_parent :
    ∃ m τ w, run selectionRanges {} = .ok m ∧ values selectionRanges = .ok τ ∧
      τ.find (0, [0]) = some w ∧
        (∃ m', Operation.apply m (.copyAssign (1, []) (0, [0])) = .ok m' ∧
          Holds m' (τ.put (1, []) w)) ∧
        ¬ ∃ m', Operation.apply m (.copyAssign (0, []) (0, [0])) = .ok m' ∧
          Holds m' (τ.put (0, []) w) := by
  have hvalues : values selectionRanges = .ok _ := rfl
  obtain ⟨m, hm⟩ := exists_run hvalues
  refine ⟨m, _, .value 2 fun _ => .empty, hm, hvalues, rfl, ?_, ?_⟩
  · exact (assigns_iff (a := (1, [])) hm hvalues rfl rfl).1.mpr (.inr ⟨by decide, by decide⟩)
  · intro h
    rcases (assigns_iff (a := (0, [])) hm hvalues rfl rfl).1.mp h with h | h
    · cases h
    · exact h.1 ⟨rfl, by decide⟩

end Assignments

section Equality

variable {m : Objects k α} {τ : Variables (Fin k) α} {a c : Path k} {v w : Contents (Fin k) α}
  {ops : List (Operation k α)}

/-- `operator==` compares what the places hold, where the values are compared. -/
theorem equalWith_spec (equal : ℕ → ℕ → Except MemoryFault Bool) {b d : Place (Fin k)}
    {t u : Contents (Fin k) (ℕ × α)} (hb : m.accessible b) (hd : m.accessible d)
    (ht : m.Represents (m.pointer b) t) (hu : m.Represents (m.pointer d) u)
    (hequal : ∀ p q, m.Represents (some p) t → m.Represents (some q) u →
      ∃ r, equal p q = .ok r ∧ (r = true ↔ t.map Prod.snd = u.map Prod.snd)) :
    ∃ r, equalWith equal m b d = .ok r ∧ (r = true ↔ t.map Prod.snd = u.map Prod.snd) := by
  rw [equalWith, Memory.load_eq hb, Memory.load_eq hd]
  cases hp : m.pointer b with
  | none =>
    have htempty := ht.eq_none_iff.mp hp
    subst htempty
    cases hq : m.pointer d with
    | none =>
      have huempty := hu.eq_none_iff.mp hq
      subst huempty
      exact ⟨true, rfl, by simp⟩
    | some q =>
      rw [hq] at hu
      obtain ⟨y, members, rfl, -⟩ := hu.of_some
      exact ⟨false, rfl, by simp⟩
  | some p =>
    rw [hp] at ht
    cases hq : m.pointer d with
    | none =>
      have huempty := hu.eq_none_iff.mp hq
      subst huempty
      obtain ⟨x, members, rfl, -⟩ := ht.of_some
      exact ⟨false, rfl, by simp⟩
    | some q =>
      rw [hq] at hu
      exact hequal p q ht hu

variable [DecidableEq α]

theorem equal_spec {n p q : ℕ} {t u : Contents (Fin k) (ℕ × α)} (ht : m.Represents (some p) t)
    (hu : m.Represents (some q) u) (hs : t.Separated) (hn : t.addresses.card ≤ n) :
    ∃ r, equal m n p q = .ok r ∧ (r = true ↔ t.map Prod.snd = u.map Prod.snd) := by
  induction n generalizing p q t u with
  | zero =>
    exact absurd ht.card_pos (by omega)
  | succ n ih =>
    obtain ⟨x, ms, rfl, hx, hms⟩ := ht.of_some
    obtain ⟨y, ms', rfl, hy, hms'⟩ := hu.of_some
    have hreadx : m.read p = .ok x := by rw [Memory.read, hx]
    have hready : m.read q = .ok y := by rw [Memory.read, hy]
    have hmembers : ∀ f ∈ List.finRange k,
        ∃ r, equalWith (equal m n) m (.member p f) (.member q f) = .ok r ∧
          (r = true ↔ (ms f).map Prod.snd = (ms' f).map Prod.snd) := by
      intro f _
      refine equalWith_spec (equal m n) (ht.member_accessible f) (hu.member_accessible f) (hms f)
        (hms' f) fun p' q' hp' hq' => ?_
      exact ih hp' hq' (hs.1 f) (hs.card_le hn f)
    obtain ⟨r, hr, hiff⟩ := Except.allM_eq_ok hmembers
    rw [equal, hreadx, hready]
    change ∃ r, (if x = y then _ else _) = _ ∧ _
    by_cases hxy : x = y
    · refine ⟨r, (if_pos hxy).trans hr, ?_⟩
      rw [hiff]
      simp only [Contents.map_value, Contents.value.injEq, hxy, true_and]
      constructor
      · intro hall
        funext f
        exact hall f (List.mem_finRange f)
      · intro hall f _
        exact congrFun hall f
    · refine ⟨false, if_neg hxy, ?_⟩
      simp [hxy]

/-- After every program `operator==` ends for every two places, and it is true if and only if they
hold the same values. -/
theorem equals_iff (hm : run ops {} = .ok m) (hτ : values ops = .ok τ) (ha : τ.find a = some v)
    (hc : τ.find c = some w) :
    ∃ b d r, m.place a = .ok b ∧ m.place c = .ok d ∧ equals m b d = .ok r ∧
      (r = true ↔ v = w) := by
  obtain ⟨σ, h, rfl⟩ := holds_of_run hm hτ
  rw [Variables.find_map, Option.map_eq_some_iff] at ha hc
  obtain ⟨t, ht, rfl⟩ := ha
  obtain ⟨u, hu, rfl⟩ := hc
  obtain ⟨b, hb, hrb⟩ := h.exists_place ht
  obtain ⟨d, hd, hrd⟩ := h.exists_place hu
  obtain ⟨r, hr, hiff⟩ := equalWith_spec (equal m m.fresh) hrb.accessible hrd.accessible
    hrb.represents hrd.represents fun p q hp hq =>
      equal_spec hp hq hrb.separated (h.card_le ht)
  exact ⟨b, d, r, hb, hd, hr, hiff⟩

theorem equals_iff_parent :
    ∃ m b d, run selectionRanges {} = .ok m ∧ m.place (0, []) = .ok b ∧
      m.place (1, []) = .ok d ∧ equals m b d = .ok false := by
  have hvalues : values selectionRanges = .ok _ := rfl
  obtain ⟨m, hm⟩ := exists_run hvalues
  obtain ⟨b, d, r, hb, hd, hr, hiff⟩ :=
    equals_iff (a := (0, [])) (c := (1, [])) hm hvalues rfl rfl
  refine ⟨m, b, d, hm, hb, hd, ?_⟩
  cases r with
  | false => exact hr
  | true =>
    obtain ⟨hrange, -⟩ := Contents.value.inj (hiff.mp rfl)
    exact absurd hrange (by decide)

end Equality

end Langsvr.RecursiveOptional
