import Langsvr.DeclarationSorts

/-!
# References in types

The references in a type, at any depth, and the types without a null type in them. The loop
over the types in a type finds all its references, and it panics at a null type.
-/

namespace Langsvr.Protocol.TypeImpl

mutual

/-- The names of the references in a type, in the order in which the loop comes to them: of
several parts the last one comes first. -/
def references : TypeImpl → List String
  | .and items | .or items | .tuple items => referencesAll items
  | .array element => element.references
  | .map key value => value.references ++ key.references
  | .reference name => [name]
  | _ => []

def referencesAll : List TypeImpl → List String
  | [] => []
  | t :: ts => referencesAll ts ++ t.references

end

mutual

def Complete : TypeImpl → Prop
  | .nil => False
  | .and items | .or items | .tuple items => CompleteAll items
  | .array element => element.Complete
  | .map key value => key.Complete ∧ value.Complete
  | _ => True

def CompleteAll : List TypeImpl → Prop
  | [] => True
  | t :: ts => t.Complete ∧ CompleteAll ts

end

def referenceName : TypeImpl → Option String
  | .reference name => some name
  | _ => none

section Loop

variable {t : TypeImpl} {ts stack types : List TypeImpl} {n : ℕ}

theorem referencesAll_eq (ts : List TypeImpl) :
    referencesAll ts = ts.reverse.flatMap references := by
  induction ts with
  | nil => rfl
  | cons t ts ih =>
    rw [referencesAll, ih, List.reverse_cons, List.flatMap_append, List.flatMap_singleton]

theorem completeAll_iff : CompleteAll ts ↔ ∀ t ∈ ts, t.Complete := by
  induction ts with
  | nil => simp [CompleteAll]
  | cons t ts ih => simp [CompleteAll, ih]

theorem references_eq (t : TypeImpl) :
    t.references = t.referenceName.toList ++ t.subTypes.reverse.flatMap references := by
  cases t with
  | and items | or items | tuple items =>
    rw [references, referencesAll_eq]
    rfl
  | array element => simp [references, referenceName, subTypes]
  | map key value => simp [references, referenceName, subTypes]
  | _ => rfl

theorem complete_iff : t.Complete ↔ t ≠ .nil ∧ ∀ s ∈ t.subTypes, s.Complete := by
  cases t with
  | and items | or items | tuple items => simp [Complete, completeAll_iff, subTypes]
  | array element => simp [Complete, subTypes]
  | map key value => simp [Complete, subTypes]
  | _ => simp [Complete, subTypes]

/-- The loop finds the references in the types on the stack. -/
theorem recursiveTypes_complete (hn : sizeAll stack ≤ n) (hs : ∀ t ∈ stack, t.Complete) :
    ∃ out, recursiveTypes n stack types = .ok out ∧ out.filterMap referenceName =
      types.filterMap referenceName ++ stack.flatMap references := by
  induction n generalizing stack types with
  | zero =>
    cases stack with
    | nil => exact ⟨types, rfl, by simp⟩
    | cons t stack =>
      have ht := sizeAll_subTypes t
      rw [sizeAll] at hn
      omega
  | succ n ih =>
    cases stack with
    | nil => exact ⟨types, rfl, by simp⟩
    | cons t stack =>
      obtain ⟨hnil, hparts⟩ := complete_iff.mp (hs t (List.mem_cons_self ..))
      have ht := sizeAll_subTypes t
      have hpush : sizeAll (t.subTypes.reverse ++ stack) + 1 = sizeAll (t :: stack) := by
        rw [sizeAll_append, sizeAll_reverse, sizeAll]
        omega
      have hall : ∀ s ∈ t.subTypes.reverse ++ stack, s.Complete := by
        intro s hs'
        rcases List.mem_append.mp hs' with hs' | hs'
        · exact hparts s (List.mem_reverse.mp hs')
        · exact hs s (List.mem_cons_of_mem _ hs')
      obtain ⟨out, hrun, hout⟩ := @ih (t.subTypes.reverse ++ stack) (types ++ [t]) (by omega) hall
      refine ⟨out, by rw [recursiveTypes_cons hnil, hrun], ?_⟩
      rw [hout, List.flatMap_cons, references_eq t, List.filterMap_append, List.flatMap_append,
        List.append_assoc, List.append_assoc]
      cases hname : t.referenceName with
      | none => simp [hname]
      | some name => simp [hname]

/-- The loop panics if there is a null type on the stack or in a type on the stack. -/
theorem recursiveTypes_incomplete (hn : sizeAll stack ≤ n) (hs : ¬ ∀ t ∈ stack, t.Complete) :
    recursiveTypes n stack types = .error .panic := by
  induction n generalizing stack types with
  | zero =>
    cases stack with
    | nil => simp at hs
    | cons t stack =>
      have ht := sizeAll_subTypes t
      rw [sizeAll] at hn
      omega
  | succ n ih =>
    cases stack with
    | nil => simp at hs
    | cons t stack =>
      by_cases hnil : t = .nil
      · rw [hnil]
        rfl
      · have ht := sizeAll_subTypes t
        have hpush : sizeAll (t.subTypes.reverse ++ stack) + 1 = sizeAll (t :: stack) := by
          rw [sizeAll_append, sizeAll_reverse, sizeAll]
          omega
        rw [recursiveTypes_cons hnil]
        refine ih (by omega) fun hall => hs fun s hs' => ?_
        rcases List.mem_cons.mp hs' with rfl | hs'
        · refine complete_iff.mpr ⟨hnil, fun u hu => ?_⟩
          exact hall u (List.mem_append_left _ (List.mem_reverse.mpr hu))
        · exact hall s (List.mem_append_right _ hs')

theorem recursiveTypesOf_complete (ht : t.Complete) : ∃ types, t.recursiveTypesOf = .ok types ∧
    types.filterMap referenceName = t.references := by
  have hsize : sizeAll [t] ≤ t.size := by simp [sizeAll]
  obtain ⟨types, hrun, htypes⟩ := @recursiveTypes_complete _ [] _ hsize
    (List.forall_mem_singleton.mpr ht)
  exact ⟨types, hrun, by simpa using htypes⟩

theorem recursiveTypesOf_incomplete (ht : ¬ t.Complete) : t.recursiveTypesOf = .error .panic := by
  have hsize : sizeAll [t] ≤ t.size := by simp [sizeAll]
  apply recursiveTypes_incomplete hsize
  intro h
  exact ht (h t (List.mem_singleton_self t))

end Loop

end Langsvr.Protocol.TypeImpl

namespace Langsvr.Resolver

section Dependencies

variable {α : Type} {name : α → String} {decls : List α} {d : α}

def denoted (name : α → String) (decls : List α) (names : List String) : List α :=
  names.filterMap fun n => decls.reverse.find? fun d => name d = n

theorem dependencies_eq (types : List Protocol.TypeImpl) : dependencies name decls types =
    denoted name decls (types.filterMap Protocol.TypeImpl.referenceName) := by
  rw [dependencies, denoted, List.filterMap_filterMap]
  congr 1
  funext t
  cases t with
  | reference n => rfl
  | _ => rfl

/-- The declaration is the one that its name denotes. -/
def Denoted (name : α → String) (decls : List α) (d : α) : Prop :=
  decls.reverse.find? (fun e => name e = name d) = some d

theorem Denoted.mem (h : Denoted name decls d) : d ∈ decls :=
  List.mem_reverse.mp (List.mem_of_find?_eq_some h)

theorem Denoted.inj {e : α} (hd : Denoted name decls d) (he : Denoted name decls e)
    (h : name d = name e) : d = e := by
  rw [Denoted, h] at hd
  exact Option.some.inj (hd.symm.trans he)

theorem find?_reverse_eq_some (hd : d ∈ decls) : ∃ e,
    decls.reverse.find? (fun e => name e = name d) = some e ∧ name e = name d := by
  cases hfind : decls.reverse.find? fun e => name e = name d with
  | none =>
    have hnone := List.find?_eq_none.mp hfind d (List.mem_reverse.mpr hd)
    simp at hnone
  | some e =>
    have hname := List.find?_some hfind
    exact ⟨e, rfl, by simpa using hname⟩

/-- Where names are distinct there is one declaration of a name. -/
theorem find?_reverse (hnodup : (decls.map name).Nodup) {n : String} :
    decls.reverse.find? (fun d => name d = n) = some d ↔ d ∈ decls ∧ name d = n := by
  constructor
  · intro h
    have hname := List.find?_some h
    exact ⟨List.mem_reverse.mp (List.mem_of_find?_eq_some h), by simpa using hname⟩
  · intro h
    obtain ⟨hd, rfl⟩ := h
    obtain ⟨e, hfind, hname⟩ := find?_reverse_eq_some hd
    have he := List.mem_reverse.mp (List.mem_of_find?_eq_some hfind)
    rw [hfind, List.inj_on_of_nodup_map hnodup he hd hname]

theorem denoted_iff (hnodup : (decls.map name).Nodup) : Denoted name decls d ↔ d ∈ decls :=
  ⟨Denoted.mem, fun hd => (find?_reverse hnodup).mpr ⟨hd, rfl⟩⟩

theorem mem_denoted (hnodup : (decls.map name).Nodup) {names : List String} :
    d ∈ denoted name decls names ↔ d ∈ decls ∧ name d ∈ names := by
  simp only [denoted, List.mem_filterMap, find?_reverse hnodup]
  constructor
  · intro h
    obtain ⟨n, hn, hd, rfl⟩ := h
    exact ⟨hd, hn⟩
  · intro h
    exact ⟨name d, h.2, h.1, rfl⟩

theorem denoted_of_mem {names : List String} (h : d ∈ denoted name decls names) :
    Denoted name decls d := by
  obtain ⟨n, -, hfind⟩ := List.mem_filterMap.mp h
  have hname : name d = n := by simpa using List.find?_some hfind
  rw [Denoted, hname]
  exact hfind

theorem map_name_denoted (names : List String) :
    (denoted name decls names).map name = names.filter fun n => n ∈ decls.map name := by
  induction names with
  | nil => rfl
  | cons n names ih =>
    cases hfind : decls.reverse.find? fun d => name d = n with
    | none =>
      have hn : n ∉ decls.map name := by
        intro hmem
        obtain ⟨d, hd, hname⟩ := List.mem_map.mp hmem
        have hnone := List.find?_eq_none.mp hfind d (List.mem_reverse.mpr hd)
        simp [hname] at hnone
      rw [List.filter_cons_of_neg (by simpa using hn), ← ih]
      simp only [denoted, List.filterMap_cons, hfind]
    | some d =>
      have hname : name d = n := by simpa using List.find?_some hfind
      have hn : n ∈ decls.map name :=
        List.mem_map.mpr ⟨d, List.mem_reverse.mp (List.mem_of_find?_eq_some hfind), hname⟩
      rw [List.filter_cons_of_pos (by simpa using hn), ← ih]
      simp only [denoted, List.filterMap_cons, hfind, List.map_cons, hname]

theorem aliasDependencies_complete {aliases : List Protocol.TypeAlias} {a : Protocol.TypeAlias}
    (ha : a.type.Complete) : aliasDependencies aliases a =
      .ok (denoted Protocol.TypeAlias.name aliases a.type.references) := by
  obtain ⟨types, hrun, htypes⟩ := Protocol.TypeImpl.recursiveTypesOf_complete ha
  unfold aliasDependencies
  rw [hrun, ← htypes, ← dependencies_eq]
  rfl

theorem aliasDependencies_incomplete {aliases : List Protocol.TypeAlias} {a : Protocol.TypeAlias}
    (ha : ¬ a.type.Complete) : aliasDependencies aliases a = .error .panic := by
  unfold aliasDependencies
  rw [Protocol.TypeImpl.recursiveTypesOf_incomplete ha]
  rfl

theorem aliasDependencies_ne_panic {aliases : List Protocol.TypeAlias} {a : Protocol.TypeAlias} :
    aliasDependencies aliases a ≠ .error .panic ↔ a.type.Complete := by
  constructor
  · intro h
    by_contra ha
    exact h (aliasDependencies_incomplete ha)
  · intro ha
    rw [aliasDependencies_complete ha]
    simp

end Dependencies

end Langsvr.Resolver

namespace Langsvr.Protocol.Structure

def Complete (s : Structure) : Prop := ∀ p ∈ s.properties, p.type.Complete

/-- The names of the references that the sort follows: the structures that are extended, then the
references in the types of the properties. -/
def references (s : Structure) : List String :=
  s.extendsTypes.filterMap TypeImpl.referenceName ++ s.properties.flatMap fun p => p.type.references

end Langsvr.Protocol.Structure

namespace Langsvr.Resolver

section StructureDependencies

variable {structures : List Protocol.Structure} {s : Protocol.Structure}

theorem propertyTypes_complete {ps : List Protocol.Property} (h : ∀ p ∈ ps, p.type.Complete) :
    ∃ types, ps.mapM (fun p => p.type.recursiveTypesOf) = .ok types ∧
      types.flatten.filterMap Protocol.TypeImpl.referenceName =
        ps.flatMap fun p => p.type.references := by
  induction ps with
  | nil => exact ⟨[], rfl, rfl⟩
  | cons p ps ih =>
    obtain ⟨ts, hp, hts⟩ := Protocol.TypeImpl.recursiveTypesOf_complete
      (h p (List.mem_cons_self ..))
    obtain ⟨types, hps, htypes⟩ := ih fun q hq => h q (List.mem_cons_of_mem _ hq)
    refine ⟨ts :: types, by rw [List.mapM_cons, hp, hps]; rfl, ?_⟩
    rw [List.flatten_cons, List.filterMap_append, hts, htypes, List.flatMap_cons]

theorem propertyTypes_incomplete {ps : List Protocol.Property}
    (h : ¬ ∀ p ∈ ps, p.type.Complete) :
    ps.mapM (fun p => p.type.recursiveTypesOf) = .error .panic := by
  induction ps with
  | nil => simp at h
  | cons p ps ih =>
    rw [List.mapM_cons]
    by_cases hp : p.type.Complete
    · obtain ⟨ts, hts, -⟩ := Protocol.TypeImpl.recursiveTypesOf_complete hp
      have hps : ¬ ∀ q ∈ ps, q.type.Complete := by
        intro hall
        exact h (List.forall_mem_cons.mpr ⟨hp, hall⟩)
      rw [hts, ih hps]
      rfl
    · rw [Protocol.TypeImpl.recursiveTypesOf_incomplete hp]
      rfl

theorem structureDependencies_complete (hs : s.Complete) : structureDependencies structures s =
    .ok (denoted Protocol.Structure.name structures s.references) := by
  obtain ⟨types, hrun, htypes⟩ := propertyTypes_complete hs
  unfold structureDependencies
  rw [hrun, Protocol.Structure.references, ← htypes, ← List.filterMap_append, ← dependencies_eq]
  rfl

theorem structureDependencies_incomplete (hs : ¬ s.Complete) :
    structureDependencies structures s = .error .panic := by
  unfold structureDependencies
  rw [propertyTypes_incomplete hs]
  rfl

theorem structureDependencies_ne_panic :
    structureDependencies structures s ≠ .error .panic ↔ s.Complete := by
  constructor
  · intro h
    by_contra hs
    exact h (structureDependencies_incomplete hs)
  · intro hs
    rw [structureDependencies_complete hs]
    simp

end StructureDependencies

end Langsvr.Resolver
