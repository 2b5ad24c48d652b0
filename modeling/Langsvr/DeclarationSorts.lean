import Langsvr.AcceptedModels

/-!
# The sorts of the declarations

The two sorts keep every declaration, and the bounds on their loops are never reached, so
the resolver of the model stops only where the source panics.
-/

namespace Langsvr

namespace Protocol.TypeImpl

theorem sizeAll_append (ts ts' : List TypeImpl) :
    sizeAll (ts ++ ts') = sizeAll ts + sizeAll ts' := by
  induction ts with
  | nil => simp [sizeAll]
  | cons t ts ih =>
    rw [List.cons_append, sizeAll, sizeAll, ih, Nat.add_assoc]

theorem sizeAll_reverse (ts : List TypeImpl) : sizeAll ts.reverse = sizeAll ts := by
  induction ts with
  | nil => rfl
  | cons t ts ih =>
    rw [List.reverse_cons, sizeAll_append, ih, sizeAll, sizeAll, sizeAll]
    omega

theorem sizeAll_subTypes (t : TypeImpl) : sizeAll t.subTypes + 1 = t.size := by
  cases t with
  | array element => simp [subTypes, size, sizeAll]
  | map key value => simp [subTypes, size, sizeAll]
  | _ => rfl

theorem recursiveTypes_cons {n : ℕ} {t : TypeImpl} (ht : t ≠ .nil) (stack types : List TypeImpl) :
    recursiveTypes (n + 1) (t :: stack) types =
      recursiveTypes n (t.subTypes.reverse ++ stack) (types ++ [t]) := by
  cases t with
  | nil => exact absurd rfl ht
  | _ => rfl

/-- The loop lists as many types as there are on its stack, and has fuel for them. -/
theorem recursiveTypes_spec {n : ℕ} {stack types : List TypeImpl} (hn : sizeAll stack ≤ n) :
    recursiveTypes n stack types ≠ .error .outOfFuel ∧
      ∀ out, recursiveTypes n stack types = .ok out →
        out.length = types.length + sizeAll stack := by
  induction n generalizing stack types with
  | zero =>
    cases stack with
    | nil => simp [recursiveTypes, sizeAll]
    | cons t stack =>
      have ht := sizeAll_subTypes t
      rw [sizeAll] at hn
      omega
  | succ n ih =>
    cases stack with
    | nil => simp [recursiveTypes, sizeAll]
    | cons t stack =>
      have ht := sizeAll_subTypes t
      have hpush : sizeAll (t.subTypes.reverse ++ stack) + 1 = sizeAll (t :: stack) := by
        rw [sizeAll_append, sizeAll_reverse, sizeAll]
        omega
      by_cases hnil : t = .nil
      · rw [hnil]
        simp [recursiveTypes]
      · rw [recursiveTypes_cons hnil]
        obtain ⟨hfuel, hlength⟩ := @ih (t.subTypes.reverse ++ stack) (types ++ [t]) (by omega)
        refine ⟨hfuel, ?_⟩
        intro out hout
        rw [hlength out hout, List.length_append, List.length_singleton]
        omega

theorem recursiveTypesOf_spec (t : TypeImpl) : t.recursiveTypesOf ≠ .error .outOfFuel ∧
    ∀ out, t.recursiveTypesOf = .ok out → out.length = t.size := by
  have hsize : sizeAll [t] = t.size := by simp [sizeAll]
  obtain ⟨hfuel, hlength⟩ := @recursiveTypes_spec t.size [t] [] (Nat.le_of_eq hsize)
  refine ⟨hfuel, ?_⟩
  intro out hout
  rw [hlength out hout, hsize, List.length_nil, Nat.zero_add]

end Protocol.TypeImpl

namespace Resolver

section Sorts

theorem mem_of_mem_dependencies {α : Type} {name : α → String} {decls : List α}
    {types : List Protocol.TypeImpl} {d : α} (h : d ∈ dependencies name decls types) :
    d ∈ decls := by
  obtain ⟨t, -, ht⟩ := List.mem_filterMap.mp h
  cases t with
  | reference n => exact List.mem_reverse.mp (List.mem_of_find?_eq_some ht)
  | _ => cases ht

theorem length_dependencies_le {α : Type} (name : α → String) (decls : List α)
    (types : List Protocol.TypeImpl) : (dependencies name decls types).length ≤ types.length :=
  List.length_filterMap_le _ _

variable {aliases sorted : List Protocol.TypeAlias} {structures : List Protocol.Structure}

theorem aliasDependencies_eq_ok {a : Protocol.TypeAlias} {ds : List Protocol.TypeAlias}
    (h : aliasDependencies aliases a = .ok ds) :
    (∀ d ∈ ds, d ∈ aliases) ∧ ds.length ≤ a.type.size := by
  obtain ⟨types, ht, h⟩ := Except.bind_eq_ok.mp h
  cases h
  have hlen := (Protocol.TypeImpl.recursiveTypesOf_spec a.type).2 types ht
  refine ⟨fun d hd => mem_of_mem_dependencies hd, ?_⟩
  rw [← hlen]
  exact length_dependencies_le _ _ _

theorem structureDependencies_eq_ok {s : Protocol.Structure} {ds : List Protocol.Structure}
    (h : structureDependencies structures s = .ok ds) : ∀ d ∈ ds, d ∈ structures := by
  obtain ⟨types, -, h⟩ := Except.bind_eq_ok.mp h
  cases h
  exact fun d hd => mem_of_mem_dependencies hd

/-- The sort of the aliases returns every alias once. -/
theorem sortTypeAliases_perm (h : sortTypeAliases aliases = .ok sorted)
    (hnodup : (aliases.map Protocol.TypeAlias.name).Nodup) : sorted.Perm aliases := by
  obtain ⟨marks, hd, h⟩ := Except.bind_eq_ok.mp h
  cases h
  obtain ⟨⟨l, hl⟩, hseen⟩ := (Traversal.drains_of_drain hd).adds
    (fun x ys _ hys => (aliasDependencies_eq_ok hys).1) (fun x hx => List.mem_reverse.mp hx)
  exact hl.perm (fun x hx => hseen x (List.mem_reverse.mpr hx)) hnodup

theorem aliasDependencies_fuel (aliases : List Protocol.TypeAlias) (a : Protocol.TypeAlias) :
    aliasDependencies aliases a ≠ .error .outOfFuel :=
  bind_fuel (Protocol.TypeImpl.recursiveTypesOf_spec a.type).1 fun _ _ => ok_fuel _

theorem unseen_size (aliases : List Protocol.TypeAlias) :
    Traversal.unseen Protocol.TypeAlias.name (fun a => a.type.size) [] aliases =
      Protocol.TypeImpl.sizeAll (aliases.map Protocol.TypeAlias.type) := by
  induction aliases with
  | nil => rfl
  | cons a as ih => rw [Traversal.unseen_nil_cons, ih, List.map_cons, Protocol.TypeImpl.sizeAll]

theorem sortTypeAliases_fuel (aliases : List Protocol.TypeAlias) :
    sortTypeAliases aliases ≠ .error .outOfFuel := by
  refine bind_fuel ?_ fun marks _ => ok_fuel _
  refine Traversal.drain_fuel (fun a => a.type.size)
    (fun x _ ys hys => (aliasDependencies_eq_ok hys).1)
    (fun a _ => aliasDependencies_fuel aliases a)
    (fun x _ ys hys => (aliasDependencies_eq_ok hys).2) (fun x hx => List.mem_reverse.mp hx) ?_
  apply Nat.le_of_eq
  rw [List.length_reverse, unseen_size]

theorem sortStructures_perm {sorted : List Protocol.Structure}
    (h : sortStructures structures = .ok sorted)
    (hnodup : (structures.map Protocol.Structure.name).Nodup) : sorted.Perm structures := by
  obtain ⟨marks, hd, h⟩ := Except.bind_eq_ok.mp h
  cases h
  obtain ⟨⟨l, hl⟩, hseen⟩ := Traversal.foldlM_adds (P := (· ∈ structures))
    (fun x hx m m' hrun => Traversal.visit_adds
      (fun x ys _ hys => structureDependencies_eq_ok hys) hx hrun) hd
  exact hl.perm hseen hnodup

theorem structureDependencies_fuel (structures : List Protocol.Structure) (s : Protocol.Structure) :
    structureDependencies structures s ≠ .error .outOfFuel := by
  refine bind_fuel (mapM_fuel fun p _ => ?_) fun types _ => ok_fuel _
  exact (Protocol.TypeImpl.recursiveTypesOf_spec p.type).1

/-- The fuel of a visit is more than the number of structures, so it suffices. -/
theorem visitStructure_fuel {structures : List Protocol.Structure} {s : Protocol.Structure}
    (hs : s ∈ structures) (m : Traversal.Marks Protocol.Structure String) :
    Traversal.visit Protocol.Structure.name (structureDependencies structures)
      (structures.length + 1) s m ≠ .error .outOfFuel := by
  apply Traversal.visit_fuel (fun s _ ds hds => structureDependencies_eq_ok hds)
    (fun s _ => structureDependencies_fuel structures s) hs
  have hle : Traversal.unseen Protocol.Structure.name (fun _ => 1) m.seen structures ≤
      Traversal.unseen Protocol.Structure.name (fun _ => 1) [] structures :=
    Traversal.unseen_mono _ (fun k hk => by cases hk) structures
  rw [Traversal.unseen_one] at hle
  omega

theorem sortStructures_fuel (structures : List Protocol.Structure) :
    sortStructures structures ≠ .error .outOfFuel := by
  have hclosed : ∀ s ∈ structures, ∀ ds, structureDependencies structures s = .ok ds →
      ∀ d ∈ ds, d ∈ structures := fun s _ ds hds => structureDependencies_eq_ok hds
  refine bind_fuel ?_ fun marks _ => ok_fuel _
  have hunseen : ∀ k ∈ ([] : List String),
      k ∈ ({} : Traversal.Marks Protocol.Structure String).seen := by
    intro k hk
    cases hk
  refine Traversal.foldlM_fuel (fun s hs m m' hrun k hk => ?_)
    (fun s hs m _ => visitStructure_fuel hs m) hunseen
  obtain ⟨⟨l, hl⟩, -⟩ := Traversal.visit_adds (fun x _ hx hys => hclosed x hx _ hys) hs hrun
  exact hl.seen_mono hk

end Sorts

section Fuel

variable {α β : Type} {U : Unicode}

/-- A function of the resolver stops only where the source panics. -/
def Fueled (x : M α) : Prop := ∀ st, x st ≠ .error .outOfFuel

theorem Fueled.pure (a : α) : Fueled (pure a : M α) := fun _ => ok_fuel _

theorem Fueled.bind {x : M α} {f : α → M β} (hx : Fueled x) (hf : ∀ a, Fueled (f a)) :
    Fueled (x >>= f) := by
  intro st
  change M.bind x f st ≠ _
  unfold M.bind
  cases hrun : x st with
  | error e =>
    intro h
    cases h
    exact hx st hrun
  | ok r =>
    obtain ⟨a, st'⟩ := r
    exact hf a st'

theorem fueled_get : Fueled get := fun _ => ok_fuel _

theorem fueled_modify (f : State → State) : Fueled (modify f) := fun _ => ok_fuel _

theorem fueled_panic : Fueled (panic : M α) := by
  intro st h
  cases h

theorem fueled_error (message : String) : Fueled (error message) := fueled_modify _

theorem fueled_inScope {message : String} {x : M α} (hx : Fueled x) : Fueled (inScope message x) :=
  .bind (fueled_modify _) fun _ => .bind hx fun _ => .bind (fueled_modify _) fun _ => .pure _

theorem fueled_transform {f : α → M β} (hf : ∀ x, Fueled (f x)) (xs : List α) :
    Fueled (transform f xs) := by
  induction xs with
  | nil => exact .pure _
  | cons x xs ih => exact .bind (hf x) fun _ => .bind ih fun _ => .pure _

theorem fueled_newReferenceType (name : String) : Fueled (newReferenceType name) :=
  .bind (fueled_modify _) fun _ => .pure _

theorem fueled_invalidType (text : String) : Fueled (invalidType text) :=
  .bind (fueled_error _) fun _ => .pure _

mutual

theorem fueled_typeImpl (t : MetaModel.TypeImpl) : Fueled (typeImpl U t) := by
  cases t with
  | nil | stringLiteral value =>
    rw [typeImpl]
    exact .pure _
  | base name =>
    rw [typeImpl]
    cases baseType name with
    | some t => exact .pure _
    | none => exact fueled_invalidType _
  | integerLiteral value | booleanLiteral value =>
    rw [typeImpl]
    exact fueled_invalidType _
  | reference name =>
    rw [typeImpl]
    exact fueled_newReferenceType _
  | array element =>
    rw [typeImpl]
    exact .bind (fueled_typeImpl element) fun _ => .pure _
  | and items | or items | tuple items =>
    rw [typeImpl]
    exact .bind (fueled_typeImpls items) fun _ => .pure _
  | map key value =>
    rw [typeImpl]
    exact .bind (fueled_typeImpl key) fun _ => .bind (fueled_typeImpl value) fun _ => .pure _
  | structureLiteral ps =>
    rw [typeImpl]
    refine .bind fueled_get fun st => ?_
    cases st.newStructureLiteralType with
    | none => exact fueled_panic
    | some scope =>
      exact .bind (fueled_propertyImpls ps) fun _ => .bind (fueled_modify _) fun _ =>
        fueled_newReferenceType _

theorem fueled_typeImpls (ts : List MetaModel.TypeImpl) : Fueled (typeImpls U ts) := by
  cases ts with
  | nil =>
    rw [typeImpls]
    exact .pure _
  | cons t ts =>
    rw [typeImpls]
    exact .bind (fueled_typeImpl t) fun _ => .bind (fueled_typeImpls ts) fun _ => .pure _

theorem fueled_propertyImpl (p : MetaModel.Property) : Fueled (propertyImpl U p) := by
  obtain ⟨name, optional, type⟩ := p
  rw [propertyImpl]
  exact fueled_inScope (.bind (fueled_typeImpl type) fun _ => .pure _)

theorem fueled_propertyImpls (ps : List MetaModel.Property) : Fueled (propertyImpls U ps) := by
  cases ps with
  | nil =>
    rw [propertyImpls]
    exact .pure _
  | cons p ps =>
    rw [propertyImpls]
    exact .bind (fueled_propertyImpl p) fun _ => .bind (fueled_propertyImpls ps) fun _ => .pure _

end

theorem fueled_structureProperties (name : String) (ps : List MetaModel.Property)
    (out : String × List Protocol.Property) : Fueled (structureProperties U name out ps) := by
  induction ps generalizing out with
  | nil => exact .pure _
  | cons p ps ih =>
    refine .bind (.bind (fueled_modify _) fun _ => .bind (fueled_propertyImpl p) fun p' => ?_) ih
    cases p'.type with
    | stringLiteral value =>
      simp only
      split
      · exact .pure _
      · exact .pure _
    | _ => exact .pure _

theorem fueled_structureImpl (s : MetaModel.Structure) : Fueled (structureImpl U s) := by
  refine fueled_inScope (.bind (fueled_typeImpls _) fun _ => .bind (fueled_typeImpls _) fun _ => ?_)
  refine .bind fueled_get fun _ => .bind (fueled_modify _) fun _ => ?_
  refine .bind (fueled_structureProperties _ _ _) fun _ => .bind fueled_get fun _ => ?_
  exact .bind (fueled_modify _) fun _ => .pure _

theorem fueled_enumeration (e : MetaModel.Enumeration) : Fueled (enumeration U e) := by
  refine fueled_inScope (.bind (fueled_typeImpl _) fun _ => .bind ?_ fun _ => .pure _)
  exact fueled_transform (fun _ => fueled_inScope (.pure _)) _

theorem fueled_typeAlias (a : MetaModel.TypeAlias) : Fueled (typeAlias U a) :=
  fueled_inScope (.bind (fueled_typeImpl _) fun _ => .pure _)

theorem fueled_messageDirection (direction : String) : Fueled (messageDirection direction) := by
  unfold messageDirection
  split
  · exact .pure _
  · exact .pure _
  · exact .pure _
  · exact .bind (fueled_error _) fun _ => .pure _

theorem fueled_notification (n : MetaModel.Notification) : Fueled (notification U n) :=
  fueled_inScope (.bind (fueled_messageDirection _) fun _ => .bind (fueled_typeImpls _) fun _ =>
    .bind (fueled_typeImpl _) fun _ => .pure _)

theorem fueled_request (r : MetaModel.Request) : Fueled (request U r) :=
  fueled_inScope (.bind (fueled_typeImpl _) fun _ => .bind (fueled_messageDirection _) fun _ =>
    .bind (fueled_typeImpls _) fun _ => .bind (fueled_typeImpl _) fun _ =>
    .bind (fueled_typeImpl _) fun _ => .bind (fueled_typeImpl _) fun _ => .pure _)

theorem fueled_registerAll (ds typeDecls : List (String × Protocol.TypeDecl)) :
    Fueled (registerAll typeDecls ds) := by
  induction ds generalizing typeDecls with
  | nil => exact .pure _
  | cons d ds ih =>
    refine .bind ?_ ih
    unfold register
    cases lookup d.1 typeDecls with
    | some existing => exact .bind (fueled_error _) fun _ => .pure _
    | none => exact .pure _

theorem fueled_resolveTypes (p : Protocol) : Fueled (resolveTypes p) := by
  refine .bind (fueled_registerAll _ _) fun typeDecls => .bind fueled_get fun st => ?_
  apply fueled_transform
  intro name
  unfold resolveReference
  cases lookup name typeDecls with
  | some d => exact .pure _
  | none => exact .bind (fueled_error _) fun _ => .pure _

theorem fueled_lift {x : Except Stop α} (hx : x ≠ .error .outOfFuel) : Fueled (lift x) := by
  intro st
  cases x with
  | error e =>
    intro h
    cases h
    exact hx rfl
  | ok a => exact ok_fuel _

theorem fueled_model (m : MetaModel) : Fueled (model U m) := by
  refine fueled_inScope (.bind (fueled_transform fueled_enumeration _) fun _ => ?_)
  refine .bind (fueled_transform fueled_notification _) fun _ => ?_
  refine .bind (fueled_transform fueled_request _) fun _ => ?_
  refine .bind (fueled_transform fueled_structureImpl _) fun _ => ?_
  refine .bind (fueled_transform fueled_typeAlias _) fun _ => ?_
  refine .bind (fueled_resolveTypes _) fun _ => ?_
  refine .bind (fueled_lift (sortTypeAliases_fuel _)) fun _ => ?_
  exact .bind (fueled_lift (sortStructures_fuel _)) fun _ => .pure _

/-- The resolver always has enough fuel: it returns a protocol or an error, or it panics. -/
theorem resolve_fuel (U : Unicode) (m : MetaModel) : resolve U m ≠ .error .outOfFuel := by
  unfold resolve
  cases hrun : model U m {} with
  | error e =>
    intro h
    cases h
    exact fueled_model m {} hrun
  | ok r =>
    obtain ⟨p, st⟩ := r
    cases herr : st.err with
    | some text =>
      simp only [herr]
      exact ok_fuel _
    | none =>
      simp only [herr]
      exact ok_fuel _

end Fuel

end Resolver

end Langsvr
