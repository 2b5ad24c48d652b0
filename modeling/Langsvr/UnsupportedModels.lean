import Langsvr.GeneratedMembers
import Langsvr.SortedDeclarations

/-!
# Metamodels that are not supported

For which metamodels the resolver returns. It panics at a structure literal that is not in a
property of a structure, and the sorts panic at a type that was not supported: an error has
been recorded then, but its type is null.
-/

namespace Langsvr

namespace MetaModel.TypeImpl

mutual

/-- The type is resolved to a type without null types in it. -/
def Supported : TypeImpl → Prop
  | .nil | .integerLiteral _ | .booleanLiteral _ => False
  | .base name => Resolver.baseType name ≠ none
  | .array element => element.Supported
  | .map key value => key.Supported ∧ value.Supported
  | .and items | .or items | .tuple items => SupportedAll items
  | .reference _ | .stringLiteral _ | .structureLiteral _ => True

def SupportedAll : List TypeImpl → Prop
  | [] => True
  | t :: ts => t.Supported ∧ SupportedAll ts

end

end MetaModel.TypeImpl

namespace Resolver

variable {U : Unicode} {α β : Type} {st : State}

section Types

theorem baseType_complete {name : String} {t : Protocol.TypeImpl} (h : baseType name = some t) :
    t.Complete := by
  unfold baseType at h
  split at h <;> cases h <;> trivial

mutual

theorem translate_complete_iff {scope : Option LiteralScope} {t : MetaModel.TypeImpl}
    (h : scope = none → t.literals = []) : (translate U scope t).Complete ↔ t.Supported := by
  cases t with
  | nil | integerLiteral value | booleanLiteral value | reference name | stringLiteral value =>
    simp [translate, Protocol.TypeImpl.Complete, MetaModel.TypeImpl.Supported]
  | base name =>
    rw [translate, MetaModel.TypeImpl.Supported]
    cases hb : baseType name with
    | none => simp [Protocol.TypeImpl.Complete]
    | some t => simpa using baseType_complete hb
  | array element =>
    rw [translate, Protocol.TypeImpl.Complete, MetaModel.TypeImpl.Supported]
    exact translate_complete_iff fun hs => by simpa [MetaModel.TypeImpl.literals] using h hs
  | map key value =>
    simp only [MetaModel.TypeImpl.literals, List.append_eq_nil_iff] at h
    rw [translate, Protocol.TypeImpl.Complete, MetaModel.TypeImpl.Supported,
      translate_complete_iff fun hs => (h hs).1, translate_complete_iff fun hs => (h hs).2]
  | and items | or items | tuple items =>
    rw [translate, Protocol.TypeImpl.Complete, MetaModel.TypeImpl.Supported]
    exact translateAll_complete_iff fun hs => by simpa [MetaModel.TypeImpl.literals] using h hs
  | structureLiteral ps =>
    cases scope with
    | none => simp [MetaModel.TypeImpl.literals] at h
    | some scope => simp [translate, Protocol.TypeImpl.Complete, MetaModel.TypeImpl.Supported]

theorem translateAll_complete_iff {scope : Option LiteralScope} {ts : List MetaModel.TypeImpl}
    (h : scope = none → MetaModel.TypeImpl.literalsAll ts = []) :
    Protocol.TypeImpl.CompleteAll (translateAll U scope ts) ↔
      MetaModel.TypeImpl.SupportedAll ts := by
  cases ts with
  | nil => simp [translateAll, Protocol.TypeImpl.CompleteAll, MetaModel.TypeImpl.SupportedAll]
  | cons t ts =>
    simp only [MetaModel.TypeImpl.literalsAll, List.append_eq_nil_iff] at h
    rw [translateAll, Protocol.TypeImpl.CompleteAll, MetaModel.TypeImpl.SupportedAll,
      translate_complete_iff fun hs => (h hs).1, translateAll_complete_iff fun hs => (h hs).2]

end

/-- A structure is complete if the types of its properties are supported. The properties that
become its kind are string literals, which are. -/
theorem translateStructure_complete_iff {s : MetaModel.Structure} :
    (translateStructure U s).Complete ↔ ∀ p ∈ s.properties, p.type.Supported := by
  have hproperty : ∀ p : MetaModel.Property,
      (translateProperty U (some (propertyScope U s p)) p).type.Complete ↔ p.type.Supported :=
    fun p => translate_complete_iff fun h => by cases h
  constructor
  · intro h p hp
    cases hk : p.literalKind with
    | some v =>
      rw [(literalKind_eq_some.mp hk).2]
      trivial
    | none =>
      have hmem : p ∈ s.ordinaryProperties := List.mem_filter.mpr ⟨hp, by rw [hk]; rfl⟩
      exact (hproperty p).mp (h _ (List.mem_map_of_mem hmem))
  · intro h q hq
    obtain ⟨p, hp, rfl⟩ := List.mem_map.mp hq
    exact (hproperty p).mpr (h p (List.mem_filter.mp hp).1)

end Types

section Rules

def Returns (x : M α) (st : State) : Prop := ∃ r, x st = .ok r

theorem returns_pure (a : α) : Returns (pure a) st := ⟨(a, st), rfl⟩

theorem returns_modify (f : State → State) : Returns (modify f) st := ⟨((), f st), rfl⟩

theorem returns_bind_iff {x : M α} {f : α → M β} {P Q : Prop} (hx : Returns x st ↔ P)
    (hf : ∀ a st', x st = .ok (a, st') → (Returns (f a) st' ↔ Q)) :
    Returns (x >>= f) st ↔ P ∧ Q := by
  rw [← hx]
  constructor
  · intro h
    obtain ⟨⟨b, st''⟩, hrun⟩ := h
    obtain ⟨a, st', ha, hb⟩ := bind_eq_ok.mp hrun
    exact ⟨⟨(a, st'), ha⟩, (hf a st' ha).mp ⟨(b, st''), hb⟩⟩
  · intro h
    obtain ⟨⟨⟨a, st'⟩, ha⟩, hq⟩ := h
    obtain ⟨⟨b, st''⟩, hb⟩ := (hf a st' ha).mpr hq
    exact ⟨(b, st''), bind_eq_ok.mpr ⟨a, st', ha, hb⟩⟩

/-- A function that returns does not matter for what follows it. -/
theorem returns_bind_right {x : M α} {f : α → M β} {Q : Prop} (hx : Returns x st)
    (hf : ∀ a st', x st = .ok (a, st') → (Returns (f a) st' ↔ Q)) : Returns (x >>= f) st ↔ Q := by
  rw [returns_bind_iff (iff_true_intro hx) hf, true_and]

theorem returns_bind_left {x : M α} {f : α → M β} (hf : ∀ a st', Returns (f a) st') :
    Returns (x >>= f) st ↔ Returns x st := by
  rw [returns_bind_iff Iff.rfl fun a st' _ => iff_true_intro (hf a st'), and_true]

theorem returns_error (message : String) : Returns (error message) st := returns_modify _

theorem returns_inScope_iff {message : String} {x : M α} : Returns (inScope message x) st ↔
    Returns x { st with stack := message :: st.stack } := by
  refine returns_bind_right (returns_modify _) fun u st' hu => ?_
  rw [modify_eq_ok.mp hu]
  exact returns_bind_left fun a st' => (returns_bind_left fun _ _ => returns_pure _).mpr
    (returns_modify _)

theorem returns_invalidType (text : String) : Returns (invalidType text) st :=
  (returns_bind_left fun _ _ => returns_pure _).mpr (returns_error _)

theorem returns_newReferenceType (name : String) : Returns (newReferenceType name) st :=
  (returns_bind_left fun _ _ => returns_pure _).mpr (returns_modify _)

/-- A pass over declarations returns if and only if the function returns for each of them. -/
theorem returns_transform_iff {f : α → M β} {C : α → Prop}
    (hf : ∀ x st, st.newStructureLiteralType = none → (Returns (f x) st ↔ C x))
    (hkeep : ∀ x st y st', st.newStructureLiteralType = none → f x st = .ok (y, st') →
      st'.newStructureLiteralType = none) {xs : List α} (hst : st.newStructureLiteralType = none) :
    Returns (transform f xs) st ↔ ∀ x ∈ xs, C x := by
  induction xs generalizing st with
  | nil => exact iff_of_true (returns_pure _) (List.forall_mem_nil _)
  | cons x xs ih =>
    rw [List.forall_mem_cons]
    refine returns_bind_iff (hf x st hst) fun y st' hy => ?_
    exact (returns_bind_left fun _ _ => returns_pure _).trans (ih (hkeep x st y st' hst hy))

end Rules

section Returns

mutual

/-- A type is resolved if its literals are in a scope. -/
theorem typeImpl_returns_iff {t : MetaModel.TypeImpl} {st : State} : Returns (typeImpl U t) st ↔
    (st.newStructureLiteralType = none → t.literals = []) := by
  cases t with
  | nil | stringLiteral value =>
    rw [typeImpl]
    simpa [MetaModel.TypeImpl.literals] using returns_pure _
  | base name =>
    rw [typeImpl]
    cases baseType name with
    | some t => simpa [MetaModel.TypeImpl.literals] using returns_pure _
    | none => simpa [MetaModel.TypeImpl.literals] using returns_invalidType _
  | integerLiteral value | booleanLiteral value =>
    rw [typeImpl]
    simpa [MetaModel.TypeImpl.literals] using returns_invalidType _
  | reference name =>
    rw [typeImpl]
    simpa [MetaModel.TypeImpl.literals] using returns_newReferenceType _
  | array element =>
    rw [typeImpl, MetaModel.TypeImpl.literals]
    exact (returns_bind_left fun _ _ => returns_pure _).trans typeImpl_returns_iff
  | and items | or items | tuple items =>
    rw [typeImpl, MetaModel.TypeImpl.literals]
    exact (returns_bind_left fun _ _ => returns_pure _).trans typeImpls_returns_iff
  | map key value =>
    rw [typeImpl, MetaModel.TypeImpl.literals, List.append_eq_nil_iff, imp_and]
    refine returns_bind_iff typeImpl_returns_iff fun k st' hk => ?_
    rw [← (typeImpl_eq_ok hk).2.scope]
    exact (returns_bind_left fun _ _ => returns_pure _).trans typeImpl_returns_iff
  | structureLiteral ps =>
    rw [typeImpl, MetaModel.TypeImpl.literals]
    refine returns_bind_right ⟨(st, st), rfl⟩ fun st₀ st' hget => ?_
    obtain ⟨rfl, rfl⟩ := get_eq_ok.mp hget
    cases hs : st'.newStructureLiteralType with
    | none => simp [Returns, panic]
    | some scope =>
      have hps : Returns (propertyImpls U ps) st' :=
        propertyImpls_returns_iff.mpr fun h => by rw [hs] at h; cases h
      simp only [reduceCtorEq, false_imp_iff, iff_true]
      exact (returns_bind_left fun _ _ => (returns_bind_left fun _ _ =>
        returns_newReferenceType _).mpr (returns_modify _)).mpr hps

theorem typeImpls_returns_iff {ts : List MetaModel.TypeImpl} {st : State} :
    Returns (typeImpls U ts) st ↔
      (st.newStructureLiteralType = none → MetaModel.TypeImpl.literalsAll ts = []) := by
  cases ts with
  | nil =>
    rw [typeImpls]
    simpa [MetaModel.TypeImpl.literalsAll] using returns_pure _
  | cons t ts =>
    rw [typeImpls, MetaModel.TypeImpl.literalsAll, List.append_eq_nil_iff, imp_and]
    refine returns_bind_iff typeImpl_returns_iff fun t' st' ht => ?_
    rw [← (typeImpl_eq_ok ht).2.scope]
    exact (returns_bind_left fun _ _ => returns_pure _).trans typeImpls_returns_iff

theorem propertyImpl_returns_iff {p : MetaModel.Property} {st : State} :
    Returns (propertyImpl U p) st ↔
      (st.newStructureLiteralType = none → p.type.literals = []) := by
  obtain ⟨name, optional, type⟩ := p
  rw [propertyImpl, returns_inScope_iff]
  exact (returns_bind_left fun _ _ => returns_pure _).trans typeImpl_returns_iff

theorem propertyImpls_returns_iff {ps : List MetaModel.Property} {st : State} :
    Returns (propertyImpls U ps) st ↔
      (st.newStructureLiteralType = none → MetaModel.TypeImpl.propertyLiterals ps = []) := by
  cases ps with
  | nil =>
    rw [propertyImpls]
    simpa [MetaModel.TypeImpl.propertyLiterals] using returns_pure _
  | cons p ps =>
    obtain ⟨name, optional, type⟩ := p
    rw [propertyImpls, MetaModel.TypeImpl.propertyLiterals, List.append_eq_nil_iff, imp_and]
    refine returns_bind_iff propertyImpl_returns_iff fun p' st' hp => ?_
    rw [← (propertyImpl_eq_ok hp).2.scope]
    exact (returns_bind_left fun _ _ => returns_pure _).trans propertyImpls_returns_iff

end

theorem typeImpl_returns {t : MetaModel.TypeImpl} (hst : st.newStructureLiteralType = none) :
    Returns (typeImpl U t) st ↔ t.literals = [] := by
  rw [typeImpl_returns_iff, hst, eq_self, true_imp_iff]

theorem typeImpls_returns {ts : List MetaModel.TypeImpl} (hst : st.newStructureLiteralType = none) :
    Returns (typeImpls U ts) st ↔ MetaModel.TypeImpl.literalsAll ts = [] := by
  rw [typeImpls_returns_iff, hst, eq_self, true_imp_iff]

theorem structureProperties_returns {name : String} {ps : List MetaModel.Property}
    {out : String × List Protocol.Property} : Returns (structureProperties U name out ps) st := by
  induction ps generalizing out st with
  | nil => exact returns_pure _
  | cons p ps ih =>
    refine (returns_bind_left fun _ _ => ih).mpr ?_
    refine (returns_bind_right (returns_modify _) fun u st' hu => ?_).mpr trivial
    rw [modify_eq_ok.mp hu]
    refine iff_true_intro ((returns_bind_left fun q st' => ?_).mpr ?_)
    · cases q.type with
      | stringLiteral value =>
        simp only
        split
        · exact returns_pure _
        · exact returns_pure _
      | _ => exact returns_pure _
    · exact propertyImpl_returns_iff.mpr fun h => by cases h

theorem structureImpl_returns_iff {s : MetaModel.Structure}
    (hst : st.newStructureLiteralType = none) : Returns (structureImpl U s) st ↔
      MetaModel.TypeImpl.literalsAll s.extendsTypes = [] ∧
        MetaModel.TypeImpl.literalsAll s.mixins = [] := by
  rw [structureImpl, returns_inScope_iff]
  refine returns_bind_iff (typeImpls_returns hst) fun ts st' hts => ?_
  have hst' := (typeImpls_eq_ok hts).2.scope.trans hst
  refine (returns_bind_left fun ts' st'' => ?_).trans (typeImpls_returns hst')
  refine (returns_bind_left fun _ _ => ?_).mpr ⟨_, rfl⟩
  refine (returns_bind_left fun _ _ => ?_).mpr (returns_modify _)
  refine (returns_bind_left fun _ _ => ?_).mpr structureProperties_returns
  refine (returns_bind_left fun _ _ => ?_).mpr ⟨_, rfl⟩
  exact (returns_bind_left fun _ _ => returns_pure _).mpr (returns_modify _)

theorem enumeration_returns_iff {e : MetaModel.Enumeration}
    (hst : st.newStructureLiteralType = none) :
    Returns (enumeration U e) st ↔ e.type.literals = [] := by
  rw [enumeration, returns_inScope_iff]
  refine (returns_bind_left fun t st' => ?_).trans (typeImpl_returns hst)
  refine (returns_bind_left fun _ _ => returns_pure _).mpr ?_
  generalize e.values = vs
  induction vs generalizing st' with
  | nil => exact returns_pure _
  | cons v vs ih =>
    refine (returns_bind_left fun _ _ => (returns_bind_left fun _ _ => returns_pure _).mpr
      (ih _)).mpr ?_
    exact returns_inScope_iff.mpr (returns_pure _)

theorem typeAlias_returns_iff {a : MetaModel.TypeAlias} (hst : st.newStructureLiteralType = none) :
    Returns (typeAlias U a) st ↔ a.type.literals = [] := by
  rw [typeAlias, returns_inScope_iff]
  exact (returns_bind_left fun _ _ => returns_pure _).trans (typeImpl_returns hst)

theorem messageDirection_returns (direction : String) :
    Returns (messageDirection direction) st := by
  unfold messageDirection
  split
  · exact returns_pure _
  · exact returns_pure _
  · exact returns_pure _
  · exact (returns_bind_left fun _ _ => returns_pure _).mpr (returns_error _)

theorem notification_returns_iff {n : MetaModel.Notification}
    (hst : st.newStructureLiteralType = none) : Returns (notification U n) st ↔
      MetaModel.TypeImpl.literalsAll n.params = [] ∧ n.registrationOptions.literals = [] := by
  rw [notification, returns_inScope_iff]
  refine returns_bind_right (messageDirection_returns _) fun d st' hd => ?_
  have hst' := (messageDirection_eq_ok hd).2.scope.trans hst
  refine returns_bind_iff (typeImpls_returns hst') fun ps st'' hps => ?_
  have hst'' := (typeImpls_eq_ok hps).2.scope.trans hst'
  exact (returns_bind_left fun _ _ => returns_pure _).trans (typeImpl_returns hst'')

theorem request_returns_iff {r : MetaModel.Request} (hst : st.newStructureLiteralType = none) :
    Returns (request U r) st ↔ r.errorData.literals = [] ∧
      MetaModel.TypeImpl.literalsAll r.params = [] ∧ r.partialResult.literals = [] ∧
      r.registrationOptions.literals = [] ∧ r.result.literals = [] := by
  rw [request, returns_inScope_iff]
  refine returns_bind_iff (typeImpl_returns hst) fun e st₁ he => ?_
  have h₁ := (typeImpl_eq_ok he).2.scope.trans hst
  refine returns_bind_right (messageDirection_returns _) fun d st₂ hd => ?_
  have h₂ := (messageDirection_eq_ok hd).2.scope.trans h₁
  refine returns_bind_iff (typeImpls_returns h₂) fun ps st₃ hps => ?_
  have h₃ := (typeImpls_eq_ok hps).2.scope.trans h₂
  refine returns_bind_iff (typeImpl_returns h₃) fun p st₄ hp => ?_
  have h₄ := (typeImpl_eq_ok hp).2.scope.trans h₃
  refine returns_bind_iff (typeImpl_returns h₄) fun o st₅ ho => ?_
  have h₅ := (typeImpl_eq_ok ho).2.scope.trans h₄
  exact (returns_bind_left fun _ _ => returns_pure _).trans (typeImpl_returns h₅)

theorem registerAll_returns {ds typeDecls : List (String × Protocol.TypeDecl)} :
    Returns (registerAll typeDecls ds) st := by
  induction ds generalizing typeDecls st with
  | nil => exact returns_pure _
  | cons d ds ih =>
    refine (returns_bind_left fun _ _ => ih).mpr ?_
    unfold register
    cases lookup d.1 typeDecls with
    | some existing => exact (returns_bind_left fun _ _ => returns_pure _).mpr (returns_error _)
    | none => exact returns_pure _

theorem resolveReferences_returns {typeDecls : List (String × Protocol.TypeDecl)}
    {names : List String} : Returns (transform (resolveReference typeDecls) names) st := by
  induction names generalizing st with
  | nil => exact returns_pure _
  | cons name names ih =>
    refine (returns_bind_left fun _ _ =>
      (returns_bind_left fun _ _ => returns_pure _).mpr ih).mpr ?_
    unfold resolveReference
    cases lookup name typeDecls with
    | some d => exact returns_pure _
    | none => exact (returns_bind_left fun _ _ => returns_pure _).mpr (returns_error _)

theorem resolveTypes_returns (p : Protocol) : Returns (resolveTypes p) st :=
  (returns_bind_left fun _ _ => (returns_bind_left fun _ _ => resolveReferences_returns).mpr
    ⟨_, rfl⟩).mpr registerAll_returns

theorem returns_lift_iff {x : Except Stop α} : Returns (lift x) st ↔ ∃ a, x = .ok a := by
  constructor
  · intro h
    obtain ⟨⟨a, st'⟩, h⟩ := h
    exact ⟨a, (lift_eq_ok.mp h).1⟩
  · intro h
    obtain ⟨a, rfl⟩ := h
    exact ⟨(a, st), rfl⟩

end Returns

section Models

/-- The resolver can deal with the metamodel: structure literals are only in the properties of
structures, and the types that the sorts look at are supported. Of several aliases with one C++
name the sort looks at the last one. -/
structure Handled (U : Unicode) (m : MetaModel) : Prop where
  enumerations : ∀ e ∈ m.enumerations, e.type.literals = []
  notifications : ∀ n ∈ m.notifications,
    MetaModel.TypeImpl.literalsAll n.params = [] ∧ n.registrationOptions.literals = []
  requests : ∀ r ∈ m.requests, r.errorData.literals = [] ∧
    MetaModel.TypeImpl.literalsAll r.params = [] ∧ r.partialResult.literals = [] ∧
    r.registrationOptions.literals = [] ∧ r.result.literals = []
  structures : ∀ s ∈ m.structures, MetaModel.TypeImpl.literalsAll s.extendsTypes = [] ∧
    MetaModel.TypeImpl.literalsAll s.mixins = []
  typeAliases : ∀ a ∈ m.typeAliases, a.type.literals = []
  aliasTypes : ∀ a, Denoted (fun a => U.className a.name) m.typeAliases a → a.type.Supported
  propertyTypes : ∀ s ∈ m.structures,
    Entered (m.structures.map (translateStructure U)) (translateStructure U s) →
      ∀ p ∈ s.properties, p.type.Supported

variable {m : MetaModel}

theorem denoted_map {γ : Type} {name : α → String} {f : γ → α} {decls : List γ} {d : α} :
    Denoted name (decls.map f) d ↔ ∃ c, Denoted (fun c => name (f c)) decls c ∧ f c = d := by
  simp only [Denoted, ← List.map_reverse, List.find?_map, Option.map_eq_some_iff]
  constructor
  · intro h
    obtain ⟨c, hc, rfl⟩ := h
    exact ⟨c, hc, rfl⟩
  · intro h
    obtain ⟨c, hc, rfl⟩ := h
    exact ⟨c, hc, rfl⟩

theorem aliases_returns_iff (hliterals : ∀ a ∈ m.typeAliases, a.type.literals = []) :
    (∃ sorted, sortTypeAliases (m.typeAliases.map (translateAlias U)) = .ok sorted) ↔
      ∀ a, Denoted (fun a => U.className a.name) m.typeAliases a → a.type.Supported := by
  rw [sortTypeAliases_returns_iff]
  constructor
  · intro h a ha
    have hcomplete := h (translateAlias U a) (denoted_map.mpr ⟨a, ha, rfl⟩)
    exact (translate_complete_iff fun _ => hliterals a ha.mem).mp hcomplete
  · intro h d hd
    obtain ⟨a, ha, rfl⟩ := denoted_map.mp hd
    exact (translate_complete_iff fun _ => hliterals a (Denoted.mem ha)).mpr (h a ha)

theorem structures_returns_iff :
    (∃ sorted, sortStructures (m.structures.map (translateStructure U)) = .ok sorted) ↔
      ∀ s ∈ m.structures, Entered (m.structures.map (translateStructure U))
        (translateStructure U s) → ∀ p ∈ s.properties, p.type.Supported := by
  rw [sortStructures_returns_iff]
  constructor
  · exact fun h s _ hs => translateStructure_complete_iff.mp (h _ hs)
  · intro h t ht
    obtain ⟨s, hs, rfl⟩ := List.mem_map.mp ht.mem
    exact translateStructure_complete_iff.mpr (h s hs ht)

theorem model_returns_iff : Returns (model U m) {} ↔ Handled U m := by
  have hpasses : Returns (model U m) {} ↔
      (∀ e ∈ m.enumerations, e.type.literals = []) ∧
      (∀ n ∈ m.notifications, MetaModel.TypeImpl.literalsAll n.params = [] ∧
        n.registrationOptions.literals = []) ∧
      (∀ r ∈ m.requests, r.errorData.literals = [] ∧
        MetaModel.TypeImpl.literalsAll r.params = [] ∧ r.partialResult.literals = [] ∧
        r.registrationOptions.literals = [] ∧ r.result.literals = []) ∧
      (∀ s ∈ m.structures, MetaModel.TypeImpl.literalsAll s.extendsTypes = [] ∧
        MetaModel.TypeImpl.literalsAll s.mixins = []) ∧
      (∀ a ∈ m.typeAliases, a.type.literals = []) ∧
      (∃ sorted, sortTypeAliases (m.typeAliases.map (translateAlias U)) = .ok sorted) ∧
      ∃ sorted, sortStructures (m.structures.map (translateStructure U)) = .ok sorted := by
    rw [model, returns_inScope_iff]
    refine returns_bind_iff (returns_transform_iff (fun e st hst => enumeration_returns_iff hst)
      (fun e st y st' hst hy => (enumeration_eq_ok hst hy).2.scope.trans hst) rfl)
      fun es st₁ hes => ?_
    have h₁ :=
      (transform_eq_map (fun e st y st' hst hy => enumeration_eq_ok hst hy) rfl hes).2.scope
    refine returns_bind_iff (returns_transform_iff (fun n st hst => notification_returns_iff hst)
      (fun n st y st' hst hy => (notification_eq_ok hst hy).2.scope.trans hst) h₁)
      fun ns st₂ hns => ?_
    have h₂ := (transform_eq_map
      (fun n st y st' hst hy => notification_eq_ok hst hy) h₁ hns).2.scope.trans h₁
    refine returns_bind_iff (returns_transform_iff (fun r st hst => request_returns_iff hst)
      (fun r st y st' hst hy => (request_eq_ok hst hy).2.scope.trans hst) h₂)
      fun rs st₃ hrs => ?_
    have h₃ := (transform_eq_map
      (fun r st y st' hst hy => request_eq_ok hst hy) h₂ hrs).2.scope.trans h₂
    refine returns_bind_iff (returns_transform_iff (fun s st hst => structureImpl_returns_iff hst)
      (fun s st y st' hst hy => (structureImpl_eq_ok hst hy).2.scope.trans hst) h₃)
      fun ss st₄ hss => ?_
    obtain ⟨rfl, hks⟩ := transform_eq_map
      (fun s st y st' hst hy => structureImpl_eq_ok hst hy) h₃ hss
    have h₄ := hks.scope.trans h₃
    refine returns_bind_iff (returns_transform_iff (fun a st hst => typeAlias_returns_iff hst)
      (fun a st y st' hst hy => (typeAlias_eq_ok hst hy).2.scope.trans hst) h₄)
      fun as st₅ has => ?_
    obtain ⟨rfl, -⟩ := transform_eq_map (fun a st y st' hst hy => typeAlias_eq_ok hst hy) h₄ has
    refine returns_bind_right (resolveTypes_returns _) fun refs st₆ _ => ?_
    refine returns_bind_iff returns_lift_iff fun sorted st₇ _ => ?_
    exact (returns_bind_left fun _ _ => returns_pure _).trans returns_lift_iff
  rw [hpasses]
  constructor
  · intro h
    obtain ⟨he, hn, hr, hs, ha, hsorted, hsorted'⟩ := h
    exact ⟨he, hn, hr, hs, ha, (aliases_returns_iff ha).mp hsorted,
      structures_returns_iff.mp hsorted'⟩
  · intro h
    exact ⟨h.enumerations, h.notifications, h.requests, h.structures, h.typeAliases,
      (aliases_returns_iff h.typeAliases).mpr h.aliasTypes,
      structures_returns_iff.mpr h.propertyTypes⟩

theorem resolve_returns : (∃ result, resolve U m = .ok result) ↔ Returns (model U m) {} := by
  unfold resolve
  constructor
  · intro h
    cases hrun : model U m {} with
    | error e =>
      obtain ⟨result, h⟩ := h
      rw [hrun] at h
      cases h
    | ok r => exact ⟨r, hrun⟩
  · intro h
    obtain ⟨⟨p, st⟩, hrun⟩ := h
    rw [hrun]
    cases herr : st.err with
    | some message => exact ⟨.error message, by simp only [herr]⟩
    | none => exact ⟨.ok p, by simp only [herr]⟩

/-- The resolver returns a protocol or an error if and only if it can deal with the metamodel. -/
theorem resolve_returns_iff (U : Unicode) (m : MetaModel) :
    (∃ result, resolve U m = .ok result) ↔ Handled U m :=
  resolve_returns.trans model_returns_iff

def flagModel : MetaModel where
  typeAliases := [⟨"Flag", .booleanLiteral true⟩]

/-- An alias of a structure literal. -/
def rangeModel : MetaModel where
  typeAliases := [⟨"Range", .structureLiteral [⟨"start", false, .base "uinteger"⟩]⟩]

theorem flagModel_panics : resolve asciiTables flagModel = .error .panic ∧
    resolve asciiTables rangeModel = .error .panic ∧
    ¬ (∃ result, resolve asciiTables flagModel = .ok result) ∧
    ¬ ∃ result, resolve asciiTables rangeModel = .ok result := by
  have hflag : resolve asciiTables flagModel = .error .panic := by rfl
  have hrange : resolve asciiTables rangeModel = .error .panic := by rfl
  refine ⟨hflag, hrange, ?_, ?_⟩
  · rw [hflag]
    simp
  · rw [hrange]
    simp

end Models

end Resolver

end Langsvr
