import Langsvr.TemplateRules

/-!
# The generated structures

Every structure of an accepted metamodel, and every structure literal in a property of one,
has its own generated structure, and a name denotes the same in the metamodel and in the
generated code.
-/

namespace Langsvr

namespace MetaModel

variable (U : Unicode) (m : MetaModel)

/-- The structure that a C++ name denotes: a structure of the metamodel, a structure literal in
a property of one, or what an alias refers to. -/
inductive Denotes : String → Structure → Prop where
  | declared {s : Structure} (hs : s ∈ m.structures) : Denotes (U.className s.name) s
  | literal {s : Structure} {p : Property} {ps : List Property} (hs : s ∈ m.structures)
      (hp : p ∈ s.properties) (hl : ps ∈ p.type.literals) :
      Denotes (U.className s.name ++ "::" ++ U.title p.name) { name := p.name, properties := ps }
  | typeAlias {a : TypeAlias} {name : String} {s : Structure} (ha : a ∈ m.typeAliases)
      (ht : a.type = .reference name) (hs : Denotes (U.className name) s) :
      Denotes (U.className a.name) s

/-- A name of a property of the structure itself, but for a literal kind that is empty. -/
def Structure.Keeps (s : Structure) (name : String) : Prop :=
  (s.kind ≠ "" ∧ name = "kind") ∨ ∃ p ∈ s.ordinaryProperties, p.name = name

end MetaModel

namespace Resolver

section Correspondence

variable {U : Unicode} {m : MetaModel} {p : Protocol} {prog : CppProgram}

def Resolved (U : Unicode) (s : MetaModel.Structure) (t : Protocol.Structure) : Prop :=
  t = translateStructure U s ∨ ∃ scope ps, t = translateLiteral U scope ps ∧
    s = { name := scope.propertyName, properties := ps }

def Generated (U : Unicode) (s : MetaModel.Structure) (c : CppStructure) : Prop :=
  ∃ t, Resolved U s t ∧ Templates.structureTemplate t = some c

theorem typeName_baseType (name : String) :
    Templates.typeName ((baseType name).getD .nil) = none := by
  unfold baseType
  split <;> rfl

theorem typeName_translate {t : MetaModel.TypeImpl} {b : String} :
    Templates.typeName (translate U none t) = some b ↔
      ∃ name, t = .reference name ∧ U.className name = b := by
  cases t with
  | reference name => simp [translate, Templates.typeName]
  | base name => simp [translate, typeName_baseType]
  | _ => simp [translate, Templates.typeName]

theorem translateAll_eq_map (scope : Option LiteralScope) (ts : List MetaModel.TypeImpl) :
    translateAll U scope ts = ts.map (translate U scope) := by
  induction ts with
  | nil => rw [translateAll, List.map_nil]
  | cons t ts ih => rw [translateAll, ih, List.map_cons]

theorem mem_baseNames {ts : List MetaModel.TypeImpl} {b : String} :
    b ∈ (translateAll U none ts).filterMap Templates.typeName ↔
      ∃ name, .reference name ∈ ts ∧ U.className name = b := by
  rw [translateAll_eq_map, List.filterMap_map, List.mem_filterMap]
  constructor
  · intro h
    obtain ⟨t, ht, hb⟩ := h
    obtain ⟨name, rfl, hname⟩ := typeName_translate.mp hb
    exact ⟨name, ht, hname⟩
  · intro h
    obtain ⟨name, ht, hname⟩ := h
    exact ⟨.reference name, ht, typeName_translate.mpr ⟨name, rfl, hname⟩⟩

/-- The texts for the names of the members of a structure. -/
theorem mem_ownMembers {s : MetaModel.Structure} {name : String} :
    name ∈ Templates.ownMembers (translateStructure U s) ↔ s.Keeps name := by
  have hname : ((translateStructure U s).properties.map Protocol.Property.jsonName) =
      s.ordinaryProperties.map MetaModel.PropertyOf.name := by
    rw [translateStructure, List.map_map]
    rfl
  rw [Templates.ownMembers, hname, List.mem_append, MetaModel.Structure.Keeps]
  have hkind : Templates.kindTexts (translateStructure U s) =
      if s.kind ≠ "" then [s.kind] else [] := rfl
  rw [hkind]
  by_cases hk : s.kind = ""
  · simp [hk]
  · simp [hk, eq_comm]

/-- A literal for which code is generated has no literal kind. -/
theorem mem_ownMembers_literal {scope : LiteralScope} {ps : List MetaModel.Property}
    {name : String} (ht : ∀ p ∈ (translateLiteral U scope ps).properties,
      Templates.typeTemplate p.type ≠ none) :
    name ∈ Templates.ownMembers (translateLiteral U scope ps) ↔
      MetaModel.Structure.Keeps { name := scope.propertyName, properties := ps } name := by
  have hnone : ∀ p ∈ ps, p.literalKind = none := by
    intro p hp
    rw [Option.eq_none_iff_forall_ne_some]
    intro v hv
    refine ht (translateProperty U (some scope) p) (List.mem_map_of_mem hp) ?_
    have hlit : translate U (some scope) p.type = .stringLiteral v :=
      translate_eq_stringLiteral.mpr (literalKind_eq_some.mp hv).2
    rw [translateProperty, hlit, Templates.typeTemplate]
  have hkind : MetaModel.Structure.kind { name := scope.propertyName, properties := ps } = "" := by
    have hempty : ps.filterMap MetaModel.PropertyOf.literalKind = [] :=
      List.filterMap_eq_nil_iff.mpr hnone
    rw [MetaModel.Structure.kind, hempty]
    rfl
  have hall : MetaModel.Structure.ordinaryProperties
      { name := scope.propertyName, properties := ps } = ps := by
    apply List.filter_eq_self.mpr
    intro p hp
    rw [hnone p hp]
    rfl
  rw [MetaModel.Structure.Keeps, hkind, hall]
  simp [Templates.ownMembers, Templates.kindTexts, translateLiteral, translateProperty]

theorem generated_spec {s : MetaModel.Structure} {c : CppStructure} (h : Generated U s c) :
    ∃ t, Templates.Emits t c ∧ (∀ name, name ∈ Templates.ownMembers t ↔ s.Keeps name) ∧
      ∀ b, b ∈ t.extendsTypes.filterMap Templates.typeName ↔
        ∃ name, .reference name ∈ s.extendsTypes ∧ U.className name = b := by
  obtain ⟨t, ht, hc⟩ := h
  have he := Templates.emits_of_template hc
  refine ⟨t, he, ?_, ?_⟩
  · intro name
    rcases ht with rfl | ⟨scope, ps, rfl, rfl⟩
    · exact mem_ownMembers
    · exact mem_ownMembers_literal he.types
  · intro b
    rcases ht with rfl | ⟨scope, ps, rfl, rfl⟩
    · exact mem_baseNames
    · simp [translateLiteral]

/-- The structures that are resolved: those of the metamodel with the literals in their
properties. -/
theorem mem_withNested {n : Protocol.Structure} :
    n ∈ Templates.withNested (m.structures.map (translateStructure U)) ↔
      ∃ s ∈ m.structures, n = translateStructure U s ∨
        ∃ q ∈ s.properties, ∃ ps ∈ q.type.literals, n = translateLiteral U (propertyScope U s q) ps := by
  have hnested : ∀ s : MetaModel.Structure, (translateStructure U s).nestedStructures =
      s.properties.flatMap fun q =>
        q.type.literals.map (translateLiteral U (propertyScope U s q)) := fun s => rfl
  simp only [Templates.withNested, List.flatMap_map, List.mem_flatMap, List.mem_cons, hnested,
    List.mem_map]
  simp only [eq_comm]

theorem translateLiteral_nestedStructures {s : MetaModel.Structure} {n : Protocol.Structure}
    (hn : n ∈ (translateStructure U s).nestedStructures) : n.nestedStructures = [] := by
  obtain ⟨q, -, hq⟩ := List.mem_flatMap.mp hn
  obtain ⟨ps, -, rfl⟩ := List.mem_map.mp hq
  rfl

/-- A declared structure has the C++ name that the templates print. -/
theorem map_declarations (ss : List MetaModel.Structure) :
    ((ss.map (translateStructure U)).flatMap fun s => (s.name, Protocol.TypeDecl.structure s) ::
      s.nestedStructures.map fun n => (s.name ++ "::" ++ n.name, .structure s)).map Prod.fst =
    (Templates.withNested (ss.map (translateStructure U))).map fun n =>
      "::".intercalate n.nestedNames := by
  rw [Templates.withNested, List.flatMap_map, List.flatMap_map, List.map_flatMap, List.map_flatMap]
  congr 1
  funext s
  rw [List.map_cons, List.map_cons, List.map_map]
  congr 1
  apply List.map_congr_left
  intro n hn
  obtain ⟨q, -, hq⟩ := List.mem_flatMap.mp hn
  obtain ⟨ps, -, rfl⟩ := List.mem_map.mp hq
  rfl

theorem name_sublist (ss : List MetaModel.Structure) :
    ((ss.map (translateStructure U)).map Protocol.Structure.name).Sublist
      ((Templates.withNested (ss.map (translateStructure U))).map fun n =>
        "::".intercalate n.nestedNames) := by
  induction ss with
  | nil => exact .slnil
  | cons s ss ih =>
    rw [List.map_cons, List.map_cons, Templates.withNested, List.flatMap_cons, List.map_append,
      List.map_cons]
    exact (ih.trans (List.sublist_append_right _ _)).cons_cons _

/-- The generated code comes from the structures and aliases of the metamodel, in some order. -/
structure Output (U : Unicode) (m : MetaModel) (prog : CppProgram) : Prop where
  structures : ∃ ns : List Protocol.Structure,
    ns.Perm (Templates.withNested (m.structures.map (translateStructure U))) ∧
      ns.mapM Templates.structureTemplate = some prog.structures
  aliases : ∃ as : List Protocol.TypeAlias, as.Perm (m.typeAliases.map (translateAlias U)) ∧
    as.mapM Templates.aliasTemplate = some prog.aliases
  nodup : ((m.typeAliases.map (translateAlias U)).map Protocol.TypeAlias.name ++
    (Templates.withNested (m.structures.map (translateStructure U))).map fun n =>
      "::".intercalate n.nestedNames).Nodup

theorem output_of_generate (hr : resolve U m = .ok (.ok p))
    (hg : Templates.generate p = some prog) : Output U m prog := by
  obtain ⟨hstructures, haliases, enumerations, hnodup⟩ := accepted_of_resolve hr
  obtain ⟨as, has, hg⟩ := Option.bind_eq_some_iff.mp hg
  obtain ⟨ss, hss, hg⟩ := Option.bind_eq_some_iff.mp hg
  cases hg
  rw [declarations, List.map_append, List.map_append, map_declarations, List.map_map] at hnodup
  have hnames := hnodup.sublist ((List.sublist_append_left _ _).append_right _)
  have hpermS := sortStructures_perm hstructures
    ((hnames.of_append_right).sublist (name_sublist m.structures))
  have hpermA := sortTypeAliases_perm haliases hnames.of_append_left
  refine ⟨⟨_, hpermS.flatMap_right _, ?_⟩, ⟨_, hpermA, has⟩, hnames⟩
  rw [← hss]
  refine (Templates.nestedTemplates_eq ?_).symm
  intro t ht n hn
  obtain ⟨s, -, rfl⟩ := List.mem_map.mp (hpermS.mem_iff.mp ht)
  exact translateLiteral_nestedStructures hn

namespace Output

theorem aliasNames (h : Output U m prog) : (prog.aliases.map Prod.fst).Perm
    ((m.typeAliases.map (translateAlias U)).map Protocol.TypeAlias.name) := by
  obtain ⟨as, hperm, has⟩ := h.aliases
  have hnames : prog.aliases.map Prod.fst = as.map Protocol.TypeAlias.name := by
    refine ListRelations.map_eq_map (ListRelations.mapM_eq_some has) fun a d hd => ?_
    obtain ⟨t, -, ht⟩ := Option.bind_eq_some_iff.mp hd
    cases ht
    rfl
  rw [hnames]
  exact hperm.map _

theorem exists_structure (h : Output U m prog) {n : Protocol.Structure}
    (hn : n ∈ Templates.withNested (m.structures.map (translateStructure U))) :
    ∃ c ∈ prog.structures, Templates.structureTemplate n = some c := by
  obtain ⟨ns, hperm, hns⟩ := h.structures
  exact ListRelations.exists_of_mem_left (ListRelations.mapM_eq_some hns) (hperm.mem_iff.mpr hn)

/-- Only the code of structures is generated. -/
theorem structure_of_mem (h : Output U m prog) {c : CppStructure} (hc : c ∈ prog.structures) :
    ∃ n ∈ Templates.withNested (m.structures.map (translateStructure U)),
      Templates.structureTemplate n = some c := by
  obtain ⟨ns, hperm, hns⟩ := h.structures
  obtain ⟨n, hn, hnc⟩ := ListRelations.exists_of_mem_right (ListRelations.mapM_eq_some hns) hc
  exact ⟨n, hperm.mem_iff.mp hn, hnc⟩

/-- Two generated structures have different names. -/
theorem eq_of_name (h : Output U m prog) {c c' : CppStructure} (hc : c ∈ prog.structures)
    (hc' : c' ∈ prog.structures) (hname : c.name = c'.name) : c = c' := by
  obtain ⟨n, hn, hnc⟩ := h.structure_of_mem hc
  obtain ⟨n', hn', hnc'⟩ := h.structure_of_mem hc'
  have hnn : n = n' := by
    apply List.inj_on_of_nodup_map h.nodup.of_append_right hn hn'
    rw [← (Templates.emits_of_template hnc).name, ← (Templates.emits_of_template hnc').name, hname]
  rw [hnn, hnc'] at hnc
  exact (Option.some.inj hnc).symm

theorem exists_generated (h : Output U m prog) {s : MetaModel.Structure} (hs : s ∈ m.structures) :
    ∃ c ∈ prog.structures, c.name = U.className s.name ∧ Generated U s c := by
  obtain ⟨c, hc, hsc⟩ := h.exists_structure (mem_withNested.mpr ⟨s, hs, .inl rfl⟩)
  exact ⟨c, hc, (Templates.emits_of_template hsc).name, _, .inl rfl, hsc⟩

theorem exists_generated_literal (h : Output U m prog) {s : MetaModel.Structure}
    {q : MetaModel.Property} {ps : List MetaModel.Property} (hs : s ∈ m.structures)
    (hq : q ∈ s.properties) (hps : ps ∈ q.type.literals) :
    ∃ c ∈ prog.structures, c.name = U.className s.name ++ "::" ++ U.title q.name ∧
      Generated U { name := q.name, properties := ps } c := by
  obtain ⟨c, hc, hsc⟩ :=
    h.exists_structure (mem_withNested.mpr ⟨s, hs, .inr ⟨q, hq, ps, hps, rfl⟩⟩)
  exact ⟨c, hc, (Templates.emits_of_template hsc).name, _,
    .inr ⟨propertyScope U s q, ps, rfl, rfl⟩, hsc⟩

theorem exists_denotes (h : Output U m prog) {c : CppStructure} (hc : c ∈ prog.structures) :
    ∃ t, MetaModel.Denotes U m c.name t ∧ Generated U t c := by
  obtain ⟨n, hn, hnc⟩ := h.structure_of_mem hc
  have hname := (Templates.emits_of_template hnc).name
  obtain ⟨s, hs, rfl | ⟨q, hq, ps, hps, rfl⟩⟩ := mem_withNested.mp hn
  · refine ⟨s, ?_, _, .inl rfl, hnc⟩
    rw [hname]
    exact .declared hs
  · refine ⟨{ name := q.name, properties := ps }, ?_, _,
      .inr ⟨propertyScope U s q, ps, rfl, rfl⟩, hnc⟩
    rw [hname]
    exact .literal hs hq hps

/-- What a name denotes in the metamodel, it denotes in the generated code. -/
theorem denotes_code (h : Output U m prog) {name : String} {t : MetaModel.Structure}
    (ht : MetaModel.Denotes U m name t) : ∃ c, prog.Denotes name c ∧ Generated U t c := by
  induction ht with
  | @declared s hs =>
    obtain ⟨c, hc, hname, hsc⟩ := h.exists_generated hs
    rw [← hname]
    exact ⟨c, .declared hc, hsc⟩
  | @literal s q ps hs hq hps =>
    obtain ⟨c, hc, hname, hsc⟩ := h.exists_generated_literal hs hq hps
    rw [← hname]
    exact ⟨c, .declared hc, hsc⟩
  | @typeAlias a name t ha ht _ ih =>
    obtain ⟨c, hc, htc⟩ := ih
    obtain ⟨as, hperm, has⟩ := h.aliases
    have hmem : translateAlias U a ∈ as := hperm.mem_iff.mpr (List.mem_map_of_mem ha)
    obtain ⟨d, hd, had⟩ :=
      ListRelations.exists_of_mem_left (ListRelations.mapM_eq_some has) hmem
    have hd' : d = (U.className a.name, .named (U.className name)) := by
      rw [Templates.aliasTemplate, translateAlias, ht, translate, Templates.typeTemplate] at had
      exact (Option.some.inj had).symm
    rw [hd'] at hd
    exact ⟨c, .typeAlias hd hc, htc⟩

/-- What a name denotes in the generated code, it denotes in the metamodel. -/
theorem denotes_metaModel (h : Output U m prog) {name : String} {c : CppStructure}
    (hc : prog.Denotes name c) : ∃ t, MetaModel.Denotes U m name t ∧ Generated U t c := by
  induction hc with
  | declared hc => exact h.exists_denotes hc
  | @typeAlias b name c hb _ ih =>
    obtain ⟨t, ht, htc⟩ := ih
    obtain ⟨as, hperm, has⟩ := h.aliases
    obtain ⟨d, hd, hdb⟩ :=
      ListRelations.exists_of_mem_right (ListRelations.mapM_eq_some has) hb
    obtain ⟨a, ha, rfl⟩ := List.mem_map.mp (hperm.mem_iff.mp hd)
    obtain ⟨type, htype, hpair⟩ := Option.bind_eq_some_iff.mp hdb
    cases hpair
    obtain ⟨name', hname', rfl⟩ :=
      typeName_translate.mp (congrArg Templates.typeName (Templates.typeTemplate_eq_named.mp htype))
    exact ⟨t, .typeAlias ha hname' ht, htc⟩

end Output

end Correspondence

end Resolver

end Langsvr
