import Langsvr.GeneratedObjects
import Langsvr.MetaModelMeanings

/-!
# Generated code of a metamodel

The code that is generated for an accepted metamodel compiles to the declarations of the codec
that the metamodel means, provided that the data members of a structure have distinct names and
its bases are distinct, as C++ requires.
-/

namespace Langsvr

open Lsp (LspType LspValue Declarations)
open MetaModel (Source Means PropertyMeans DefinitionMeans BasesMean Declares)

/-- The data members of a structure have distinct names, and its bases are distinct. -/
def CppUnit.MembersDistinct (u : CppUnit) : Prop :=
  ∀ c ∈ u.program.structures, (c.members.map fun m => m.2.2).Nodup ∧ c.bases.Nodup

namespace Resolver

open Templates

variable {U : Unicode} {m : MetaModel} {p : Protocol} {u : CppUnit} {env : Declarations}

section Sources

/-- The resolved structure for a structure or a literal. -/
def resolvedSource (U : Unicode) : Source → Protocol.Structure
  | .declared s => translateStructure U s
  | .literal scope ps => translateLiteral U scope ps

theorem withNested_eq (m : MetaModel) : withNested (m.structures.map (translateStructure U)) =
    (m.sources U).map (resolvedSource U) := by
  rw [withNested, MetaModel.sources, List.flatMap_map, List.map_flatMap]
  congr 1
  funext s
  rw [List.map_cons, List.map_flatMap]
  congr 1
  apply congrArg fun f => s.properties.flatMap f
  funext q
  rw [List.map_map]
  rfl

theorem resolvedSource_name (s : Source) :
    "::".intercalate (resolvedSource U s).nestedNames = s.cppName U := by
  cases s with
  | declared s => rfl
  | literal scope ps => rfl

theorem resolvedSource_properties (s : Source) : (resolvedSource U s).properties =
    s.properties.map fun q => translateProperty U (some (s.scope U q)) q := by
  cases s with
  | declared s => rfl
  | literal scope ps => rfl

theorem resolvedSource_extendsTypes (s : Source) :
    (resolvedSource U s).extendsTypes = s.extendsTypes.map (translate U none) := by
  cases s with
  | declared s => exact translateAll_eq_map none s.extendsTypes
  | literal scope ps => rfl

theorem kindTexts_resolvedSource (s : Source) :
    kindTexts (resolvedSource U s) = s.kind.toList := by
  cases s with
  | declared s =>
    rw [Source.kind, resolvedSource, translateStructure, kindTexts]
    split
    · rfl
    · rfl
  | literal scope ps => rfl

end Sources

section Lists

theorem typeTemplates_eq_mapM (ts : List Protocol.TypeImpl) :
    typeTemplates ts = ts.mapM typeTemplate := by
  induction ts with
  | nil => rw [typeTemplates, List.mapM_nil]; rfl
  | cons t ts ih => rw [typeTemplates, List.mapM_cons, ih]

theorem typeTemplates_translateAll {scope : Option LiteralScope} {ts : List MetaModel.TypeImpl}
    {cts : List CppType} (h : typeTemplates (translateAll U scope ts) = some cts) :
    List.Forall₂ (fun t ct => typeTemplate (translate U scope t) = some ct) ts cts := by
  rw [translateAll_eq_map, typeTemplates_eq_mapM] at h
  exact List.forall₂_map_left_iff.mp (ListRelations.mapM_eq_some h)

end Lists

section Enumerations

variable {e : MetaModel.Enumeration} {E : Lsp.Enumeration}

theorem literal_small {d : Json.F64} {n : ℤ} (hd : d.value = some (n : ℚ))
    (hn : n.natAbs < 1000000) : literalTemplate (entryValue (.number d)) = some (.int n) := by
  simp only [entryValue, literalTemplate, realIntegral_of_value hd, if_pos hn]

theorem enumerationTemplate_eq {α : Type} {T : UnderlyingType} (ht : e.type = .base (typeText T))
    {vs : List α} {literal : α → CppLiteral} (hcompiles : ∀ a, T.compiles (literal a) = true)
    (hv : List.Forall₂ (fun (v : MetaModel.EnumerationEntry) a =>
      literalTemplate (entryValue v.value) = some (literal a)) e.values vs) :
    enumerationTemplate (translateEnumeration U e) =
      some { name := U.className e.name, type := T, values := vs.map literal } := by
  have htype : underlyingTemplate (translateEnumeration U e).type = some T := by
    rw [translateEnumeration, ht]
    cases T with
    | string | integer | uinteger => rfl
  have hvalues : (translateEnumeration U e).values.mapM (fun v => literalTemplate v.value) =
      some (vs.map literal) := by
    apply ListRelations.mapM_of_forall₂
    rw [translateEnumeration, List.forall₂_map_left_iff, List.forall₂_map_right_iff]
    exact hv
  have hall : (vs.map literal).all T.compiles = true := by
    simp [hcompiles]
  unfold enumerationTemplate
  simp only [htype, hvalues, bind, Option.bind, hall, if_true]
  rfl

/-- The template prints an enumeration as the one of the codec. -/
theorem enumerationTemplate_means (h : e.Means U E) :
    enumerationTemplate (translateEnumeration U e) = some E.generated := by
  cases h with
  | @string vs ht hv =>
    refine enumerationTemplate_eq (T := .string) ht (fun s => rfl) (hv.imp fun v s hvs => ?_)
    cases hvalue : v.value with
    | string t =>
      rw [hvalue] at hvs
      obtain ⟨hts, hverbatim⟩ := hvs
      cases hts
      rw [literal_string hverbatim]
    | number d =>
      rw [hvalue] at hvs
      exact hvs.1.elim
  | @integer vs ht hv =>
    refine enumerationTemplate_eq (T := .integer) ht (fun i => rfl) (hv.imp fun v i hvi => ?_)
    cases hvalue : v.value with
    | string t =>
      rw [hvalue] at hvi
      exact hvi.1.elim
    | number d =>
      rw [hvalue] at hvi
      exact literal_small hvi.1 hvi.2
  | @uinteger vs ht hv =>
    refine enumerationTemplate_eq (T := .uinteger) ht (fun i => rfl) (hv.imp fun v i hvi => ?_)
    cases hvalue : v.value with
    | string t =>
      rw [hvalue] at hvi
      exact hvi.1.elim
    | number d =>
      rw [hvalue] at hvi
      have hd : d.value = some (((i.toNat : ℤ)) : ℚ) := hvi.1
      exact literal_small hd (by simpa using hvi.2)

end Enumerations

section Units

theorem generateUnit_eq_some (h : generateUnit p = some u) : generate p = some u.program ∧
    p.enumerations.mapM enumerationTemplate = some u.enumerations := by
  obtain ⟨program, hprogram, h⟩ := Option.bind_eq_some_iff.mp h
  obtain ⟨enumerations, henumerations, h⟩ := Option.bind_eq_some_iff.mp h
  cases h
  exact ⟨hprogram, henumerations⟩

/-- The code of an accepted metamodel. -/
structure Emitted (U : Unicode) (m : MetaModel) (u : CppUnit) : Prop where
  output : Output U m u.program
  enumerations : (m.enumerations.map (translateEnumeration U)).mapM enumerationTemplate =
    some u.enumerations
  nodup : ((declarations {
    enumerations := m.enumerations.map (translateEnumeration U)
    structures := m.structures.map (translateStructure U)
    typeAliases := m.typeAliases.map (translateAlias U) }).map Prod.fst).Nodup

theorem emitted_of_generate (hr : resolve U m = .ok (.ok p)) (hg : generateUnit p = some u) :
    Emitted U m u := by
  obtain ⟨hprogram, henumerations⟩ := generateUnit_eq_some hg
  obtain ⟨st, hrun, herr⟩ := resolve_eq_ok hr
  obtain ⟨_, _, _, _, _, _, -, -, -, -, -, hrefs, hscope, hst, hes, -⟩ := model_eq_ok hrun
  have hnodup := (resolveTypes_eq_ok hscope hrefs (hst ▸ herr)).2
  rw [hes] at hnodup henumerations
  exact ⟨output_of_generate hr hprogram, henumerations, hnodup⟩

section Strict

def withoutMixins (t : Protocol.Structure) : Protocol.Structure := { t with mixins := [] }

theorem withNested_strict (m : MetaModel) :
    withNested (m.strict.structures.map (translateStructure U)) =
      (withNested (m.structures.map (translateStructure U))).map withoutMixins := by
  simp only [withNested, MetaModel.strict, List.flatMap_map, List.map_flatMap]
  congr 1
  funext s
  rw [List.map_cons]
  have hnested : ∀ n ∈ (translateStructure U s).nestedStructures, withoutMixins n = n := by
    intro n hn
    obtain ⟨q, -, hq⟩ := List.mem_flatMap.mp hn
    obtain ⟨ps, -, rfl⟩ := List.mem_map.mp hq
    rfl
  rw [List.map_congr_left hnested, List.map_id']
  rfl

/-- The code of a metamodel is that of the strict one. -/
theorem Emitted.strict (h : Emitted U m u) : Emitted U m.strict u := by
  have hnames : ((withNested (m.structures.map (translateStructure U))).map withoutMixins).map
      (fun n => "::".intercalate n.nestedNames) =
      (withNested (m.structures.map (translateStructure U))).map
        fun n => "::".intercalate n.nestedNames := by
    rw [List.map_map]
    rfl
  refine ⟨⟨?_, h.output.aliases, ?_⟩, ?_, ?_⟩
  · obtain ⟨ns, hperm, hns⟩ := h.output.structures
    refine ⟨ns.map withoutMixins, ?_, ?_⟩
    · rw [withNested_strict]
      exact hperm.map _
    · rw [← hns, List.mapM_map]
      rfl
  · rw [withNested_strict, hnames]
    exact h.output.nodup
  · rw [← h.enumerations, MetaModel.strict, List.map_map, List.mapM_map, List.mapM_map]
    rfl
  · have hnodup := h.nodup
    rw [declarations, List.map_append, List.map_append, map_declarations] at hnodup ⊢
    rw [withNested_strict, hnames]
    simp only [MetaModel.strict, List.map_map] at hnodup ⊢
    exact hnodup

end Strict

namespace Emitted

/-- The code of every structure and every literal is generated. -/
theorem exists_structure (h : Emitted U m u) {s : Source} (hs : s ∈ m.sources U) :
    ∃ c ∈ u.program.structures, structureTemplate (resolvedSource U s) = some c ∧
      c.name = s.cppName U := by
  have hmem : resolvedSource U s ∈ withNested (m.structures.map (translateStructure U)) := by
    rw [withNested_eq]
    exact List.mem_map_of_mem hs
  obtain ⟨c, hc, hsc⟩ := h.output.exists_structure hmem
  exact ⟨c, hc, hsc, (emits_of_template hsc).name.trans (resolvedSource_name s)⟩

theorem source_of_mem (h : Emitted U m u) {c : CppStructure} (hc : c ∈ u.program.structures) :
    ∃ s ∈ m.sources U, structureTemplate (resolvedSource U s) = some c ∧ c.name = s.cppName U := by
  obtain ⟨n, hn, hnc⟩ := h.output.structure_of_mem hc
  rw [withNested_eq] at hn
  obtain ⟨s, hs, rfl⟩ := List.mem_map.mp hn
  exact ⟨s, hs, hnc, (emits_of_template hnc).name.trans (resolvedSource_name s)⟩

theorem exists_alias (h : Emitted U m u) {a : MetaModel.TypeAlias} (ha : a ∈ m.typeAliases) :
    ∃ ct, typeTemplate (translate U none a.type) = some ct ∧
      (U.className a.name, ct) ∈ u.program.aliases := by
  obtain ⟨as, hperm, has⟩ := h.output.aliases
  obtain ⟨d, hd, had⟩ := ListRelations.exists_of_mem_left (ListRelations.mapM_eq_some has)
    (hperm.mem_iff.mpr (List.mem_map_of_mem ha))
  obtain ⟨ct, hct, hpair⟩ := Option.bind_eq_some_iff.mp had
  cases hpair
  exact ⟨ct, hct, hd⟩

theorem alias_of_mem (h : Emitted U m u) {name : String} {ct : CppType}
    (ha : (name, ct) ∈ u.program.aliases) : ∃ a ∈ m.typeAliases, U.className a.name = name ∧
      typeTemplate (translate U none a.type) = some ct := by
  obtain ⟨as, hperm, has⟩ := h.output.aliases
  obtain ⟨d, hd, had⟩ := ListRelations.exists_of_mem_right (ListRelations.mapM_eq_some has) ha
  obtain ⟨a, ham, rfl⟩ := List.mem_map.mp (hperm.mem_iff.mp hd)
  obtain ⟨ct', hct, hpair⟩ := Option.bind_eq_some_iff.mp had
  cases hpair
  exact ⟨a, ham, rfl, hct⟩

theorem exists_enumeration (h : Emitted U m u) {e : MetaModel.Enumeration}
    (he : e ∈ m.enumerations) {E : Lsp.Enumeration} (hE : e.Means U E) :
    E.generated ∈ u.enumerations := by
  obtain ⟨c, hc, hec⟩ := ListRelations.exists_of_mem_left
    (ListRelations.mapM_eq_some h.enumerations) (List.mem_map_of_mem he)
  rw [enumerationTemplate_means hE, Option.some.injEq] at hec
  rw [hec]
  exact hc

/-- No name is declared twice in the generated code. -/
theorem names_nodup (h : Emitted U m u) : (u.program.aliases.map Prod.fst ++
    u.program.structures.map CppStructure.name ++
      u.enumerations.map CppEnumeration.name).Nodup := by
  have hnodup := h.nodup
  rw [declarations, List.map_append, List.map_append, map_declarations] at hnodup
  have hstructures : (u.program.structures.map CppStructure.name).Perm
      ((withNested (m.structures.map (translateStructure U))).map fun n =>
        "::".intercalate n.nestedNames) := by
    obtain ⟨ns, hperm, hns⟩ := h.output.structures
    have hnames : u.program.structures.map CppStructure.name =
        ns.map fun n => "::".intercalate n.nestedNames :=
      ListRelations.map_eq_map (ListRelations.mapM_eq_some hns) fun n c hc =>
        (emits_of_template hc).name
    rw [hnames]
    exact hperm.map _
  have henumerations : u.enumerations.map CppEnumeration.name =
      (m.enumerations.map (translateEnumeration U)).map Protocol.Enumeration.name := by
    refine ListRelations.map_eq_map (ListRelations.mapM_eq_some h.enumerations) fun e c hc => ?_
    obtain ⟨T, -, hc⟩ := Option.bind_eq_some_iff.mp hc
    obtain ⟨values, -, hc⟩ := Option.bind_eq_some_iff.mp hc
    rw [Option.ite_none_right_eq_some] at hc
    cases hc.2
    rfl
  have hperm := ((h.output.aliasNames.append hstructures).append
    (List.Perm.of_eq henumerations)).nodup_iff
  rw [hperm]
  refine (List.Perm.nodup_iff ?_).mp hnodup
  simp only [List.map_map, List.append_assoc]
  exact List.perm_append_comm.append_left _

end Emitted

end Units

section Types

theorem forall_zip {lts : List LspType} {ts : List MetaModel.TypeImpl} {cts : List CppType}
    {Q : MetaModel.TypeImpl → CppType → Prop} {R : CppType → LspType → Prop}
    (hl : ts.length = lts.length) (hts : List.Forall₂ Q ts cts)
    (h : ∀ q ∈ ts.zip lts, ∀ ct, Q q.1 ct → R ct q.2) :
    cts.length = lts.length ∧ ∀ q ∈ cts.zip lts, R q.1 q.2 := by
  refine ⟨hts.length_eq.symm.trans hl, ?_⟩
  intro q hq
  obtain ⟨i, hi, rfl⟩ := List.mem_iff_getElem.mp hq
  rw [List.length_zip] at hi
  have hct : i < cts.length := by omega
  have hlt : i < lts.length := by omega
  have ht : i < ts.length := hl ▸ hlt
  rw [List.getElem_zip]
  exact h (ts[i], lts[i]) (ListRelations.mem_zip_getElem hl hlt) _ (List.Forall₂.get hts ht hct)

/-- The type that is printed stands for what the type means. -/
theorem stands_of_means (h : Emitted U m u) {scope : Option LiteralScope} {t : MetaModel.TypeImpl}
    {lt : LspType} (ht : Means U m scope t lt) {ct : CppType}
    (hct : typeTemplate (translate U scope t) = some ct) : u.Stands ct lt := by
  induction ht generalizing ct with
  | array _ ih =>
    rw [translate, typeTemplate] at hct
    obtain ⟨e, he, hct⟩ := Option.bind_eq_some_iff.mp hct
    cases hct
    exact .vector (ih he)
  | tuple hl _ ih =>
    rw [translate, typeTemplate] at hct
    obtain ⟨cts, hcts, hct⟩ := Option.bind_eq_some_iff.mp hct
    cases hct
    obtain ⟨hlen, hstands⟩ := forall_zip hl (typeTemplates_translateAll hcts) fun q hq ct => ih q hq
    exact .tuple hlen hstands
  | or hl _ ih =>
    rw [translate, typeTemplate] at hct
    obtain ⟨cts, hcts, hct⟩ := Option.bind_eq_some_iff.mp hct
    cases hct
    obtain ⟨hlen, hstands⟩ := forall_zip hl (typeTemplates_translateAll hcts) fun q hq ct => ih q hq
    exact .oneOf hlen hstands
  | map _ _ ihk ih =>
    rw [translate, typeTemplate] at hct
    obtain ⟨key, hkey, hct⟩ := Option.bind_eq_some_iff.mp hct
    obtain ⟨value, hvalue, hct⟩ := Option.bind_eq_some_iff.mp hct
    cases hct
    exact .map (ihk hkey) (ih hvalue)
  | typeAlias ha hname _ ih =>
    rw [translate, typeTemplate] at hct
    cases hct
    obtain ⟨ct, hct, hmem⟩ := h.exists_alias ha
    exact .typeAlias hmem hname (ih hct)
  | lspAny ha hname =>
    rw [translate, typeTemplate, hname] at hct
    cases hct
    obtain ⟨ct, hct, hmem⟩ := h.exists_alias ha
    rw [hname] at hmem
    exact .lspAny hmem
  | @declared scope s hs =>
    rw [translate, typeTemplate] at hct
    cases hct
    obtain ⟨c, hc, -, hname⟩ := h.exists_structure (MetaModel.declared_mem_sources hs)
    have hstands := CppUnit.Stands.declared hc
    rwa [hname] at hstands
  | @enumeration scope e E he _ hE =>
    rw [translate, typeTemplate] at hct
    cases hct
    have hname : E.name = U.className e.name := by
      cases hE <;> rfl
    rw [← hname]
    exact .enumeration (h.exists_enumeration he hE)
  | literal hs =>
    rw [translate, Option.map_some, Option.getD_some, typeTemplate] at hct
    cases hct
    obtain ⟨c, hc, -, hname⟩ := h.exists_structure hs
    have hstands := CppUnit.Stands.declared hc
    rwa [hname] at hstands
  | null => cases hct; exact .null
  | boolean => cases hct; exact .boolean
  | integer => cases hct; exact .integer
  | uinteger => cases hct; exact .uinteger
  | decimal => cases hct; exact .decimal
  | string => cases hct; exact .string
  | documentUri => cases hct; exact .documentUri
  | uri => cases hct; exact .uri

end Types

section Structures

/-- The members and the blocks that the template prints for a structure. -/
structure Printed (t : Protocol.Structure) (c : CppStructure) (names kinds : List String)
    (decodes : List DecodeBlock) (encodes : List EncodeBlock) : Prop where
  extendsTypes : List.Forall₂ (fun base name => typeName base = some name) t.extendsTypes names
  bases : c.bases = names.map .named
  members : List.Forall₂ (fun p m => propertyTemplate p = some m) t.properties c.members
  kindValues : (kindTexts t).mapM literal = some kinds
  decodeProperties : List.Forall₂ (fun p b => decodeProperty p = some b) t.properties decodes
  encodeProperties : List.Forall₂ (fun p b => encodeProperty p = some b) t.properties encodes
  decode : c.decode = kinds.map .matchKind ++ decodes ++ names.map .base
  encodeMembers : c.encodeMembers = kinds.map .kind ++ encodes ++ names.map .base

theorem printed_of_template {t : Protocol.Structure} {c : CppStructure}
    (h : structureTemplate t = some c) :
    ∃ names kinds decodes encodes, Printed t c names kinds decodes encodes := by
  obtain ⟨bases, hbases, h⟩ := Option.bind_eq_some_iff.mp h
  obtain ⟨members, hmembers, h⟩ := Option.bind_eq_some_iff.mp h
  obtain ⟨kinds, hkinds, h⟩ := Option.bind_eq_some_iff.mp h
  obtain ⟨decodes, hdecodes, h⟩ := Option.bind_eq_some_iff.mp h
  obtain ⟨encodes, hencodes, h⟩ := Option.bind_eq_some_iff.mp h
  obtain ⟨names, hnames, h⟩ := Option.bind_eq_some_iff.mp h
  cases h
  refine ⟨names, kinds, decodes, encodes, ListRelations.mapM_eq_some hnames, ?_,
    ListRelations.mapM_eq_some hmembers, hkinds, ListRelations.mapM_eq_some hdecodes,
    ListRelations.mapM_eq_some hencodes, rfl, rfl⟩
  have hnamed : t.extendsTypes.mapM typeTemplate = some (names.map .named) := by
    apply ListRelations.mapM_of_forall₂
    rw [List.forall₂_map_right_iff]
    refine (ListRelations.mapM_eq_some hnames).imp fun base name hname => ?_
    cases base with
    | reference n =>
      cases hname
      rfl
    | _ => cases hname
  rw [hbases, Option.some.injEq] at hnamed
  exact hnamed

/-- The members, the blocks and the meaning of the properties of a structure, side by side. -/
theorem zipWith_eq {α β γ δ : Type} {R : α → β → Prop} {S : α → γ → Prop} {T : α → δ → Prop}
    {f : β → γ → δ} {as : List α} {bs : List β} {cs : List γ} {ds : List δ}
    (hb : List.Forall₂ R as bs) (hc : List.Forall₂ S as cs) (hd : List.Forall₂ T as ds)
    (h : ∀ a b c d, R a b → S a c → T a d → f b c = d) : List.zipWith f bs cs = ds := by
  induction hb generalizing cs ds with
  | nil =>
    cases hc
    cases hd
    rfl
  | cons hab _ ih =>
    cases hc with
    | cons hac hc =>
      cases hd with
      | cons had hd => rw [List.zipWith_cons_cons, h _ _ _ _ hab hac had, ih hc hd]

theorem forall₂_of_common {α β γ : Type} {R : α → β → Prop} {S : α → γ → Prop}
    {T : β → γ → Prop} {as : List α} {bs : List β} {cs : List γ} (hb : List.Forall₂ R as bs)
    (hc : List.Forall₂ S as cs) (h : ∀ a b c, R a b → S a c → T b c) : List.Forall₂ T bs cs := by
  induction hb generalizing cs with
  | nil =>
    cases hc
    exact .nil
  | cons hab _ ih =>
    cases hc with
    | cons hac hc => exact .cons (h _ _ _ hab hac) (ih hc)

theorem property_of_means (h : Emitted U m u) {scope : LiteralScope} {q : MetaModel.Property}
    {lq : Lsp.Property} (hq : PropertyMeans U m scope q lq) {d : Bool × CppType × String}
    (hd : propertyTemplate (translateProperty U (some scope) q) = some d) :
    (d.1 = lq.optional ∧ u.Stands d.2.1 lq.type) ∧
      decodeProperty (translateProperty U (some scope) q) = some (CppUnit.decodeBlock d lq) ∧
      encodeProperty (translateProperty U (some scope) q) = some (CppUnit.encodeBlock d lq) := by
  obtain ⟨hverbatim, hname, hoptional, hmeans⟩ := hq
  obtain ⟨ct, hct, hd⟩ := Option.bind_eq_some_iff.mp hd
  cases hd
  refine ⟨⟨hoptional.symm, stands_of_means h hmeans hct⟩, ?_, ?_⟩
  · rw [decodeProperty, CppUnit.decodeBlock, hname, hoptional, hct]
    cases ho : q.optional with
    | true => simp [translateProperty, ho, literal_of_verbatim hverbatim]
    | false => simp [translateProperty, ho, literal_of_verbatim hverbatim]
  · rw [encodeProperty, CppUnit.encodeBlock, hname, hoptional, translateProperty,
      literal_of_verbatim hverbatim]
    rfl

theorem kinds_of_means {s : Source} (hkind : s.KindMeans s.kind) {kinds : List String}
    (h : (kindTexts (resolvedSource U s)).mapM literal = some kinds) : kinds = s.kind.toList := by
  rw [kindTexts_resolvedSource] at h
  cases hk : s.kind with
  | none =>
    rw [hk] at h
    cases h
    rfl
  | some k =>
    have hliteral := literal_of_verbatim (hkind.verbatim k hk)
    simp only [hk, Option.toList_some, List.mapM_cons, List.mapM_nil, hliteral] at h
    cases h
    rfl

/-- The printed data members and blocks are those for the properties that are meant. -/
theorem fields_of_means (h : Emitted U m u) {s : Source} {c : CppStructure}
    {names kinds : List String} {decodes : List DecodeBlock} {encodes : List EncodeBlock}
    (hp : Printed (resolvedSource U s) c names kinds decodes encodes)
    (hdistinct : (c.members.map fun m => m.2.2).Nodup ∧ c.bases.Nodup)
    (hkind : s.KindMeans s.kind) {ps : List Lsp.Property}
    (hps : List.Forall₂ (fun p q => PropertyMeans U m (s.scope U p) p q) s.properties ps) :
    u.Fields c s.kind ps names := by
  have hmembers := hp.members
  have hdecodes := hp.decodeProperties
  have hencodes := hp.encodeProperties
  rw [resolvedSource_properties, List.forall₂_map_left_iff] at hmembers hdecodes hencodes
  have hkinds := kinds_of_means hkind hp.kindValues
  refine ⟨?_, hdistinct.1, hp.bases, ?_, ?_, ?_⟩
  · exact forall₂_of_common hmembers hps fun q d lq hd hq => (property_of_means h hq hd).1
  · have hnodup := hdistinct.2
    rw [hp.bases] at hnodup
    exact hnodup.of_map _
  · have hdecode : List.zipWith CppUnit.decodeBlock c.members ps = decodes := by
      refine zipWith_eq hmembers hps hdecodes fun q d lq b hd hq hb => ?_
      rw [(property_of_means h hq hd).2.1, Option.some.injEq] at hb
      exact hb
    rw [hp.decode, hkinds, hdecode]
  · have hencode : List.zipWith CppUnit.encodeBlock c.members ps = encodes := by
      refine zipWith_eq hmembers hps hencodes fun q d lq b hd hq hb => ?_
      rw [(property_of_means h hq hd).2.2, Option.some.injEq] at hb
      exact hb
    rw [hp.encodeMembers, hkinds, hencode]

/-- A base is the code of the structure that its name stands for. -/
theorem denotes_of_names (h : Emitted U m u) {name : String} {s : MetaModel.Structure}
    (hs : MetaModel.Names m name s) : ∃ c ∈ u.program.structures,
      u.program.Denotes (U.className name) c ∧
        structureTemplate (resolvedSource U (.declared s)) = some c := by
  induction hs with
  | @declared s hs =>
    obtain ⟨c, hc, hsc, hname⟩ := h.exists_structure (MetaModel.declared_mem_sources hs)
    have hdenotes := CppProgram.Denotes.declared hc
    rw [hname] at hdenotes
    exact ⟨c, hc, hdenotes, hsc⟩
  | @typeAlias a name s ha ht _ ih =>
    obtain ⟨c, hc, hdenotes, hsc⟩ := ih
    obtain ⟨ct, hct, hmem⟩ := h.exists_alias ha
    rw [ht, translate, typeTemplate, Option.some.injEq] at hct
    rw [← hct] at hmem
    exact ⟨c, hc, .typeAlias hmem hdenotes, hsc⟩

mutual

/-- The code of a structure implements the definition that the structure means. -/
theorem implements_of_means (h : Emitted U m u) (hdistinct : u.MembersDistinct)
    (d : Lsp.Structure) {s : Source} (hd : DefinitionMeans U m d s) {c : CppStructure}
    (hc : c ∈ u.program.structures) (hsc : structureTemplate (resolvedSource U s) = some c) :
    u.Implements d c := by
  cases d with
  | mk kind ps bs =>
    obtain ⟨hkind, -, hps, hbs⟩ := hd
    obtain rfl := hkind.eq
    obtain ⟨names, kinds, decodes, encodes, hp⟩ := printed_of_template hsc
    have hnames := hp.extendsTypes
    rw [resolvedSource_extendsTypes, List.forall₂_map_left_iff] at hnames
    exact ⟨names, fields_of_means h hp (hdistinct c hc) hkind hps,
      implementsBases_of_means h hdistinct bs hbs hnames⟩

theorem implementsBases_of_means (h : Emitted U m u) (hdistinct : u.MembersDistinct)
    (bs : List Lsp.Structure) {ts : List MetaModel.TypeImpl} (hbs : BasesMean U m bs ts)
    {names : List String}
    (hnames : List.Forall₂ (fun t name => typeName (translate U none t) = some name) ts names) :
    u.ImplementsBases bs names := by
  cases bs with
  | nil =>
    cases hnames with
    | nil => trivial
    | cons _ _ => exact hbs.elim
  | cons b bs =>
    cases hnames with
    | nil => exact hbs.elim
    | @cons t name ts names hname hnames =>
      obtain ⟨⟨base, s, rfl, hs, hb⟩, hbs⟩ := hbs
      rw [translate, typeName, Option.some.injEq] at hname
      subst hname
      obtain ⟨c, hc, hdenotes, hsc⟩ := denotes_of_names h hs
      exact ⟨⟨c, hdenotes, implements_of_means h hdistinct b hb hc hsc⟩,
        implementsBases_of_means h hdistinct bs hbs hnames⟩

end

end Structures

section Units

theorem lspAny_of_declares (h : Emitted U m u) (hm : Declares U m env) {ct : CppType}
    (hct : ("LSPAny", ct) ∈ u.program.aliases) : ct = .oneOf CppUnit.lspAnyTypes ∧
      ("LSPObject", .map .string (.named "LSPAny")) ∈ u.program.aliases ∧
        ("LSPArray", .vector (.named "LSPAny")) ∈ u.program.aliases := by
  obtain ⟨a, ha, hname, hct⟩ := h.alias_of_mem hct
  obtain ⟨o, ho, r, hr, honame, hrname, hot, hrt, hat⟩ := hm.lspAny a ha hname
  obtain ⟨cto, hcto, homem⟩ := h.exists_alias ho
  obtain ⟨ctr, hctr, hrmem⟩ := h.exists_alias hr
  rw [hot] at hcto
  rw [hrt] at hctr
  rw [hat] at hct
  simp only [translate, translateAll, baseType, typeTemplate, typeTemplates, honame, hrname, hname,
    Option.getD_some, bind, Option.bind, pure, Option.some.injEq] at hct hcto hctr
  subst hct hcto hctr
  rw [honame] at homem
  rw [hrname] at hrmem
  exact ⟨rfl, homem, hrmem⟩

/-- The code that is generated for an accepted metamodel compiles to what the metamodel means. -/
theorem compiles_of_declares (h : Emitted U m u) (hdistinct : u.MembersDistinct)
    (hm : Declares U m env) : u.Compiles env where
  names := h.names_nodup
  ordered := hm.ordered
  structures c hc := by
    obtain ⟨s, hs, hsc, hname⟩ := h.source_of_mem hc
    obtain ⟨hmem, hmeans⟩ := hm.definitions s hs
    rw [hname]
    exact ⟨hmem, implements_of_means h hdistinct _ hmeans hc hsc⟩
  lspAny ct hct := lspAny_of_declares h hm hct

end Units

end Resolver

end Langsvr
