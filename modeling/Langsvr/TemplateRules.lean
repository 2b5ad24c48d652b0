import Langsvr.DeclarationSorts
import Langsvr.GeneratedCode

/-!
# What the templates generate

The members and the bases that the generated functions of a structure name, and the order in
which nested structures follow the structures that contain them.
-/

namespace Langsvr

namespace Templates

open Protocol (TypeImpl)

/-- The texts that the functions of a structure have for the names of their own members. -/
def ownMembers (s : Protocol.Structure) : List String :=
  (kindTexts s).map (fun _ => "kind") ++ s.properties.map Protocol.Property.jsonName

section Structures

variable {s : Protocol.Structure} {c : CppStructure}

theorem decodeProperty_eq_some {p : Protocol.Property} {b : DecodeBlock}
    (h : decodeProperty p = some b) : ∃ name, literal p.jsonName = some name ∧
      b.memberName = some name ∧ b.baseName = none := by
  obtain ⟨name, hname, h⟩ := Option.bind_eq_some_iff.mp h
  refine ⟨name, hname, ?_⟩
  cases ho : p.optional with
  | true =>
    rw [if_pos ho] at h
    obtain ⟨t, -, h⟩ := Option.bind_eq_some_iff.mp h
    cases h
    exact ⟨rfl, rfl⟩
  | false =>
    rw [if_neg (by simp [ho])] at h
    cases h
    exact ⟨rfl, rfl⟩

theorem encodeProperty_eq_some {p : Protocol.Property} {b : EncodeBlock}
    (h : encodeProperty p = some b) : ∃ name, literal p.jsonName = some name ∧
      b.memberName = some name ∧ b.baseName = none := by
  obtain ⟨name, hname, h⟩ := Option.bind_eq_some_iff.mp h
  cases h
  refine ⟨name, hname, ?_⟩
  cases p.optional with
  | true => exact ⟨rfl, rfl⟩
  | false => exact ⟨rfl, rfl⟩

def Values : List String → List String → Prop :=
  List.Forall₂ fun text name => literal text = some name

theorem Values.mem_iff {texts names : List String} (h : Values texts names) {name : String} :
    name ∈ names ↔ ∃ text ∈ texts, literal text = some name := by
  constructor
  · exact ListRelations.exists_of_mem_right h
  · intro ht
    obtain ⟨text, htext, hname⟩ := ht
    obtain ⟨name', hmem, hname'⟩ := ListRelations.exists_of_mem_left h htext
    rw [hname, Option.some.injEq] at hname'
    rwa [hname']

structure Emits (s : Protocol.Structure) (c : CppStructure) : Prop where
  name : c.name = "::".intercalate s.nestedNames
  decodeMembers : Values (ownMembers s) (c.decode.filterMap DecodeBlock.memberName)
  decodeBases : c.decode.filterMap DecodeBlock.baseName = s.extendsTypes.filterMap typeName
  encodeMembers : Values (ownMembers s) (c.encodeMembers.filterMap EncodeBlock.memberName)
  encodeBases : c.encodeMembers.filterMap EncodeBlock.baseName = s.extendsTypes.filterMap typeName
  types : ∀ p ∈ s.properties, typeTemplate p.type ≠ none

theorem filterMap_blocks {α β : Type} {R : α → β → Prop} {jsonName : α → String} {ps : List α}
    {blocks : List β} (member base : β → Option String) (kindBlock baseBlock : String → β)
    (kinds names : List String) (hblocks : List.Forall₂ R ps blocks)
    (hkind : ∀ k, member (kindBlock k) = some "kind" ∧ base (kindBlock k) = none)
    (hbase : ∀ n, member (baseBlock n) = none ∧ base (baseBlock n) = some n)
    (hproperty : ∀ p b, R p b → ∃ name, literal (jsonName p) = some name ∧
      member b = some name ∧ base b = none) :
    Values (kinds.map (fun _ => "kind") ++ ps.map jsonName)
        ((kinds.map kindBlock ++ blocks ++ names.map baseBlock).filterMap member) ∧
      (kinds.map kindBlock ++ blocks ++ names.map baseBlock).filterMap base = names := by
  have hkinds : Values (kinds.map fun _ => "kind") (kinds.map fun _ => "kind") := by
    apply List.forall₂_same.mpr
    intro text htext
    obtain ⟨k, -, rfl⟩ := List.mem_map.mp htext
    exact literal_of_verbatim (by decide)
  have hmembers : Values (ps.map jsonName) (blocks.filterMap member) := by
    rw [Values, List.forall₂_map_left_iff]
    induction hblocks with
    | nil => exact .nil
    | cons hpb _ ih =>
      obtain ⟨name, hname, hmember, -⟩ := hproperty _ _ hpb
      rw [List.filterMap_cons_some hmember]
      exact .cons hname ih
  have hnone : blocks.filterMap base = [] := by
    apply List.filterMap_eq_nil_iff.mpr
    intro b hb
    obtain ⟨p, -, hp⟩ := ListRelations.exists_of_mem_right hblocks hb
    obtain ⟨-, -, -, hbase⟩ := hproperty p b hp
    exact hbase
  have hkindMember : member ∘ kindBlock = some ∘ fun _ => "kind" := by
    funext k
    exact (hkind k).1
  have hkindBase : base ∘ kindBlock = fun _ => none := by
    funext k
    exact (hkind k).2
  have hbaseMember : member ∘ baseBlock = fun _ => none := by
    funext n
    exact (hbase n).1
  have hbaseBase : base ∘ baseBlock = some := by
    funext n
    exact (hbase n).2
  constructor
  · rw [List.filterMap_append, List.filterMap_append, List.filterMap_map, List.filterMap_map,
      hkindMember, hbaseMember, List.filterMap_eq_map, List.filterMap_none, List.append_nil]
    exact List.rel_append hkinds hmembers
  · rw [List.filterMap_append, List.filterMap_append, List.filterMap_map, List.filterMap_map,
      hnone, hkindBase, hbaseBase, List.filterMap_none, List.filterMap_some, List.append_nil,
      List.nil_append]

theorem emits_of_template (h : structureTemplate s = some c) : Emits s c := by
  obtain ⟨bases, hbases, h⟩ := Option.bind_eq_some_iff.mp h
  obtain ⟨members, hmembers, h⟩ := Option.bind_eq_some_iff.mp h
  obtain ⟨kinds, hkinds, h⟩ := Option.bind_eq_some_iff.mp h
  obtain ⟨decodes, hdecodes, h⟩ := Option.bind_eq_some_iff.mp h
  obtain ⟨encodes, hencodes, h⟩ := Option.bind_eq_some_iff.mp h
  obtain ⟨names, hnames, h⟩ := Option.bind_eq_some_iff.mp h
  cases h
  have hnames' : names = s.extendsTypes.filterMap typeName := by
    have hsome := ListRelations.filterMap_eq_filterMap (f := typeName) (g := some)
      (ListRelations.mapM_eq_some hnames) fun t name ht => ht.symm
    rwa [List.filterMap_some] at hsome
  have htypes : ∀ p ∈ s.properties, typeTemplate p.type ≠ none := by
    intro p hp
    obtain ⟨member, -, hmember⟩ :=
      ListRelations.exists_of_mem_left (ListRelations.mapM_eq_some hmembers) hp
    obtain ⟨t, ht, -⟩ := Option.bind_eq_some_iff.mp hmember
    rw [ht]
    simp
  have hown : ownMembers s =
      kinds.map (fun _ => "kind") ++ s.properties.map Protocol.Property.jsonName := by
    rw [ownMembers, List.map_const', List.map_const',
      (ListRelations.mapM_eq_some hkinds).length_eq]
  have hdecode := filterMap_blocks DecodeBlock.memberName DecodeBlock.baseName .matchKind .base
    kinds names (ListRelations.mapM_eq_some hdecodes) (fun k => ⟨rfl, rfl⟩) (fun n => ⟨rfl, rfl⟩)
    fun p b hb => decodeProperty_eq_some hb
  have hencode := filterMap_blocks EncodeBlock.memberName EncodeBlock.baseName .kind .base
    kinds names (ListRelations.mapM_eq_some hencodes) (fun k => ⟨rfl, rfl⟩) (fun n => ⟨rfl, rfl⟩)
    fun p b hb => encodeProperty_eq_some hb
  rw [← hown, hnames'] at hdecode hencode
  rw [hnames']
  exact ⟨rfl, hdecode.1, hdecode.2, hencode.1, hencode.2, htypes⟩

end Structures

section Nested

variable {ss : List Protocol.Structure}

def withNested (ss : List Protocol.Structure) : List Protocol.Structure :=
  ss.flatMap fun s => s :: s.nestedStructures

theorem structureTemplates_eq (s : Protocol.Structure) : structureTemplates s = do
    let own ← structureTemplate s
    let nested ← nestedTemplates s.nestedStructures
    return own :: nested := by
  obtain ⟨name, extendsTypes, mixins, properties, kind, nestedStructures, nestedNames⟩ := s
  rw [structureTemplates]

theorem nestedTemplates_eq_mapM (h : ∀ s ∈ ss, s.nestedStructures = []) :
    nestedTemplates ss = ss.mapM structureTemplate := by
  induction ss with
  | nil => rw [nestedTemplates, List.mapM_nil]; rfl
  | cons s ss ih =>
    obtain ⟨hs, hss⟩ := List.forall_mem_cons.mp h
    rw [nestedTemplates, List.mapM_cons, structureTemplates_eq, hs, ih hss]
    cases structureTemplate s with
    | none => rfl
    | some own => simp [nestedTemplates]

/-- The code is generated structure by structure if no nested structure contains another. -/
theorem nestedTemplates_eq (h : ∀ s ∈ ss, ∀ n ∈ s.nestedStructures, n.nestedStructures = []) :
    nestedTemplates ss = (withNested ss).mapM structureTemplate := by
  induction ss with
  | nil => rw [nestedTemplates, withNested, List.flatMap_nil, List.mapM_nil]; rfl
  | cons s ss ih =>
    obtain ⟨hs, hss⟩ := List.forall_mem_cons.mp h
    have hcons : withNested (s :: ss) = (s :: s.nestedStructures) ++ withNested ss := rfl
    rw [nestedTemplates, hcons, List.mapM_append, List.mapM_cons, structureTemplates_eq,
      nestedTemplates_eq_mapM hs, ih hss]

end Nested

theorem typeTemplate_eq_named {t : TypeImpl} {name : String} :
    typeTemplate t = some (.named name) ↔ t = .reference name := by
  cases t with
  | array element => cases h : typeTemplate element <;> simp [typeTemplate, h]
  | or items => cases h : typeTemplates items <;> simp [typeTemplate, h]
  | tuple items => cases h : typeTemplates items <;> simp [typeTemplate, h]
  | map key value =>
    cases h : typeTemplate key <;> cases h' : typeTemplate value <;> simp [typeTemplate, h, h']
  | _ => simp [typeTemplate]

end Templates

end Langsvr
