import Langsvr.CompiledModels
import Langsvr.SchemaMatching

/-!
# JSON values that conform to a metamodel

When a JSON value conforms to a type of a metamodel, stated in terms of the metamodel alone. A
structure asks for what it and the structures that it extends or mixes in ask for, and an
enumeration with custom values for a value of its type. A value conforms to a type if and only if
it matches what the type means.
-/

namespace Langsvr

open Json (Value Member)
open Lsp (LspType Declarations Matches)

namespace Lsp.Structure

mutual

/-- The literal kind and the properties of a structure, and those of all its bases. -/
def parts : Lsp.Structure → List (Option String × List Lsp.Property)
  | .mk kind ps bs => (kind, ps) :: basesParts bs

def basesParts : List Lsp.Structure → List (Option String × List Lsp.Property)
  | [] => []
  | b :: bs => parts b ++ basesParts bs

end

theorem mem_basesParts {q : Option String × List Lsp.Property} {bs : List Lsp.Structure} :
    q ∈ basesParts bs ↔ ∃ b ∈ bs, q ∈ b.parts := by
  induction bs with
  | nil => simp [basesParts]
  | cons b bs ih => simp [basesParts, ih]

mutual

theorem literalKinds_eq_parts (s : Lsp.Structure) :
    s.literalKinds = s.parts.flatMap fun q => q.1.toList := by
  cases s with
  | mk kind ps bs => rw [literalKinds, parts, List.flatMap_cons, baseLiteralKinds_eq_parts bs]

theorem baseLiteralKinds_eq_parts (bs : List Lsp.Structure) :
    baseLiteralKinds bs = (basesParts bs).flatMap fun q => q.1.toList := by
  cases bs with
  | nil => rfl
  | cons b bs =>
    rw [baseLiteralKinds, basesParts, List.flatMap_append, literalKinds_eq_parts b,
      baseLiteralKinds_eq_parts bs]

end

mutual

theorem allProperties_eq_parts (s : Lsp.Structure) :
    s.allProperties = s.parts.flatMap Prod.snd := by
  cases s with
  | mk kind ps bs => rw [allProperties, parts, List.flatMap_cons, baseProperties_eq_parts bs]

theorem baseProperties_eq_parts (bs : List Lsp.Structure) :
    baseProperties bs = (basesParts bs).flatMap Prod.snd := by
  cases bs with
  | nil => rfl
  | cons b bs =>
    rw [baseProperties, basesParts, List.flatMap_append, allProperties_eq_parts b,
      baseProperties_eq_parts bs]

end

end Lsp.Structure

namespace MetaModel

def baseValue : String → Value → Prop
  | "null", v => v = .nullValue
  | "boolean", v => ∃ b, v = .booleanValue b
  | "integer", v => v.isInt64
  | "uinteger", v => v.isUInt64
  | "decimal", v => v.isDouble
  | "string", v | "DocumentUri", v | "URI", v | "RegExp", v => ∃ s, v = .stringValue s
  | _, _ => False

/-- The value of an entry of an enumeration. -/
inductive Enumeration.Lists (e : Enumeration) : Value → Prop
  | string {s : String} (ht : e.type = .base "string")
      (hv : ∃ v ∈ e.values, v.value.Denotes (.string s)) : Lists e (.stringValue s)
  | integer {w : Value} (ht : e.type = .base "integer") (hw : w.isInt64)
      (hv : ∃ v ∈ e.values, v.value.Denotes (.integer w.asInt64)) : Lists e w
  | uinteger {w : Value} (ht : e.type = .base "uinteger") (hw : w.isUInt64)
      (hv : ∃ v ∈ e.values, v.value.Denotes (.uinteger w.asUInt64)) : Lists e w

variable (m : MetaModel)

/-- A structure is the other one, or extends it or mixes it in, by itself or through others. -/
def Inherits : Structure → Structure → Prop :=
  Relation.ReflTransGen fun s t => ∃ name,
    TypeImpl.reference name ∈ s.extendsTypes ++ s.mixins ∧ Names m name t

/-- `Conforms m t v`: the JSON value `v` is a value of the type `t`. -/
inductive Conforms : TypeImpl → Value → Prop
  | base {name : String} {v : Value} (h : baseValue name v) : Conforms (.base name) v
  | stringLiteral {s : String} : Conforms (.stringLiteral s) (.stringValue s)
  | array {t : TypeImpl} {vs : List Value} (h : ∀ v ∈ vs, Conforms t v) :
      Conforms (.array t) (.arrayValue vs)
  | tuple {ts : List TypeImpl} {vs : List Value} (hl : ts.length = vs.length)
      (h : ∀ p ∈ ts.zip vs, Conforms p.1 p.2) : Conforms (.tuple ts) (.arrayValue vs)
  | map {key t : TypeImpl} {ms : List Member} (hk : ∀ m ∈ ms, Conforms key (.stringValue m.1))
      (h : ∀ m ∈ ms, Conforms t m.2) : Conforms (.map key t) (.objectValue ms)
  | and {ts : List TypeImpl} {v : Value} (h : ∀ t ∈ ts, Conforms t v) : Conforms (.and ts) v
  | or {ts : List TypeImpl} {t : TypeImpl} {v : Value} (ht : t ∈ ts) (h : Conforms t v) :
      Conforms (.or ts) v
  | typeAlias {a : TypeAlias} {v : Value} (ha : a ∈ m.typeAliases) (h : Conforms a.type v) :
      Conforms (.reference a.name) v
  | enumeration {e : Enumeration} {v : Value} (he : e ∈ m.enumerations) (h : e.Lists v) :
      Conforms (.reference e.name) v
  | custom {e : Enumeration} {v : Value} (he : e ∈ m.enumerations)
      (hcustom : e.supportsCustomValues = true) (h : Conforms e.type v) :
      Conforms (.reference e.name) v
  | declared {s : Structure} {ms : List Member} (hs : s ∈ m.structures)
      (hrequired : ∀ t, Inherits m s t → ∀ p ∈ t.properties, p.optional = false →
        ∃ v, List.lookup p.name ms = some v)
      (hproperties : ∀ t, Inherits m s t → ∀ p ∈ t.properties, ∀ v,
        List.lookup p.name ms = some v → Conforms p.type v) :
      Conforms (.reference s.name) (.objectValue ms)
  | literal {ps : List Property} {ms : List Member}
      (hrequired : ∀ p ∈ ps, p.optional = false → ∃ v, List.lookup p.name ms = some v)
      (hproperties : ∀ p ∈ ps, ∀ v, List.lookup p.name ms = some v → Conforms p.type v) :
      Conforms (.structureLiteral ps) (.objectValue ms)

/-- No name is declared twice. -/
def DeclaredOnce : Prop :=
  (m.typeAliases.map TypeAlias.name ++ m.enumerations.map Enumeration.name ++
    m.structures.map Structure.name).Nodup

section Declarations

variable {m}

theorem DeclaredOnce.typeAlias (h : m.DeclaredOnce) {a a' : TypeAlias} (ha : a ∈ m.typeAliases)
    (ha' : a' ∈ m.typeAliases) (hname : a.name = a'.name) : a = a' :=
  List.inj_on_of_nodup_map h.of_append_left.of_append_left ha ha' hname

theorem DeclaredOnce.enumeration (h : m.DeclaredOnce) {e e' : Enumeration}
    (he : e ∈ m.enumerations) (he' : e' ∈ m.enumerations) (hname : e.name = e'.name) : e = e' :=
  List.inj_on_of_nodup_map h.of_append_left.of_append_right he he' hname

theorem DeclaredOnce.structure (h : m.DeclaredOnce) {s s' : Structure} (hs : s ∈ m.structures)
    (hs' : s' ∈ m.structures) (hname : s.name = s'.name) : s = s' :=
  List.inj_on_of_nodup_map h.of_append_right hs hs' hname

theorem DeclaredOnce.alias_ne_enumeration (h : m.DeclaredOnce) {a : TypeAlias} {e : Enumeration}
    (ha : a ∈ m.typeAliases) (he : e ∈ m.enumerations) : a.name ≠ e.name := by
  intro hname
  apply List.disjoint_of_nodup_append h.of_append_left (List.mem_map_of_mem ha)
  rw [hname]
  exact List.mem_map_of_mem he

theorem DeclaredOnce.alias_ne_structure (h : m.DeclaredOnce) {a : TypeAlias} {s : Structure}
    (ha : a ∈ m.typeAliases) (hs : s ∈ m.structures) : a.name ≠ s.name := by
  intro hname
  apply List.disjoint_of_nodup_append h (List.mem_append_left _ (List.mem_map_of_mem ha))
  rw [hname]
  exact List.mem_map_of_mem hs

theorem DeclaredOnce.enumeration_ne_structure (h : m.DeclaredOnce) {e : Enumeration} {s : Structure}
    (he : e ∈ m.enumerations) (hs : s ∈ m.structures) : e.name ≠ s.name := by
  intro hname
  apply List.disjoint_of_nodup_append h (List.mem_append_right _ (List.mem_map_of_mem he))
  rw [hname]
  exact List.mem_map_of_mem hs

/-- A name stands for one structure at most. -/
theorem DeclaredOnce.names (h : m.DeclaredOnce) {name : String} {s s' : Structure}
    (hs : Names m name s) (hs' : Names m name s') : s = s' := by
  induction hs with
  | @declared s hs =>
    generalize hname : s.name = name at hs'
    cases hs' with
    | declared hs' => exact h.structure hs hs' hname
    | typeAlias ha _ _ => exact absurd hname.symm (h.alias_ne_structure ha hs)
  | @typeAlias a name s ha ht _ ih =>
    generalize hname : a.name = other at hs'
    cases hs' with
    | declared hs' => exact absurd hname (h.alias_ne_structure ha hs')
    | typeAlias ha' ht' hs' =>
      cases h.typeAlias ha ha' hname
      rw [ht] at ht'
      cases ht'
      exact ih hs'

end Declarations

section Parts

variable {m} {U : Unicode}

/-- The literal kind and the properties of a structure itself. -/
def PartMeans (U : Unicode) (m : MetaModel) (q : Option String × List Lsp.Property)
    (s : Structure) : Prop :=
  (Source.declared s).KindMeans q.1 ∧ List.Forall₂ (fun p lp =>
    PropertyMeans U m (Resolver.propertyScope U s p) p lp) s.ordinaryProperties q.2

mutual

/-- Every part of a definition is what some structure means that is inherited. -/
theorem inherits_of_part {d : Lsp.Structure} {s : Structure}
    (hd : DefinitionMeans U m d (.declared s)) {q : Option String × List Lsp.Property}
    (hq : q ∈ d.parts) : ∃ t, Inherits m s t ∧ PartMeans U m q t := by
  cases d with
  | mk kind ps bs =>
    obtain ⟨hkind, -, hps, hbs⟩ := hd
    rcases List.mem_cons.mp hq with rfl | hq
    · exact ⟨s, .refl, hkind, hps⟩
    · obtain ⟨name, hname, s', hs', t, ht, hqt⟩ := inherits_of_basesPart hbs hq
      exact ⟨t, .head ⟨name, List.mem_append_left _ hname, hs'⟩ ht, hqt⟩

theorem inherits_of_basesPart {bs : List Lsp.Structure} {ts : List TypeImpl}
    (hbs : BasesMean U m bs ts) {q : Option String × List Lsp.Property}
    (hq : q ∈ Lsp.Structure.basesParts bs) : ∃ name, .reference name ∈ ts ∧
      ∃ s, Names m name s ∧ ∃ t, Inherits m s t ∧ PartMeans U m q t := by
  cases bs with
  | nil => cases hq
  | cons b bs =>
    cases ts with
    | nil => exact hbs.elim
    | cons t ts =>
      obtain ⟨⟨name, s, rfl, hs, hb⟩, hbs⟩ := hbs
      rcases List.mem_append.mp hq with hq | hq
      · exact ⟨name, List.mem_cons_self .., s, hs, inherits_of_part hb hq⟩
      · obtain ⟨name', hname', hrest⟩ := inherits_of_basesPart hbs hq
        exact ⟨name', List.mem_cons_of_mem _ hname', hrest⟩

end

theorem exists_base {bs : List Lsp.Structure} {ts : List TypeImpl} (hbs : BasesMean U m bs ts)
    {name : String} (hname : .reference name ∈ ts) :
    ∃ b ∈ bs, ∃ s, Names m name s ∧ DefinitionMeans U m b (.declared s) := by
  induction ts generalizing bs with
  | nil => cases hname
  | cons t ts ih =>
    cases bs with
    | nil => exact hbs.elim
    | cons b bs =>
      obtain ⟨⟨name', s, rfl, hs, hb⟩, hbs⟩ := hbs
      rcases List.mem_cons.mp hname with heq | hname
      · cases heq
        exact ⟨b, List.mem_cons_self .., s, hs, hb⟩
      · obtain ⟨b', hb', hrest⟩ := ih hbs hname
        exact ⟨b', List.mem_cons_of_mem _ hb', hrest⟩

theorem part_of_inherits (hu : m.DeclaredOnce) {s t : Structure} (ht : Inherits m s t)
    {d : Lsp.Structure} (hd : DefinitionMeans U m d (.declared s)) :
    ∃ q ∈ d.parts, PartMeans U m q t := by
  induction ht using Relation.ReflTransGen.head_induction_on generalizing d with
  | refl =>
    cases d with
    | mk kind ps bs =>
      obtain ⟨hkind, -, hps, -⟩ := hd
      exact ⟨(kind, ps), List.mem_cons_self .., hkind, hps⟩
  | head hst _ ih =>
    obtain ⟨name, hname, hs'⟩ := hst
    cases d with
    | mk kind ps bs =>
      obtain ⟨-, hmixins, -, hbs⟩ := hd
      rw [Source.mixins] at hmixins
      rw [hmixins, List.append_nil] at hname
      obtain ⟨b, hb, s'', hs'', hbd⟩ := exists_base hbs hname
      cases hu.names hs' hs''
      obtain ⟨q, hq, hqt⟩ := ih hbd
      exact ⟨q, List.mem_cons_of_mem _ (Lsp.Structure.mem_basesParts.mpr ⟨b, hb, hq⟩), hqt⟩

theorem Source.KindMeans.eq_some_iff {t : Structure} {kind : Option String}
    (h : (Source.declared t).KindMeans kind) {k : String} :
    kind = some k ↔ ∃ p ∈ t.properties, p.literalKind = some k := by
  constructor
  · intro hk
    rw [h.eq, Source.kind, Option.ite_none_right_eq_some, Option.some.injEq] at hk
    obtain ⟨hne, rfl⟩ := hk
    cases hlast : (t.properties.filterMap PropertyOf.literalKind).getLast? with
    | none =>
      rw [Structure.kind, hlast] at hne
      exact absurd rfl hne
    | some v =>
      rw [Structure.kind, hlast]
      exact List.mem_filterMap.mp (List.mem_of_getLast? hlast)
  · intro hp
    obtain ⟨p, hp, hk⟩ := hp
    exact (h.literals p hp k hk).2

theorem mem_literalKinds (hu : m.DeclaredOnce) {d : Lsp.Structure} {s : Structure}
    (hd : DefinitionMeans U m d (.declared s)) {k : String} :
    k ∈ d.literalKinds ↔ ∃ t, Inherits m s t ∧ ∃ p ∈ t.properties, p.literalKind = some k := by
  rw [Lsp.Structure.literalKinds_eq_parts, List.mem_flatMap]
  constructor
  · intro h
    obtain ⟨q, hq, hk⟩ := h
    obtain ⟨t, ht, hqt, -⟩ := inherits_of_part hd hq
    exact ⟨t, ht, hqt.eq_some_iff.mp (Option.mem_toList.mp hk)⟩
  · intro h
    obtain ⟨t, ht, hk⟩ := h
    obtain ⟨q, hq, hqt, -⟩ := part_of_inherits hu ht hd
    exact ⟨q, hq, Option.mem_toList.mpr (hqt.eq_some_iff.mpr hk)⟩

theorem required_of_inherits (hu : m.DeclaredOnce) {d : Lsp.Structure} {s t : Structure}
    (hd : DefinitionMeans U m d (.declared s)) (ht : Inherits m s t) {p : Property}
    (hp : p ∈ t.properties) {k : String} (hk : p.literalKind = some k) : p.optional = false := by
  obtain ⟨q, -, hqt, -⟩ := part_of_inherits hu ht hd
  exact (hqt.literals p hp k hk).1

/-- The properties of a definition mean those of the structures that are inherited. -/
theorem forall_allProperties (hu : m.DeclaredOnce) {d : Lsp.Structure} {s : Structure}
    (hd : DefinitionMeans U m d (.declared s)) {P : Property → Prop} {Q : Lsp.Property → Prop}
    (hPQ : ∀ scope p q, PropertyMeans U m scope p q → (P p ↔ Q q)) :
    (∀ q ∈ d.allProperties, Q q) ↔ ∀ t, Inherits m s t → ∀ p ∈ t.ordinaryProperties, P p := by
  rw [Lsp.Structure.allProperties_eq_parts]
  constructor
  · intro h t ht p hp
    obtain ⟨part, hpart, -, hmeans⟩ := part_of_inherits hu ht hd
    obtain ⟨q, hq, hpq⟩ := ListRelations.exists_of_mem_left hmeans hp
    exact (hPQ _ p q hpq).mpr (h q (List.mem_flatMap.mpr ⟨part, hpart, hq⟩))
  · intro h q hq
    obtain ⟨part, hpart, hq⟩ := List.mem_flatMap.mp hq
    obtain ⟨t, ht, -, hmeans⟩ := inherits_of_part hd hpart
    obtain ⟨p, hp, hpq⟩ := ListRelations.exists_of_mem_right hmeans hq
    exact (hPQ _ p q hpq).mp (h t ht p hp)

end Parts

section Inversion

variable {m}

theorem conforms_base {name : String} {v : Value} :
    Conforms m (.base name) v ↔ baseValue name v := by
  constructor
  · intro h
    cases h with
    | base h => exact h
  · exact .base

theorem conforms_alias (hu : m.DeclaredOnce) {a : TypeAlias} (ha : a ∈ m.typeAliases) {v : Value} :
    Conforms m (.reference a.name) v ↔ Conforms m a.type v := by
  constructor
  · intro h
    generalize hname : a.name = name at h
    cases h with
    | typeAlias ha' h => rwa [hu.typeAlias ha ha' hname]
    | enumeration he _ | custom he _ _ => exact absurd hname (hu.alias_ne_enumeration ha he)
    | declared hs _ _ => exact absurd hname (hu.alias_ne_structure ha hs)
  · exact .typeAlias ha

theorem conforms_enumeration (hu : m.DeclaredOnce) {e : Enumeration} (he : e ∈ m.enumerations)
    (hclosed : e.supportsCustomValues = false) {v : Value} :
    Conforms m (.reference e.name) v ↔ e.Lists v := by
  constructor
  · intro h
    generalize hname : e.name = name at h
    cases h with
    | typeAlias ha _ => exact absurd hname.symm (hu.alias_ne_enumeration ha he)
    | enumeration he' h => rwa [hu.enumeration he he' hname]
    | custom he' hcustom _ =>
      rw [← hu.enumeration he he' hname, hclosed] at hcustom
      cases hcustom
    | declared hs _ _ => exact absurd hname (hu.enumeration_ne_structure he hs)
  · exact .enumeration he

/-- An object has what a property asks for. -/
def Property.Holds (m : MetaModel) (ms : List Member) (p : Property) : Prop :=
  (p.optional = false → ∃ v, List.lookup p.name ms = some v) ∧
    ∀ v, List.lookup p.name ms = some v → Conforms m p.type v

theorem conforms_structure (hu : m.DeclaredOnce) {s : Structure} (hs : s ∈ m.structures)
    {v : Value} : Conforms m (.reference s.name) v ↔ ∃ ms, v = .objectValue ms ∧
      ∀ t, Inherits m s t → ∀ p ∈ t.properties, p.Holds m ms := by
  constructor
  · intro h
    generalize hname : s.name = name at h
    cases h with
    | typeAlias ha _ => exact absurd hname.symm (hu.alias_ne_structure ha hs)
    | enumeration he _ | custom he _ _ =>
      exact absurd hname.symm (hu.enumeration_ne_structure he hs)
    | declared hs' hrequired hproperties =>
      cases hu.structure hs hs' hname
      exact ⟨_, rfl, fun t ht p hp => ⟨hrequired t ht p hp, hproperties t ht p hp⟩⟩
  · intro h
    obtain ⟨ms, rfl, hproperties⟩ := h
    exact .declared hs (fun t ht p hp => (hproperties t ht p hp).1)
      fun t ht p hp => (hproperties t ht p hp).2

theorem Property.holds_literalKind {ms : List Member} {p : Property} {k : String}
    (hk : p.literalKind = some k) (hrequired : p.optional = false) :
    p.Holds m ms ↔ List.lookup "kind" ms = some (.stringValue k) := by
  obtain ⟨hname, htype⟩ := Resolver.literalKind_eq_some.mp hk
  rw [Property.Holds, hname, htype]
  constructor
  · intro h
    obtain ⟨v, hv⟩ := h.1 hrequired
    cases h.2 v hv
    exact hv
  · intro h
    refine ⟨fun _ => ⟨_, h⟩, fun v hv => ?_⟩
    rw [h] at hv
    cases hv
    exact .stringLiteral

theorem conforms_literal {ps : List Property} {v : Value} : Conforms m (.structureLiteral ps) v ↔
    ∃ ms, v = .objectValue ms ∧ ∀ p ∈ ps, p.Holds m ms := by
  constructor
  · intro h
    cases h with
    | literal hrequired hproperties =>
      exact ⟨_, rfl, fun p hp => ⟨hrequired p hp, hproperties p hp⟩⟩
  · intro h
    obtain ⟨ms, rfl, hproperties⟩ := h
    exact .literal (fun p hp => (hproperties p hp).1) fun p hp => (hproperties p hp).2

end Inversion

section Matching

variable {m} {U : Unicode} {env : Declarations} {v : Value}

theorem matches_null : Matches env .null v ↔ v = .nullValue := by
  constructor
  · rintro ⟨⟩
    rfl
  · rintro rfl
    exact .null

theorem matches_boolean : Matches env .boolean v ↔ ∃ b, v = .booleanValue b := by
  constructor
  · rintro ⟨⟩
    exact ⟨_, rfl⟩
  · rintro ⟨b, rfl⟩
    exact .boolean b

theorem matches_integer : Matches env .integer v ↔ v.isInt64 := by
  constructor
  · rintro ⟨⟩
    assumption
  · exact .integer

theorem matches_uinteger : Matches env .uinteger v ↔ v.isUInt64 := by
  constructor
  · rintro ⟨⟩
    assumption
  · exact .uinteger

theorem matches_decimal : Matches env .decimal v ↔ v.isDouble := by
  constructor
  · rintro ⟨⟩
    assumption
  · exact .decimal

theorem matches_string : Matches env .string v ↔ ∃ s, v = .stringValue s := by
  constructor
  · rintro ⟨⟩
    exact ⟨_, rfl⟩
  · rintro ⟨s, rfl⟩
    exact .string s

theorem matches_reference {n : String} : Matches env (.reference n) v ↔
    ∃ ms, v = .objectValue ms ∧ (∀ k ∈ (env.find n).literalKinds,
      List.lookup "kind" ms = some (.stringValue k)) ∧
      ∀ q ∈ (env.find n).allProperties,
        (q.optional = false → ∃ w, List.lookup q.jsonName ms = some w) ∧
          ∀ w, List.lookup q.jsonName ms = some w → Matches env q.type w := by
  constructor
  · intro h
    cases h with
    | reference hk hr hp => exact ⟨_, rfl, hk, fun q hq => ⟨hr q hq, hp q hq⟩⟩
  · rintro ⟨ms, rfl, hk, hq⟩
    exact .reference hk (fun q hqm => (hq q hqm).1) fun q hqm => (hq q hqm).2

theorem EntryValue.string_unique {w : EntryValue} {s t : String} (hs : w.Denotes (.string s))
    (ht : w.Denotes (.string t)) : s = t := by
  cases w with
  | string u => exact (show u = s from hs).symm.trans ht
  | number d => exact hs.elim

theorem EntryValue.integer_unique {w : EntryValue} {i j : Int64} (hi : w.Denotes (.integer i))
    (hj : w.Denotes (.integer j)) : i = j := by
  cases w with
  | string u => exact hi.elim
  | number d =>
    have heq : some (i.toInt : ℚ) = some (j.toInt : ℚ) := hi.symm.trans hj
    exact Int64.toInt_inj.mp (by exact_mod_cast Option.some.inj heq)

theorem EntryValue.uinteger_unique {w : EntryValue} {i j : UInt64} (hi : w.Denotes (.uinteger i))
    (hj : w.Denotes (.uinteger j)) : i = j := by
  cases w with
  | string u => exact hi.elim
  | number d =>
    have heq : some (i.toNat : ℚ) = some (j.toNat : ℚ) := hi.symm.trans hj
    exact UInt64.toNat_inj.mp (by exact_mod_cast Option.some.inj heq)

theorem exists_denotes_iff {α : Type} {es : List EnumerationEntry} {vs : List α}
    {R : EnumerationEntry → α → Prop} (h : List.Forall₂ R es vs) {x : α → Lsp.LspValue} {a : α}
    (hR : ∀ w b, R w b → w.value.Denotes (x b))
    (hunique : ∀ w b, R w b → w.value.Denotes (x a) → b = a) :
    (∃ w ∈ es, w.value.Denotes (x a)) ↔ a ∈ vs := by
  constructor
  · rintro ⟨w, hw, hwa⟩
    obtain ⟨b, hb, hwb⟩ := ListRelations.exists_of_mem_left h hw
    rwa [← hunique w b hwb hwa]
  · intro ha
    obtain ⟨w, hw, hwa⟩ := ListRelations.exists_of_mem_right h ha
    exact ⟨w, hw, hR w a hwa⟩

/-- The values of an enumeration are those of the enumeration that it means. -/
theorem lists_iff_matches {e : Enumeration} {E : Lsp.Enumeration} (h : e.Means U E) :
    e.Lists v ↔ Matches env (.enumeration E) v := by
  have hholds : Matches env (.enumeration E) v ↔ E.values.Holds v := by
    constructor
    · rintro ⟨⟩
      assumption
    · exact .enumeration
  rw [hholds]
  cases h with
  | @string vs ht hv =>
    have hmem : ∀ s, (∃ w ∈ e.values, w.value.Denotes (.string s)) ↔ s ∈ vs := fun s =>
      exists_denotes_iff hv (fun w t hw => hw.1) fun w t hw hs => EntryValue.string_unique hw.1 hs
    constructor
    · intro h
      cases h with
      | string _ hs => exact ⟨_, (hmem _).mp hs, rfl⟩
      | integer ht' _ _ => simp [ht] at ht'
      | uinteger ht' _ _ => simp [ht] at ht'
    · rintro ⟨s, hs, rfl⟩
      exact .string ht ((hmem s).mpr hs)
  | @integer vs ht hv =>
    have hmem : ∀ i, (∃ w ∈ e.values, w.value.Denotes (.integer i)) ↔ i ∈ vs := fun i =>
      exists_denotes_iff hv (fun w j hw => hw.1) fun w j hw hi => EntryValue.integer_unique hw.1 hi
    constructor
    · intro h
      cases h with
      | string ht' _ => simp [ht] at ht'
      | integer _ hw hi => exact ⟨hw, (hmem _).mp hi⟩
      | uinteger ht' _ _ => simp [ht] at ht'
    · rintro ⟨hw, hi⟩
      exact .integer ht hw ((hmem _).mpr hi)
  | @uinteger vs ht hv =>
    have hmem : ∀ i, (∃ w ∈ e.values, w.value.Denotes (.uinteger i)) ↔ i ∈ vs := fun i =>
      exists_denotes_iff hv (fun w j hw => hw.1) fun w j hw hi => EntryValue.uinteger_unique hw.1 hi
    constructor
    · intro h
      cases h with
      | string ht' _ => simp [ht] at ht'
      | integer ht' _ _ => simp [ht] at ht'
      | uinteger _ hw hi => exact ⟨hw, (hmem _).mp hi⟩
    · rintro ⟨hw, hi⟩
      exact .uinteger ht hw ((hmem _).mpr hi)

theorem conforms_or {ts : List TypeImpl} {lts : List LspType} (hl : ts.length = lts.length)
    (h : ∀ p ∈ ts.zip lts, (Conforms m p.1 v ↔ Matches env p.2 v)) :
    Conforms m (.or ts) v ↔ Matches env (.oneOf lts) v := by
  have hexists : (∃ t ∈ ts, Conforms m t v) ↔ ∃ lt ∈ lts, Matches env lt v :=
    ListRelations.exists_mem_iff hl h
  constructor
  · intro hv
    cases hv with
    | or ht hv =>
      obtain ⟨lt, hlt, hv⟩ := hexists.mp ⟨_, ht, hv⟩
      exact .oneOf hlt hv
  · intro hv
    cases hv with
    | oneOf hlt hv =>
      obtain ⟨t, ht, hv⟩ := hexists.mpr ⟨_, hlt, hv⟩
      exact .or ht hv

section Layers

variable (hbelow : ∀ w : Value, w.depth < v.depth → ∀ {scope : Option Resolver.LiteralScope}
  {t : TypeImpl} {lt : LspType}, Means U m scope t lt → (Conforms m t w ↔ Matches env lt w))
include hbelow

theorem conforms_array {scope : Option Resolver.LiteralScope} {t : TypeImpl} {lt : LspType}
    (ht : Means U m scope t lt) : Conforms m (.array t) v ↔ Matches env (.vector lt) v := by
  constructor
  · intro h
    cases h with
    | array h =>
      exact .vector fun w hw =>
        (hbelow w (Nat.lt_succ_of_le (Lsp.depth_le_depthElements hw)) ht).mp (h w hw)
  · intro h
    cases h with
    | vector h =>
      exact .array fun w hw =>
        (hbelow w (Nat.lt_succ_of_le (Lsp.depth_le_depthElements hw)) ht).mpr (h w hw)

theorem conforms_map {scope : Option Resolver.LiteralScope} {key t : TypeImpl} {lt : LspType}
    (hk : Means U m scope key .string) (ht : Means U m scope t lt) :
    Conforms m (.map key t) v ↔ Matches env (.map lt) v := by
  constructor
  · intro h
    cases h with
    | map _ h =>
      exact .map fun w hw =>
        (hbelow w.2 (Nat.lt_succ_of_le (Lsp.depth_le_depthMembers hw)) ht).mp (h w hw)
  · intro h
    cases h with
    | map h =>
      refine .map (fun w hw => ?_) fun w hw =>
        (hbelow w.2 (Nat.lt_succ_of_le (Lsp.depth_le_depthMembers hw)) ht).mpr (h w hw)
      exact (hbelow (.stringValue w.1) (Nat.succ_pos _) hk).mpr (.string w.1)

theorem conforms_tuple {scope : Option Resolver.LiteralScope} {ts : List TypeImpl}
    {lts : List LspType} (hl : ts.length = lts.length)
    (ht : ∀ p ∈ ts.zip lts, Means U m scope p.1 p.2) :
    Conforms m (.tuple ts) v ↔ Matches env (.tuple lts) v := by
  have hzip : ∀ vs, v = .arrayValue vs →
      ((∀ p ∈ ts.zip vs, Conforms m p.1 p.2) ↔ ∀ p ∈ lts.zip vs, Matches env p.1 p.2) := by
    rintro vs rfl
    exact ListRelations.forall_zip_iff hl fun p hp w hw =>
      hbelow w (Nat.lt_succ_of_le (Lsp.depth_le_depthElements hw)) (ht p hp)
  constructor
  · intro h
    cases h with
    | tuple hlv h => exact .tuple (hl ▸ hlv) ((hzip _ rfl).mp h)
  · intro h
    cases h with
    | tuple hlv h => exact .tuple (hl ▸ hlv) ((hzip _ rfl).mpr h)

/-- A property of the metamodel and the one that it means ask for the same. -/
theorem holds_iff {scope : Resolver.LiteralScope} {p : Property} {q : Lsp.Property}
    (hpq : PropertyMeans U m scope p q) {ms : List Member} (hv : v = .objectValue ms) :
    p.Holds m ms ↔ (q.optional = false → ∃ w, List.lookup q.jsonName ms = some w) ∧
      ∀ w, List.lookup q.jsonName ms = some w → Matches env q.type w := by
  obtain ⟨-, hname, hoptional, hmeans⟩ := hpq
  have hbelow' : ∀ w, List.lookup p.name ms = some w →
      (Conforms m p.type w ↔ Matches env q.type w) := by
    intro w hw
    refine hbelow w ?_ hmeans
    rw [hv]
    exact Nat.lt_succ_of_le (Lsp.depth_le_depthMembers (OrderedEntries.mem_of_lookup hw))
  rw [Property.Holds, hname, hoptional]
  refine and_congr_right fun _ => ?_
  exact forall_congr' fun w => imp_congr_right fun hw => hbelow' w hw

theorem conforms_lspAny (hu : m.DeclaredOnce) {a : TypeAlias} (ha : a ∈ m.typeAliases)
    (hname : U.className a.name = "LSPAny") (hany : IsLspAny U m a) :
    Conforms m (.reference a.name) v ↔ Matches env .lspAny v := by
  obtain ⟨o, ho, r, hr, -, -, hot, hrt, hat⟩ := hany
  have hmeans : Means U m none (.reference a.name) .lspAny := .lspAny ha hname
  have honeOf : Conforms m a.type v ↔ Matches env (.oneOf Lsp.lspAnyItems) v := by
    rw [hat]
    apply conforms_or rfl
    simp only [Lsp.lspAnyItems, List.zip_cons_cons, List.zip_nil_left, List.forall_mem_cons]
    refine ⟨?_, ?_, conforms_base.trans matches_string.symm,
      conforms_base.trans matches_integer.symm, conforms_base.trans matches_uinteger.symm,
      conforms_base.trans matches_decimal.symm, conforms_base.trans matches_boolean.symm,
      conforms_base.trans matches_null.symm, by simp⟩
    · rw [conforms_alias hu ho, hot]
      exact conforms_map hbelow .string hmeans
    · rw [conforms_alias hu hr, hrt]
      exact conforms_array hbelow hmeans
  rw [conforms_alias hu ha, honeOf]
  constructor
  · rintro ⟨⟩
    exact .lspAny ‹_› ‹_›
  · rintro ⟨⟩
    exact .oneOf ‹_› ‹_›

/-- A structure asks for what the definition asks for that it means. -/
theorem conforms_declared (hu : m.DeclaredOnce) {s : Structure} (hs : s ∈ m.structures)
    (hd : DefinitionMeans U m (env.find (U.className s.name)) (.declared s)) :
    Conforms m (.reference s.name) v ↔ Matches env (.reference (U.className s.name)) v := by
  rw [conforms_structure hu hs, matches_reference]
  refine exists_congr fun ms => and_congr_right fun hv => ?_
  rw [forall_allProperties hu hd fun scope p q hpq => holds_iff hbelow hpq hv]
  constructor
  · intro h
    refine ⟨fun k hk => ?_, fun t ht p hp => h t ht p (List.mem_filter.mp hp).1⟩
    obtain ⟨t, ht, p, hp, hpk⟩ := (mem_literalKinds hu hd).mp hk
    exact (Property.holds_literalKind hpk (required_of_inherits hu hd ht hp hpk)).mp (h t ht p hp)
  · intro h t ht p hp
    obtain ⟨hkinds, hproperties⟩ := h
    cases hpk : p.literalKind with
    | none =>
      refine hproperties t ht p (List.mem_filter.mpr ⟨hp, ?_⟩)
      rw [hpk]
      rfl
    | some k =>
      have hk := hkinds k ((mem_literalKinds hu hd).mpr ⟨t, ht, p, hp, hpk⟩)
      exact (Property.holds_literalKind hpk (required_of_inherits hu hd ht hp hpk)).mpr hk

theorem conforms_source_literal {scope : Resolver.LiteralScope} {ps : List Property} {n : String}
    (hd : DefinitionMeans U m (env.find n) (.literal scope ps)) :
    Conforms m (.structureLiteral ps) v ↔ Matches env (.reference n) v := by
  rw [conforms_literal, matches_reference]
  cases henv : env.find n with
  | mk kind qs bs =>
    rw [henv] at hd
    obtain ⟨hkind, -, hps, hbs⟩ := hd
    obtain rfl := hkind.eq
    cases bs with
    | cons b bs => exact hbs.elim
    | nil =>
      refine exists_congr fun ms => and_congr_right fun hv => ?_
      simp only [Lsp.Structure.literalKinds, Source.kind, Lsp.Structure.baseLiteralKinds,
        Lsp.Structure.allProperties, Lsp.Structure.baseProperties, Option.toList_none,
        List.append_nil, List.not_mem_nil, false_imp_iff, implies_true, true_and]
      constructor
      · intro h q hq
        obtain ⟨p, hp, hpq⟩ := ListRelations.exists_of_mem_right hps hq
        exact (holds_iff hbelow hpq hv).mp (h p hp)
      · intro h p hp
        obtain ⟨q, hq, hpq⟩ := ListRelations.exists_of_mem_left hps hp
        exact (holds_iff hbelow hpq hv).mpr (h q hq)

end Layers

/-- A value conforms to a type if and only if it matches what the type means. -/
theorem conforms_iff_matches (hu : m.DeclaredOnce) (hm : Declares U m env)
    {scope : Option Resolver.LiteralScope} {t : TypeImpl} {lt : LspType}
    (ht : Means U m scope t lt) : Conforms m t v ↔ Matches env lt v := by
  induction hn : v.depth using Nat.strong_induction_on generalizing scope t lt v with
  | _ n ih =>
    have hbelow : ∀ w : Value, w.depth < v.depth → ∀ {scope : Option Resolver.LiteralScope}
        {t : TypeImpl} {lt : LspType}, Means U m scope t lt →
          (Conforms m t w ↔ Matches env lt w) := fun w hw scope t lt ht =>
      ih w.depth (hn ▸ hw) ht rfl
    clear ih
    induction ht with
    | null => exact conforms_base.trans matches_null.symm
    | boolean => exact conforms_base.trans matches_boolean.symm
    | integer => exact conforms_base.trans matches_integer.symm
    | uinteger => exact conforms_base.trans matches_uinteger.symm
    | decimal => exact conforms_base.trans matches_decimal.symm
    | string | documentUri | uri => exact conforms_base.trans matches_string.symm
    | array ht _ => exact conforms_array hbelow ht
    | tuple hl ht _ => exact conforms_tuple hbelow hl ht
    | map hk ht _ _ => exact conforms_map hbelow hk ht
    | or hl _ ih => exact conforms_or hl ih
    | typeAlias ha _ _ ih => exact (conforms_alias hu ha).trans ih
    | lspAny ha hname => exact conforms_lspAny hbelow hu ha hname (hm.lspAny _ ha hname)
    | declared hs =>
      exact conforms_declared hbelow hu hs (hm.definitions _ (declared_mem_sources hs)).2
    | enumeration he hclosed hE =>
      exact (conforms_enumeration hu he hclosed).trans (lists_iff_matches hE)
    | literal hs => exact conforms_source_literal hbelow (hm.definitions _ hs).2

end Matching

end MetaModel

end Langsvr
