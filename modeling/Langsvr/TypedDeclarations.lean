import Langsvr.GeneratedFunctions

/-!
# The generated code as declarations of the codec

What a compiler makes of the names in the generated code: a type of the generated code stands
for a type of the codec, and a generated structure implements a definition of the codec.
-/

namespace Langsvr

open Lsp (LspType LspValue Declarations)

namespace Lsp

namespace LspType

mutual

def held : LspType → List String
  | .reference name => [name]
  | .tuple ts => heldAll ts
  | _ => []

def heldAll : List LspType → List String
  | [] => []
  | t :: ts => held t ++ heldAll ts

end

theorem mem_heldAll {ts : List LspType} {name : String} :
    name ∈ heldAll ts ↔ ∃ t ∈ ts, name ∈ t.held := by
  induction ts with
  | nil => simp [heldAll]
  | cons t ts ih => simp [heldAll, ih]

end LspType

namespace Structure

mutual

/-- The structures that a value-initialised object of the structure contains. -/
def held : Structure → List String
  | .mk _ ps bs => (ps.filter fun p => !p.optional).flatMap (fun p => p.type.held) ++ heldBases bs

def heldBases : List Structure → List String
  | [] => []
  | b :: bs => held b ++ heldBases bs

end

end Structure

namespace Declarations

def names (env : Declarations) : List String := env.map Declaration.name

/-- No structure is declared twice, and a structure that is held by value is declared before. -/
def Ordered : Declarations → Prop
  | [] => True
  | d :: ds => d.name ∉ names ds ∧ (∀ n ∈ d.definition.held, n ∈ names ds) ∧ Ordered ds

theorem Ordered.of_append {ds ds' : Declarations} (h : Ordered (ds ++ ds')) : Ordered ds' := by
  induction ds with
  | nil => exact h
  | cons d ds ih => exact ih h.2.2

theorem Ordered.find_append {ds ds' : Declarations} {d : Declaration}
    (h : Ordered (ds ++ d :: ds')) : find (ds ++ d :: ds') d.name = d.definition := by
  induction ds with
  | nil => exact if_pos rfl
  | cons e ds ih =>
    have hne : e.name ≠ d.name := by
      intro he
      apply h.1
      rw [he]
      simp [names]
    exact (if_neg hne).trans (ih h.2.2)

end Declarations

theorem Enumeration.generated_name (e : Enumeration) : e.generated.name = e.name := by
  obtain ⟨name, values⟩ := e
  cases values <;> rfl

end Lsp

namespace CppUnit

variable (u : CppUnit)

inductive Stands : CppType → LspType → Prop
  | null : Stands .null .null
  | boolean : Stands .boolean .boolean
  | integer : Stands .integer .integer
  | uinteger : Stands .uinteger .uinteger
  | decimal : Stands .decimal .decimal
  | string : Stands .string .string
  | documentUri : Stands .documentUri .string
  | uri : Stands .uri .string
  | vector {ct : CppType} {t : LspType} (h : Stands ct t) : Stands (.vector ct) (.vector t)
  | tuple {cts : List CppType} {ts : List LspType} (hl : cts.length = ts.length)
      (h : ∀ p ∈ cts.zip ts, Stands p.1 p.2) : Stands (.tuple cts) (.tuple ts)
  | map {key ct : CppType} {t : LspType} (hk : Stands key .string) (h : Stands ct t) :
      Stands (.map key ct) (.map t)
  | oneOf {cts : List CppType} {ts : List LspType} (hl : cts.length = ts.length)
      (h : ∀ p ∈ cts.zip ts, Stands p.1 p.2) : Stands (.oneOf cts) (.oneOf ts)
  | typeAlias {name : String} {ct : CppType} {t : LspType} (ha : (name, ct) ∈ u.program.aliases)
      (hname : name ≠ "LSPAny") (h : Stands ct t) : Stands (.named name) t
  | lspAny {ct : CppType} (ha : ("LSPAny", ct) ∈ u.program.aliases) :
      Stands (.named "LSPAny") .lspAny
  | declared {c : CppStructure} (hc : c ∈ u.program.structures) :
      Stands (.named c.name) (.reference c.name)
  | enumeration {e : Lsp.Enumeration} (he : e.generated ∈ u.enumerations) :
      Stands (.named e.name) (.enumeration e)

def lspAnyTypes : List CppType :=
  [.named "LSPObject", .named "LSPArray", .string, .integer, .uinteger, .decimal, .boolean, .null]

def decodeBlock (m : Bool × CppType × String) (p : Lsp.Property) : DecodeBlock :=
  if p.optional then .optionalMember p.jsonName m.2.1 m.2.2 else .member p.jsonName m.2.2

def encodeBlock (m : Bool × CppType × String) (p : Lsp.Property) : EncodeBlock :=
  if p.optional then .optionalMember p.jsonName m.2.2 else .member p.jsonName m.2.2

/-- A generated structure has a data member for each property, and its functions handle the
kind, the properties and the bases in this order. -/
structure Fields (c : CppStructure) (kind : Option String) (ps : List Lsp.Property)
    (names : List String) : Prop where
  members : List.Forall₂ (fun m p => m.1 = p.optional ∧ u.Stands m.2.1 p.type) c.members ps
  distinct : (c.members.map fun m => m.2.2).Nodup
  bases : c.bases = names.map .named
  basesDistinct : names.Nodup
  decode : c.decode = kind.toList.map .matchKind ++ List.zipWith decodeBlock c.members ps ++
    names.map .base
  encodeMembers : c.encodeMembers = kind.toList.map .kind ++
    List.zipWith encodeBlock c.members ps ++ names.map .base

mutual

def Implements : Lsp.Structure → CppStructure → Prop
  | .mk kind ps bs, c => ∃ names, u.Fields c kind ps names ∧ ImplementsBases bs names

def ImplementsBases : List Lsp.Structure → List String → Prop
  | [], [] => True
  | b :: bs, name :: names =>
    (∃ d, u.program.Denotes name d ∧ Implements b d) ∧ ImplementsBases bs names
  | _, _ => False

end

/-- The generated code compiles to declarations of the codec. -/
structure Compiles (env : Declarations) : Prop where
  names : (u.program.aliases.map Prod.fst ++ u.program.structures.map CppStructure.name ++
    u.enumerations.map CppEnumeration.name).Nodup
  ordered : env.Ordered
  structures : ∀ c ∈ u.program.structures, c.name ∈ env.names ∧ u.Implements (env.find c.name) c
  lspAny : ∀ ct, ("LSPAny", ct) ∈ u.program.aliases →
    ct = .oneOf lspAnyTypes ∧ ("LSPObject", .map .string (.named "LSPAny")) ∈ u.program.aliases ∧
      ("LSPArray", .vector (.named "LSPAny")) ∈ u.program.aliases

section Names

variable {u} {env : Declarations} (h : u.Compiles env)
include h

theorem Compiles.lspAny_stands {ct : CppType} (ha : ("LSPAny", ct) ∈ u.program.aliases) :
    ct = .oneOf lspAnyTypes ∧ ∀ p ∈ lspAnyTypes.zip Lsp.lspAnyItems, u.Stands p.1 p.2 := by
  obtain ⟨rfl, hobject, harray⟩ := h.lspAny ct ha
  have hany : u.Stands (.named "LSPAny") .lspAny := .lspAny ha
  refine ⟨rfl, ?_⟩
  simp only [lspAnyTypes, Lsp.lspAnyItems, List.zip_cons_cons, List.zip_nil_left,
    List.forall_mem_cons]
  exact ⟨.typeAlias hobject (by decide) (.map .string hany),
    .typeAlias harray (by decide) (.vector hany), .string, .integer, .uinteger, .decimal, .boolean,
    .null, by simp⟩

theorem Compiles.find_alias {name : String} {ct : CppType} (ha : (name, ct) ∈ u.program.aliases) :
    u.find name = some (.typeAlias ct) := by
  have hfind := ListRelations.find?_of_nodup h.names.of_append_left.of_append_left ha
  unfold find
  rw [hfind]

theorem Compiles.find_structure {c : CppStructure} (hc : c ∈ u.program.structures) :
    u.find c.name = some (.structure c) := by
  have hfind := ListRelations.find?_of_nodup h.names.of_append_left.of_append_right hc
  have hnone : u.program.aliases.find? (fun a => decide (a.1 = c.name)) = none := by
    apply ListRelations.find?_eq_none_of_notMem
    exact fun hmem => List.disjoint_of_nodup_append h.names.of_append_left hmem
      (List.mem_map_of_mem hc)
  unfold find
  rw [hnone, hfind]

theorem Compiles.find_enumeration {c : CppEnumeration} (hc : c ∈ u.enumerations) :
    u.find c.name = some (.enumeration c) := by
  have hfind := ListRelations.find?_of_nodup h.names.of_append_right hc
  have hdisjoint := List.disjoint_of_nodup_append h.names
  have hnone : u.program.aliases.find? (fun a => decide (a.1 = c.name)) = none := by
    apply ListRelations.find?_eq_none_of_notMem
    exact fun hmem => hdisjoint (List.mem_append_left _ hmem) (List.mem_map_of_mem hc)
  have hnone' : u.program.structures.find? (fun d => decide (d.name = c.name)) = none := by
    apply ListRelations.find?_eq_none_of_notMem
    exact fun hmem => hdisjoint (List.mem_append_right _ hmem) (List.mem_map_of_mem hc)
  unfold find
  rw [hnone, hnone', hfind]
  rfl

end Names

end CppUnit

end Langsvr
