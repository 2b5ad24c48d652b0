import Langsvr.GeneratedStructures
import Langsvr.TypedDeclarations

/-!
# What a metamodel means

The declarations of the codec that a metamodel asks for. A type of the metamodel means a type of
the codec, and a structure or a structure literal means a definition with its literal kind, its
own properties and the definitions of what it extends. A structure that mixes in others and an
enumeration with custom values mean nothing in the codec, so a metamodel is first made strict. Only
the names of the declarations are those of the generator.
-/

namespace Langsvr

namespace MetaModel

def Structure.strict (s : Structure) : Structure := { s with mixins := [] }

def Enumeration.strict (e : Enumeration) : Enumeration := { e with supportsCustomValues := false }

/-- The metamodel without mixins and custom values, neither of which is known to the templates. -/
def strict (m : MetaModel) : MetaModel :=
  { m with
    enumerations := m.enumerations.map Enumeration.strict
    structures := m.structures.map Structure.strict }

open Lsp (LspType Declarations)
open Resolver (LiteralScope propertyScope)

variable (U : Unicode) (m : MetaModel)

/-- What a definition is made from: a structure, or a literal in a property of one. -/
inductive Source where
  | declared (s : Structure)
  | literal (scope : LiteralScope) (properties : List Property)

namespace Source

def cppName : Source → String
  | .declared s => U.className s.name
  | .literal scope _ => scope.literalName U

def kind : Source → Option String
  | .declared s => if s.kind ≠ "" then some s.kind else none
  | .literal _ _ => none

def properties : Source → List Property
  | .declared s => s.ordinaryProperties
  | .literal _ ps => ps

def allProperties : Source → List Property
  | .declared s => s.properties
  | .literal _ ps => ps

def scope : Source → Property → LiteralScope
  | .declared s, p => propertyScope U s p
  | .literal scope _, _ => scope

def extendsTypes : Source → List TypeImpl
  | .declared s => s.extendsTypes
  | .literal _ _ => []

def mixins : Source → List TypeImpl
  | .declared s => s.mixins
  | .literal _ _ => []

end Source

/-- The structures of a metamodel, each one followed by the literals in its properties. -/
def sources : List Source :=
  m.structures.flatMap fun s => .declared s ::
    s.properties.flatMap fun p => p.type.literals.map (.literal (propertyScope U s p))

variable {U m} in
theorem declared_mem_sources {s : Structure} (hs : s ∈ m.structures) :
    .declared s ∈ m.sources U :=
  List.mem_flatMap.mpr ⟨s, hs, List.mem_cons_self ..⟩

/-- An enumeration of the codec with the entries of an enumeration of the metamodel, as far as they
are printed as they are: the strings are verbatim, and integers have up to six digits. -/
inductive Enumeration.Means (e : Enumeration) : Lsp.Enumeration → Prop
  | string {vs : List String} (ht : e.type = .base "string")
      (hv : List.Forall₂ (fun v s => (EnumerationEntry.value v).Denotes (.string s) ∧
        Verbatim s) e.values vs) :
      Means e ⟨U.className e.name, .string vs⟩
  | integer {vs : List Int64} (ht : e.type = .base "integer")
      (hv : List.Forall₂ (fun v i => (EnumerationEntry.value v).Denotes (.integer i) ∧
        i.toInt.natAbs < 1000000) e.values vs) :
      Means e ⟨U.className e.name, .integer vs⟩
  | uinteger {vs : List UInt64} (ht : e.type = .base "uinteger")
      (hv : List.Forall₂ (fun v i => (EnumerationEntry.value v).Denotes (.uinteger i) ∧
        i.toNat < 1000000) e.values vs) :
      Means e ⟨U.className e.name, .uinteger vs⟩

/-- The alias for any JSON value, with the aliases for objects and arrays that it names. -/
def IsLspAny (a : TypeAlias) : Prop :=
  ∃ o ∈ m.typeAliases, ∃ r ∈ m.typeAliases,
    U.className o.name = "LSPObject" ∧ U.className r.name = "LSPArray" ∧
      o.type = .map (.base "string") (.reference a.name) ∧ r.type = .array (.reference a.name) ∧
        a.type = .or [.reference o.name, .reference r.name, .base "string", .base "integer",
          .base "uinteger", .base "decimal", .base "boolean", .base "null"]

/-- A type of the metamodel means a type of the codec. The scope is that of the property in which
the type occurs. -/
inductive Means : Option LiteralScope → TypeImpl → LspType → Prop
  | null {scope : Option LiteralScope} : Means scope (.base "null") .null
  | boolean {scope : Option LiteralScope} : Means scope (.base "boolean") .boolean
  | integer {scope : Option LiteralScope} : Means scope (.base "integer") .integer
  | uinteger {scope : Option LiteralScope} : Means scope (.base "uinteger") .uinteger
  | decimal {scope : Option LiteralScope} : Means scope (.base "decimal") .decimal
  | string {scope : Option LiteralScope} : Means scope (.base "string") .string
  | documentUri {scope : Option LiteralScope} : Means scope (.base "DocumentUri") .string
  | uri {scope : Option LiteralScope} : Means scope (.base "URI") .string
  | array {scope : Option LiteralScope} {t : TypeImpl} {lt : LspType} (h : Means scope t lt) :
      Means scope (.array t) (.vector lt)
  | tuple {scope : Option LiteralScope} {ts : List TypeImpl} {lts : List LspType}
      (hl : ts.length = lts.length) (h : ∀ p ∈ ts.zip lts, Means scope p.1 p.2) :
      Means scope (.tuple ts) (.tuple lts)
  | map {scope : Option LiteralScope} {key t : TypeImpl} {lt : LspType}
      (hk : Means scope key .string) (h : Means scope t lt) : Means scope (.map key t) (.map lt)
  | or {scope : Option LiteralScope} {ts : List TypeImpl} {lts : List LspType}
      (hl : ts.length = lts.length) (h : ∀ p ∈ ts.zip lts, Means scope p.1 p.2) :
      Means scope (.or ts) (.oneOf lts)
  | typeAlias {scope : Option LiteralScope} {a : TypeAlias} {lt : LspType} (ha : a ∈ m.typeAliases)
      (hname : U.className a.name ≠ "LSPAny") (h : Means none a.type lt) :
      Means scope (.reference a.name) lt
  | lspAny {scope : Option LiteralScope} {a : TypeAlias} (ha : a ∈ m.typeAliases)
      (hname : U.className a.name = "LSPAny") : Means scope (.reference a.name) .lspAny
  | declared {scope : Option LiteralScope} {s : Structure} (hs : s ∈ m.structures) :
      Means scope (.reference s.name) (.reference (U.className s.name))
  | enumeration {scope : Option LiteralScope} {e : Enumeration} {E : Lsp.Enumeration}
      (he : e ∈ m.enumerations) (hclosed : e.supportsCustomValues = false) (h : e.Means U E) :
      Means scope (.reference e.name) (.enumeration E)
  | literal {scope : LiteralScope} {ps : List Property} (hs : .literal scope ps ∈ m.sources U) :
      Means (some scope) (.structureLiteral ps) (.reference (scope.literalName U))

/-- A property of the metamodel means a property of the codec. Its name is printed as it is. -/
def PropertyMeans (scope : LiteralScope) (p : Property) (q : Lsp.Property) : Prop :=
  Verbatim p.name ∧ q.jsonName = p.name ∧ q.optional = p.optional ∧
    Means U m (some scope) p.type q.type

/-- The literal kind of a structure: it is that of every property that is one, none of which is
optional, and it is printed as it is. -/
structure Source.KindMeans (s : Source) (kind : Option String) : Prop where
  eq : kind = s.kind
  verbatim : ∀ k ∈ kind, Verbatim k
  literals : ∀ p ∈ s.allProperties, ∀ k ∈ p.literalKind, p.optional = false ∧ kind = some k

/-- The structure that a name stands for, by itself or through aliases. -/
inductive Names : String → Structure → Prop
  | declared {s : Structure} (hs : s ∈ m.structures) : Names s.name s
  | typeAlias {a : TypeAlias} {name : String} {s : Structure} (ha : a ∈ m.typeAliases)
      (ht : a.type = .reference name) (h : Names name s) : Names a.name s

mutual

/-- A structure or a literal means a definition of the codec. -/
def DefinitionMeans : Lsp.Structure → Source → Prop
  | .mk kind ps bs, s => s.KindMeans kind ∧ s.mixins = [] ∧
    List.Forall₂ (fun p q => PropertyMeans U m (s.scope U p) p q) s.properties ps ∧
      BasesMean bs s.extendsTypes

def BasesMean : List Lsp.Structure → List TypeImpl → Prop
  | [], [] => True
  | b :: bs, t :: ts => (∃ name s, t = .reference name ∧ Names m name s ∧
      DefinitionMeans b (.declared s)) ∧ BasesMean bs ts
  | _, _ => False

end

/-- A metamodel means declarations of the codec: one for each structure and each literal. -/
structure Declares (env : Declarations) : Prop where
  ordered : env.Ordered
  definitions : ∀ s ∈ m.sources U, s.cppName U ∈ env.names ∧
    DefinitionMeans U m (env.find (s.cppName U)) s
  lspAny : ∀ a ∈ m.typeAliases, U.className a.name = "LSPAny" → IsLspAny U m a

end MetaModel

end Langsvr
