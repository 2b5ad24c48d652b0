import Langsvr.Resolver

/-!
# What the resolver computes

The types, properties and structures that the functions of the resolver return when they
return at all, as functions of the metamodel, and what they do to the state on the way.
-/

namespace Langsvr

namespace MetaModel.TypeImpl

mutual

/-- The structure literals in a type, an inner one before the outer one. -/
def literals : TypeImpl → List (List Property)
  | .and items | .or items | .tuple items => literalsAll items
  | .array element => element.literals
  | .map key value => key.literals ++ value.literals
  | .structureLiteral ps => propertyLiterals ps ++ [ps]
  | _ => []

def literalsAll : List TypeImpl → List (List Property)
  | [] => []
  | t :: ts => t.literals ++ literalsAll ts

def propertyLiterals : List Property → List (List Property)
  | [] => []
  | ⟨_, _, t⟩ :: ps => t.literals ++ propertyLiterals ps

end

end MetaModel.TypeImpl

namespace MetaModel

/-- The literal of a property that becomes the kind of its structure. -/
def PropertyOf.literalKind (p : Property) : Option String :=
  match p.type with
  | .stringLiteral value => if p.name = "kind" then some value else none
  | _ => none

namespace Structure

variable (s : Structure)

def kind : String := (s.properties.filterMap PropertyOf.literalKind).getLast?.getD ""

def ordinaryProperties : List Property := s.properties.filter fun p => p.literalKind.isNone

end Structure

end MetaModel

namespace Resolver

variable (U : Unicode)

/-- The C++ name of the literals of a property. -/
def LiteralScope.literalName (scope : LiteralScope) : String :=
  scope.structureName ++ "::" ++ U.title scope.propertyName

mutual

/-- The resolved type. A type that is not supported becomes null. -/
def translate (scope : Option LiteralScope) : MetaModel.TypeImpl → Protocol.TypeImpl
  | .nil | .integerLiteral _ | .booleanLiteral _ => .nil
  | .base name => (baseType name).getD .nil
  | .array element => .array (translate scope element)
  | .reference name => .reference (U.className name)
  | .and items => .and (translateAll scope items)
  | .or items => .or (translateAll scope items)
  | .map key value => .map (translate scope key) (translate scope value)
  | .stringLiteral value => .stringLiteral value
  | .structureLiteral _ => (scope.map fun s => .reference (s.literalName U)).getD .nil
  | .tuple items => .tuple (translateAll scope items)

def translateAll (scope : Option LiteralScope) : List MetaModel.TypeImpl → List Protocol.TypeImpl
  | [] => []
  | t :: ts => translate scope t :: translateAll scope ts

end

def translateProperty (scope : Option LiteralScope) (p : MetaModel.Property) : Protocol.Property where
  jsonName := p.name
  cppName := U.snake p.name
  optional := p.optional
  type := translate U scope p.type

def translateLiteral (scope : LiteralScope) (ps : List MetaModel.Property) : Protocol.Structure where
  name := U.title scope.propertyName
  properties := ps.map (translateProperty U (some scope))
  nestedNames := [scope.structureName, U.title scope.propertyName]

/-- The structures that the literals of types add to the nested structures. -/
def translateLiterals (scope : Option LiteralScope) (literals : List (List MetaModel.Property)) :
    List Protocol.Structure :=
  match scope with
  | none => []
  | some scope => literals.map (translateLiteral U scope)

def propertyScope (s : MetaModel.Structure) (p : MetaModel.Property) : LiteralScope where
  structureName := U.className s.name
  propertyName := p.name

def translateStructure (s : MetaModel.Structure) : Protocol.Structure where
  name := U.className s.name
  extendsTypes := translateAll U none s.extendsTypes
  mixins := translateAll U none s.mixins
  properties := s.ordinaryProperties.map fun p => translateProperty U (propertyScope U s p) p
  kind := s.kind
  nestedStructures := s.properties.flatMap fun p =>
    translateLiterals U (propertyScope U s p) p.type.literals
  nestedNames := [U.className s.name]

def translateAlias (a : MetaModel.TypeAlias) : Protocol.TypeAlias where
  name := U.className a.name
  type := translate U none a.type

def translateEntry (e : MetaModel.EnumerationEntry) : Protocol.EnumerationEntry where
  name := U.className e.name
  value := entryValue e.value

def translateEnumeration (e : MetaModel.Enumeration) : Protocol.Enumeration where
  name := U.className e.name
  supportsCustomValues := e.supportsCustomValues
  type := translate U none e.type
  values := e.values.map (translateEntry U)

def translateDirection (direction : String) : Protocol.MessageDirection :=
  match direction with
  | "serverToClient" => .serverToClient
  | "clientToServer" => .clientToServer
  | "both" => .bidirectional
  | _ => .invalid

def translateNotification (n : MetaModel.Notification) : Protocol.Notification where
  name := U.className n.method
  method := n.method
  messageDirection := translateDirection n.messageDirection
  params := translateAll U none n.params
  registrationOptions := translate U none n.registrationOptions

def translateRequest (r : MetaModel.Request) : Protocol.Request where
  name := U.className r.method
  method := r.method
  messageDirection := translateDirection r.messageDirection
  params := translateAll U none r.params
  errorData := translate U none r.errorData
  partialResult := translate U none r.partialResult
  registrationOptions := translate U none r.registrationOptions
  result := translate U none r.result

section Rules

variable {U} {α β : Type}

theorem bind_eq_ok {x : M α} {f : α → M β} {st st'' : State} {b : β} :
    (x >>= f) st = .ok (b, st'') ↔ ∃ a st', x st = .ok (a, st') ∧ f a st' = .ok (b, st'') := by
  change M.bind x f st = _ ↔ _
  unfold M.bind
  cases x st with
  | error e => simp
  | ok r =>
    obtain ⟨a, st'⟩ := r
    simp

theorem pure_eq_ok {a b : α} {st st' : State} :
    (pure a : M α) st = .ok (b, st') ↔ b = a ∧ st' = st := by
  change M.pure a st = _ ↔ _
  simp [M.pure, eq_comm]

theorem modify_eq_ok {f : State → State} {u : Unit} {st st' : State} :
    modify f st = .ok (u, st') ↔ st' = f st := by
  simp [modify, eq_comm]

theorem get_eq_ok {st st' a : State} : get st = .ok (a, st') ↔ a = st ∧ st' = st := by
  simp [get, eq_comm]

/-- What the functions do to the state: the function for structure literals stays in place,
nested structures are added, and an error is not lost. -/
structure Frame (st st' : State) (nested : List Protocol.Structure) : Prop where
  scope : st'.newStructureLiteralType = st.newStructureLiteralType
  nested : st'.nestedStructures = st.nestedStructures ++ nested
  err : st'.err = none → st.err = none

theorem Frame.refl {st : State} : Frame st st [] := ⟨rfl, (List.append_nil _).symm, id⟩

theorem Frame.trans {st st' st'' : State} {nested nested' : List Protocol.Structure}
    (h : Frame st st' nested) (h' : Frame st' st'' nested') : Frame st st'' (nested ++ nested') where
  scope := h'.scope.trans h.scope
  nested := by rw [h'.nested, h.nested, List.append_assoc]
  err he := h.err (h'.err he)

theorem error_eq_ok {message : String} {u : Unit} {st st' : State}
    (h : error message st = .ok (u, st')) : Frame st st' [] ∧ st'.err ≠ none := by
  have hst := modify_eq_ok.mp h
  rw [hst]
  cases he : st.err with
  | none =>
    simp only [Option.isSome_none]
    exact ⟨⟨rfl, (List.append_nil _).symm, fun h => by cases h⟩, by simp⟩
  | some text =>
    simp only [Option.isSome_some, if_true]
    exact ⟨Frame.refl, by simp [he]⟩

theorem inScope_eq_ok {message : String} {x : M α} {a : α} {st st' : State}
    (h : inScope message x st = .ok (a, st')) :
    ∃ st₁ st₂, st₁ = { st with stack := message :: st.stack } ∧ x st₁ = .ok (a, st₂) ∧
      st' = { st₂ with stack := st₂.stack.tail } := by
  obtain ⟨u, st₁, h₁, h⟩ := bind_eq_ok.mp h
  obtain ⟨b, st₂, h₂, h⟩ := bind_eq_ok.mp h
  obtain ⟨v, st₃, h₃, h⟩ := bind_eq_ok.mp h
  obtain ⟨rfl, rfl⟩ := pure_eq_ok.mp h
  exact ⟨st₁, st₂, modify_eq_ok.mp h₁, h₂, modify_eq_ok.mp h₃⟩

theorem newReferenceType_eq_ok {name : String} {t : Protocol.TypeImpl} {st st' : State}
    (h : newReferenceType name st = .ok (t, st')) : t = .reference name ∧ Frame st st' [] := by
  obtain ⟨u, st₁, h₁, h⟩ := bind_eq_ok.mp h
  obtain ⟨rfl, rfl⟩ := pure_eq_ok.mp h
  rw [modify_eq_ok.mp h₁]
  exact ⟨rfl, rfl, (List.append_nil _).symm, id⟩

theorem invalidType_eq_ok {text : String} {t : Protocol.TypeImpl} {st st' : State}
    (h : invalidType text st = .ok (t, st')) : t = .nil ∧ Frame st st' [] := by
  obtain ⟨u, st₁, h₁, h⟩ := bind_eq_ok.mp h
  obtain ⟨rfl, rfl⟩ := pure_eq_ok.mp h
  exact ⟨rfl, (error_eq_ok h₁).1⟩

end Rules

section Types

variable {U}

theorem translateLiterals_nil (scope : Option LiteralScope) : translateLiterals U scope [] = [] := by
  cases scope with
  | none => rfl
  | some scope => rfl

theorem translateLiterals_append (scope : Option LiteralScope)
    (ls ls' : List (List MetaModel.Property)) : translateLiterals U scope (ls ++ ls') =
      translateLiterals U scope ls ++ translateLiterals U scope ls' := by
  cases scope with
  | none => rfl
  | some scope => exact List.map_append

theorem Frame.noLiterals {st st' : State} (h : Frame st st' []) (scope : Option LiteralScope) :
    Frame st st' (translateLiterals U scope []) := by
  rw [translateLiterals_nil]
  exact h

mutual

theorem typeImpl_eq_ok {t : MetaModel.TypeImpl} {out : Protocol.TypeImpl} {st st' : State}
    (h : typeImpl U t st = .ok (out, st')) :
    out = translate U st.newStructureLiteralType t ∧
      Frame st st' (translateLiterals U st.newStructureLiteralType t.literals) := by
  cases t with
  | nil | stringLiteral value =>
    rw [typeImpl] at h
    obtain ⟨rfl, rfl⟩ := pure_eq_ok.mp h
    exact ⟨by rw [translate], Frame.refl.noLiterals _⟩
  | base name =>
    rw [typeImpl] at h
    cases hb : baseType name with
    | some t =>
      rw [hb] at h
      obtain ⟨rfl, rfl⟩ := pure_eq_ok.mp h
      exact ⟨by rw [translate, hb, Option.getD_some], Frame.refl.noLiterals _⟩
    | none =>
      rw [hb] at h
      obtain ⟨rfl, hf⟩ := invalidType_eq_ok h
      exact ⟨by rw [translate, hb, Option.getD_none], hf.noLiterals _⟩
  | integerLiteral value | booleanLiteral value =>
    rw [typeImpl] at h
    obtain ⟨rfl, hf⟩ := invalidType_eq_ok h
    exact ⟨by rw [translate], hf.noLiterals _⟩
  | reference name =>
    rw [typeImpl] at h
    obtain ⟨rfl, hf⟩ := newReferenceType_eq_ok h
    exact ⟨by rw [translate], hf.noLiterals _⟩
  | array element =>
    rw [typeImpl] at h
    obtain ⟨e, st₁, he, h⟩ := bind_eq_ok.mp h
    obtain ⟨rfl, rfl⟩ := pure_eq_ok.mp h
    obtain ⟨rfl, hf⟩ := typeImpl_eq_ok he
    exact ⟨by rw [translate], by rwa [MetaModel.TypeImpl.literals]⟩
  | and items | or items | tuple items =>
    rw [typeImpl] at h
    obtain ⟨is, st₁, hi, h⟩ := bind_eq_ok.mp h
    obtain ⟨rfl, rfl⟩ := pure_eq_ok.mp h
    obtain ⟨rfl, hf⟩ := typeImpls_eq_ok hi
    exact ⟨by rw [translate], by rwa [MetaModel.TypeImpl.literals]⟩
  | map key value =>
    rw [typeImpl] at h
    obtain ⟨k, st₁, hk, h⟩ := bind_eq_ok.mp h
    obtain ⟨v, st₂, hv, h⟩ := bind_eq_ok.mp h
    obtain ⟨rfl, rfl⟩ := pure_eq_ok.mp h
    obtain ⟨rfl, hfk⟩ := typeImpl_eq_ok hk
    obtain ⟨rfl, hfv⟩ := typeImpl_eq_ok hv
    rw [hfk.scope] at hfv ⊢
    refine ⟨by rw [translate], ?_⟩
    rw [MetaModel.TypeImpl.literals, translateLiterals_append]
    exact hfk.trans hfv
  | structureLiteral ps =>
    rw [typeImpl] at h
    obtain ⟨st₀, st₁, hget, hrun⟩ := bind_eq_ok.mp h
    obtain ⟨h₀, h₁⟩ := get_eq_ok.mp hget
    subst h₀ h₁
    cases hs : st₁.newStructureLiteralType with
    | none =>
      simp only [hs] at hrun
      cases hrun
    | some scope =>
      simp only [hs] at hrun
      obtain ⟨properties, st₂, hp, hrun⟩ := bind_eq_ok.mp hrun
      obtain ⟨u, st₃, hm, hrun⟩ := bind_eq_ok.mp hrun
      obtain ⟨rfl, hfr⟩ := newReferenceType_eq_ok hrun
      obtain ⟨rfl, hfp⟩ := propertyImpls_eq_ok hp
      have hfm : Frame st₂ st₃ [translateLiteral U scope ps] := by
        rw [modify_eq_ok.mp hm, hs]
        exact ⟨rfl, rfl, id⟩
      rw [hs] at hfp
      refine ⟨by rw [translate]; rfl, ?_⟩
      rw [MetaModel.TypeImpl.literals, translateLiterals_append]
      have hall := (hfp.trans hfm).trans hfr
      rwa [List.append_nil] at hall

theorem typeImpls_eq_ok {ts : List MetaModel.TypeImpl} {out : List Protocol.TypeImpl}
    {st st' : State} (h : typeImpls U ts st = .ok (out, st')) :
    out = translateAll U st.newStructureLiteralType ts ∧
      Frame st st' (translateLiterals U st.newStructureLiteralType
        (MetaModel.TypeImpl.literalsAll ts)) := by
  cases ts with
  | nil =>
    rw [typeImpls] at h
    obtain ⟨rfl, rfl⟩ := pure_eq_ok.mp h
    exact ⟨by rw [translateAll], Frame.refl.noLiterals _⟩
  | cons t ts =>
    rw [typeImpls] at h
    obtain ⟨t', st₁, ht, h⟩ := bind_eq_ok.mp h
    obtain ⟨ts', st₂, hts, h⟩ := bind_eq_ok.mp h
    obtain ⟨rfl, rfl⟩ := pure_eq_ok.mp h
    obtain ⟨rfl, hft⟩ := typeImpl_eq_ok ht
    obtain ⟨rfl, hfts⟩ := typeImpls_eq_ok hts
    rw [hft.scope] at hfts ⊢
    refine ⟨by rw [translateAll], ?_⟩
    rw [MetaModel.TypeImpl.literalsAll, translateLiterals_append]
    exact hft.trans hfts

theorem propertyImpl_eq_ok {p : MetaModel.Property} {out : Protocol.Property}
    {st st' : State} (h : propertyImpl U p st = .ok (out, st')) :
    out = translateProperty U st.newStructureLiteralType p ∧
      Frame st st' (translateLiterals U st.newStructureLiteralType p.type.literals) := by
  obtain ⟨name, optional, type⟩ := p
  rw [propertyImpl] at h
  obtain ⟨st₁, st₂, rfl, hx, rfl⟩ := inScope_eq_ok h
  obtain ⟨t, st₃, ht, hx⟩ := bind_eq_ok.mp hx
  obtain ⟨rfl, rfl⟩ := pure_eq_ok.mp hx
  obtain ⟨rfl, hf⟩ := typeImpl_eq_ok ht
  exact ⟨rfl, hf.scope, hf.nested, hf.err⟩

theorem propertyImpls_eq_ok {ps : List MetaModel.Property} {out : List Protocol.Property}
    {st st' : State} (h : propertyImpls U ps st = .ok (out, st')) :
    out = ps.map (translateProperty U st.newStructureLiteralType) ∧
      Frame st st' (translateLiterals U st.newStructureLiteralType
        (MetaModel.TypeImpl.propertyLiterals ps)) := by
  cases ps with
  | nil =>
    rw [propertyImpls] at h
    obtain ⟨rfl, rfl⟩ := pure_eq_ok.mp h
    exact ⟨rfl, Frame.refl.noLiterals _⟩
  | cons p ps =>
    rw [propertyImpls] at h
    obtain ⟨p', st₁, hp, h⟩ := bind_eq_ok.mp h
    obtain ⟨ps', st₂, hps, h⟩ := bind_eq_ok.mp h
    obtain ⟨rfl, rfl⟩ := pure_eq_ok.mp h
    obtain ⟨rfl, hfp⟩ := propertyImpl_eq_ok hp
    obtain ⟨rfl, hfps⟩ := propertyImpls_eq_ok hps
    rw [hfp.scope] at hfps ⊢
    refine ⟨rfl, ?_⟩
    rw [MetaModel.TypeImpl.propertyLiterals, translateLiterals_append]
    exact hfp.trans hfps

end

end Types

section Structures

variable {U} {name : String}

theorem literalKind_eq_some {p : MetaModel.Property} {v : String} :
    p.literalKind = some v ↔ p.name = "kind" ∧ p.type = .stringLiteral v := by
  unfold MetaModel.PropertyOf.literalKind
  cases p.type with
  | stringLiteral w => simp
  | _ => simp

theorem baseType_ne_stringLiteral {name v : String} : baseType name ≠ some (.stringLiteral v) := by
  unfold baseType
  split <;> simp

theorem translate_eq_stringLiteral {scope : Option LiteralScope} {t : MetaModel.TypeImpl}
    {v : String} : translate U scope t = .stringLiteral v ↔ t = .stringLiteral v := by
  cases t with
  | stringLiteral w => simp [translate]
  | base name =>
    cases hb : baseType name with
    | none => simp [translate, hb]
    | some b =>
      have hne : b ≠ .stringLiteral v := fun he => baseType_ne_stringLiteral (he ▸ hb)
      simp [translate, hb, hne]
  | structureLiteral ps =>
    cases scope with
    | none => simp [translate]
    | some scope => simp [translate]
  | _ => simp [translate]

/-- A round resolves the property in its own scope, and keeps a literal kind apart. -/
theorem structureProperty_cases {p : MetaModel.Property}
    {out out' : String × List Protocol.Property} {st st' : State}
    (h : structureProperty U name out p st = .ok (out', st')) : ∃ property,
      propertyImpl U p { st with newStructureLiteralType := some ⟨name, p.name⟩ } =
        .ok (property, st') ∧
      ((∃ v, property.type = .stringLiteral v ∧ property.jsonName = "kind" ∧
          out' = (v, out.2)) ∨
        (∀ v, property.type = .stringLiteral v → property.jsonName ≠ "kind") ∧
          out' = (out.1, out.2 ++ [property])) := by
  obtain ⟨u, st₁, hm, hrun⟩ := bind_eq_ok.mp h
  obtain ⟨property, st₂, hp, hrun⟩ := bind_eq_ok.mp hrun
  rw [modify_eq_ok.mp hm] at hp
  cases ht : property.type with
  | stringLiteral v =>
    simp only [ht] at hrun
    by_cases hk : property.jsonName = "kind"
    · rw [if_pos hk] at hrun
      obtain ⟨rfl, rfl⟩ := pure_eq_ok.mp hrun
      exact ⟨property, hp, .inl ⟨v, ht, hk, rfl⟩⟩
    · rw [if_neg hk] at hrun
      obtain ⟨rfl, rfl⟩ := pure_eq_ok.mp hrun
      exact ⟨property, hp, .inr ⟨fun _ _ => hk, rfl⟩⟩
  | _ =>
    simp only [ht] at hrun
    obtain ⟨rfl, rfl⟩ := pure_eq_ok.mp hrun
    exact ⟨property, hp, .inr ⟨fun v hv => by simp [ht] at hv, rfl⟩⟩

/-- The scope of a property in the structure of a given C++ name. -/
theorem structureProperty_eq_ok {p : MetaModel.Property}
    {out out' : String × List Protocol.Property} {st st' : State}
    (h : structureProperty U name out p st = .ok (out', st')) :
    out' = p.literalKind.elim
        (out.1, out.2 ++ [translateProperty U (some ⟨name, p.name⟩) p]) (fun v => (v, out.2)) ∧
      st'.nestedStructures = st.nestedStructures ++
        translateLiterals U (some ⟨name, p.name⟩) p.type.literals ∧
      (st'.err = none → st.err = none) := by
  obtain ⟨property, hp, hcase⟩ := structureProperty_cases h
  obtain ⟨rfl, hf⟩ := propertyImpl_eq_ok hp
  refine ⟨?_, hf.nested, hf.err⟩
  obtain ⟨v, ht, hk, rfl⟩ | ⟨hordinary, rfl⟩ := hcase
  · rw [literalKind_eq_some.mpr ⟨hk, translate_eq_stringLiteral.mp ht⟩]
    rfl
  · have hnone : p.literalKind = none := by
      rw [Option.eq_none_iff_forall_ne_some]
      intro v hv
      obtain ⟨hk, ht⟩ := literalKind_eq_some.mp hv
      exact hordinary v (translate_eq_stringLiteral.mpr ht) hk
    rw [hnone]
    rfl

theorem structureProperties_eq_ok {ps : List MetaModel.Property}
    {out out' : String × List Protocol.Property} {st st' : State}
    (h : structureProperties U name out ps st = .ok (out', st')) :
    out'.1 = (ps.filterMap MetaModel.PropertyOf.literalKind).getLast?.getD out.1 ∧
      out'.2 = out.2 ++ (ps.filter fun p => p.literalKind.isNone).map
        (fun p => translateProperty U (some ⟨name, p.name⟩) p) ∧
      st'.nestedStructures = st.nestedStructures ++
        ps.flatMap (fun p => translateLiterals U (some ⟨name, p.name⟩) p.type.literals) ∧
      (st'.err = none → st.err = none) := by
  induction ps generalizing out st with
  | nil =>
    obtain ⟨rfl, rfl⟩ := pure_eq_ok.mp h
    simp
  | cons p ps ih =>
    obtain ⟨out₁, st₁, hp, hrun⟩ := bind_eq_ok.mp h
    obtain ⟨hout, hnested, herr⟩ := structureProperty_eq_ok hp
    obtain ⟨hkind, hproperties, hnested', herr'⟩ := ih hrun
    refine ⟨?_, ?_, ?_, fun he => herr (herr' he)⟩
    · rw [hkind, hout]
      cases hk : p.literalKind with
      | none => simp [hk]
      | some v => simp [hk, List.getLast?_cons]
    · rw [hproperties, hout]
      cases hk : p.literalKind with
      | none => simp [hk]
      | some v => simp [hk]
    · rw [hnested', hnested, List.append_assoc, List.flatMap_cons]

/-- What a function does to the state as a whole. -/
structure Keeps (st st' : State) : Prop where
  scope : st'.newStructureLiteralType = st.newStructureLiteralType
  err : st'.err = none → st.err = none

theorem Frame.keeps {st st' : State} {nested : List Protocol.Structure} (h : Frame st st' nested) :
    Keeps st st' :=
  ⟨h.scope, h.err⟩

theorem structureImpl_eq_ok {s : MetaModel.Structure} {out : Protocol.Structure} {st st' : State}
    (hst : st.newStructureLiteralType = none) (h : structureImpl U s st = .ok (out, st')) :
    out = translateStructure U s ∧ Keeps st st' := by
  obtain ⟨st₁, st₂, rfl, hx, rfl⟩ := inScope_eq_ok h
  obtain ⟨extendsTypes, st₃, he, hx⟩ := bind_eq_ok.mp hx
  obtain ⟨mixins, st₄, hm, hx⟩ := bind_eq_ok.mp hx
  obtain ⟨old, st₅, hget, hx⟩ := bind_eq_ok.mp hx
  obtain ⟨u, st₆, hclear, hx⟩ := bind_eq_ok.mp hx
  obtain ⟨out', st₇, hp, hx⟩ := bind_eq_ok.mp hx
  obtain ⟨last, st₈, hget', hx⟩ := bind_eq_ok.mp hx
  obtain ⟨v, st₉, hback, hx⟩ := bind_eq_ok.mp hx
  obtain ⟨hout, hlast⟩ := pure_eq_ok.mp hx
  obtain ⟨hev, hef⟩ := typeImpls_eq_ok he
  obtain ⟨hmv, hmf⟩ := typeImpls_eq_ok hm
  obtain ⟨hkind, hproperties, hnested, herr⟩ := structureProperties_eq_ok hp
  obtain ⟨hold, h₅⟩ := get_eq_ok.mp hget
  obtain ⟨hlast', h₈⟩ := get_eq_ok.mp hget'
  have h₆ := modify_eq_ok.mp hclear
  have h₉ := modify_eq_ok.mp hback
  have hscope : st₄.newStructureLiteralType = none := by
    rw [hmf.scope, hef.scope]
    exact hst
  rw [hst] at hev
  rw [hef.scope, hst] at hmv
  refine ⟨?_, ?_, ?_⟩
  · rw [hout, hev, hmv, hkind, hproperties, hlast', hnested, h₆]
    rfl
  · rw [hlast, h₉, hold, hst]
    exact hscope
  · intro hnone
    have h₄ : st₄.err = none := by
      have h₇ : st₇.err = none := by
        rw [hlast, h₉, h₈] at hnone
        exact hnone
      have h₆' := herr h₇
      rw [h₆, h₅] at h₆'
      exact h₆'
    exact hef.err (hmf.err h₄)

theorem typeAlias_eq_ok {a : MetaModel.TypeAlias} {out : Protocol.TypeAlias} {st st' : State}
    (hst : st.newStructureLiteralType = none) (h : typeAlias U a st = .ok (out, st')) :
    out = translateAlias U a ∧ Keeps st st' := by
  obtain ⟨st₁, st₂, rfl, hx, rfl⟩ := inScope_eq_ok h
  obtain ⟨t, st₃, ht, hx⟩ := bind_eq_ok.mp hx
  obtain ⟨rfl, rfl⟩ := pure_eq_ok.mp hx
  obtain ⟨rfl, hf⟩ := typeImpl_eq_ok ht
  refine ⟨?_, hf.scope, hf.err⟩
  rw [hst]
  rfl

end Structures

end Resolver

end Langsvr
