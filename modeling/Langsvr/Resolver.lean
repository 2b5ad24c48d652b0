import Langsvr.NameCases
import Langsvr.Protocols

/-!
# The resolver

`Resolve` turns a metamodel into a protocol: package `resolver`. The state keeps the first
error, and the work goes on after it with null types. A null type or a null function that is
used is a panic.
-/

namespace Langsvr.Resolver

open Protocol (TypeDecl)

/-- The variables that the function for structure literals captures. -/
structure LiteralScope where
  structureName : String
  propertyName : String

/-- The state of the resolver, the innermost scope first. The nested structures are those of
the structure that is being resolved. -/
structure State where
  stack : List String := []
  err : Option String := none
  newStructureLiteralType : Option LiteralScope := none
  allReferenceTypes : List String := []
  nestedStructures : List Protocol.Structure := []

/-- A function of the resolver. -/
abbrev M (α : Type) := State → Except Stop (α × State)

namespace M

variable {α β : Type}

def pure (a : α) : M α := fun st => .ok (a, st)

def bind (x : M α) (f : α → M β) : M β := fun st =>
  match x st with
  | .error e => .error e
  | .ok (a, st') => f a st'

end M

instance instMonadM : Monad M where
  pure := M.pure
  bind := M.bind

def get : M State := fun st => .ok (st, st)

def modify (f : State → State) : M Unit := fun st => .ok ((), f st)

def panic {α : Type} : M α := fun _ => .error .panic

/-- `error`. Only the first error is kept. -/
def error (message : String) : M Unit := modify fun st =>
  if st.err.isSome then st
  else { st with err := some (st.stack.foldl (fun text scope => text ++ "\nwhile " ++ scope) message) }

/-- `pushScope`, with the deferred pop after the call. -/
def inScope {α : Type} (message : String) (x : M α) : M α := do
  modify fun st => { st with stack := message :: st.stack }
  let a ← x
  modify fun st => { st with stack := st.stack.tail }
  return a

def transform {α β : Type} (f : α → M β) : List α → M (List β)
  | [] => return []
  | x :: xs => do
    let y ← f x
    let ys ← transform f xs
    return y :: ys

variable (U : Unicode)

/-- A reference is created and noted down. -/
def newReferenceType (name : String) : M Protocol.TypeImpl := do
  modify fun st => { st with allReferenceTypes := st.allReferenceTypes ++ [name] }
  return .reference name

/-- The branch of `typeImpl` for base types. -/
def baseType (name : String) : Option Protocol.TypeImpl :=
  match name with
  | "URI" => some .uri
  | "DocumentUri" => some .documentUri
  | "integer" => some .integer
  | "uinteger" => some .uinteger
  | "decimal" => some .decimal
  | "RegExp" => some .regExp
  | "string" => some .string
  | "boolean" => some .boolean
  | "null" => some .null
  | _ => none

/-- The error of `typeImpl`, with the type and its members as they are printed. -/
def invalidType (text : String) : M Protocol.TypeImpl := do
  error ("invalid type " ++ text)
  return .nil

mutual

def typeImpl : MetaModel.TypeImpl → M Protocol.TypeImpl
  | .nil => return .nil
  | .base name =>
    match baseType name with
    | some t => return t
    | none => invalidType ("*json.BaseType &\x7bName:" ++ name ++ "\x7d")
  | .array element => do
    let element ← typeImpl element
    return .array element
  | .reference name => newReferenceType (U.className name)
  | .and items => do
    let items ← typeImpls items
    return .and items
  | .or items => do
    let items ← typeImpls items
    return .or items
  | .map key value => do
    let key ← typeImpl key
    let value ← typeImpl value
    return .map key value
  | .stringLiteral value => return .stringLiteral value
  | .structureLiteral ps => do
    let st ← get
    match st.newStructureLiteralType with
    | none => panic
    | some scope => do
      -- the literals inside the properties are appended before this one
      let name := U.title scope.propertyName
      let properties ← propertyImpls ps
      modify fun st => { st with
        nestedStructures := st.nestedStructures ++
          [{ name, properties, nestedNames := [scope.structureName, name] }] }
      newReferenceType (scope.structureName ++ "::" ++ name)
  | .tuple items => do
    let items ← typeImpls items
    return .tuple items
  | .integerLiteral value =>
    invalidType ("*json.IntegerLiteralType &\x7bValue:" ++ toString value ++ "\x7d")
  | .booleanLiteral value =>
    invalidType ("*json.BooleanLiteralType &\x7bValue:" ++ toString value ++ "\x7d")

def typeImpls : List MetaModel.TypeImpl → M (List Protocol.TypeImpl)
  | [] => return []
  | t :: ts => do
    let t ← typeImpl t
    let ts ← typeImpls ts
    return t :: ts

def propertyImpl : MetaModel.Property → M Protocol.Property
  | ⟨name, optional, type⟩ => inScope ("resolving property '" ++ name ++ "'") do
    let type ← typeImpl type
    return { jsonName := name, cppName := U.snake name, optional, type }

def propertyImpls : List MetaModel.Property → M (List Protocol.Property)
  | [] => return []
  | p :: ps => do
    let p ← propertyImpl p
    let ps ← propertyImpls ps
    return p :: ps

end

section Declarations

/-- A round of the loop over the properties of a structure. A literal kind is kept apart. -/
def structureProperty (name : String) (out : String × List Protocol.Property)
    (propertyIn : MetaModel.Property) : M (String × List Protocol.Property) := do
  modify fun st => { st with newStructureLiteralType := some ⟨name, propertyIn.name⟩ }
  let propertyOut ← propertyImpl U propertyIn
  match propertyOut.type with
  | .stringLiteral value =>
    if propertyOut.jsonName = "kind" then return (value, out.2)
    else return (out.1, out.2 ++ [propertyOut])
  | _ => return (out.1, out.2 ++ [propertyOut])

def structureProperties (name : String) (out : String × List Protocol.Property) :
    List MetaModel.Property → M (String × List Protocol.Property)
  | [] => return out
  | p :: ps => do
    let out ← structureProperty U name out p
    structureProperties name out ps

/-- `structure`. The functions for structure literals are taken back at the end. -/
def structureImpl (s : MetaModel.Structure) : M Protocol.Structure :=
  inScope ("resolving structure '" ++ s.name ++ "'") do
    let name := U.className s.name
    let extendsTypes ← typeImpls U s.extendsTypes
    let mixins ← typeImpls U s.mixins
    let old ← get
    modify fun st => { st with nestedStructures := [] }
    let (kind, properties) ← structureProperties U name ("", []) s.properties
    let st ← get
    modify fun st => { st with newStructureLiteralType := old.newStructureLiteralType }
    return { name, extendsTypes, mixins, properties, kind,
             nestedStructures := st.nestedStructures, nestedNames := [name] }

/-- `value`. -/
def entryValue : MetaModel.EntryValue → MetaModel.EntryValue
  | .string value => .string ("\"" ++ value ++ "\"")
  | .number value => .number value

def enumerationEntry (e : MetaModel.EnumerationEntry) : M Protocol.EnumerationEntry :=
  inScope ("resolving enumeration entry '" ++ e.name ++ "'") do
    return { name := U.className e.name, value := entryValue e.value }

def enumeration (e : MetaModel.Enumeration) : M Protocol.Enumeration :=
  inScope ("resolving enumeration '" ++ e.name ++ "'") do
    let type ← typeImpl U e.type
    let values ← transform (enumerationEntry U) e.values
    return { name := U.className e.name, supportsCustomValues := e.supportsCustomValues,
             type, values }

def messageDirection (direction : String) : M Protocol.MessageDirection :=
  match direction with
  | "serverToClient" => return .serverToClient
  | "clientToServer" => return .clientToServer
  | "both" => return .bidirectional
  | _ => do
    error ("invalid message direction " ++ direction)
    return .invalid

def notification (n : MetaModel.Notification) : M Protocol.Notification :=
  inScope ("resolving notification '" ++ n.method ++ "'") do
    let messageDirection ← messageDirection n.messageDirection
    let params ← typeImpls U n.params
    let registrationOptions ← typeImpl U n.registrationOptions
    return { name := U.className n.method, method := n.method, messageDirection, params,
             registrationOptions }

def request (r : MetaModel.Request) : M Protocol.Request :=
  inScope ("resolving request '" ++ r.method ++ "'") do
    let errorData ← typeImpl U r.errorData
    let messageDirection ← messageDirection r.messageDirection
    let params ← typeImpls U r.params
    let partialResult ← typeImpl U r.partialResult
    let registrationOptions ← typeImpl U r.registrationOptions
    let result ← typeImpl U r.result
    return { name := U.className r.method, method := r.method, messageDirection, params,
             errorData, partialResult, registrationOptions, result }

def typeAlias (a : MetaModel.TypeAlias) : M Protocol.TypeAlias :=
  inScope ("resolving type alias '" ++ a.name ++ "'") do
    let type ← typeImpl U a.type
    return { name := U.className a.name, type }

end Declarations

section ResolveTypes

/-- The type of a declaration as it is printed. -/
def declType : TypeDecl → String
  | .typeAlias _ => "*protocol.TypeAlias"
  | .enumeration _ => "*protocol.Enumeration"
  | .structure _ => "*protocol.Structure"

def lookup (name : String) (typeDecls : List (String × TypeDecl)) : Option TypeDecl :=
  (typeDecls.find? fun d => d.1 = name).map Prod.snd

def register (typeDecls : List (String × TypeDecl)) (d : String × TypeDecl) :
    M (List (String × TypeDecl)) :=
  match lookup d.1 typeDecls with
  | some existing => do
    error ("duplicate definition for '" ++ d.1 ++ "'. " ++ declType d.2 ++ " and " ++
      declType existing)
    return typeDecls
  | none => return typeDecls ++ [d]

def registerAll (typeDecls : List (String × TypeDecl)) :
    List (String × TypeDecl) → M (List (String × TypeDecl))
  | [] => return typeDecls
  | d :: ds => do
    let typeDecls ← register typeDecls d
    registerAll typeDecls ds

/-- The declarations in the order in which they are registered. A nested structure is
registered with the structure that contains it. -/
def declarations (p : Protocol) : List (String × TypeDecl) :=
  p.typeAliases.map (fun a => (a.name, .typeAlias a)) ++
    p.enumerations.map (fun e => (e.name, .enumeration e)) ++
    p.structures.flatMap fun s => (s.name, .structure s) ::
      s.nestedStructures.map fun n => (s.name ++ "::" ++ n.name, .structure s)

def resolveReference (typeDecls : List (String × TypeDecl)) (name : String) :
    M (String × Option TypeDecl) :=
  match lookup name typeDecls with
  | some d => return (name, some d)
  | none => do
    error ("referenced type '" ++ name ++ "' not found")
    return (name, none)

def resolveTypes (p : Protocol) : M (List (String × Option TypeDecl)) := do
  let typeDecls ← registerAll [] (declarations p)
  let st ← get
  transform (resolveReference typeDecls) st.allReferenceTypes

end ResolveTypes

section Sorts

/-- The declarations that types refer to: the last one of each name. -/
def dependencies {α : Type} (name : α → String) (decls : List α)
    (types : List Protocol.TypeImpl) : List α :=
  types.filterMap fun t =>
    match t with
    | .reference n => decls.reverse.find? fun d => name d = n
    | _ => none

def aliasDependencies (aliases : List Protocol.TypeAlias) (a : Protocol.TypeAlias) :
    Except Stop (List Protocol.TypeAlias) := do
  let types ← a.type.recursiveTypesOf
  return dependencies Protocol.TypeAlias.name aliases types

/-- `sortTypeAliases`. The loop starts with all aliases on the stack. -/
def sortTypeAliases (aliases : List Protocol.TypeAlias) : Except Stop (List Protocol.TypeAlias) := do
  let fuel := aliases.length + Protocol.TypeImpl.sizeAll (aliases.map Protocol.TypeAlias.type)
  let marks ← Traversal.drain Protocol.TypeAlias.name (aliasDependencies aliases) fuel
    aliases.reverse {}
  return marks.sorted

def structureDependencies (structures : List Protocol.Structure) (s : Protocol.Structure) :
    Except Stop (List Protocol.Structure) := do
  let types ← s.properties.mapM fun p => p.type.recursiveTypesOf
  return dependencies Protocol.Structure.name structures (s.extendsTypes ++ types.flatten)

def sortStructures (structures : List Protocol.Structure) :
    Except Stop (List Protocol.Structure) := do
  let visit := Traversal.visit Protocol.Structure.name (structureDependencies structures)
    (structures.length + 1)
  let marks ← structures.foldlM (fun marks s => visit s marks) {}
  return marks.sorted

end Sorts

section Resolve

/-- A computation that may panic. -/
def lift {α : Type} (x : Except Stop α) : M α := fun st =>
  match x with
  | .error e => .error e
  | .ok a => .ok (a, st)

def model (m : MetaModel) : M Protocol :=
  inScope "resolving model" do
    let enumerations ← transform (enumeration U) m.enumerations
    let notifications ← transform (notification U) m.notifications
    let requests ← transform (request U) m.requests
    let structures ← transform (structureImpl U) m.structures
    let typeAliases ← transform (typeAlias U) m.typeAliases
    let references ← resolveTypes { enumerations, structures, typeAliases }
    let sortedAliases ← lift (sortTypeAliases typeAliases)
    let sortedStructures ← lift (sortStructures structures)
    return {
      enumerations, notifications, requests, references
      structures := sortedStructures
      typeAliases := sortedAliases
      clientToServerRequests := requests.filter fun r =>
        r.messageDirection = .clientToServer ∨ r.messageDirection = .bidirectional
      serverToClientRequests := requests.filter fun r =>
        r.messageDirection = .serverToClient ∨ r.messageDirection = .bidirectional }

/-- `Resolve`: a protocol or the text of an error. -/
def resolve (m : MetaModel) : Except Stop (Except String Protocol) :=
  match model U m {} with
  | .error e => .error e
  | .ok (p, st) =>
    match st.err with
    | some message => .ok (.error message)
    | none => .ok (.ok p)

end Resolve

end Langsvr.Resolver
