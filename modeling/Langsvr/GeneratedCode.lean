import Langsvr.Protocols
import Langsvr.StringLiterals

/-!
# Generated code

What the templates `lsp.h.tmpl` and `lsp.cc.tmpl` generate for the aliases and structures of
a protocol. The code is kept as statements instead of text. A name that is printed between quotes
becomes the value of the string literal. Nothing is generated for one that is not the text of a
literal.
-/

namespace Langsvr

/-- A C++ type. A declared type is named in the namespace `lsp`. -/
inductive CppType where
  | boolean | decimal | documentUri | integer | null | string | uinteger | uri
  | vector (element : CppType)
  | oneOf (items : List CppType)
  | map (key value : CppType)
  | named (name : String)
  | tuple (items : List CppType)

/-- A block of the body of `Decode` for a structure. -/
inductive DecodeBlock where
  | matchKind (want : String)
  | optionalMember (jsonName : String) (type : CppType) (cppName : String)
  | member (jsonName cppName : String)
  | base (name : String)

/-- A block of the body of `EncodeMembers` for a structure. -/
inductive EncodeBlock where
  | kind (value : String)
  | optionalMember (jsonName cppName : String)
  | member (jsonName cppName : String)
  | base (name : String)

/-- The member of the JSON object that a block asks for. -/
def DecodeBlock.memberName : DecodeBlock → Option String
  | .matchKind _ => some "kind"
  | .optionalMember jsonName _ _ | .member jsonName _ => some jsonName
  | .base _ => none

def DecodeBlock.baseName : DecodeBlock → Option String
  | .base name => some name
  | _ => none

/-- The member that a block can add to the JSON object. -/
def EncodeBlock.memberName : EncodeBlock → Option String
  | .kind _ => some "kind"
  | .optionalMember jsonName _ | .member jsonName _ => some jsonName
  | .base _ => none

def EncodeBlock.baseName : EncodeBlock → Option String
  | .base name => some name
  | _ => none

/-- A structure with its bases, its data members, the flag of which tells that it is an
`Optional`, and the bodies of its functions. -/
structure CppStructure where
  name : String
  bases : List CppType
  members : List (Bool × CppType × String)
  decode : List DecodeBlock
  encodeMembers : List EncodeBlock

/-- The generated aliases and structures. -/
structure CppProgram where
  aliases : List (String × CppType)
  structures : List CppStructure

namespace Templates

open Protocol (TypeImpl)

mutual

/-- The template `Type`. It fails for a type that it does not list. -/
def typeTemplate : TypeImpl → Option CppType
  | .boolean => some .boolean
  | .decimal => some .decimal
  | .documentUri => some .documentUri
  | .integer => some .integer
  | .null => some .null
  | .string => some .string
  | .uinteger => some .uinteger
  | .uri => some .uri
  | .array element => do
    let element ← typeTemplate element
    return .vector element
  | .or items => do
    let items ← typeTemplates items
    return .oneOf items
  | .map key value => do
    let key ← typeTemplate key
    let value ← typeTemplate value
    return .map key value
  | .reference name => some (.named name)
  | .tuple items => do
    let items ← typeTemplates items
    return .tuple items
  | .nil | .regExp | .and _ | .stringLiteral _ => none

/-- The template `TypeList`. -/
def typeTemplates : List TypeImpl → Option (List CppType)
  | [] => some []
  | t :: ts => do
    let t ← typeTemplate t
    let ts ← typeTemplates ts
    return t :: ts

end

/-- The field `Name`, which only a reference has. -/
def typeName : TypeImpl → Option String
  | .reference name => some name
  | _ => none

def propertyTemplate (p : Protocol.Property) : Option (Bool × CppType × String) := do
  let t ← typeTemplate p.type
  return (p.optional, t, p.cppName)

def decodeProperty (p : Protocol.Property) : Option DecodeBlock := do
  let jsonName ← literal p.jsonName
  if p.optional then
    let t ← typeTemplate p.type
    return .optionalMember jsonName t p.cppName
  else return .member jsonName p.cppName

def encodeProperty (p : Protocol.Property) : Option EncodeBlock := do
  let jsonName ← literal p.jsonName
  return if p.optional then .optionalMember jsonName p.cppName else .member jsonName p.cppName

/-- The field `Kind` as it is tested for: no kind is empty. -/
def kindTexts (s : Protocol.Structure) : List String := if s.kind ≠ "" then [s.kind] else []

/-- The templates `Structure` without the nested structures. -/
def structureTemplate (s : Protocol.Structure) : Option CppStructure := do
  let bases ← s.extendsTypes.mapM typeTemplate
  let members ← s.properties.mapM propertyTemplate
  let kinds ← (kindTexts s).mapM literal
  let decodeProperties ← s.properties.mapM decodeProperty
  let encodeProperties ← s.properties.mapM encodeProperty
  let names ← s.extendsTypes.mapM typeName
  return {
    name := "::".intercalate s.nestedNames
    bases, members
    decode := kinds.map .matchKind ++ decodeProperties ++ names.map .base
    encodeMembers := kinds.map .kind ++ encodeProperties ++ names.map .base }

mutual

/-- The templates `Structure`, with the nested structures after the one that contains them. -/
def structureTemplates : Protocol.Structure → Option (List CppStructure)
  | ⟨name, extendsTypes, mixins, properties, kind, nestedStructures, nestedNames⟩ => do
    let own ← structureTemplate
      ⟨name, extendsTypes, mixins, properties, kind, nestedStructures, nestedNames⟩
    let nested ← nestedTemplates nestedStructures
    return own :: nested

def nestedTemplates : List Protocol.Structure → Option (List CppStructure)
  | [] => some []
  | s :: ss => do
    let own ← structureTemplates s
    let rest ← nestedTemplates ss
    return own ++ rest

end

def aliasTemplate (a : Protocol.TypeAlias) : Option (String × CppType) := do
  let t ← typeTemplate a.type
  return (a.name, t)

/-- The aliases and structures of a protocol, or nothing if a template fails. -/
def generate (p : Protocol) : Option CppProgram := do
  let aliases ← p.typeAliases.mapM aliasTemplate
  let structures ← nestedTemplates p.structures
  return { aliases, structures }

end Templates

namespace CppProgram

variable (prog : CppProgram)

/-- The structure that a name denotes, through any number of aliases. -/
inductive Denotes : String → CppStructure → Prop where
  | declared {c : CppStructure} (hc : c ∈ prog.structures) : Denotes c.name c
  | typeAlias {a name : String} {c : CppStructure} (ha : (a, CppType.named name) ∈ prog.aliases)
      (hc : Denotes name c) : Denotes a c

/-- The members of a structure and of its bases, given those that a structure has itself and
the names of its bases. -/
inductive Collects (own bases : CppStructure → List String) : CppStructure → String → Prop where
  | own {c : CppStructure} {name : String} (h : name ∈ own c) : Collects own bases c name
  | base {c d : CppStructure} {b name : String} (hb : b ∈ bases c) (hd : prog.Denotes b d)
      (hc : Collects own bases d name) : Collects own bases c name

/-- The members of the JSON object that `Decode` of a structure asks for. -/
def Reads : CppStructure → String → Prop :=
  prog.Collects (fun c => c.decode.filterMap DecodeBlock.memberName)
    fun c => c.decode.filterMap DecodeBlock.baseName

/-- The members that `Encode` of a structure can give to its JSON object. -/
def Writes : CppStructure → String → Prop :=
  prog.Collects (fun c => c.encodeMembers.filterMap EncodeBlock.memberName)
    fun c => c.encodeMembers.filterMap EncodeBlock.baseName

end CppProgram

end Langsvr
