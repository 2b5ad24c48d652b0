import Langsvr.CodecRoundTrip
import Langsvr.GeneratedEnumerations

/-!
# The functions of the generated code

What the generated code does when it runs. The body of a function is executed block by block:
a data member is found by its name, a base by the type of a cast, and a name is looked up
among the declarations, through aliases. A function that is called from another one is
selected by the type of its argument. An object of a structure lists its data members and its
bases in the order of their declaration.

A call is given a number of calls that may be nested in it.
-/

namespace Langsvr

open Json (Value Member)
open Lsp (LspValue Decoder Encoder)

/-- The generated code: the aliases and structures, and the enumerations. -/
structure CppUnit where
  program : CppProgram
  enumerations : List CppEnumeration

/-- What a name can be declared as. `LSPAny` is declared as a class that derives from the type of
its alias, and every function for this type accepts it. -/
inductive CppDeclaration where
  | typeAlias (type : CppType)
  | structure (c : CppStructure)
  | enumeration (c : CppEnumeration)

def CppType.isNamed (name : String) : CppType → Bool
  | .named other => decide (other = name)
  | _ => false

namespace CppStructure

variable (c : CppStructure)

def memberIndex (cppName : String) : ℕ := c.members.findIdx fun m => decide (m.2.2 = cppName)

/-- The position of the base to which `static_cast` converts. -/
def baseIndex (name : String) : ℕ := c.bases.findIdx (CppType.isNamed name)

/-- The declared type of a data member, without `Optional`. -/
def memberType (i : ℕ) : CppType := ((c.members[i]?).map fun m => m.2.1).getD .null

def dataMembers : List (Bool × CppType × String) → List LspValue → List LspValue
  | [], _ => []
  | m :: ms, xs =>
    (if m.1 then (xs.headD .null).asOptional else xs.headD .null) :: dataMembers ms xs.tail

def baseObjects : List CppType → List LspValue → List LspValue
  | [], _ => []
  | _ :: ts, xs => xs.headD .null :: baseObjects ts xs.tail

/-- The object that a reference to the structure is bound to. -/
def object (out : LspValue) : LspValue :=
  .struct (dataMembers c.members out.members) (baseObjects c.bases out.bases)

end CppStructure

namespace Lsp.LspValue

variable (x : LspValue) (i : ℕ)

def member : LspValue := x.members.getD i .null

def base : LspValue := x.bases.getD i .null

def setMember (y : LspValue) : LspValue := .struct (x.members.set i y) x.bases

def setBase (y : LspValue) : LspValue := .struct x.members (x.bases.set i y)

end Lsp.LspValue

namespace CppStructure

section Blocks

variable (c : CppStructure)

/-- A block of `Decode`, which changes the output or returns a failure. -/
def runDecodeBlock (dec : CppType → Decoder) (fresh : CppType → LspValue) (v : Value) :
    DecodeBlock → LspValue → Result LspValue
  | .matchKind want, out => do
    Lsp.matchKind v want
    return out
  | .optionalMember jsonName type cppName, out =>
    if v.has jsonName then do
      let x ← dec type (← v.get jsonName) (fresh type)
      return out.setMember (c.memberIndex cppName) (.present x)
    else return out
  | .member jsonName cppName, out => do
    let i := c.memberIndex cppName
    let x ← dec (c.memberType i) (← v.get jsonName) (out.member i)
    return out.setMember i x
  | .base name, out => do
    let i := c.baseIndex name
    let x ← dec (.named name) v (out.base i)
    return out.setBase i x

/-- The body of `Decode`. -/
def runDecode (dec : CppType → Decoder) (fresh : CppType → LspValue) : Decoder := fun v out =>
  if v.kind ≠ .object then .error ⟨"value is not object"⟩
  else c.decode.foldlM (fun out block => c.runDecodeBlock dec fresh v block out) (c.object out)

/-- A block of `EncodeMembers`, which adds to the members. -/
def runEncodeBlock (enc : CppType → Encoder)
    (encBase : String → LspValue → List Member → Outcome (List Member)) (x : LspValue) :
    EncodeBlock → List Member → Outcome (List Member)
  | .kind value, members => .success (members ++ [("kind", .stringValue value)])
  | .optionalMember jsonName cppName, members =>
    match x.member (c.memberIndex cppName) with
    | .present y => (enc (c.memberType (c.memberIndex cppName)) y).andThen fun v =>
        .success (members ++ [(jsonName, v)])
    | _ => .success members
  | .member jsonName cppName, members =>
    (enc (c.memberType (c.memberIndex cppName)) (x.member (c.memberIndex cppName))).andThen fun v =>
      .success (members ++ [(jsonName, v)])
  | .base name, members => encBase name (x.base (c.baseIndex name)) members

/-- The rest of the body of `EncodeMembers`. -/
def runEncodeBlocks (enc : CppType → Encoder)
    (encBase : String → LspValue → List Member → Outcome (List Member)) (x : LspValue) :
    List EncodeBlock → List Member → Outcome (List Member)
  | [], members => .success members
  | block :: blocks, members => (c.runEncodeBlock enc encBase x block members).andThen
      (runEncodeBlocks enc encBase x blocks)

end Blocks

end CppStructure

namespace CppUnit

variable (u : CppUnit)

def find (name : String) : Option CppDeclaration :=
  match u.program.aliases.find? fun a => decide (a.1 = name) with
  | some a => some (.typeAlias a.2)
  | none =>
    match u.program.structures.find? fun c => decide (c.name = name) with
    | some c => some (.structure c)
    | none => (u.enumerations.find? fun c => decide (c.name = name)).map .enumeration

/-- A value-initialised object. -/
def default : ℕ → CppType → LspValue
  | 0, _ => .null
  | n + 1, t =>
    match t with
    | .null => .null
    | .boolean => .boolean false
    | .integer => .integer 0
    | .uinteger => .uinteger 0
    | .decimal => .decimal ⟨0⟩
    | .string | .documentUri | .uri => .string ""
    | .vector _ => .vector []
    | .tuple ts => .tuple (ts.map (default n))
    | .map _ _ => .map []
    | .oneOf _ => .oneOfEmpty
    | .named name =>
      match u.find name with
      | some (.typeAlias t) => default n t
      | some (.structure c) => .struct
          (c.members.map fun m => if m.1 then .absent else default n m.2.1)
          (c.bases.map (default n))
      | some (.enumeration _) => .enumeration 0
      | none => .null

def decode : ℕ → CppType → Decoder
  | 0, _ => fun _ _ => .error ⟨""⟩
  | n + 1, t =>
    match t with
    | .null => Lsp.decodeNull
    | .boolean => Lsp.decodeBoolean
    | .integer => Lsp.decodeInteger
    | .uinteger => Lsp.decodeUinteger
    | .decimal => Lsp.decodeDecimal
    | .string | .documentUri | .uri => Lsp.decodeString
    | .vector element => Lsp.decodeVector (decode n element) (u.default n element)
    | .tuple ts => Lsp.decodeTuple (ts.map (decode n))
    | .map _ value => Lsp.decodeMap (decode n value) (u.default n value)
    | .oneOf ts => Lsp.decodeOneOf (ts.map fun t => (decode n t, u.default n t))
    | .named name =>
      match u.find name with
      | some (.typeAlias t) => decode n t
      | some (.structure c) => c.runDecode (decode n) (u.default n)
      | some (.enumeration c) => fun v _ => c.decode v
      | none => fun _ _ => .error ⟨""⟩

mutual

def encode : ℕ → CppType → Encoder
  | 0, _ => fun _ => .unset
  | n + 1, t =>
    match t with
    | .null => Lsp.encodeNull
    | .boolean => Lsp.encodeBoolean
    | .integer => Lsp.encodeInteger
    | .uinteger => Lsp.encodeUinteger
    | .decimal => Lsp.encodeDecimal
    | .string | .documentUri | .uri => Lsp.encodeString
    | .vector element => Lsp.encodeVector (encode n element)
    | .tuple ts => Lsp.encodeTuple (ts.map (encode n))
    | .map _ value => Lsp.encodeMap (encode n value)
    | .oneOf ts => Lsp.encodeOneOf (ts.map (encode n))
    | .named name =>
      match u.find name with
      | some (.typeAlias t) => encode n t
      | some (.structure c) => fun x =>
          (c.runEncodeBlocks (encode n) (encodeMembers n) (c.object x) c.encodeMembers []).andThen
            fun members => .success (Json.Builder.object members)
      | some (.enumeration c) => c.encode
      | none => fun _ => .unset

/-- `EncodeMembers` of a structure of this name. -/
def encodeMembers : ℕ → String → LspValue → List Member → Outcome (List Member)
  | 0, _ => fun _ _ => .unset
  | n + 1, name =>
    match u.find name with
    | some (.typeAlias (.named other)) => encodeMembers n other
    | some (.structure c) => fun x =>
        c.runEncodeBlocks (encode n) (encodeMembers n) (c.object x) c.encodeMembers
    | _ => fun _ _ => .unset

end

end CppUnit

namespace Templates

/-- The generated code of a protocol, or nothing if a template fails. -/
def generateUnit (p : Protocol) : Option CppUnit := do
  let program ← generate p
  let enumerations ← p.enumerations.mapM enumerationTemplate
  return { program, enumerations }

end Templates

end Langsvr
