import Langsvr.GraphTraversals
import Langsvr.MetaModels

/-!
# Protocols

The resolved protocol from which the templates generate code: package `protocol`. A
reference has the name of the C++ type, and what it refers to is listed with the protocol.
-/

namespace Langsvr.Protocol

/-- `Type`, with `nil` for a null pointer. -/
inductive TypeImpl where
  | nil
  | uri | documentUri | integer | uinteger | decimal | regExp | string | boolean | null
  | and (items : List TypeImpl)
  | array (element : TypeImpl)
  | map (key value : TypeImpl)
  | or (items : List TypeImpl)
  | stringLiteral (value : String)
  | reference (name : String)
  | tuple (items : List TypeImpl)

namespace TypeImpl

def subTypes : TypeImpl → List TypeImpl
  | .and items | .or items | .tuple items => items
  | .array element => [element]
  | .map key value => [key, value]
  | _ => []

mutual

def size : TypeImpl → ℕ
  | .and items | .or items | .tuple items => sizeAll items + 1
  | .array element => element.size + 1
  | .map key value => key.size + value.size + 1
  | _ => 1

def sizeAll : List TypeImpl → ℕ
  | [] => 0
  | t :: ts => t.size + sizeAll ts

end

/-- The loop of `RecursiveTypesOf`. The set of types that were seen is left out, since the
types in a type are distinct objects, but for types without parts. -/
def recursiveTypes : ℕ → List TypeImpl → List TypeImpl → Except Stop (List TypeImpl)
  | _, [], types => .ok types
  | 0, _ :: _, _ => .error .outOfFuel
  | _, .nil :: _, _ => .error .panic
  | n + 1, t :: stack, types => recursiveTypes n (t.subTypes.reverse ++ stack) (types ++ [t])

def recursiveTypesOf (t : TypeImpl) : Except Stop (List TypeImpl) := recursiveTypes t.size [t] []

end TypeImpl

structure Property where
  jsonName : String
  cppName : String
  optional : Bool
  type : TypeImpl

/-- A structure. The nested structures are the structure literals in its properties. -/
structure Structure where
  name : String
  extendsTypes : List TypeImpl := []
  mixins : List TypeImpl := []
  properties : List Property := []
  kind : String := ""
  nestedStructures : List Structure := []
  nestedNames : List String := []

/-- An entry with a number, or with a string and its quotes. -/
structure EnumerationEntry where
  name : String
  value : MetaModel.EntryValue

structure Enumeration where
  name : String
  supportsCustomValues : Bool
  type : TypeImpl
  values : List EnumerationEntry

structure TypeAlias where
  name : String
  type : TypeImpl

/-- The direction of a message, with `invalid` for the empty text. -/
inductive MessageDirection where
  | serverToClient | clientToServer | bidirectional | invalid
  deriving DecidableEq

structure Notification where
  name : String
  method : String
  messageDirection : MessageDirection
  params : List TypeImpl
  registrationOptions : TypeImpl

structure Request where
  name : String
  method : String
  messageDirection : MessageDirection
  params : List TypeImpl
  errorData : TypeImpl
  partialResult : TypeImpl
  registrationOptions : TypeImpl
  result : TypeImpl

/-- What a reference can refer to. -/
inductive TypeDecl where
  | typeAlias (a : TypeAlias)
  | enumeration (e : Enumeration)
  | structure (s : Structure)

end Langsvr.Protocol

namespace Langsvr

/-- The protocol, with the references of all types and what they refer to. -/
structure Protocol where
  enumerations : List Protocol.Enumeration := []
  notifications : List Protocol.Notification := []
  requests : List Protocol.Request := []
  structures : List Protocol.Structure := []
  typeAliases : List Protocol.TypeAlias := []
  clientToServerRequests : List Protocol.Request := []
  serverToClientRequests : List Protocol.Request := []
  references : List (String × Option Protocol.TypeDecl) := []

end Langsvr
