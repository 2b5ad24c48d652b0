import Langsvr.JsonValues

/-!
# Metamodels

The metamodel of the protocol as the generator reads it from JSON: package `json`. A member
that is missing has the zero value of its type. Documentation texts, version numbers and
the names of registration methods are left out, since nothing that is generated depends on
them.
-/

namespace Langsvr.MetaModel

structure PropertyOf (τ : Type) where
  name : String
  optional : Bool
  type : τ

/-- `Type`, with `nil` for a type that is missing. A structure literal lists its properties.
The value of an integer literal is a truth value in the source, too. -/
inductive TypeImpl where
  | nil
  | base (name : String)
  | array (element : TypeImpl)
  | reference (name : String)
  | and (items : List TypeImpl)
  | or (items : List TypeImpl)
  | map (key value : TypeImpl)
  | stringLiteral (value : String)
  | integerLiteral (value : Bool)
  | booleanLiteral (value : Bool)
  | structureLiteral (properties : List (PropertyOf TypeImpl))
  | tuple (items : List TypeImpl)

abbrev Property := PropertyOf TypeImpl

structure Structure where
  name : String
  extendsTypes : List TypeImpl := []
  mixins : List TypeImpl := []
  properties : List Property := []

/-- The value of an enumeration entry. A number is read as a double. -/
inductive EntryValue where
  | string (value : String)
  | number (value : Json.F64)

structure EnumerationEntry where
  name : String
  value : EntryValue

structure Enumeration where
  name : String
  supportsCustomValues : Bool
  type : TypeImpl
  values : List EnumerationEntry

structure TypeAlias where
  name : String
  type : TypeImpl

structure Notification where
  method : String
  messageDirection : String
  params : List TypeImpl
  registrationOptions : TypeImpl

structure Request where
  method : String
  messageDirection : String
  params : List TypeImpl
  errorData : TypeImpl
  partialResult : TypeImpl
  registrationOptions : TypeImpl
  result : TypeImpl

end Langsvr.MetaModel

namespace Langsvr

structure MetaModel where
  enumerations : List MetaModel.Enumeration := []
  notifications : List MetaModel.Notification := []
  requests : List MetaModel.Request := []
  structures : List MetaModel.Structure := []
  typeAliases : List MetaModel.TypeAlias := []

end Langsvr
