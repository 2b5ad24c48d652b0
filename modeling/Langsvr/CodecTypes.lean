import Langsvr.JsonValues

/-!
# The types of the protocol and their values

The C++ types that the generator emits for the protocol, and the values of these
types. A structure holds its base structures as sub-objects, so its definition is
a tree. Structures refer to one another by name through the list of declarations.
-/

namespace Langsvr.Lsp

/-- The values of an enumeration, in the order of their enumerators. -/
inductive Enumerators where
  | string (values : List String)
  | integer (values : List Int64)
  | uinteger (values : List UInt64)
  deriving DecidableEq

namespace Enumerators

def length : Enumerators → ℕ
  | .string vs => vs.length
  | .integer vs => vs.length
  | .uinteger vs => vs.length

def Distinct : Enumerators → Prop
  | .string vs => vs.Nodup
  | .integer vs => vs.Nodup
  | .uinteger vs => vs.Nodup

end Enumerators

structure Enumeration where
  name : String
  values : Enumerators
  deriving DecidableEq

/-- The C++ types. `lspAny` is the one alias that is emitted as a class of its own,
since it refers to itself. -/
inductive LspType where
  | null | boolean | integer | uinteger | decimal | string
  | enumeration (e : Enumeration)
  | vector (element : LspType)
  | tuple (items : List LspType)
  | map (value : LspType)
  | oneOf (items : List LspType)
  | reference (name : String)
  | lspAny

structure Property where
  jsonName : String
  optional : Bool
  type : LspType

/-- A structure: its literal kind, its own properties and its base structures. -/
inductive Structure where
  | mk (kind : Option String) (properties : List Property) (bases : List Structure)

structure Declaration where
  name : String
  definition : Structure

/-- The declarations in scope, the latest first. -/
abbrev Declarations := List Declaration

/-- The definition behind a name. An undeclared name does not compile. -/
def Declarations.find (env : Declarations) (name : String) : Structure :=
  match env with
  | [] => .mk none [] []
  | d :: ds => if d.name = name then d.definition else find ds name

def lspAnyItems : List LspType :=
  [.map .lspAny, .vector .lspAny, .string, .integer, .uinteger, .decimal, .boolean, .null]

/-- The values. A map is listed in the order of its keys. An enumeration value is the
position of its enumerator, and `absent` and `present` are the two states of an
`Optional`. A structure value lists one member for each own property and one
sub-object for each base. -/
inductive LspValue where
  | null
  | boolean (b : Bool)
  | integer (i : Int64)
  | uinteger (u : UInt64)
  | decimal (d : Json.F64)
  | string (s : String)
  | enumeration (position : ℕ)
  | vector (elements : List LspValue)
  | tuple (elements : List LspValue)
  | map (entries : List (String × LspValue))
  | oneOfEmpty
  | oneOf (kind : ℕ) (value : LspValue)
  | absent
  | present (value : LspValue)
  | struct (members : List LspValue) (bases : List LspValue)

namespace LspValue

mutual

def depth : LspValue → ℕ
  | .vector xs | .tuple xs => depthList xs + 1
  | .map es => depthEntries es + 1
  | .oneOf _ x | .present x => x.depth + 1
  | .struct ms bs => max (depthList ms) (depthList bs) + 1
  | _ => 0

def depthList : List LspValue → ℕ
  | [] => 0
  | x :: xs => max x.depth (depthList xs)

def depthEntries : List (String × LspValue) → ℕ
  | [] => 0
  | (_, x) :: es => max x.depth (depthEntries es)

end

mutual

/-- Every `OneOf` in the value holds a value. -/
def AllSet : LspValue → Prop
  | .vector xs | .tuple xs => AllSetList xs
  | .map es => AllSetEntries es
  | .oneOfEmpty => False
  | .oneOf _ x | .present x => x.AllSet
  | .struct ms bs => AllSetList ms ∧ AllSetList bs
  | _ => True

def AllSetList : List LspValue → Prop
  | [] => True
  | x :: xs => x.AllSet ∧ AllSetList xs

def AllSetEntries : List (String × LspValue) → Prop
  | [] => True
  | (_, x) :: es => x.AllSet ∧ AllSetEntries es

end

theorem allSetList_iff {xs : List LspValue} : AllSetList xs ↔ ∀ x ∈ xs, x.AllSet := by
  induction xs with
  | nil => simp [AllSetList]
  | cons x xs ih => simp [AllSetList, ih]

theorem allSetEntries_iff {es : List (String × LspValue)} :
    AllSetEntries es ↔ ∀ e ∈ es, e.2.AllSet := by
  induction es with
  | nil => simp [AllSetEntries]
  | cons e es ih =>
    obtain ⟨n, x⟩ := e
    simp [AllSetEntries, ih]

theorem depth_le_depthList {x : LspValue} {xs : List LspValue} (h : x ∈ xs) :
    x.depth ≤ depthList xs := by
  induction xs with
  | nil => simp at h
  | cons y ys ih =>
    rcases List.mem_cons.mp h with rfl | h
    · exact le_max_left _ _
    · exact (ih h).trans (le_max_right _ _)

theorem depth_le_depthEntries {n : String} {x : LspValue} {es : List (String × LspValue)}
    (h : (n, x) ∈ es) : x.depth ≤ depthEntries es := by
  induction es with
  | nil => simp at h
  | cons e es ih =>
    obtain ⟨m, y⟩ := e
    rcases List.mem_cons.mp h with h | h
    · cases h
      exact le_max_left _ _
    · exact (ih h).trans (le_max_right _ _)

end LspValue

/-- One member that a structure value contributes to its object: the literal kind of
the structure or of a base, or the value of a property that is present. -/
inductive Slot where
  | kind (k : String)
  | value (t : LspType) (x : LspValue)

namespace Structure

def kindSlots : Option String → List (String × Slot)
  | none => []
  | some k => [("kind", .kind k)]

def propertySlot (p : Property) (x : LspValue) : List (String × Slot) :=
  if p.optional then
    match x with
    | .present y => [(p.jsonName, .value p.type y)]
    | _ => []
  else [(p.jsonName, .value p.type x)]

def propertySlots : List Property → List LspValue → List (String × Slot)
  | p :: ps, x :: xs => propertySlot p x ++ propertySlots ps xs
  | _, _ => []

mutual

/-- The contributions of a structure value, of its own members before those of its
bases. -/
def slots : Structure → LspValue → List (String × Slot)
  | .mk kind ps bs, .struct ms ss => kindSlots kind ++ propertySlots ps ms ++ baseSlots bs ss
  | _, _ => []

def baseSlots : List Structure → List LspValue → List (String × Slot)
  | b :: bs, s :: ss => slots b s ++ baseSlots bs ss
  | _, _ => []

end

def absentProperty (p : Property) (x : LspValue) : List String :=
  match x with
  | .absent => if p.optional then [p.jsonName] else []
  | _ => []

def absentProperties : List Property → List LspValue → List String
  | p :: ps, x :: xs => absentProperty p x ++ absentProperties ps xs
  | _, _ => []

mutual

/-- The names of the Optional properties that hold no value. -/
def absentNames : Structure → LspValue → List String
  | .mk _ ps bs, .struct ms ss => absentProperties ps ms ++ absentBases bs ss
  | _, _ => []

def absentBases : List Structure → List LspValue → List String
  | b :: bs, s :: ss => absentNames b s ++ absentBases bs ss
  | _, _ => []

end

def MemberShaped (p : Property) (x : LspValue) : Prop :=
  p.optional = true → x = .absent ∨ ∃ y, x = .present y

def MembersShaped : List Property → List LspValue → Prop
  | [], [] => True
  | p :: ps, x :: xs => MemberShaped p x ∧ MembersShaped ps xs
  | _, _ => False

mutual

/-- One member for each property and one sub-object for each base. -/
def Shaped : Structure → LspValue → Prop
  | .mk _ ps bs, .struct ms ss => MembersShaped ps ms ∧ BasesShaped bs ss
  | _, _ => False

def BasesShaped : List Structure → List LspValue → Prop
  | [], [] => True
  | b :: bs, s :: ss => Shaped b s ∧ BasesShaped bs ss
  | _, _ => False

end

mutual

/-- The member names of a structure, its literal kind and all its transitive bases. -/
def memberNames : Structure → List String
  | .mk kind ps bs =>
    (kindSlots kind).map Prod.fst ++ ps.map Property.jsonName ++ baseMemberNames bs

def baseMemberNames : List Structure → List String
  | [] => []
  | b :: bs => memberNames b ++ baseMemberNames bs

end

end Structure

/-- `HasType env t x`: `x` is a value of the C++ type `t`. -/
inductive HasType (env : Declarations) : LspType → LspValue → Prop
  | null : HasType env .null .null
  | boolean (b : Bool) : HasType env .boolean (.boolean b)
  | integer (i : Int64) : HasType env .integer (.integer i)
  | uinteger (u : UInt64) : HasType env .uinteger (.uinteger u)
  | decimal (d : Json.F64) : HasType env .decimal (.decimal d)
  | string (s : String) : HasType env .string (.string s)
  | enumeration {e : Enumeration} {i : ℕ} (hi : i < e.values.length) :
      HasType env (.enumeration e) (.enumeration i)
  | vector {t : LspType} {xs : List LspValue} (hx : ∀ x ∈ xs, HasType env t x) :
      HasType env (.vector t) (.vector xs)
  | tuple {ts : List LspType} {xs : List LspValue} (hl : ts.length = xs.length)
      (hx : ∀ p ∈ ts.zip xs, HasType env p.1 p.2) : HasType env (.tuple ts) (.tuple xs)
  | map {t : LspType} {es : List (String × LspValue)} (ho : OrderedEntries.Ordered es)
      (hx : ∀ e ∈ es, HasType env t e.2) : HasType env (.map t) (.map es)
  | oneOfEmpty {ts : List LspType} : HasType env (.oneOf ts) .oneOfEmpty
  | oneOf {ts : List LspType} {k : ℕ} {t : LspType} {x : LspValue} (hk : ts[k]? = some t)
      (hx : HasType env t x) : HasType env (.oneOf ts) (.oneOf k x)
  | reference {n : String} {x : LspValue} (hs : (env.find n).Shaped x)
      (hx : ∀ m t y, (m, Slot.value t y) ∈ (env.find n).slots x → HasType env t y) :
      HasType env (.reference n) x
  | lspAnyEmpty : HasType env .lspAny .oneOfEmpty
  | lspAny {k : ℕ} {t : LspType} {x : LspValue} (hk : lspAnyItems[k]? = some t)
      (hx : HasType env t x) : HasType env .lspAny (.oneOf k x)

section Default

mutual

/-- A value-initialised object. -/
def LspType.defaultWith (structs : String → LspValue) : LspType → LspValue
  | .null => .null
  | .boolean => .boolean false
  | .integer => .integer 0
  | .uinteger => .uinteger 0
  | .decimal => .decimal ⟨0⟩
  | .string => .string ""
  | .enumeration _ => .enumeration 0
  | .vector _ => .vector []
  | .tuple ts => .tuple (defaultsWith structs ts)
  | .map _ => .map []
  | .oneOf _ => .oneOfEmpty
  | .reference n => structs n
  | .lspAny => .oneOfEmpty

def LspType.defaultsWith (structs : String → LspValue) : List LspType → List LspValue
  | [] => []
  | t :: ts => t.defaultWith structs :: defaultsWith structs ts

end

def Property.default (dflt : LspType → LspValue) (p : Property) : LspValue :=
  if p.optional then .absent else dflt p.type

mutual

def Structure.default (dflt : LspType → LspValue) : Structure → LspValue
  | .mk _ ps bs => .struct (ps.map (Property.default dflt)) (defaultBases dflt bs)

def Structure.defaultBases (dflt : LspType → LspValue) : List Structure → List LspValue
  | [] => []
  | b :: bs => b.default dflt :: defaultBases dflt bs

end

/-- The default-constructed value of a type. A structure that is held by value has
been declared before. -/
def Declarations.default : Declarations → LspType → LspValue
  | [] => LspType.defaultWith fun _ => .struct [] []
  | d :: ds => LspType.defaultWith fun n =>
      if d.name = n then d.definition.default (default ds) else default ds (.reference n)

end Default

end Langsvr.Lsp
