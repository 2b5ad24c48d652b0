import Langsvr.OrderedEntries
import Langsvr.Results
import Mathlib.Algebra.Order.Field.Rat
import Mathlib.Data.String.Basic
import Mathlib.Order.Lattice

/-!
# JSON values

The values kept by the underlying JSON library, the read interface `json::Value`
implemented over them, and the constructors of `json::Builder`. An object keeps
its members in increasing order of their names. The numeric predicates hold for
every stored number that is integral and in range, whatever its stored form.
-/

namespace Langsvr.Json

/-- A binary64 floating point number, given by its bits. -/
structure F64 where
  bits : BitVec 64
  deriving DecidableEq

namespace F64

def exponent (d : F64) : ℕ := (d.bits.extractLsb' 52 11).toNat

def mantissa (d : F64) : ℕ := (d.bits.extractLsb' 0 52).toNat

def magnitude (d : F64) : ℚ :=
  if d.exponent = 0 then d.mantissa / 2 ^ 1074
  else (2 ^ 52 + d.mantissa : ℕ) * 2 ^ d.exponent / 2 ^ 1075

/-- The number denoted, with `none` for the infinities and the NaNs. -/
def value (d : F64) : Option ℚ :=
  if d.exponent = 2047 then none
  else some (if d.bits.getLsbD 63 then -d.magnitude else d.magnitude)

def Finite (d : F64) : Prop := d.exponent ≠ 2047

/-- The bits of a positive integer, rounded to nearest with ties to even. -/
def ofNatBits (m : ℕ) : ℕ :=
  let e := Nat.log2 m
  if e ≤ 52 then (e + 1022) * 2 ^ 52 + m * 2 ^ (52 - e)
  else
    let s := e - 52
    let q := m / 2 ^ s
    let r := m % 2 ^ s
    let up := decide (2 ^ (s - 1) < r) || (decide (r = 2 ^ (s - 1)) && decide (q % 2 = 1))
    (e + 1022) * 2 ^ 52 + (if up then q + 1 else q)

/-- The conversion of an integer to a double. -/
def ofInt (i : ℤ) : F64 :=
  if i = 0 then ⟨0⟩
  else ⟨BitVec.ofNat 64 ((if i < 0 then 2 ^ 63 else 0) + ofNatBits i.natAbs)⟩

theorem value_of_finite {d : F64} (h : d.Finite) : ∃ q, d.value = some q := by
  unfold Finite at h
  simp [value, h]

end F64

inductive Kind where
  | null | i64 | u64 | f64 | string | bool | array | object
  deriving DecidableEq

inductive Value where
  | nullValue
  | intValue (i : Int64)
  | uintValue (u : UInt64)
  | realValue (d : F64)
  | stringValue (s : String)
  | booleanValue (b : Bool)
  | arrayValue (elements : List Value)
  | objectValue (members : List (String × Value))

namespace Value

/-- The number under which an error message prints the type of a value. -/
def typeNumber : Value → ℕ
  | .nullValue => 0
  | .intValue _ => 1
  | .uintValue _ => 2
  | .realValue _ => 3
  | .stringValue _ => 4
  | .booleanValue _ => 5
  | .arrayValue _ => 6
  | .objectValue _ => 7

def kind : Value → Kind
  | .nullValue => .null
  | .intValue _ => .i64
  | .uintValue _ => .u64
  | .realValue _ => .f64
  | .stringValue _ => .string
  | .booleanValue _ => .bool
  | .arrayValue _ => .array
  | .objectValue _ => .object

/-- The mathematical value of a stored number. -/
def number : Value → Option ℚ
  | .intValue i => some i.toInt
  | .uintValue u => some u.toNat
  | .realValue d => d.value
  | _ => none

/-- The integer that a double denotes, if it is integral. -/
def realIntegral (d : F64) : Option ℤ :=
  d.value.bind fun q => if q.den = 1 then some q.num else none

def isInt64 : Value → Bool
  | .intValue _ => true
  | .uintValue u => decide (u.toNat < 2 ^ 63)
  | .realValue d => (realIntegral d).any fun i => decide (-2 ^ 63 ≤ i) && decide (i < 2 ^ 63)
  | _ => false

def isUInt64 : Value → Bool
  | .intValue i => decide (0 ≤ i.toInt)
  | .uintValue _ => true
  | .realValue d => (realIntegral d).any fun i => decide (0 ≤ i) && decide (i < 2 ^ 64)
  | _ => false

def isDouble : Value → Bool
  | .intValue _ | .uintValue _ | .realValue _ => true
  | _ => false

def asInt64 : Value → Int64
  | .intValue i => i
  | .uintValue u => Int64.ofInt u.toNat
  | .realValue d => Int64.ofInt ((realIntegral d).getD 0)
  | _ => 0

def asUInt64 : Value → UInt64
  | .intValue i => UInt64.ofNat i.toInt.toNat
  | .uintValue u => u
  | .realValue d => UInt64.ofNat ((realIntegral d).getD 0).toNat
  | _ => 0

def asDouble : Value → F64
  | .intValue i => F64.ofInt i.toInt
  | .uintValue u => F64.ofInt u.toNat
  | .realValue d => d
  | _ => ⟨0⟩

def errIncorrectType (v : Value) (wanted : String) : Failure :=
  ⟨"value is " ++ toString v.typeNumber ++ ", not " ++ wanted⟩

def null : Value → Result Unit
  | .nullValue => .ok ()
  | v => .error (v.errIncorrectType "Bool")

def bool : Value → Result Bool
  | .booleanValue b => .ok b
  | v => .error (v.errIncorrectType "Bool")

def i64 (v : Value) : Result Int64 :=
  if v.isInt64 then .ok v.asInt64 else .error (v.errIncorrectType "I64")

def u64 (v : Value) : Result UInt64 :=
  if v.isUInt64 then .ok v.asUInt64 else .error (v.errIncorrectType "U64")

def f64 (v : Value) : Result F64 :=
  if v.isDouble then .ok v.asDouble else .error (v.errIncorrectType "F64")

def string : Value → Result String
  | .stringValue s => .ok s
  | v => .error (v.errIncorrectType "String")

/-- `Get(size_t)`. -/
def getIndex (v : Value) (index : ℕ) : Result Value :=
  match v with
  | .arrayValue elements =>
    match elements[index]? with
    | some e => .ok e
    | none => .error ⟨"index >= array length of " ++ toString elements.length⟩
  | v => .error (v.errIncorrectType "Array")

/-- `Get(std::string_view)`. -/
def get (v : Value) (name : String) : Result Value :=
  match v with
  | .objectValue members =>
    match List.lookup name members with
    | some m => .ok m
    | none => .error ⟨"object has no field with name '" ++ name ++ "'"⟩
  | v => .error (v.errIncorrectType "Object")

theorem getIndex_eq_ok {v e : Value} {i : ℕ} :
    v.getIndex i = .ok e ↔ ∃ es, v = .arrayValue es ∧ es[i]? = some e := by
  cases v with
  | arrayValue es => cases hi : es[i]? <;> simp [getIndex, hi]
  | _ => simp [getIndex]

theorem get_eq_ok {v m : Value} {n : String} :
    v.get n = .ok m ↔ ∃ ms, v = .objectValue ms ∧ List.lookup n ms = some m := by
  cases v with
  | objectValue ms => cases hn : List.lookup n ms <;> simp [get, hn]
  | _ => simp [get]

def count : Value → ℕ
  | .arrayValue elements => elements.length
  | .objectValue members => members.length
  | _ => 0

def memberNames : Value → Result (List String)
  | .objectValue members => .ok (OrderedEntries.keys members)
  | v => .error (v.errIncorrectType "Object")

def has (v : Value) (name : String) : Bool :=
  match v with
  | .objectValue members => (List.lookup name members).isSome
  | _ => false

def getI64 (v : Value) (name : String) : Result Int64 := do (← v.get name).i64

def getString (v : Value) (name : String) : Result String := do (← v.get name).string

section Readers

variable {v : Value} {n : String}

theorem null_eq_ok : v.null = .ok () ↔ v = .nullValue := by
  cases v <;> simp [null]

theorem bool_eq_ok {b : Bool} : v.bool = .ok b ↔ v = .booleanValue b := by
  cases v <;> simp [bool]

theorem string_eq_ok {s : String} : v.string = .ok s ↔ v = .stringValue s := by
  cases v <;> simp [string]

theorem i64_eq_ok {i : Int64} : v.i64 = .ok i ↔ v.isInt64 ∧ v.asInt64 = i := by
  cases h : v.isInt64 <;> simp [i64, h]

theorem u64_eq_ok {u : UInt64} : v.u64 = .ok u ↔ v.isUInt64 ∧ v.asUInt64 = u := by
  cases h : v.isUInt64 <;> simp [u64, h]

theorem f64_eq_ok {d : F64} : v.f64 = .ok d ↔ v.isDouble ∧ v.asDouble = d := by
  cases h : v.isDouble <;> simp [f64, h]

theorem has_iff : v.has n ↔ ∃ m, v.get n = .ok m := by
  cases v with
  | objectValue ms =>
    simp only [has, get, Option.isSome_iff_exists]
    cases List.lookup n ms <;> simp
  | _ => simp [has, get]

theorem getI64_eq_ok {i : Int64} :
    v.getI64 n = .ok i ↔ ∃ m, v.get n = .ok m ∧ m.i64 = .ok i := Except.bind_eq_ok

theorem getString_eq_ok {s : String} : v.getString n = .ok s ↔ v.get n = .ok (.stringValue s) := by
  simp only [getString, Except.bind_eq_ok, string_eq_ok, exists_eq_right]

end Readers

mutual

def depth : Value → ℕ
  | .arrayValue elements => depthElements elements + 1
  | .objectValue members => depthMembers members + 1
  | _ => 0

def depthElements : List Value → ℕ
  | [] => 0
  | e :: es => max e.depth (depthElements es)

def depthMembers : List (String × Value) → ℕ
  | [] => 0
  | (_, m) :: ms => max m.depth (depthMembers ms)

end

end Value

/-- `json::Builder::Member`. -/
abbrev Member := String × Value

namespace Builder

def array (elements : List Value) : Value := .arrayValue elements

/-- Members are assigned in order, so a later member replaces an earlier one of the
same name. -/
def object (members : List Member) : Value :=
  .objectValue (OrderedEntries.assignAll [] members)

end Builder

end Langsvr.Json
