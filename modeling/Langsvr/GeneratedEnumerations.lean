import Langsvr.AcceptedModels
import Langsvr.ExactDoubles
import Langsvr.GeneratedMembers
import Langsvr.LspAnyPassThrough
import Langsvr.ValueEquality
import Mathlib.Data.Fintype.EquivFin

/-!
# Generated enumerations

What the template `Enumeration` generates, and what becomes of the flag for custom values on
the way from the metamodel. No template reads it, so custom values are never accepted.
-/

namespace Langsvr

/-- The C++ types that an enumeration of the metamodel can have. -/
inductive UnderlyingType where
  | string | integer | uinteger
  deriving DecidableEq

inductive CppLiteral where
  | string (value : String)
  | int (value : ℤ)
  | double (value : Json.F64)

/-- A generated enumeration with the literals of its enumerators. -/
structure CppEnumeration where
  name : String
  type : UnderlyingType
  values : List CppLiteral

namespace UnderlyingType

open Lsp (LspValue)

def decode : UnderlyingType → Json.Value → Result LspValue
  | .string, v => Lsp.decodeString v (.string "")
  | .integer, v => Lsp.decodeInteger v (.integer 0)
  | .uinteger, v => Lsp.decodeUinteger v (.uinteger 0)

def Has : UnderlyingType → LspValue → Prop
  | .string, .string _ | .integer, .integer _ | .uinteger, .uinteger _ => True
  | _, _ => False

/-- A type is compared to literals of its kind only, anything else does not compile. -/
def compiles : UnderlyingType → CppLiteral → Bool
  | .string, .string _ => true
  | .integer, .int _ | .integer, .double _ | .uinteger, .int _ | .uinteger, .double _ => true
  | _, _ => false

end UnderlyingType

namespace CppLiteral

open Lsp (LspValue)

/-- `val == literal`. An unsigned number is compared modulo `2 ^ 64`, and a number that is
compared to a double is converted to a double first. -/
def equals : LspValue → CppLiteral → Bool
  | .string s, .string t => decide (s = t)
  | .integer i, .int n => decide (i.toInt = n)
  | .uinteger u, .int n => decide ((u.toNat : ℤ) = n % 2 ^ 64)
  | .integer i, .double d => (Json.F64.ofInt i.toInt).equals d
  | .uinteger u, .double d => (Json.F64.ofInt u.toNat).equals d
  | _, _ => false

/-- `Builder::Create`. An integer that is too large for a signed type has an unsigned one. -/
def create : CppLiteral → Json.Value
  | .string s => .stringValue s
  | .int n => if n < 2 ^ 63 then .intValue (Int64.ofInt n) else .uintValue (UInt64.ofNat n.toNat)
  | .double d => .realValue d

end CppLiteral

namespace Templates

/-- The text between the quotes of a literal. -/
def unquote (text : String) : String := String.ofList text.toList.tail.dropLast

/-- A value as it is printed, without escapes in a string. An integer of up to six digits is
printed in full, and any other number with a point or an exponent. -/
def literalTemplate : MetaModel.EntryValue → Option CppLiteral
  | .string text => (literal (unquote text)).map .string
  | .number d =>
    match Json.Value.realIntegral d with
    | some n => if n.natAbs < 1000000 then some (.int n) else some (.double d)
    | none => if d.value.isSome then some (.double d) else none

def underlyingTemplate : Protocol.TypeImpl → Option UnderlyingType
  | .string => some .string
  | .integer => some .integer
  | .uinteger => some .uinteger
  | _ => none

def enumerationTemplate (e : Protocol.Enumeration) : Option CppEnumeration := do
  let type ← underlyingTemplate e.type
  let values ← e.values.mapM fun v => literalTemplate v.value
  if values.all type.compiles then some { name := e.name, type, values } else none

end Templates

namespace CppEnumeration

open Lsp (LspValue)

variable (c : CppEnumeration)

/-- The generated `Decode`: the first enumerator whose literal the decoded value is equal to. -/
def decode (v : Json.Value) : Result LspValue := do
  let val ← c.type.decode v
  match c.values.findIdx? fun l => l.equals val with
  | some i => .ok (.enumeration i)
  | none => .error ⟨"invalid value for enum " ++ c.name⟩

def encode : LspValue → Outcome Json.Value
  | .enumeration i =>
    match c.values[i]? with
    | some l => .success l.create
    | none => .failure ⟨"invalid value for enum " ++ c.name⟩
  | _ => .unset

end CppEnumeration

namespace Lsp

/-- The generated form of an enumeration of the codec. -/
def Enumeration.generated (e : Enumeration) : CppEnumeration :=
  match e.values with
  | .string vs => { name := e.name, type := .string, values := vs.map .string }
  | .integer vs =>
    { name := e.name, type := .integer, values := vs.map fun i => .int i.toInt }
  | .uinteger vs =>
    { name := e.name, type := .uinteger, values := vs.map fun u => .int u.toNat }

theorem findIdx?_generated {α : Type} [DecidableEq α] (literal : α → CppLiteral)
    (value : α → LspValue) (h : ∀ a b, CppLiteral.equals (value b) (literal a) = decide (a = b))
    (vs : List α) (b : α) :
    (vs.map literal).findIdx? (fun l => l.equals (value b)) = vs.idxOf? b := by
  rw [List.findIdx?_map, List.idxOf?]
  congr 1
  funext a
  exact h a b

/-- `Decode` of an enumeration in the codec is the generated one. -/
theorem decode_generated (e : Enumeration) (v : Json.Value) (out : LspValue) :
    e.generated.decode v = decodeEnumeration e v out := by
  obtain ⟨name, values⟩ := e
  cases values with
  | string vs =>
    cases v with
    | stringValue s =>
      have hfind := findIdx?_generated .string .string
        (fun a b => decide_eq_decide.mpr eq_comm) vs s
      simp only [Enumeration.generated, CppEnumeration.decode, UnderlyingType.decode, decodeString,
        decodeEnumeration, Enumerators.find, Json.Value.string, bind, Except.bind, pure,
        Except.pure]
      cases hidx : vs.idxOf? s with
      | none => simp only [hfind, hidx]
      | some j => simp only [hfind, hidx]
    | _ => rfl
  | integer vs =>
    simp only [Enumeration.generated, CppEnumeration.decode, UnderlyingType.decode, decodeInteger,
      decodeEnumeration, Enumerators.find]
    cases v.i64 with
    | error f => rfl
    | ok i =>
      have hfind := findIdx?_generated (fun i : Int64 => .int i.toInt) .integer
        (fun a b => decide_eq_decide.mpr (Int64.toInt_inj.trans eq_comm)) vs i
      simp only [bind, Except.bind, pure, Except.pure]
      cases hidx : vs.idxOf? i with
      | none => simp only [hfind, hidx]
      | some j => simp only [hfind, hidx]
  | uinteger vs =>
    simp only [Enumeration.generated, CppEnumeration.decode, UnderlyingType.decode, decodeUinteger,
      decodeEnumeration, Enumerators.find]
    cases v.u64 with
    | error f => rfl
    | ok u =>
      have heq : ∀ a b : UInt64, ((b.toNat : ℤ) = (a.toNat : ℤ) % 2 ^ 64) ↔ a = b := by
        intro a b
        have ha := a.toNat_lt
        rw [← UInt64.toNat_inj]
        omega
      have hfind := findIdx?_generated (fun u : UInt64 => .int u.toNat) .uinteger
        (fun a b => decide_eq_decide.mpr (heq a b)) vs u
      simp only [bind, Except.bind, pure, Except.pure]
      cases hidx : vs.idxOf? u with
      | none => simp only [hfind, hidx]
      | some j => simp only [hfind, hidx]

theorem create_toInt (i : Int64) : (CppLiteral.int i.toInt).create = .intValue i := by
  have hi : i.toInt < 2 ^ 63 := i.toInt_lt
  simp only [CppLiteral.create, hi, if_true, Int64.ofInt_toInt]

theorem create_toNat (u : UInt64) : (CppLiteral.int u.toNat).create = createLiteral u := by
  have hlt : ((u.toNat : ℤ) < 2 ^ 63) ↔ u.toNat < 2 ^ 63 := by norm_cast
  simp only [CppLiteral.create, createLiteral, Int.toNat_natCast, UInt64.ofNat_toNat, hlt]

theorem encode_generated (e : Enumeration) (x : LspValue) :
    e.generated.encode x = encodeEnumeration e x := by
  obtain ⟨name, values⟩ := e
  have hname : (Enumeration.generated ⟨name, values⟩).name = name := by cases values <;> rfl
  have hliterals : (Enumeration.generated ⟨name, values⟩).values.map CppLiteral.create =
      values.literals := by
    cases values with
    | string vs =>
      rw [Enumeration.generated, List.map_map]
      rfl
    | integer vs =>
      rw [Enumeration.generated, Enumerators.literals, List.map_map]
      apply List.map_congr_left
      intro i _
      rw [Function.comp_apply, create_toInt]
    | uinteger vs =>
      rw [Enumeration.generated, Enumerators.literals, List.map_map]
      apply List.map_congr_left
      intro u _
      rw [Function.comp_apply, create_toNat]
  cases x with
  | enumeration i =>
    rw [CppEnumeration.encode, encodeEnumeration, ← hliterals, List.getElem?_map, hname]
    cases (Enumeration.generated ⟨name, values⟩).values[i]? with
    | none => rfl
    | some l => rfl
  | _ => rfl

end Lsp

namespace MetaModel.EntryValue

open Lsp (LspValue)

def Denotes : EntryValue → LspValue → Prop
  | .string s, .string t => s = t
  | .number d, .integer i => d.value = some (i.toInt : ℚ)
  | .number d, .uinteger u => d.value = some (u.toNat : ℚ)
  | _, _ => False

def text : EntryValue → Option String
  | .string s => some s
  | .number _ => none

/-- No character of a string has a meaning of its own in a literal. -/
def Verbatim : EntryValue → Prop
  | .string s => Langsvr.Verbatim s
  | .number _ => True

instance : (e : EntryValue) → Decidable e.Verbatim
  | .string s => inferInstanceAs (Decidable (Langsvr.Verbatim s))
  | .number _ => .isTrue trivial

/-- The value is equal to the literal of the entry. -/
def Matches (e : EntryValue) (x : LspValue) : Prop :=
  ∃ l, Templates.literalTemplate (Resolver.entryValue e) = some l ∧ CppLiteral.equals x l = true

end MetaModel.EntryValue

section Literals

open Lsp (LspValue)
open Templates Resolver
open MetaModel (EntryValue)

theorem unquote_quoted (s : String) : unquote ("\"" ++ s ++ "\"") = s := by
  simp [unquote, String.toList_append]

theorem literalTemplate_string (s : String) :
    literalTemplate (entryValue (.string s)) = (literal s).map .string := by
  rw [entryValue, literalTemplate, unquote_quoted]

theorem literal_string {s : String} (h : EntryValue.Verbatim (.string s)) :
    literalTemplate (entryValue (.string s)) = some (.string s) := by
  rw [literalTemplate_string, literal_of_verbatim h, Option.map_some]

theorem realIntegral_of_value {d : Json.F64} {i : ℤ} (h : d.value = some (i : ℚ)) :
    Json.Value.realIntegral d = some i := by
  simp [Json.Value.realIntegral, h]

theorem literal_number {d : Json.F64} {l : CppLiteral}
    (h : literalTemplate (entryValue (.number d)) = some l) :
    (∃ n : ℤ, d.value = some (n : ℚ) ∧ n.natAbs < 1000000 ∧ l = .int n) ∨
      ((∀ n : ℤ, d.value = some (n : ℚ) → 1000000 ≤ n.natAbs) ∧ d.value.isSome ∧
        l = .double d) := by
  rw [entryValue, literalTemplate] at h
  cases hd : Json.Value.realIntegral d with
  | none =>
    simp only [hd, Option.ite_none_right_eq_some, Option.some.injEq] at h
    refine .inr ⟨fun n hn => ?_, h.1, h.2.symm⟩
    rw [realIntegral_of_value hn] at hd
    cases hd
  | some n =>
    have hn := Json.Value.value_of_realIntegral hd
    simp only [hd] at h
    by_cases hlt : n.natAbs < 1000000
    · rw [if_pos hlt, Option.some.injEq] at h
      exact .inl ⟨n, hn, hlt, h.symm⟩
    · rw [if_neg hlt, Option.some.injEq] at h
      refine .inr ⟨fun m hm => ?_, by rw [hn]; rfl, h.symm⟩
      rw [realIntegral_of_value hm] at hd
      cases hd
      exact Nat.le_of_not_lt hlt

theorem equals_of_value {d : Json.F64} {i : ℤ} (h : d.value = some (i : ℚ))
    (hi : 1000000 ≤ i.natAbs) : (Json.F64.ofInt i).equals d = true := by
  have hne : i ≠ 0 := by
    rintro rfl
    exact absurd hi (by decide)
  have hexp : d.exponent ≠ 2047 := by
    intro he
    rw [Json.F64.value, if_pos he] at h
    cases h
  rw [Json.F64.ofInt_of_value h hne, Json.F64.equals_self, Json.F64.isNaN, decide_eq_false hexp]
  rfl

/-- The literal of an entry is equal to the value of the entry. -/
theorem equals_of_denotes {e : EntryValue} {x : LspValue} {l : CppLiteral} (he : e.Verbatim)
    (h : e.Denotes x) (hl : literalTemplate (entryValue e) = some l) :
    CppLiteral.equals x l = true := by
  cases e with
  | string s =>
    rw [literal_string he] at hl
    cases hl
    cases x with
    | string t =>
      have hst : s = t := h
      simp [CppLiteral.equals, hst]
    | _ => exact absurd h (by simp [EntryValue.Denotes])
  | number d =>
    cases x with
    | integer i =>
      have hd : d.value = some (i.toInt : ℚ) := h
      rcases literal_number hl with ⟨n, hn, -, rfl⟩ | ⟨hbig, -, rfl⟩
      · have hin : i.toInt = n := by
          rw [hd, Option.some.injEq] at hn
          exact_mod_cast hn
        simp [CppLiteral.equals, hin]
      · exact equals_of_value hd (hbig _ hd)
    | uinteger u =>
      have hd : d.value = some (((u.toNat : ℤ)) : ℚ) := h
      rcases literal_number hl with ⟨n, hn, -, rfl⟩ | ⟨hbig, -, rfl⟩
      · have hun : (u.toNat : ℤ) = n := by
          rw [hd, Option.some.injEq] at hn
          exact_mod_cast hn
        have hlt := u.toNat_lt
        have hmod : (u.toNat : ℤ) = n % 2 ^ 64 := by omega
        simp only [CppLiteral.equals, decide_eq_true_eq]
        exact hmod
      · exact equals_of_value hd (hbig _ hd)
    | _ => exact absurd h (by simp [EntryValue.Denotes])

theorem number_create {d : Json.F64} {l : CppLiteral}
    (h : literalTemplate (entryValue (.number d)) = some l) : l.create.number = d.value := by
  rcases literal_number h with ⟨n, hn, hlt, rfl⟩ | ⟨-, -, rfl⟩
  · have hsmall : n < 2 ^ 63 := by omega
    rw [CppLiteral.create, if_pos hsmall, Json.Value.number_ofInt64 (by omega), hn]
  · rfl

theorem same_iff_number {v w : Json.Value} {q : ℚ} (hv : v.number = some q) :
    w.Same v ↔ w.number = some q := by
  constructor
  · intro h
    cases h with
    | number hw hv' =>
      rw [hv] at hv'
      cases hv'
      exact hw
    | _ => cases hv
  · intro hw
    exact .number hw hv

/-- The literal of an entry is written as the JSON value that was decoded if and only if the entry
has the decoded value. -/
theorem create_same_iff {T : UnderlyingType} {e : EntryValue} {l : CppLiteral} {v : Json.Value}
    {x : LspValue} (he : e.Verbatim) (hl : literalTemplate (entryValue e) = some l)
    (hc : T.compiles l = true) (hv : T.decode v = .ok x) : l.create.Same v ↔ e.Denotes x := by
  cases T with
  | string =>
    obtain ⟨t, ht, hx⟩ := Except.bind_eq_ok.mp hv
    cases hx
    obtain rfl : v = .stringValue t := by
      cases v <;> cases ht
      rfl
    cases e with
    | string s =>
      rw [literal_string he] at hl
      cases hl
      constructor
      · intro h
        cases h with
        | string => rfl
        | number hv hw => cases hv
      · intro h
        cases h
        exact .string _
    | number d =>
      rcases literal_number hl with ⟨n, -, -, rfl⟩ | ⟨-, -, rfl⟩
      · cases hc
      · cases hc
  | integer | uinteger =>
    obtain ⟨i, hi, hx⟩ := Except.bind_eq_ok.mp hv
    cases hx
    cases e with
    | string s =>
      rw [literal_string he] at hl
      cases hl
      cases hc
    | number d =>
      first
        | rw [same_iff_number (Json.Value.number_of_i64 hi), number_create hl]
        | rw [same_iff_number (Json.Value.number_of_u64 hi), number_create hl]
      rfl

end Literals

namespace UnderlyingType

open Lsp (LspValue)

variable {T : UnderlyingType}

theorem has_of_decode {v : Json.Value} {x : LspValue} (h : T.decode v = .ok x) : T.Has x := by
  cases T with
  | string | integer | uinteger =>
    obtain ⟨y, -, hy⟩ := Except.bind_eq_ok.mp h
    cases hy
    trivial

/-- Every value of the type is decoded from some JSON value. -/
theorem exists_decode {x : LspValue} (h : T.Has x) : ∃ v, T.decode v = .ok x := by
  cases T with
  | string =>
    cases x with
    | string s => exact ⟨.stringValue s, rfl⟩
    | _ => exact absurd h (by simp [Has])
  | integer =>
    cases x with
    | integer i => exact ⟨.intValue i, rfl⟩
    | _ => exact absurd h (by simp [Has])
  | uinteger =>
    cases x with
    | uinteger u => exact ⟨.uintValue u, rfl⟩
    | _ => exact absurd h (by simp [Has])

/-- No finite number of entries has all values of a type. -/
theorem exists_undeclared (T : UnderlyingType) (values : List MetaModel.EntryValue) :
    ∃ x, T.Has x ∧ ∀ e ∈ values, ¬ e.Denotes x := by
  cases T with
  | string =>
    obtain ⟨t, ht⟩ :=
      Infinite.exists_notMem_finset (values.filterMap MetaModel.EntryValue.text).toFinset
    refine ⟨.string t, trivial, ?_⟩
    intro e he hden
    cases e with
    | string s =>
      have hst : s = t := hden
      refine ht (List.mem_toFinset.mpr (List.mem_filterMap.mpr ⟨.string s, he, ?_⟩))
      rw [hst, MetaModel.EntryValue.text]
    | number d => exact hden
  | integer =>
    refine ⟨.integer (Int64.ofInt (2 ^ 53 + 1)), trivial, ?_⟩
    intro e he hden
    cases e with
    | string s => exact hden
    | number d => exact d.value_ne_gap hden
  | uinteger =>
    refine ⟨.uinteger (UInt64.ofNat (2 ^ 53 + 1)), trivial, ?_⟩
    intro e he hden
    cases e with
    | string s => exact hden
    | number d => exact d.value_ne_gap hden

end UnderlyingType

namespace CppEnumeration

open Lsp (LspValue)
open Templates Resolver
open MetaModel (EntryValue)

/-- The literals of an enumeration are those of the entries. -/
def Prints (c : CppEnumeration) (values : List EntryValue) : Prop :=
  c.values.all c.type.compiles = true ∧
    List.Forall₂ (fun e l => literalTemplate (entryValue e) = some l) values c.values

variable {c : CppEnumeration} {values : List EntryValue} {v : Json.Value}

theorem Prints.literal (h : c.Prints values) {i : ℕ} {e : EntryValue} (he : values[i]? = some e) :
    ∃ l, c.values[i]? = some l ∧ literalTemplate (entryValue e) = some l ∧
      c.type.compiles l = true := by
  obtain ⟨l, hl, hel⟩ := (ListRelations.forall₂_iff_getElem?.mp h.2).2 i e he
  exact ⟨l, hl, hel, List.all_eq_true.mp h.1 l (List.mem_of_getElem? hl)⟩

theorem Prints.entry (h : c.Prints values) {i : ℕ} {l : CppLiteral} (hl : c.values[i]? = some l) :
    ∃ e, values[i]? = some e ∧ literalTemplate (entryValue e) = some l ∧
      c.type.compiles l = true := by
  have hlt : i < values.length := by
    rw [h.2.length_eq]
    exact (List.getElem?_eq_some_iff.mp hl).1
  obtain ⟨l', hl', he, hc⟩ := h.literal (List.getElem?_eq_getElem hlt)
  rw [hl] at hl'
  cases hl'
  exact ⟨values[i], List.getElem?_eq_getElem hlt, he, hc⟩

/-- `Decode` returns the first enumerator that matches. -/
theorem decode_eq_ok {y : LspValue} : c.decode v = .ok y ↔ ∃ x i, c.type.decode v = .ok x ∧
    y = .enumeration i ∧ c.values.findIdx? (fun l => l.equals x) = some i := by
  unfold decode
  cases c.type.decode v with
  | error f => simp [bind, Except.bind]
  | ok x =>
    simp only [bind, Except.bind, Except.ok.injEq]
    cases hi : c.values.findIdx? (fun l => l.equals x) with
    | none => simp [hi]
    | some i => simp [hi, eq_comm]

theorem findIdx?_eq_some (h : c.Prints values) {x : LspValue} {i : ℕ} :
    c.values.findIdx? (fun l => l.equals x) = some i ↔
      (∃ e : EntryValue, values[i]? = some e ∧ e.Matches x) ∧
        ∀ j < i, ∀ e : EntryValue, values[j]? = some e → ¬ e.Matches x := by
  have hmatch : ∀ (j : ℕ) (e : EntryValue) (l : CppLiteral), values[j]? = some e →
      c.values[j]? = some l → (e.Matches x ↔ CppLiteral.equals x l = true) := by
    intro j e l he hl
    obtain ⟨l', hl', hel, -⟩ := h.literal he
    rw [hl] at hl'
    cases hl'
    constructor
    · intro hm
      obtain ⟨l', hl', heq⟩ := hm
      rw [hel] at hl'
      cases hl'
      exact heq
    · intro heq
      exact ⟨l, hel, heq⟩
  rw [List.findIdx?_eq_some_iff_getElem]
  constructor
  · intro hfind
    obtain ⟨hlt, heq, hfirst⟩ := hfind
    have hl := List.getElem?_eq_getElem hlt
    obtain ⟨e, he, -, -⟩ := h.entry hl
    refine ⟨⟨e, he, (hmatch i e _ he hl).mpr heq⟩, ?_⟩
    intro j hj e' he' hm
    have hlj := List.getElem?_eq_getElem (Nat.lt_trans hj hlt)
    exact hfirst j hj ((hmatch j e' _ he' hlj).mp hm)
  · intro hfind
    obtain ⟨⟨e, he, hm⟩, hfirst⟩ := hfind
    obtain ⟨l, hl, -, -⟩ := h.literal he
    obtain ⟨hlt, hget⟩ := List.getElem?_eq_some_iff.mp hl
    refine ⟨hlt, ?_, ?_⟩
    · rw [hget]
      exact (hmatch i e l he hl).mp hm
    · intro j hj heq
      have hlj := List.getElem?_eq_getElem (Nat.lt_trans hj hlt)
      obtain ⟨e', he', -, -⟩ := h.entry hlj
      exact hfirst j hj e' he' ((hmatch j e' _ he' hlj).mpr heq)

theorem exists_findIdx? (h : c.Prints values) {x : LspValue} {i : ℕ} {e : EntryValue}
    (he : values[i]? = some e) (hm : e.Matches x) :
    ∃ k ≤ i, c.values.findIdx? (fun l => l.equals x) = some k := by
  obtain ⟨l, hl, hel, -⟩ := h.literal he
  obtain ⟨l', hl', heq⟩ := hm
  rw [hel] at hl'
  cases hl'
  obtain ⟨hlt, hget⟩ := List.getElem?_eq_some_iff.mp hl
  cases hfind : c.values.findIdx? (fun l => l.equals x) with
  | none =>
    have hall := List.findIdx?_eq_none_iff.mp hfind l (List.mem_of_getElem? hl)
    rw [hall] at heq
    cases heq
  | some k =>
    refine ⟨k, ?_, rfl⟩
    obtain ⟨hk, hfound, hfirst⟩ := List.findIdx?_eq_some_iff_getElem.mp hfind
    by_contra hgt
    apply hfirst i (Nat.lt_of_not_le hgt)
    rw [hget]
    exact heq

theorem matches_of_denotes (h : c.Prints values) {x : LspValue} {i : ℕ} {e : EntryValue}
    (he : values[i]? = some e) (hverbatim : e.Verbatim) (hx : e.Denotes x) : e.Matches x := by
  obtain ⟨l, -, hel, -⟩ := h.literal he
  exact ⟨l, hel, equals_of_denotes hverbatim hx hel⟩

/-- The enumerator is written as the decoded JSON value if and only if its entry has the decoded
value. -/
theorem encode_same_iff (h : c.Prints values) {x : LspValue} (hv : c.type.decode v = .ok x) {i : ℕ}
    {e : EntryValue} (he : values[i]? = some e) (hverbatim : e.Verbatim) :
    (∃ w, c.encode (.enumeration i) = .success w ∧ w.Same v) ↔ e.Denotes x := by
  obtain ⟨l, hl, hel, hc⟩ := h.literal he
  rw [← create_same_iff hverbatim hel hc hv, encode, hl]
  simp

/-- What the generated functions are to do for an enumeration of the metamodel. -/
structure RespectsCustomValues (custom : Bool) (values : List EntryValue) (c : CppEnumeration) :
    Prop where
  declared : custom = false → ∀ v, (∃ y, c.decode v = .ok y) ↔
    ∃ x, c.type.decode v = .ok x ∧ ∃ e ∈ values, e.Denotes x
  custom : custom = true → ∀ v, (∃ y, c.decode v = .ok y) ↔ ∃ x, c.type.decode v = .ok x
  roundTrip : ∀ v y, c.decode v = .ok y → ∃ w, c.encode y = .success w ∧ w.Same v

/-- A value of the type that is equal to the literal of an entry is the value of this entry or of
one before it. -/
def Unambiguous (T : UnderlyingType) (values : List EntryValue) : Prop :=
  ∀ x, T.Has x → ∀ (i : ℕ) (e : EntryValue), values[i]? = some e → e.Matches x →
    ∃ j ≤ i, ∃ e' : EntryValue, values[j]? = some e' ∧ e'.Denotes x

/-- The strings of entries that are all accepted are verbatim: each one is the literal of some
entry. -/
theorem verbatim_of_accepts (h : c.Prints values)
    (ha : ∀ v x, c.type.decode v = .ok x → (∃ e ∈ values, e.Denotes x) → ∃ y, c.decode v = .ok y) :
    ∀ e ∈ values, e.Verbatim := by
  have hfinite : {s | EntryValue.string s ∈ values}.Finite := by
    apply (List.finite_toSet (values.filterMap EntryValue.text)).subset
    intro s hs
    exact List.mem_filterMap.mpr ⟨.string s, hs, rfl⟩
  have hstrings : ∀ s ∈ {s | EntryValue.string s ∈ values}, Langsvr.Verbatim s := by
    refine verbatim_of_values hfinite fun s hs => ?_
    obtain ⟨i, hi⟩ := List.mem_iff_getElem?.mp hs
    obtain ⟨l, hl, hel, hc⟩ := h.literal hi
    obtain ⟨value, -, rfl⟩ := Option.map_eq_some_iff.mp (literalTemplate_string s ▸ hel)
    have hT : c.type = .string := by
      cases hT : c.type with
      | string => rfl
      | integer | uinteger => rw [hT] at hc; cases hc
    obtain ⟨y, hy⟩ := ha (.stringValue s) (.string s) (by rw [hT]; rfl) ⟨_, hs, rfl⟩
    obtain ⟨x, k, hx, -, hk⟩ := decode_eq_ok.mp hy
    rw [hT] at hx
    cases hx
    obtain ⟨⟨e, he, l', hl', heq⟩, -⟩ := (findIdx?_eq_some h).mp hk
    cases e with
    | string t =>
      obtain ⟨value, hvalue, rfl⟩ := Option.map_eq_some_iff.mp (literalTemplate_string t ▸ hl')
      simp only [CppLiteral.equals, decide_eq_true_eq] at heq
      exact ⟨t, List.mem_of_getElem? he, heq ▸ hvalue⟩
    | number d =>
      rcases literal_number hl' with ⟨n, -, -, rfl⟩ | ⟨-, -, rfl⟩
      · cases heq
      · cases heq
  intro e he
  cases e with
  | string s => exact hstrings s he
  | number d => trivial

theorem unambiguous_of_roundTrip (h : c.Prints values) (hverbatim : ∀ e ∈ values, e.Verbatim)
    (hr : ∀ v y, c.decode v = .ok y → ∃ w, c.encode y = .success w ∧ w.Same v) :
    Unambiguous c.type values := by
  intro x hx i e he hm
  obtain ⟨v, hv⟩ := UnderlyingType.exists_decode hx
  obtain ⟨k, hk, hfind⟩ := exists_findIdx? h he hm
  obtain ⟨⟨e', he', -⟩, -⟩ := (findIdx?_eq_some h).mp hfind
  have hdecode : c.decode v = .ok (.enumeration k) := decode_eq_ok.mpr ⟨x, k, hv, rfl, hfind⟩
  exact ⟨k, hk, e', he', (encode_same_iff h hv he' (hverbatim e' (List.mem_of_getElem? he'))).mp
    (hr v _ hdecode)⟩

/-- The first entry that matches has the decoded value. -/
theorem denotes_of_unambiguous (h : c.Prints values) (hverbatim : ∀ e ∈ values, e.Verbatim)
    (hu : Unambiguous c.type values) {x : LspValue} (hx : c.type.Has x) {i : ℕ}
    (hi : c.values.findIdx? (fun l => l.equals x) = some i) :
    ∃ e : EntryValue, values[i]? = some e ∧ e.Denotes x := by
  obtain ⟨⟨e, he, hm⟩, hfirst⟩ := (findIdx?_eq_some h).mp hi
  obtain ⟨j, hj, e', he', hden⟩ := hu x hx i e he hm
  rcases Nat.lt_or_eq_of_le hj with hlt | rfl
  · have hmatches := matches_of_denotes h he' (hverbatim e' (List.mem_of_getElem? he')) hden
    exact absurd hmatches (hfirst j hlt e' he')
  · exact ⟨e', he', hden⟩

theorem respectsCustomValues_iff (h : c.Prints values) (custom : Bool) :
    RespectsCustomValues custom values c ↔ custom = false ∧ (∀ e ∈ values, e.Verbatim) ∧
      Unambiguous c.type values := by
  constructor
  · intro hr
    have hverbatim : ∀ e ∈ values, e.Verbatim := by
      refine verbatim_of_accepts h fun v x hv hx => ?_
      cases hcustom : custom with
      | false => exact (hr.declared hcustom v).mpr ⟨x, hv, hx⟩
      | true => exact (hr.custom hcustom v).mpr ⟨x, hv⟩
    refine ⟨?_, hverbatim, unambiguous_of_roundTrip h hverbatim hr.roundTrip⟩
    rw [← Bool.not_eq_true]
    intro hcustom
    obtain ⟨x, hx, hnone⟩ := c.type.exists_undeclared values
    obtain ⟨v, hv⟩ := UnderlyingType.exists_decode hx
    obtain ⟨y, hy⟩ := (hr.custom hcustom v).mpr ⟨x, hv⟩
    obtain ⟨x', i, hv', rfl, hi⟩ := decode_eq_ok.mp hy
    obtain ⟨⟨e, he, -⟩, -⟩ := (findIdx?_eq_some h).mp hi
    have hmem := List.mem_of_getElem? he
    exact hnone e hmem ((encode_same_iff h hv he (hverbatim e hmem)).mp (hr.roundTrip v _ hy))
  · intro hcond
    obtain ⟨rfl, hverbatim, hu⟩ := hcond
    refine ⟨fun _ v => ?_, fun hcustom => (by cases hcustom), fun v y hy => ?_⟩
    · constructor
      · intro hy
        obtain ⟨y, hy⟩ := hy
        obtain ⟨x, i, hv, rfl, hi⟩ := decode_eq_ok.mp hy
        obtain ⟨e, he, hden⟩ :=
          denotes_of_unambiguous h hverbatim hu (UnderlyingType.has_of_decode hv) hi
        exact ⟨x, hv, e, List.mem_of_getElem? he, hden⟩
      · intro hx
        obtain ⟨x, hv, e, he, hden⟩ := hx
        obtain ⟨i, hi⟩ := List.mem_iff_getElem?.mp he
        obtain ⟨k, -, hfind⟩ := exists_findIdx? h hi (matches_of_denotes h hi (hverbatim e he) hden)
        exact ⟨.enumeration k, decode_eq_ok.mpr ⟨x, k, hv, rfl, hfind⟩⟩
    · obtain ⟨x, i, hv, rfl, hi⟩ := decode_eq_ok.mp hy
      obtain ⟨e, he, hden⟩ :=
        denotes_of_unambiguous h hverbatim hu (UnderlyingType.has_of_decode hv) hi
      exact (encode_same_iff h hv he (hverbatim e (List.mem_of_getElem? he))).mpr hden

/-- Verbatim strings are never ambiguous, and integers of the type are not if they have up to six
digits. -/
theorem unambiguous_of_small {T : UnderlyingType} (hverbatim : ∀ e ∈ values, e.Verbatim)
    (hv : ∀ e ∈ values, ∀ d, e = .number d →
    ∃ n : ℤ, d.value = some (n : ℚ) ∧ n.natAbs < 1000000 ∧ (T = .uinteger → 0 ≤ n)) :
    Unambiguous T values := by
  intro x hx i e he hm
  refine ⟨i, Nat.le_refl _, e, he, ?_⟩
  obtain ⟨l, hl, heq⟩ := hm
  cases e with
  | string s =>
    rw [literal_string (hverbatim _ (List.mem_of_getElem? he))] at hl
    cases hl
    cases x with
    | string t =>
      simp only [CppLiteral.equals, decide_eq_true_eq] at heq
      exact heq.symm
    | _ => cases heq
  | number d =>
    obtain ⟨n, hn, hsmall, hpos⟩ := hv _ (List.mem_of_getElem? he) d rfl
    rcases literal_number hl with ⟨m, hm, -, rfl⟩ | ⟨hbig, -, -⟩
    · cases x with
      | integer j =>
        simp only [CppLiteral.equals, decide_eq_true_eq] at heq
        rw [← heq] at hm
        exact hm
      | uinteger u =>
        have hT : T = .uinteger := by
          cases T with
          | uinteger => rfl
          | string | integer => exact absurd hx (by simp [UnderlyingType.Has])
        have hnm : n = m := by
          rw [hn, Option.some.injEq] at hm
          exact_mod_cast hm
        have hnonneg := hpos hT
        simp only [CppLiteral.equals, decide_eq_true_eq] at heq
        have hum : (u.toNat : ℤ) = m := by omega
        rw [← hum] at hm
        exact hm
      | _ => cases heq
    · have hge := hbig n hn
      omega

end CppEnumeration

namespace Resolver

open Templates
open CppEnumeration (Prints RespectsCustomValues Unambiguous)

variable {U : Unicode}

def typeText : UnderlyingType → String
  | .string => "string"
  | .integer => "integer"
  | .uinteger => "uinteger"

/-- The template prints the entries of the metamodel. -/
theorem prints_of_template {e : MetaModel.Enumeration} {T : UnderlyingType}
    (hT : e.type = .base (typeText T)) {c : CppEnumeration}
    (hc : enumerationTemplate (translateEnumeration U e) = some c) :
    c.type = T ∧ c.Prints (e.values.map MetaModel.EnumerationEntry.value) := by
  have htype : underlyingTemplate (translateEnumeration U e).type = some T := by
    rw [translateEnumeration, hT]
    cases T with
    | string | integer | uinteger => rfl
  obtain ⟨type, ht, hc⟩ := Option.bind_eq_some_iff.mp hc
  obtain ⟨literals, hl, hc⟩ := Option.bind_eq_some_iff.mp hc
  simp only [htype, Option.some.injEq] at ht
  subst ht
  simp only [Option.ite_none_right_eq_some, Option.some.injEq] at hc
  obtain ⟨hall, rfl⟩ := hc
  have hprinted := ListRelations.mapM_eq_some hl
  rw [translateEnumeration, List.forall₂_map_left_iff] at hprinted
  exact ⟨rfl, hall, List.forall₂_map_left_iff.mpr hprinted⟩

/-- The generated functions of an enumeration of the metamodel respect its flag for custom values
if and only if the flag is not set, the strings are printed as they are and no value is taken for
another one. -/
theorem enumeration_codecs_iff {m : MetaModel} {p : Protocol} (h : resolve U m = .ok (.ok p))
    {i : ℕ} {e : MetaModel.Enumeration} (he : m.enumerations[i]? = some e) {T : UnderlyingType}
    (hT : e.type = .base (typeText T)) : ∃ out, p.enumerations[i]? = some out ∧
      ∀ c, enumerationTemplate out = some c → c.type = T ∧
        (RespectsCustomValues e.supportsCustomValues (e.values.map MetaModel.EnumerationEntry.value)
            c ↔ e.supportsCustomValues = false ∧
          (∀ v ∈ e.values.map MetaModel.EnumerationEntry.value, v.Verbatim) ∧
          Unambiguous T (e.values.map MetaModel.EnumerationEntry.value)) := by
  obtain ⟨st, hrun, -⟩ := resolve_eq_ok h
  obtain ⟨_, _, _, _, _, _, -, -, -, -, -, -, -, -, hes, -⟩ := model_eq_ok hrun
  refine ⟨translateEnumeration U e, by rw [hes, List.getElem?_map, he, Option.map_some], ?_⟩
  intro c hc
  obtain ⟨rfl, hp⟩ := prints_of_template hT hc
  exact ⟨rfl, CppEnumeration.respectsCustomValues_iff hp _⟩

section WatchKinds

theorem literal_ofInt {n : ℤ} (h : n.natAbs < 1000000) :
    literalTemplate (.number (Json.F64.ofInt n)) = some (.int n) := by
  have hvalue : (Json.F64.ofInt n).value = some (n : ℚ) := Json.F64.value_ofInt (by omega)
  simp only [literalTemplate, realIntegral_of_value hvalue, if_pos h]

def markupKind : MetaModel.Enumeration where
  name := "MarkupKind"
  supportsCustomValues := false
  type := .base "string"
  values := [⟨"PlainText", .string "plaintext"⟩, ⟨"Markdown", .string "markdown"⟩]

def watchKind : MetaModel.Enumeration where
  name := "WatchKind"
  supportsCustomValues := true
  type := .base "uinteger"
  values := [⟨"Create", .number (Json.F64.ofInt 1)⟩, ⟨"Change", .number (Json.F64.ofInt 2)⟩,
    ⟨"Delete", .number (Json.F64.ofInt 4)⟩]

def watchKindCode : CppEnumeration where
  name := asciiTables.className watchKind.name
  type := .uinteger
  values := [.int 1, .int 2, .int 4]

def kindModel : MetaModel where
  enumerations := [markupKind, watchKind]

def kindProtocol : Protocol where
  enumerations := [translateEnumeration asciiTables markupKind,
    translateEnumeration asciiTables watchKind]

theorem resolve_kindModel : resolve asciiTables kindModel = .ok (.ok kindProtocol) := by
  rfl

theorem enumerationTemplate_watchKind :
    enumerationTemplate (translateEnumeration asciiTables watchKind) = some watchKindCode := by
  have hliterals : (translateEnumeration asciiTables watchKind).values.mapM
      (fun v => literalTemplate v.value) = some watchKindCode.values := by
    simp [translateEnumeration, watchKind, translateEntry, entryValue, watchKindCode,
      literal_ofInt]
  unfold enumerationTemplate
  rw [hliterals]
  rfl

theorem enumeration_codecs_markupKind : ∃ out c, kindProtocol.enumerations[0]? = some out ∧
    enumerationTemplate out = some c ∧
      RespectsCustomValues false [.string "plaintext", .string "markdown"] c := by
  obtain ⟨out, hout, h⟩ := @enumeration_codecs_iff asciiTables kindModel kindProtocol
    resolve_kindModel 0 markupKind rfl .string rfl
  have heq : out = translateEnumeration asciiTables markupKind := by
    cases hout
    rfl
  subst heq
  refine ⟨_, ⟨asciiTables.className markupKind.name, .string,
    [.string "plaintext", .string "markdown"]⟩, hout, rfl, ?_⟩
  have hverbatim : ∀ v ∈ markupKind.values.map MetaModel.EnumerationEntry.value, v.Verbatim := by
    decide
  refine (h _ rfl).2.mpr ⟨rfl, hverbatim, CppEnumeration.unambiguous_of_small hverbatim ?_⟩
  intro e he d hd
  subst hd
  simp [markupKind] at he

/-- A kind of 7 is not decoded, though the enumeration supports custom values. -/
theorem custom_watchKind_rejected : resolve asciiTables kindModel = .ok (.ok kindProtocol) ∧
    kindModel.enumerations[1]? = some watchKind ∧ watchKind.supportsCustomValues = true ∧
    kindProtocol.enumerations[1]? = some (translateEnumeration asciiTables watchKind) ∧
    enumerationTemplate (translateEnumeration asciiTables watchKind) = some watchKindCode ∧
    watchKindCode.type.decode (.intValue 7) = .ok (.uinteger 7) ∧
    (∀ y, watchKindCode.decode (.intValue 7) ≠ .ok y) ∧
    ¬ RespectsCustomValues watchKind.supportsCustomValues
      (watchKind.values.map MetaModel.EnumerationEntry.value) watchKindCode := by
  have haccepts : watchKindCode.type.decode (.intValue 7) = .ok (.uinteger 7) := by rfl
  have hrejects : ∀ y, watchKindCode.decode (.intValue 7) ≠ .ok y := by
    intro y hy
    obtain ⟨x, i, hx, -, hi⟩ := CppEnumeration.decode_eq_ok.mp hy
    rw [haccepts] at hx
    cases hx
    have hnone : watchKindCode.values.findIdx? (fun l => l.equals (.uinteger 7)) = none := by decide
    rw [hnone] at hi
    cases hi
  refine ⟨resolve_kindModel, rfl, rfl, rfl, enumerationTemplate_watchKind, haccepts, hrejects, ?_⟩
  intro h
  obtain ⟨y, hy⟩ := (h.custom rfl (.intValue 7)).mpr ⟨_, haccepts⟩
  exact hrejects y hy

end WatchKinds

end Resolver

end Langsvr
