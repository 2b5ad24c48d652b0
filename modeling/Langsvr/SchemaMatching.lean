import Langsvr.DecodingRules
import Mathlib.Data.Nat.Find

/-!
# What a type accepts

The JSON values that match a type, stated without reference to the decoders: a
structure only requires its literal kinds and its properties, and ignores any other
member. `Decode` accepts exactly the values that match.
-/

namespace Langsvr

namespace Json.Value

mutual

/-- The keys of every object are in order, as in the containers of the library. -/
def WellFormed : Value → Prop
  | .arrayValue elements => WellFormedElements elements
  | .objectValue members => OrderedEntries.Ordered members ∧ WellFormedMembers members
  | _ => True

def WellFormedElements : List Value → Prop
  | [] => True
  | e :: es => e.WellFormed ∧ WellFormedElements es

def WellFormedMembers : List (String × Value) → Prop
  | [] => True
  | (_, m) :: ms => m.WellFormed ∧ WellFormedMembers ms

end

theorem wellFormedElements_iff {es : List Value} :
    WellFormedElements es ↔ ∀ e ∈ es, e.WellFormed := by
  induction es with
  | nil => simp [WellFormedElements]
  | cons e es ih => simp [WellFormedElements, ih]

theorem wellFormedMembers_iff {ms : List (String × Value)} :
    WellFormedMembers ms ↔ ∀ m ∈ ms, m.2.WellFormed := by
  induction ms with
  | nil => simp [WellFormedMembers]
  | cons m ms ih =>
    obtain ⟨n, v⟩ := m
    simp [WellFormedMembers, ih]

theorem WellFormed.getIndex {v e : Value} {i : ℕ} (hv : v.WellFormed) (h : v.getIndex i = .ok e) :
    e.WellFormed := by
  obtain ⟨es, rfl, hi⟩ := getIndex_eq_ok.mp h
  exact wellFormedElements_iff.mp hv e (List.mem_of_getElem? hi)

theorem WellFormed.get {v m : Value} {n : String} (hv : v.WellFormed) (h : v.get n = .ok m) :
    m.WellFormed := by
  obtain ⟨ms, rfl, hn⟩ := get_eq_ok.mp h
  exact wellFormedMembers_iff.mp hv.2 (n, m) (OrderedEntries.mem_of_lookup hn)

end Json.Value

namespace Lsp

open Json (Value Member)
open LspValue (Blank BlankList)
open ListRelations

def Enumerators.Holds : Enumerators → Value → Prop
  | .string vs, v => ∃ s ∈ vs, v = .stringValue s
  | .integer vs, v => v.isInt64 ∧ v.asInt64 ∈ vs
  | .uinteger vs, v => v.isUInt64 ∧ v.asUInt64 ∈ vs

namespace Structure

mutual

/-- The literal kinds that a structure checks, its own and those of its bases. -/
def literalKinds : Structure → List String
  | .mk kind _ bs => kind.toList ++ baseLiteralKinds bs

def baseLiteralKinds : List Structure → List String
  | [] => []
  | b :: bs => literalKinds b ++ baseLiteralKinds bs

end

mutual

def allProperties : Structure → List Property
  | .mk _ ps bs => ps ++ baseProperties bs

def baseProperties : List Structure → List Property
  | [] => []
  | b :: bs => allProperties b ++ baseProperties bs

end

end Structure

theorem mem_baseLiteralKinds {k : String} {bs : List Structure} :
    k ∈ Structure.baseLiteralKinds bs ↔ ∃ b ∈ bs, k ∈ b.literalKinds := by
  induction bs with
  | nil => simp [Structure.baseLiteralKinds]
  | cons b bs ih => simp [Structure.baseLiteralKinds, ih]

theorem mem_baseProperties {p : Property} {bs : List Structure} :
    p ∈ Structure.baseProperties bs ↔ ∃ b ∈ bs, p ∈ b.allProperties := by
  induction bs with
  | nil => simp [Structure.baseProperties]
  | cons b bs ih => simp [Structure.baseProperties, ih]

/-- `Matches env t v`: the JSON value `v` has the form that the type `t` asks for. -/
inductive Matches (env : Declarations) : LspType → Value → Prop
  | null : Matches env .null .nullValue
  | boolean (b : Bool) : Matches env .boolean (.booleanValue b)
  | integer {v : Value} (h : v.isInt64) : Matches env .integer v
  | uinteger {v : Value} (h : v.isUInt64) : Matches env .uinteger v
  | decimal {v : Value} (h : v.isDouble) : Matches env .decimal v
  | string (s : String) : Matches env .string (.stringValue s)
  | enumeration {e : Enumeration} {v : Value} (h : e.values.Holds v) :
      Matches env (.enumeration e) v
  | vector {t : LspType} {vs : List Value} (h : ∀ v ∈ vs, Matches env t v) :
      Matches env (.vector t) (.arrayValue vs)
  | tuple {ts : List LspType} {vs : List Value} (hl : ts.length = vs.length)
      (h : ∀ p ∈ ts.zip vs, Matches env p.1 p.2) : Matches env (.tuple ts) (.arrayValue vs)
  | map {t : LspType} {ms : List Member} (h : ∀ m ∈ ms, Matches env t m.2) :
      Matches env (.map t) (.objectValue ms)
  | oneOf {ts : List LspType} {t : LspType} {v : Value} (ht : t ∈ ts) (h : Matches env t v) :
      Matches env (.oneOf ts) v
  | reference {n : String} {ms : List Member}
      (hk : ∀ k ∈ (env.find n).literalKinds,
        List.lookup "kind" ms = some (.stringValue k))
      (hr : ∀ p ∈ (env.find n).allProperties, p.optional = false →
        ∃ m, List.lookup p.jsonName ms = some m)
      (hp : ∀ p ∈ (env.find n).allProperties, ∀ m,
        List.lookup p.jsonName ms = some m → Matches env p.type m) :
      Matches env (.reference n) (.objectValue ms)
  | lspAny {t : LspType} {v : Value} (ht : t ∈ lspAnyItems) (h : Matches env t v) :
      Matches env .lspAny v

section Structures

variable {dec : LspType → Decoder} {fresh : LspType → LspValue} {v : Value}

/-- The member of a property can be decoded, or may be missing and is. -/
def Provides (dec : LspType → Decoder) (fresh : LspType → LspValue) (v : Value)
    (p : Property) : Prop :=
  (∃ m y, v.get p.jsonName = .ok m ∧ dec p.type m (fresh p.type) = .ok y) ∨
    (p.optional = true ∧ v.has p.jsonName = false)

private theorem decodeProperty_accepts (hb : BlankBelow dec v) (hf : ∀ t, (fresh t).Blank)
    (p : Property) {out : LspValue} (ho : out.Blank) :
    (∃ x, decodeProperty dec fresh p v out = .ok x) ↔ Provides dec fresh v p := by
  unfold Provides
  cases hp : p.optional with
  | false =>
    simp only [decodeProperty, hp, Bool.false_eq_true, if_false, hb.member p.type p.jsonName ho
      (hf p.type), Except.bind_eq_ok, false_and, or_false]
    constructor
    · intro h
      obtain ⟨y, m, hm, hy⟩ := h
      exact ⟨m, y, hm, hy⟩
    · intro h
      obtain ⟨m, y, hm, hy⟩ := h
      exact ⟨y, m, hm, hy⟩
  | true =>
    cases hh : v.has p.jsonName with
    | false => simp [decodeProperty, hp, hh]
    | true =>
      simp only [decodeProperty, hp, hh, if_true, Except.bind_eq_ok, pure, Except.pure,
        Except.ok.injEq, Bool.true_eq_false, and_false, or_false]
      constructor
      · intro h
        obtain ⟨_, m, hm, y, hy, _⟩ := h
        exact ⟨m, y, hm, hy⟩
      · intro h
        obtain ⟨m, y, hm, hy⟩ := h
        exact ⟨_, m, hm, y, hy, rfl⟩

private theorem decodeProperties_accepts (hb : BlankBelow dec v) (hf : ∀ t, (fresh t).Blank)
    (ps : List Property) {outs : List LspValue} (ho : BlankList outs) : (∃ xs, decodeProperties dec fresh v ps outs = .ok xs) ↔
      ∀ p ∈ ps, Provides dec fresh v p := by
  induction ps generalizing outs with
  | nil => simp [decodeProperties]
  | cons p ps ih =>
    rw [List.forall_mem_cons, ← decodeProperty_accepts hb hf p ho.headD, ← ih ho.tail]
    simp only [decodeProperties, Except.bind_eq_ok, pure, Except.pure, Except.ok.injEq]
    constructor
    · intro h
      obtain ⟨_, x, hx, xs, hxs, _⟩ := h
      exact ⟨⟨x, hx⟩, xs, hxs⟩
    · intro h
      obtain ⟨⟨x, hx⟩, xs, hxs⟩ := h
      exact ⟨_, x, hx, xs, hxs, rfl⟩

private theorem decodeKind_accepts (kind : Option String) :
    (∃ u, decodeKind v kind = .ok u) ↔ ∀ k ∈ kind.toList, v.getString "kind" = .ok k := by
  cases kind with
  | none => simp [decodeKind]
  | some k =>
    simp only [decodeKind, Option.toList_some, List.mem_singleton, forall_eq, ← matchKind_eq_ok]
    constructor
    · intro h
      obtain ⟨_, h⟩ := h
      exact h
    · intro h
      exact ⟨(), h⟩

mutual

theorem decodeStructure_accepts (hb : BlankBelow dec v) (hf : ∀ t, (fresh t).Blank)
    (s : Structure) {out : LspValue} (ho : out.Blank) :
    (∃ x, decodeStructure dec fresh s v out = .ok x) ↔ v.kind = .object ∧
      (∀ k ∈ s.literalKinds, v.getString "kind" = .ok k) ∧
        ∀ p ∈ s.allProperties, Provides dec fresh v p := by
  cases s with
  | mk kind ps bs =>
    by_cases hk : v.kind = .object
    · have hkind := decodeKind_accepts (v := v) kind
      have hprops := decodeProperties_accepts hb hf ps ho.members
      have hbases := decodeBases_accepts hb hf bs hk ho.bases
      simp only [Structure.literalKinds, Structure.allProperties, List.mem_append, or_imp,
        forall_and, ← hkind, ← hprops, hk, true_and]
      simp only [decodeStructure, hk, ne_eq, not_true_eq_false, if_false, Except.bind_eq_ok, pure,
        Except.pure, Except.ok.injEq]
      constructor
      · intro h
        obtain ⟨_, u, hu, ms, hms, ss, hss, _⟩ := h
        have h := hbases.mp ⟨ss, hss⟩
        exact ⟨⟨⟨u, hu⟩, h.1⟩, ⟨ms, hms⟩, h.2⟩
      · intro h
        obtain ⟨⟨⟨u, hu⟩, hks⟩, ⟨ms, hms⟩, hps⟩ := h
        obtain ⟨ss, hss⟩ := hbases.mpr ⟨hks, hps⟩
        exact ⟨_, u, hu, ms, hms, ss, hss, rfl⟩
    · simp [decodeStructure, hk]

theorem decodeBases_accepts (hb : BlankBelow dec v) (hf : ∀ t, (fresh t).Blank)
    (bs : List Structure) {outs : List LspValue} (hk : v.kind = .object) (ho : BlankList outs) :
    (∃ ss, decodeBases dec fresh v bs outs = .ok ss) ↔
      (∀ k ∈ Structure.baseLiteralKinds bs, v.getString "kind" = .ok k) ∧
        ∀ p ∈ Structure.baseProperties bs, Provides dec fresh v p := by
  cases bs with
  | nil => simp [decodeBases, Structure.baseLiteralKinds, Structure.baseProperties]
  | cons b bs =>
    have hbase := decodeStructure_accepts hb hf b ho.headD
    have hrest := decodeBases_accepts hb hf bs hk ho.tail
    simp only [Structure.baseLiteralKinds, Structure.baseProperties, List.mem_append, or_imp,
      forall_and]
    simp only [decodeBases, Except.bind_eq_ok, pure, Except.pure, Except.ok.injEq]
    constructor
    · intro h
      obtain ⟨_, s, hs, ss, hss, _⟩ := h
      have h := hbase.mp ⟨s, hs⟩
      have h' := hrest.mp ⟨ss, hss⟩
      exact ⟨⟨h.2.1, h'.1⟩, h.2.2, h'.2⟩
    · intro h
      obtain ⟨⟨hks, hks'⟩, hps, hps'⟩ := h
      obtain ⟨s, hs⟩ := hbase.mpr ⟨hk, hks, hps⟩
      obtain ⟨ss, hss⟩ := hrest.mpr ⟨hks', hps'⟩
      exact ⟨_, s, hs, ss, hss, rfl⟩

end

end Structures

section Accepting

variable {env : Declarations}

private theorem decodeNew_eq (t : LspType) (v : Value) :
    decodeNew env t v = decodeLayer env (decode env) t v (env.default t) := decode_eq env t v _

theorem accepts_enumeration {e : Enumeration} {v : Value} :
    Accepts env (.enumeration e) v ↔ e.values.Holds v := by
  have hfind : Accepts env (.enumeration e) v ↔ ∃ i, e.values.find v = .ok (some i) := by
    simp only [Accepts, decodeNew_eq, decodeLayer, decodeEnumeration, Except.bind_eq_ok]
    constructor
    · intro h
      obtain ⟨x, o, ho, hx⟩ := h
      cases o with
      | none => simp at hx
      | some i => exact ⟨i, ho⟩
    · intro h
      obtain ⟨i, hi⟩ := h
      exact ⟨_, some i, hi, rfl⟩
  rw [hfind]
  cases e.values with
  | string vs =>
    cases v <;>
      simp [Enumerators.find, Enumerators.Holds, Value.string, pure, Except.pure, bind, Except.bind,
        ← Option.isSome_iff_exists]
  | integer vs =>
    cases hv : v.isInt64 <;>
      simp [Enumerators.find, Enumerators.Holds, Value.i64, hv, pure, Except.pure, bind, Except.bind,
        ← Option.isSome_iff_exists]
  | uinteger vs =>
    cases hv : v.isUInt64 <;>
      simp [Enumerators.find, Enumerators.Holds, Value.u64, hv, pure, Except.pure, bind, Except.bind,
        ← Option.isSome_iff_exists]

theorem accepts_vector {t : LspType} {v : Value} : Accepts env (.vector t) v ↔
    ∃ vs, v = .arrayValue vs ∧ ∀ w ∈ vs, Accepts env t w := by
  cases v with
  | arrayValue vs =>
    simp only [Accepts, decodeNew_vector, ← exists_forall₂_iff, Value.arrayValue.injEq,
      exists_eq_left']
    constructor
    · intro h
      obtain ⟨_, xs, _, hxs⟩ := h
      exact ⟨xs, hxs⟩
    · intro h
      obtain ⟨xs, hxs⟩ := h
      exact ⟨_, xs, rfl, hxs⟩
  | _ => simp [Accepts, decodeNew_eq, decodeLayer, decodeVector, Value.kind]

theorem accepts_tuple {ts : List LspType} {v : Value} : Accepts env (.tuple ts) v ↔
    ∃ vs : List Value, v = .arrayValue vs ∧ ts.length = vs.length ∧
      ∀ p ∈ ts.zip vs, Accepts env p.1 p.2 := by
  cases v with
  | arrayValue vs =>
    simp only [Accepts, decodeNew_tuple, Value.arrayValue.injEq, exists_eq_left',
      ← exists_forall₂_iff, forall₂_iff_getElem?]
    constructor
    · intro h
      obtain ⟨_, xs, _, hl, hlx, h⟩ := h
      refine ⟨hl.symm, xs, by simp [hl, hlx], fun i p hi => ?_⟩
      obtain ⟨ht, hv⟩ := List.getElem?_zip_eq_some.mp hi
      obtain ⟨w, x, hw, hx, hd⟩ := h i p.1 ht
      rw [hv, Option.some.injEq] at hw
      exact ⟨x, hx, hw ▸ hd⟩
    · intro h
      obtain ⟨hl, xs, hlx, h⟩ := h
      refine ⟨_, xs, rfl, hl.symm, by simpa [hl] using hlx, fun i t ht => ?_⟩
      have hi : i < vs.length := hl ▸ (List.getElem?_eq_some_iff.mp ht).1
      obtain ⟨x, hx, hd⟩ := h i (t, vs[i]) (List.getElem?_zip_eq_some.mpr ⟨ht, by simp [hi]⟩)
      exact ⟨vs[i], x, by simp [hi], hx, hd⟩
  | _ => simp [Accepts, decodeNew_eq, decodeLayer, decodeTuple, Value.kind]

theorem accepts_map {t : LspType} {v : Value} (hv : v.WellFormed) : Accepts env (.map t) v ↔
    ∃ ms, v = .objectValue ms ∧ ∀ m ∈ ms, Accepts env t m.2 := by
  cases v with
  | objectValue ms =>
    have hall : (∀ m ∈ ms, Accepts env t m.2) ↔
        ∀ m ∈ ms, ∃ e : String × LspValue, e.1 = m.1 ∧ decodeNew env t m.2 = .ok e.2 :=
      forall₂_congr fun m _ =>
        ⟨fun ⟨x, hx⟩ => ⟨(m.1, x), rfl, hx⟩, fun ⟨e, _, he⟩ => ⟨e.2, he⟩⟩
    simp only [Value.objectValue.injEq, exists_eq_left', hall, ← exists_forall₂_iff]
    simp only [Accepts, decodeNew_map hv.1]
    constructor
    · intro h
      obtain ⟨_, es, _, hes⟩ := h
      exact ⟨es, hes⟩
    · intro h
      obtain ⟨es, hes⟩ := h
      exact ⟨_, es, rfl, hes⟩
  | _ => simp [Accepts, decodeNew_eq, decodeLayer, decodeMap, Value.kind]

theorem accepts_oneOf {ts : List LspType} {v : Value} :
    Accepts env (.oneOf ts) v ↔ ∃ t ∈ ts, Accepts env t v := by
  constructor
  · intro h
    obtain ⟨_, h⟩ := h
    obtain ⟨k, t, x, -, hk, hx, -⟩ := decodeNew_oneOf.mp h
    exact ⟨t, List.mem_of_getElem? hk, x, hx⟩
  · intro h
    obtain ⟨t, ht, ha⟩ := h
    have hex : ∃ (k : ℕ) (u : LspType), ts[k]? = some u ∧ Accepts env u v := by
      obtain ⟨k, hk⟩ := List.mem_iff_getElem?.mp ht
      exact ⟨k, t, hk, ha⟩
    -- the first alternative that accepts
    classical
    obtain ⟨u, hu, x, hx⟩ := Nat.find_spec hex
    refine ⟨_, decodeNew_oneOf.mpr ⟨Nat.find hex, u, x, rfl, hu, hx, fun i hi w hw haw => ?_⟩⟩
    exact Nat.find_min hex hi ⟨w, hw, haw⟩

theorem accepts_lspAny {v : Value} :
    Accepts env .lspAny v ↔ Accepts env (.oneOf lspAnyItems) v := by
  simp only [Accepts, decodeNew_lspAny]

/-- `Decode` of a structure asks for the literal kinds and for what the properties ask for. -/
theorem accepts_structure {n : String} {v : Value} : Accepts env (.reference n) v ↔
    v.kind = .object ∧ (∀ k ∈ (env.find n).literalKinds, v.getString "kind" = .ok k) ∧
      ∀ p ∈ (env.find n).allProperties, Provides (decode env) env.default v p := by
  have hblank : BlankBelow (decode env) v := fun t c _ _ _ ho ho' => decode_blank env t c ho ho'
  have hdecode : Accepts env (.reference n) v ↔ ∃ x, decodeStructure (decode env) env.default
      (env.find n) v (env.default (.reference n)) = .ok x := by
    simp only [Accepts, decodeNew_eq, decodeLayer]
  rw [hdecode]
  exact decodeStructure_accepts hblank (blank_default env) (env.find n)
    (blank_default env (.reference n))

theorem accepts_reference {n : String} {v : Value} : Accepts env (.reference n) v ↔
    ∃ ms, v = .objectValue ms ∧
      (∀ k ∈ (env.find n).literalKinds,
        List.lookup "kind" ms = some (.stringValue k)) ∧
      ∀ p ∈ (env.find n).allProperties,
        (∃ m, List.lookup p.jsonName ms = some m ∧ Accepts env p.type m) ∨
          (p.optional = true ∧ List.lookup p.jsonName ms = none) := by
  rw [accepts_structure]
  cases v with
  | objectValue ms =>
    have hget : ∀ k m, (Value.objectValue ms).get k = .ok m ↔
        List.lookup k ms = some m := by
      intro k m
      simp [Value.get_eq_ok]
    have hstring : ∀ k, (Value.objectValue ms).getString "kind" = .ok k ↔
        List.lookup "kind" ms = some (.stringValue k) :=
      fun k => Value.getString_eq_ok.trans (hget "kind" _)
    simp only [Value.kind, true_and, hstring, Value.objectValue.injEq, exists_eq_left', Provides,
      hget, Value.has, Option.isSome_eq_false_iff, Option.isNone_iff_eq_none, exists_and_left]
    rfl
  | _ => simp [Value.kind]

theorem accepts_of_matches {t : LspType} {v : Value} (h : Matches env t v) (hv : v.WellFormed) :
    Accepts env t v := by
  induction h with
  | null => exact ⟨.null, decode_eq ..⟩
  | boolean b => exact ⟨.boolean b, decode_eq ..⟩
  | string s => exact ⟨.string s, decode_eq ..⟩
  | @integer v h => exact ⟨.integer v.asInt64, by simp [decodeNew_eq, decodeLayer, decodeInteger,
      Value.i64, h, bind, Except.bind, pure, Except.pure]⟩
  | @uinteger v h => exact ⟨.uinteger v.asUInt64, by simp [decodeNew_eq, decodeLayer,
      decodeUinteger, Value.u64, h, bind, Except.bind, pure, Except.pure]⟩
  | @decimal v h => exact ⟨.decimal v.asDouble, by simp [decodeNew_eq, decodeLayer, decodeDecimal,
      Value.f64, h, bind, Except.bind, pure, Except.pure]⟩
  | enumeration h => exact accepts_enumeration.mpr h
  | vector _ ih =>
    have hw := Value.wellFormedElements_iff.mp hv
    exact accepts_vector.mpr ⟨_, rfl, fun w hm => ih w hm (hw w hm)⟩
  | tuple hl _ ih =>
    have hw := Value.wellFormedElements_iff.mp hv
    exact accepts_tuple.mpr ⟨_, rfl, hl, fun p hm => ih p hm (hw p.2 (List.of_mem_zip hm).2)⟩
  | map _ ih =>
    have hw := Value.wellFormedMembers_iff.mp hv.2
    exact (accepts_map hv).mpr ⟨_, rfl, fun m hm => ih m hm (hw m hm)⟩
  | oneOf ht _ ih => exact accepts_oneOf.mpr ⟨_, ht, ih hv⟩
  | lspAny ht _ ih => exact accepts_lspAny.mpr (accepts_oneOf.mpr ⟨_, ht, ih hv⟩)
  | @reference n ms hk hr _ ih =>
    have hw := Value.wellFormedMembers_iff.mp hv.2
    refine accepts_reference.mpr ⟨ms, rfl, hk, fun p hp => ?_⟩
    cases hl : List.lookup p.jsonName ms with
    | some m => exact .inl ⟨m, rfl, ih p hp m hl (hw _ (OrderedEntries.mem_of_lookup hl))⟩
    | none =>
      refine .inr ⟨?_, rfl⟩
      cases ho : p.optional with
      | true => rfl
      | false =>
        obtain ⟨m, hm⟩ := hr p hp ho
        rw [hm] at hl
        cases hl

/-- The types that do not hand the JSON value on to the types of which they consist. -/
private def Selects : LspType → Prop
  | .oneOf _ | .lspAny => True
  | _ => False

private theorem matches_of_accepts_below {t : LspType} {v : Value} (hv : v.WellFormed)
    (hb : ∀ u w, w.depth < v.depth → w.WellFormed → Accepts env u w → Matches env u w)
    (ht : ¬ Selects t) (ha : Accepts env t v) : Matches env t v := by
  have hscalar := ha
  obtain ⟨x, hx⟩ := hscalar
  rw [decodeNew_eq] at hx
  cases t with
  | null =>
    cases v <;> simp [decodeLayer, decodeNull, Value.null, bind, Except.bind] at hx
    exact .null
  | boolean =>
    cases v <;> simp [decodeLayer, decodeBoolean, Value.bool, bind, Except.bind] at hx
    exact .boolean _
  | string =>
    cases v <;> simp [decodeLayer, decodeString, Value.string, bind, Except.bind] at hx
    exact .string _
  | integer =>
    cases h : v.isInt64
    · simp [decodeLayer, decodeInteger, Value.i64, h, bind, Except.bind] at hx
    · exact .integer h
  | uinteger =>
    cases h : v.isUInt64
    · simp [decodeLayer, decodeUinteger, Value.u64, h, bind, Except.bind] at hx
    · exact .uinteger h
  | decimal =>
    cases h : v.isDouble
    · simp [decodeLayer, decodeDecimal, Value.f64, h, bind, Except.bind] at hx
    · exact .decimal h
  | enumeration e => exact .enumeration (accepts_enumeration.mp ha)
  | vector t =>
    obtain ⟨vs, rfl, h⟩ := accepts_vector.mp ha
    have hw := Value.wellFormedElements_iff.mp hv
    exact .vector fun w hm => hb t w (Nat.lt_succ_of_le (depth_le_depthElements hm)) (hw w hm) (h w hm)
  | tuple ts =>
    obtain ⟨vs, rfl, hl, h⟩ := accepts_tuple.mp ha
    have hw := Value.wellFormedElements_iff.mp hv
    refine .tuple hl fun p hp => ?_
    have hm := (List.of_mem_zip hp).2
    exact hb p.1 p.2 (Nat.lt_succ_of_le (depth_le_depthElements hm)) (hw p.2 hm) (h p hp)
  | map t =>
    obtain ⟨ms, rfl, h⟩ := (accepts_map hv).mp ha
    have hw := Value.wellFormedMembers_iff.mp hv.2
    exact .map fun m hm =>
      hb t m.2 (Nat.lt_succ_of_le (depth_le_depthMembers (n := m.1) hm)) (hw m hm) (h m hm)
  | reference n =>
    obtain ⟨ms, rfl, hk, hp⟩ := accepts_reference.mp ha
    have hw := Value.wellFormedMembers_iff.mp hv.2
    refine .reference hk (fun p hm ho => ?_) fun p hm m hl => ?_
    · rcases hp p hm with ⟨m, hl, -⟩ | ⟨h, -⟩
      · exact ⟨m, hl⟩
      · rw [ho] at h
        cases h
    · have hmem := OrderedEntries.mem_of_lookup hl
      apply hb p.type m (Nat.lt_succ_of_le (depth_le_depthMembers hmem)) (hw _ hmem)
      rcases hp p hm with ⟨m', hl', ha'⟩ | ⟨-, hl'⟩
      · rw [hl, Option.some.injEq] at hl'
        exact hl' ▸ ha'
      · rw [hl] at hl'
        cases hl'
  | oneOf _ | lspAny => exact absurd trivial ht

/-- A `OneOf` hands the same value on, to types of a smaller size. -/
private theorem matches_of_accepts_alternatives {v : Value} (hv : v.WellFormed)
    (hb : ∀ u w, w.depth < v.depth → w.WellFormed → Accepts env u w → Matches env u w)
    (t : LspType) (ha : Accepts env t v) : Matches env t v := by
  cases t with
  | oneOf ts =>
    obtain ⟨u, hu, hau⟩ := accepts_oneOf.mp ha
    exact .oneOf hu (matches_of_accepts_alternatives hv hb u hau)
  | lspAny =>
    obtain ⟨u, hu, hau⟩ := accepts_oneOf.mp (accepts_lspAny.mp ha)
    have hplain : ¬ Selects u := by
      simp only [lspAnyItems, List.mem_cons, List.not_mem_nil, or_false] at hu
      rcases hu with rfl | rfl | rfl | rfl | rfl | rfl | rfl | rfl <;> exact id
    exact .lspAny hu (matches_of_accepts_below hv hb hplain hau)
  | _ => exact matches_of_accepts_below hv hb id ha
termination_by sizeOf t
decreasing_by
  have h := List.sizeOf_lt_of_mem hu
  subst_vars
  simp only [LspType.oneOf.sizeOf_spec]
  omega

/-- `Decode` accepts the well formed JSON values that match the type. -/
theorem accepts_iff_matches {t : LspType} {v : Value} (hv : v.WellFormed) :
    Accepts env t v ↔ Matches env t v := by
  refine ⟨fun ha => ?_, fun h => accepts_of_matches h hv⟩
  induction hn : v.depth using Nat.strong_induction_on generalizing t v with
  | _ n ih =>
    exact matches_of_accepts_alternatives hv
      (fun u w hd hw haw => ih w.depth (hn ▸ hd) hw haw rfl) t ha

end Accepting

end Lsp

end Langsvr
