import Langsvr.SchemaMatching

/-!
# What a JSON value is as a value of a type

The value of a type that a JSON value stands for, stated without reference to the decoders. Of a
`OneOf` it is a value of the first alternative that matches, and a member of an object that has no
`Optional` for it is ignored. `Decode` yields exactly this value.
-/

namespace Langsvr

namespace Lsp

open Json (Value Member)
open ListRelations

/-- The value at this position is the first one that equals `a`. -/
def FirstAt {α : Type} (vs : List α) (a : α) (i : ℕ) : Prop :=
  vs[i]? = some a ∧ ∀ j < i, vs[j]? ≠ some a

/-- The first enumerator of which the JSON value is the value. -/
def Enumerators.Picks : Enumerators → Value → ℕ → Prop
  | .string vs, v, i => ∃ s, v = .stringValue s ∧ FirstAt vs s i
  | .integer vs, v, i => v.isInt64 ∧ FirstAt vs v.asInt64 i
  | .uinteger vs, v, i => v.isUInt64 ∧ FirstAt vs v.asUInt64 i

/-- `ReadsAs env t v x`: as a value of the type `t` the JSON value `v` is `x`. -/
inductive ReadsAs (env : Declarations) : LspType → Value → LspValue → Prop
  | null : ReadsAs env .null .nullValue .null
  | boolean (b : Bool) : ReadsAs env .boolean (.booleanValue b) (.boolean b)
  | integer {v : Value} (h : v.isInt64) : ReadsAs env .integer v (.integer v.asInt64)
  | uinteger {v : Value} (h : v.isUInt64) : ReadsAs env .uinteger v (.uinteger v.asUInt64)
  | decimal {v : Value} (h : v.isDouble) : ReadsAs env .decimal v (.decimal v.asDouble)
  | string (s : String) : ReadsAs env .string (.stringValue s) (.string s)
  | enumeration {e : Enumeration} {v : Value} {i : ℕ} (h : e.values.Picks v i) :
      ReadsAs env (.enumeration e) v (.enumeration i)
  | vector {t : LspType} {vs : List Value} {xs : List LspValue} (hl : vs.length = xs.length)
      (h : ∀ p ∈ vs.zip xs, ReadsAs env t p.1 p.2) :
      ReadsAs env (.vector t) (.arrayValue vs) (.vector xs)
  | tuple {ts : List LspType} {vs : List Value} {xs : List LspValue}
      (hl : vs.length = (ts.zip xs).length) (hlx : ts.length = xs.length)
      (h : ∀ p ∈ vs.zip (ts.zip xs), ReadsAs env p.2.1 p.1 p.2.2) :
      ReadsAs env (.tuple ts) (.arrayValue vs) (.tuple xs)
  | map {t : LspType} {ms : List Member} {es : List (String × LspValue)}
      (hk : es.map Prod.fst = ms.map Prod.fst)
      (h : ∀ p ∈ ms.zip es, ReadsAs env t p.1.2 p.2.2) :
      ReadsAs env (.map t) (.objectValue ms) (.map es)
  | oneOf {ts : List LspType} {k : ℕ} {t : LspType} {v : Value} {x : LspValue}
      (hk : ts[k]? = some t) (h : ReadsAs env t v x)
      (hfirst : ∀ i < k, ∀ u, ts[i]? = some u → ¬ Matches env u v) :
      ReadsAs env (.oneOf ts) v (.oneOf k x)
  | reference {n : String} {ms : List Member} {x : LspValue}
      (hk : ∀ m k, (m, Slot.kind k) ∈ (env.find n).slots x →
        List.lookup "kind" ms = some (.stringValue k))
      (hr : ∀ m t y, (m, Slot.value t y) ∈ (env.find n).slots x → ∃ w, List.lookup m ms = some w)
      (h : ∀ m t y w, (m, Slot.value t y) ∈ (env.find n).slots x → List.lookup m ms = some w →
        ReadsAs env t w y)
      (ha : ∀ m ∈ (env.find n).absentNames x, List.lookup m ms = none) :
      ReadsAs env (.reference n) (.objectValue ms) x
  | lspAny {k : ℕ} {t : LspType} {v : Value} {x : LspValue} (hk : lspAnyItems[k]? = some t)
      (h : ReadsAs env t v x)
      (hfirst : ∀ i < k, ∀ u, lspAnyItems[i]? = some u → ¬ Matches env u v) :
      ReadsAs env .lspAny v (.oneOf k x)

section Scalars

variable {env : Declarations} {v : Value}

theorem idxOf?_eq_some_iff {α : Type} [DecidableEq α] {vs : List α} {a : α} {i : ℕ} :
    vs.idxOf? a = some i ↔ FirstAt vs a i := by
  rw [List.idxOf?_eq_some_iff, FirstAt]
  constructor
  · intro h
    obtain ⟨hi, ha, hfirst⟩ := h
    refine ⟨List.getElem?_eq_some_iff.mpr ⟨hi, by simpa using ha⟩, fun j hj hja => ?_⟩
    obtain ⟨hjlt, hja⟩ := List.getElem?_eq_some_iff.mp hja
    have hne := hfirst j hj
    simp [hja] at hne
  · intro h
    obtain ⟨hi, ha⟩ := List.getElem?_eq_some_iff.mp h.1
    refine ⟨hi, by simpa using ha, fun j hj => ?_⟩
    have hne := h.2 j hj
    rw [List.getElem?_eq_getElem (hj.trans hi), ne_eq, Option.some.injEq] at hne
    simpa using hne

theorem Enumerators.find_eq_some_iff {vs : Enumerators} {i : ℕ} :
    vs.find v = .ok (some i) ↔ vs.Picks v i := by
  cases vs with
  | string vs =>
    simp [Enumerators.find, Except.bind_eq_ok, Value.string_eq_ok, pure, Except.pure,
      idxOf?_eq_some_iff, Enumerators.Picks]
  | integer vs =>
    simp [Enumerators.find, Except.bind_eq_ok, Value.i64_eq_ok, pure, Except.pure,
      idxOf?_eq_some_iff, Enumerators.Picks]
  | uinteger vs =>
    simp [Enumerators.find, Except.bind_eq_ok, Value.u64_eq_ok, pure, Except.pure,
      idxOf?_eq_some_iff, Enumerators.Picks]

private theorem read_eq_ok {α : Type} {r : Result α} {f : α → LspValue}
    (hf : Function.Injective f) {a : α} :
    (do return f (← r)) = (.ok (f a) : Result LspValue) ↔ r = .ok a := by
  cases r with
  | error e => simp [bind, Except.bind]
  | ok b => simp [bind, Except.bind, pure, Except.pure, hf.eq_iff]

theorem decodeNew_null_iff : decodeNew env .null v = .ok .null ↔ ReadsAs env .null v .null := by
  rw [decodeNew, decode_eq]
  refine ((read_eq_ok fun _ _ _ => rfl).trans Value.null_eq_ok).trans ?_
  constructor
  · rintro rfl
    exact .null
  · intro h
    cases h
    rfl

theorem decodeNew_boolean_iff {b : Bool} :
    decodeNew env .boolean v = .ok (.boolean b) ↔ ReadsAs env .boolean v (.boolean b) := by
  rw [decodeNew, decode_eq]
  refine ((read_eq_ok fun _ _ => LspValue.boolean.inj).trans Value.bool_eq_ok).trans ?_
  constructor
  · rintro rfl
    exact .boolean b
  · intro h
    cases h
    rfl

theorem decodeNew_integer_iff {i : Int64} :
    decodeNew env .integer v = .ok (.integer i) ↔ ReadsAs env .integer v (.integer i) := by
  rw [decodeNew, decode_eq]
  refine ((read_eq_ok fun _ _ => LspValue.integer.inj).trans Value.i64_eq_ok).trans ?_
  constructor
  · rintro ⟨h, rfl⟩
    exact .integer h
  · intro h
    cases h with
    | integer h => exact ⟨h, rfl⟩

theorem decodeNew_uinteger_iff {u : UInt64} :
    decodeNew env .uinteger v = .ok (.uinteger u) ↔ ReadsAs env .uinteger v (.uinteger u) := by
  rw [decodeNew, decode_eq]
  refine ((read_eq_ok fun _ _ => LspValue.uinteger.inj).trans Value.u64_eq_ok).trans ?_
  constructor
  · rintro ⟨h, rfl⟩
    exact .uinteger h
  · intro h
    cases h with
    | uinteger h => exact ⟨h, rfl⟩

theorem decodeNew_decimal_iff {d : Json.F64} :
    decodeNew env .decimal v = .ok (.decimal d) ↔ ReadsAs env .decimal v (.decimal d) := by
  rw [decodeNew, decode_eq]
  refine ((read_eq_ok fun _ _ => LspValue.decimal.inj).trans Value.f64_eq_ok).trans ?_
  constructor
  · rintro ⟨h, rfl⟩
    exact .decimal h
  · intro h
    cases h with
    | decimal h => exact ⟨h, rfl⟩

theorem decodeNew_string_iff {s : String} :
    decodeNew env .string v = .ok (.string s) ↔ ReadsAs env .string v (.string s) := by
  rw [decodeNew, decode_eq]
  refine ((read_eq_ok fun _ _ => LspValue.string.inj).trans Value.string_eq_ok).trans ?_
  constructor
  · rintro rfl
    exact .string s
  · intro h
    cases h
    rfl

/-- An enumeration is decoded to the enumerator that is found. -/
theorem decodeNew_enumeration_eq_ok {e : Enumeration} {i : ℕ} :
    decodeNew env (.enumeration e) v = .ok (.enumeration i) ↔ e.values.find v = .ok (some i) := by
  rw [decodeNew, decode_eq]
  simp only [decodeLayer, decodeEnumeration, Except.bind_eq_ok]
  constructor
  · intro h
    obtain ⟨o, ho, hi⟩ := h
    cases o with
    | none => simp at hi
    | some j =>
      cases hi
      exact ho
  · intro hf
    exact ⟨some i, hf, rfl⟩

end Scalars

section Lists

variable {env : Declarations} {v : Value}

theorem decodeNew_vector_eq_ok {t : LspType} {xs : List LspValue} :
    decodeNew env (.vector t) v = .ok (.vector xs) ↔ ∃ vs, v = .arrayValue vs ∧
      List.Forall₂ (fun v x => decodeNew env t v = .ok x) vs xs := by
  constructor
  · intro h
    obtain ⟨vs, rfl, -⟩ := accepts_vector.mp ⟨_, h⟩
    obtain ⟨_, hxs, hvs⟩ := decodeNew_vector.mp h
    cases hxs
    exact ⟨vs, rfl, hvs⟩
  · intro h
    obtain ⟨vs, rfl, hvs⟩ := h
    exact decodeNew_vector.mpr ⟨xs, rfl, hvs⟩

theorem readsAs_vector {t : LspType} {xs : List LspValue} :
    ReadsAs env (.vector t) v (.vector xs) ↔
      ∃ vs, v = .arrayValue vs ∧ List.Forall₂ (ReadsAs env t) vs xs := by
  constructor
  · intro h
    cases h with
    | vector hl h => exact ⟨_, rfl, List.forall₂_iff_zip.mpr ⟨hl, fun hp => h _ hp⟩⟩
  · intro h
    obtain ⟨vs, rfl, h⟩ := h
    exact .vector h.length_eq fun p hp => (List.forall₂_iff_zip.mp h).2 hp

theorem decodeNew_tuple_eq_ok {ts : List LspType} {xs : List LspValue}
    (hl : ts.length = xs.length) : decodeNew env (.tuple ts) v = .ok (.tuple xs) ↔
      ∃ vs, v = .arrayValue vs ∧
        List.Forall₂ (fun v (p : LspType × LspValue) => decodeNew env p.1 v = .ok p.2) vs
          (ts.zip xs) := by
  have hz : (ts.zip xs).length = ts.length := by simp [hl]
  simp only [forall₂_iff_getElem?, hz]
  constructor
  · intro h
    obtain ⟨vs, rfl, -⟩ := accepts_tuple.mp ⟨_, h⟩
    obtain ⟨_, hxs, hlv, -, h⟩ := decodeNew_tuple.mp h
    cases hxs
    refine ⟨vs, rfl, hlv.symm, fun i v hi => ?_⟩
    have hlt : i < ts.length := hlv ▸ (List.getElem?_eq_some_iff.mp hi).1
    obtain ⟨w, x, hw, hx, hd⟩ := h i ts[i] (by simp [hlt])
    rw [hi, Option.some.injEq] at hw
    exact ⟨(ts[i], x), List.getElem?_zip_eq_some.mpr ⟨by simp [hlt], hx⟩, hw ▸ hd⟩
  · intro h
    obtain ⟨vs, rfl, hlv, h⟩ := h
    refine decodeNew_tuple.mpr ⟨xs, rfl, hlv.symm, hl.symm, fun i t hi => ?_⟩
    have hlt : i < vs.length := hlv ▸ (List.getElem?_eq_some_iff.mp hi).1
    obtain ⟨p, hp, hd⟩ := h i vs[i] (by simp [hlt])
    obtain ⟨ht, hx⟩ := List.getElem?_zip_eq_some.mp hp
    rw [hi, Option.some.injEq] at ht
    exact ⟨vs[i], p.2, by simp [hlt], hx, ht ▸ hd⟩

theorem readsAs_tuple {ts : List LspType} {xs : List LspValue} (hl : ts.length = xs.length) :
    ReadsAs env (.tuple ts) v (.tuple xs) ↔ ∃ vs, v = .arrayValue vs ∧
      List.Forall₂ (fun v (p : LspType × LspValue) => ReadsAs env p.1 v p.2) vs (ts.zip xs) := by
  constructor
  · intro h
    cases h with
    | tuple hl _ h => exact ⟨_, rfl, List.forall₂_iff_zip.mpr ⟨hl, fun hp => h _ hp⟩⟩
  · intro h
    obtain ⟨vs, rfl, h⟩ := h
    exact .tuple h.length_eq hl fun p hp => (List.forall₂_iff_zip.mp h).2 hp

theorem decodeNew_map_eq_ok (hv : v.WellFormed) {t : LspType} {es : List (String × LspValue)} :
    decodeNew env (.map t) v = .ok (.map es) ↔ ∃ ms, v = .objectValue ms ∧
      List.Forall₂ (fun m e => e.1 = m.1 ∧ decodeNew env t m.2 = .ok e.2) ms es := by
  constructor
  · intro h
    obtain ⟨ms, rfl, -⟩ := (accepts_map hv).mp ⟨_, h⟩
    obtain ⟨_, hes, hms⟩ := (decodeNew_map hv.1).mp h
    cases hes
    exact ⟨ms, rfl, hms⟩
  · intro h
    obtain ⟨ms, rfl, hms⟩ := h
    exact (decodeNew_map hv.1).mpr ⟨es, rfl, hms⟩

theorem readsAs_map {t : LspType} {es : List (String × LspValue)} :
    ReadsAs env (.map t) v (.map es) ↔ ∃ ms, v = .objectValue ms ∧
      List.Forall₂ (fun m e => e.1 = m.1 ∧ ReadsAs env t m.2 e.2) ms es := by
  constructor
  · intro h
    cases h with
    | @map _ ms _ hk h =>
      refine ⟨ms, rfl, List.forall₂_iff_zip.mpr ⟨by simpa using congrArg List.length hk.symm, ?_⟩⟩
      intro m e hp
      refine ⟨?_, h _ hp⟩
      obtain ⟨i, hi⟩ := List.mem_iff_getElem?.mp hp
      obtain ⟨hm, he⟩ := List.getElem?_zip_eq_some.mp hi
      have hkeys : (es.map Prod.fst)[i]? = (ms.map Prod.fst)[i]? := by rw [hk]
      simpa only [List.getElem?_map, hm, he, Option.map_some, Option.some.injEq] using hkeys
  · intro h
    obtain ⟨ms, rfl, h⟩ := h
    exact .map (map_eq_map h fun _ _ h => h.1) fun p hp => ((List.forall₂_iff_zip.mp h).2 hp).2

/-- The alternatives before the first one that matches do not accept. -/
theorem decodeNew_oneOf_eq_ok (hv : v.WellFormed) {ts : List LspType} {k : ℕ} {t : LspType}
    {x : LspValue} (hk : ts[k]? = some t) :
    decodeNew env (.oneOf ts) v = .ok (.oneOf k x) ↔ decodeNew env t v = .ok x ∧
      ∀ i < k, ∀ u, ts[i]? = some u → ¬ Matches env u v := by
  rw [decodeNew_oneOf]
  simp only [accepts_iff_matches hv]
  constructor
  · intro h
    obtain ⟨_, u, _, ⟨⟩, hu, hx, hfirst⟩ := h
    cases hk.symm.trans hu
    exact ⟨hx, hfirst⟩
  · intro h
    exact ⟨k, t, x, rfl, hk, h.1, h.2⟩

theorem readsAs_oneOf {ts : List LspType} {k : ℕ} {t : LspType} {x : LspValue}
    (hk : ts[k]? = some t) : ReadsAs env (.oneOf ts) v (.oneOf k x) ↔ ReadsAs env t v x ∧
      ∀ i < k, ∀ u, ts[i]? = some u → ¬ Matches env u v := by
  constructor
  · intro h
    cases h with
    | oneOf hk' h hfirst =>
      cases hk.symm.trans hk'
      exact ⟨h, hfirst⟩
  · intro h
    exact .oneOf hk h.1 h.2

theorem readsAs_lspAny {k : ℕ} {x : LspValue} :
    ReadsAs env .lspAny v (.oneOf k x) ↔ ReadsAs env (.oneOf lspAnyItems) v (.oneOf k x) := by
  constructor
  · intro h
    cases h with
    | lspAny hk h hfirst => exact .oneOf hk h hfirst
  · intro h
    cases h with
    | oneOf hk h hfirst => exact .lspAny hk h hfirst

end Lists

section Objects

variable {env : Declarations} {v : Value}

theorem readsAs_reference {n : String} {x : LspValue} :
    ReadsAs env (.reference n) v x ↔ v.kind = .object ∧
      (∀ m k, (m, Slot.kind k) ∈ (env.find n).slots x → v.get "kind" = .ok (.stringValue k)) ∧
      (∀ m t y, (m, Slot.value t y) ∈ (env.find n).slots x →
        ∃ w, v.get m = .ok w ∧ ReadsAs env t w y) ∧
      ∀ m ∈ (env.find n).absentNames x, v.has m = false := by
  cases v with
  | objectValue ms =>
    have hget : ∀ m w, (Value.objectValue ms).get m = .ok w ↔ List.lookup m ms = some w := by
      intro m w
      simp [Value.get_eq_ok]
    simp only [hget, Value.has, Option.isSome_eq_false_iff, Option.isNone_iff_eq_none]
    constructor
    · intro h
      cases h with
      | reference hk hr h ha =>
        refine ⟨rfl, hk, fun m t y hm => ?_, ha⟩
        obtain ⟨w, hw⟩ := hr m t y hm
        exact ⟨w, hw, h m t y w hm hw⟩
    · intro h
      obtain ⟨-, hk, hr, ha⟩ := h
      refine .reference hk (fun m t y hm => ?_) (fun m t y w hm hw => ?_) ha
      · obtain ⟨w, hw, -⟩ := hr m t y hm
        exact ⟨w, hw⟩
      · obtain ⟨w', hw', h⟩ := hr m t y hm
        cases hw'.symm.trans hw
        exact h
  | _ =>
    refine iff_of_false (fun h => ?_) fun h => ?_
    · cases h
    · cases h.1

theorem decodeNew_reference_eq_ok {n : String} {x : LspValue} (hs : (env.find n).Shaped x) :
    decodeNew env (.reference n) v = .ok x ↔ v.kind = .object ∧
      (∀ m k, (m, Slot.kind k) ∈ (env.find n).slots x → v.get "kind" = .ok (.stringValue k)) ∧
      (∀ m t y, (m, Slot.value t y) ∈ (env.find n).slots x →
        ∃ w, v.get m = .ok w ∧ decodeNew env t w = .ok y) ∧
      ∀ m ∈ (env.find n).absentNames x, v.has m = false := by
  rw [decodeNew_reference hs, ReadsBack, and_assoc.symm.trans and_assoc]
  refine and_congr_right fun _ => ?_
  rw [← and_assoc]
  refine and_congr_left fun _ => ?_
  constructor
  · intro h
    refine ⟨fun m k hm => Value.getString_eq_ok.mp (h m _ hm), fun m t y hm => ?_⟩
    exact Except.bind_eq_ok.mp (h m _ hm)
  · intro h m s hm
    cases s with
    | kind k => exact Value.getString_eq_ok.mpr (h.1 m k hm)
    | value t y => exact Except.bind_eq_ok.mpr (h.2 m t y hm)

end Objects

/-- `Decode` yields the value that the JSON value is as a value of the type. -/
theorem decodeNew_iff_readsAs {env : Declarations} {t : LspType} {x : LspValue}
    (hx : HasType env t x) {v : Value} (hv : v.WellFormed) :
    decodeNew env t v = .ok x ↔ ReadsAs env t v x := by
  induction hx generalizing v with
  | null => exact decodeNew_null_iff
  | boolean b => exact decodeNew_boolean_iff
  | integer i => exact decodeNew_integer_iff
  | uinteger u => exact decodeNew_uinteger_iff
  | decimal d => exact decodeNew_decimal_iff
  | string s => exact decodeNew_string_iff
  | enumeration _ =>
    rw [decodeNew_enumeration_eq_ok, Enumerators.find_eq_some_iff]
    exact ⟨.enumeration, fun h => by cases h; assumption⟩
  | vector _ ih =>
    rw [decodeNew_vector_eq_ok, readsAs_vector]
    refine exists_congr fun vs => and_congr_right ?_
    rintro rfl
    exact forall₂_congr_of_mem fun w hw x hx => ih x hx (Value.wellFormedElements_iff.mp hv w hw)
  | tuple hl _ ih =>
    rw [decodeNew_tuple_eq_ok hl, readsAs_tuple hl]
    refine exists_congr fun vs => and_congr_right ?_
    rintro rfl
    exact forall₂_congr_of_mem fun w hw p hp => ih p hp (Value.wellFormedElements_iff.mp hv w hw)
  | map _ _ ih =>
    rw [decodeNew_map_eq_ok hv, readsAs_map]
    refine exists_congr fun ms => and_congr_right ?_
    rintro rfl
    exact forall₂_congr_of_mem fun m hm e he =>
      and_congr_right fun _ => ih e he (Value.wellFormedMembers_iff.mp hv.2 m hm)
  | oneOfEmpty =>
    refine iff_of_false (fun h => ?_) fun h => by cases h
    obtain ⟨_, _, _, hx, -⟩ := decodeNew_oneOf.mp h
    cases hx
  | lspAnyEmpty =>
    refine iff_of_false (fun h => ?_) fun h => by cases h
    rw [decodeNew_lspAny] at h
    obtain ⟨_, _, _, hx, -⟩ := decodeNew_oneOf.mp h
    cases hx
  | oneOf hk _ ih => rw [decodeNew_oneOf_eq_ok hv hk, readsAs_oneOf hk, ih hv]
  | lspAny hk _ ih =>
    rw [decodeNew_lspAny, decodeNew_oneOf_eq_ok hv hk, readsAs_lspAny, readsAs_oneOf hk, ih hv]
  | reference hs _ ih =>
    rw [decodeNew_reference_eq_ok hs, readsAs_reference]
    refine and_congr_right fun _ => and_congr_right fun _ => and_congr_left fun _ => ?_
    refine forall₃_congr fun m t y => forall_congr' fun hm => exists_congr fun w => ?_
    exact and_congr_right fun hw => ih m t y hm (hv.get hw)

end Lsp

end Langsvr
