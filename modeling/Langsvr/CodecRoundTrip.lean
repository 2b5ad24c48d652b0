import Langsvr.EncodingRules
import Langsvr.SchemaReadings

/-!
# Round trips of the codec

`Encode` followed by `Decode` into a default-constructed output. A value comes back
exactly when it is faithful: no enumerator repeats an earlier value, no earlier
alternative of a `OneOf` matches what is written for a later one, and no member of an
object is replaced by a later member from which it cannot be read.
-/

namespace Langsvr.Lsp

open Json (Value Member)
open ListRelations

/-- No earlier enumerator has the value of the enumerator at position `i`. -/
def Enumerators.First : Enumerators → ℕ → Prop
  | .string vs, i => ∀ j < i, vs[j]? ≠ vs[i]?
  | .integer vs, i => ∀ j < i, vs[j]? ≠ vs[i]?
  | .uinteger vs, i => ∀ j < i, vs[j]? ≠ vs[i]?

/-- An alternative before position `k` matches what is written for `x`. -/
def Shadowed (env : Declarations) (ts : List LspType) (k : ℕ) (t : LspType) (x : LspValue) : Prop :=
  ∃ i < k, ∃ u v, ts[i]? = some u ∧ encode env t x = .success v ∧ Matches env u v

/-- What a JSON value is for a slot. -/
def Slot.Reads (env : Declarations) (w : Value) : Slot → Prop
  | .kind k => w = .stringValue k
  | .value t x => ReadsAs env t w x

/-- The JSON value that was written for a slot is what another slot holds. -/
def Slot.ReadsFrom (env : Declarations) (s l : Slot) : Prop :=
  ∃ w, encodeSlot (encode env) l = .success w ∧ s.Reads env w

/-- `Faithful env t x`: nothing is lost when `x` is written and read as a `t`. -/
inductive Faithful (env : Declarations) : LspType → LspValue → Prop
  | null : Faithful env .null .null
  | boolean (b : Bool) : Faithful env .boolean (.boolean b)
  | integer (i : Int64) : Faithful env .integer (.integer i)
  | uinteger (u : UInt64) : Faithful env .uinteger (.uinteger u)
  | decimal (d : Json.F64) : Faithful env .decimal (.decimal d)
  | string (s : String) : Faithful env .string (.string s)
  | enumeration {e : Enumeration} {i : ℕ} (hi : e.values.First i) :
      Faithful env (.enumeration e) (.enumeration i)
  | vector {t : LspType} {xs : List LspValue} (hx : ∀ x ∈ xs, Faithful env t x) :
      Faithful env (.vector t) (.vector xs)
  | tuple {ts : List LspType} {xs : List LspValue}
      (hx : ∀ p ∈ ts.zip xs, Faithful env p.1 p.2) : Faithful env (.tuple ts) (.tuple xs)
  | map {t : LspType} {es : List (String × LspValue)} (hx : ∀ e ∈ es, Faithful env t e.2) :
      Faithful env (.map t) (.map es)
  | oneOf {ts : List LspType} {k : ℕ} {t : LspType} {x : LspValue} (hk : ts[k]? = some t)
      (hs : ¬ Shadowed env ts k t x) (hx : Faithful env t x) :
      Faithful env (.oneOf ts) (.oneOf k x)
  | reference {n : String} {x : LspValue}
      (hlast : ∀ m t y, OrderedEntries.lastWrite m ((env.find n).slots x) = some (.value t y) →
        Faithful env t y)
      (hover : ∀ m s l, (m, s) ∈ (env.find n).slots x →
        OrderedEntries.lastWrite m ((env.find n).slots x) = some l → s ≠ l → s.ReadsFrom env l)
      (habsent : ∀ m ∈ (env.find n).absentNames x, m ∉ OrderedEntries.keys ((env.find n).slots x)) :
      Faithful env (.reference n) x
  | lspAny {k : ℕ} {t : LspType} {x : LspValue} (hk : lspAnyItems[k]? = some t)
      (hs : ¬ Shadowed env lspAnyItems k t x) (hx : Faithful env t x) :
      Faithful env .lspAny (.oneOf k x)

section Scalars

variable {env : Declarations}

theorem createLiteral_u64 (u : UInt64) : (createLiteral u).u64 = .ok u := by
  unfold createLiteral
  split
  · next h =>
    have hi : (Int64.ofInt u.toNat).toInt = u.toNat := by
      rw [Int64.toInt_ofInt_of_le] <;> omega
    simp [Value.u64, Value.isUInt64, Value.asUInt64, hi]
  · simp [Value.u64, Value.isUInt64, Value.asUInt64]

theorem firstAt_iff {α : Type} {vs : List α} {a : α} {i : ℕ} (h : vs[i]? = some a) :
    FirstAt vs a i ↔ ∀ j < i, vs[j]? ≠ vs[i]? := by
  rw [FirstAt, h]
  exact and_iff_right rfl

theorem picks_literal {vs : Enumerators} {i : ℕ} {v : Value} (h : vs.literals[i]? = some v) :
    vs.Picks v i ↔ vs.First i := by
  cases vs with
  | string vs =>
    obtain ⟨s, hs, rfl⟩ : ∃ s, vs[i]? = some s ∧ Value.stringValue s = v := by
      simpa [Enumerators.literals] using h
    simp [Enumerators.Picks, Enumerators.First, firstAt_iff hs]
  | integer vs =>
    obtain ⟨s, hs, rfl⟩ : ∃ s, vs[i]? = some s ∧ Value.intValue s = v := by
      simpa [Enumerators.literals] using h
    exact (and_iff_right rfl).trans (firstAt_iff hs)
  | uinteger vs =>
    obtain ⟨s, hs, rfl⟩ : ∃ s, vs[i]? = some s ∧ createLiteral s = v := by
      simpa [Enumerators.literals] using h
    obtain ⟨h64, ha⟩ := Value.u64_eq_ok.mp (createLiteral_u64 s)
    simp only [Enumerators.Picks, Enumerators.First, h64, ha, firstAt_iff hs, true_and]

theorem decodeNew_enumeration {e : Enumeration} {i : ℕ} {v : Value}
    (h : e.values.literals[i]? = some v) :
    decodeNew env (.enumeration e) v = .ok (.enumeration i) ↔ e.values.First i := by
  rw [decodeNew_enumeration_eq_ok, Enumerators.find_eq_some_iff, picks_literal h]

end Scalars

section Encodings

variable {env : Declarations}

/-- A written object holds, under each name, what the last slot of that name writes. -/
private theorem lookup_object {ss : List (String × Slot)} {ws : List Member}
    (h : Written (encode env) ss ws) (n : String) :
    Option.Rel (fun s w => encodeSlot (encode env) s = .success w)
      (OrderedEntries.lastWrite n ss)
      (List.lookup n (OrderedEntries.assignAll [] ws)) := by
  have hr := OrderedEntries.lastWrite_forall₂
    (R := fun s w => encodeSlot (encode env) s = .success w) h n
  rw [OrderedEntries.lookup_assignAll]
  simpa using hr

theorem get_object {n : String} {ss : List (String × Slot)} {ws : List Member}
    (h : Written (encode env) ss ws) {w : Value} :
    (Json.Builder.object ws).get n = .ok w ↔
      ∃ l, OrderedEntries.lastWrite n ss = some l ∧ encodeSlot (encode env) l = .success w := by
  have hr := lookup_object h n
  simp only [Json.Builder.object, Value.get]
  revert hr
  cases OrderedEntries.lastWrite n ss <;>
    cases List.lookup n (OrderedEntries.assignAll [] ws) <;> intro hr
  · simp
  · cases hr
  · cases hr
  · cases hr with
    | some hw => simp [hw]

theorem exists_slot_of_mem {ss : List (String × Slot)} {ws : List Member}
    (h : Written (encode env) ss ws) {m : Member} (hm : m ∈ OrderedEntries.assignAll [] ws) :
    ∃ l, (m.1, l) ∈ ss ∧ encodeSlot (encode env) l = .success m.2 := by
  have hl := (OrderedEntries.Ordered.nil.assignAll ws).lookup_of_mem (k := m.1) (a := m.2) hm
  have hget : (Json.Builder.object ws).get m.1 = .ok m.2 := by
    simp only [Json.Builder.object, Value.get, hl]
  obtain ⟨l, hlast, hw⟩ := (get_object h).mp hget
  exact ⟨l, OrderedEntries.mem_of_lastWrite hlast, hw⟩

theorem getString_object {n k : String} {ss : List (String × Slot)} {ws : List Member}
    (h : Written (encode env) ss ws) :
    (Json.Builder.object ws).getString n = .ok k ↔ ∃ l, OrderedEntries.lastWrite n ss = some l ∧
      encodeSlot (encode env) l = .success (.stringValue k) := by
  rw [Value.getString_eq_ok, get_object h]

theorem has_object {n : String} {ss : List (String × Slot)} {ws : List Member}
    (h : Written (encode env) ss ws) :
    (Json.Builder.object ws).has n = false ↔ n ∉ OrderedEntries.keys ss := by
  have hr := lookup_object h n
  rw [← OrderedEntries.lastWrite_eq_none_iff]
  simp only [Json.Builder.object, Value.has]
  revert hr
  cases OrderedEntries.lastWrite n ss <;>
    cases List.lookup n (OrderedEntries.assignAll [] ws) <;> intro hr
  · simp
  · cases hr
  · cases hr
  · simp

theorem encode_wellFormed {t : LspType} {x : LspValue} (h : HasType env t x) {v : Value}
    (hv : encode env t x = .success v) : v.WellFormed := by
  induction h generalizing v with
  | enumeration =>
    have hm := List.mem_of_getElem? (encode_enumeration.mp hv)
    obtain ⟨s, rfl⟩ | ⟨i, rfl⟩ | ⟨u, rfl⟩ := Enumerators.literals_cases hm
    · trivial
    · trivial
    · trivial
  | vector _ ih =>
    obtain ⟨vs, rfl, hvs⟩ := encode_vector.mp hv
    refine Value.wellFormedElements_iff.mpr fun w hw => ?_
    obtain ⟨x, hx, hxw⟩ := exists_of_mem_right hvs hw
    exact ih x hx hxw
  | tuple hl hx ih =>
    obtain ⟨vs, rfl, hvs⟩ := encode_tuple.mp hv
    refine Value.wellFormedElements_iff.mpr fun w hw => ?_
    obtain ⟨p, hp, hpw⟩ := exists_of_mem_right hvs hw
    exact ih p hp hpw
  | map ho hx ih =>
    obtain ⟨ms, rfl, hordered, hms⟩ := (encode_map ho).mp hv
    refine ⟨hordered, Value.wellFormedMembers_iff.mpr fun m hm => ?_⟩
    obtain ⟨e, he, hem⟩ := exists_of_mem_right hms hm
    exact ih e he hem.2
  | oneOfEmpty | lspAnyEmpty =>
    rw [encode_eq] at hv
    cases hv
  | oneOf hk _ ih =>
    rw [encode_oneOf hk] at hv
    exact ih hv
  | lspAny hk _ ih =>
    rw [encode_lspAny hk] at hv
    exact ih hv
  | reference hs hx ih =>
    obtain ⟨ws, hws, rfl⟩ := (encode_reference hs).mp hv
    refine ⟨OrderedEntries.Ordered.nil.assignAll ws, Value.wellFormedMembers_iff.mpr fun m hm => ?_⟩
    obtain ⟨l, hl, hw⟩ := exists_slot_of_mem hws hm
    cases l with
    | kind k =>
      simp only [encodeSlot, Outcome.success.injEq] at hw
      exact hw ▸ trivial
    | value t y => exact ih m.1 t y hl hw
  | _ =>
    rw [encode_eq] at hv
    cases hv
    trivial

end Encodings

section RoundTrip

variable {env : Declarations}

theorem kind_of_mem_slots (s : Structure) {x : LspValue} {n k : String}
    (h : (n, Slot.kind k) ∈ s.slots x) : n = "kind" := by
  replace h := contributes_of_mem s h
  generalize hslot : Slot.kind k = slot at h
  induction h with
  | kind => rfl
  | member => cases hslot
  | base _ _ _ ih => exact ih hslot

/-- A slot reads from the member that the last slot of its name has written. -/
private theorem slotReads_object {ss : List (String × Slot)} {ws : List Member}
    (h : Written (encode env) ss ws) (hwf : (Json.Builder.object ws).WellFormed) {n : String}
    {s : Slot} (hn : ∀ k, s = .kind k → n = "kind") (ht : ∀ t y, s = .value t y → HasType env t y) :
    SlotReads (decode env) env.default (Json.Builder.object ws) n s ↔
      ∃ l, OrderedEntries.lastWrite n ss = some l ∧ s.ReadsFrom env l := by
  cases s with
  | kind k =>
    obtain rfl := hn k rfl
    simp only [SlotReads, getString_object h, Slot.ReadsFrom, Slot.Reads, exists_eq_right]
  | value t y =>
    simp only [SlotReads, Except.bind_eq_ok, Slot.ReadsFrom, Slot.Reads]
    constructor
    · intro hread
      obtain ⟨w, hget, hy⟩ := hread
      obtain ⟨l, hl, hw⟩ := (get_object h).mp hget
      exact ⟨l, hl, w, hw, (decodeNew_iff_readsAs (ht t y rfl) (hwf.get hget)).mp hy⟩
    · intro hread
      obtain ⟨l, hl, w, hw, hy⟩ := hread
      have hget := (get_object h).mpr ⟨l, hl, hw⟩
      exact ⟨w, hget, (decodeNew_iff_readsAs (ht t y rfl) (hwf.get hget)).mpr hy⟩

variable {ts : List LspType} {t : LspType} {k : ℕ} {x : LspValue} {xs : List LspValue} {v : Value}

private theorem vector_iff {vs : List Value} (hx : ∀ x ∈ xs, HasType env t x)
    (hvs : List.Forall₂ (fun x v => encode env t x = .success v) xs vs)
    (ih : ∀ x ∈ xs, ∀ v, encode env t x = .success v → v.WellFormed →
      (decodeNew env t v = .ok x ↔ Faithful env t x)) :
    decodeNew env (.vector t) (.arrayValue vs) = .ok (.vector xs) ↔
      Faithful env (.vector t) (.vector xs) := by
  have hall : List.Forall₂ (fun v x => decodeNew env t v = .ok x) vs xs ↔
      ∀ x ∈ xs, Faithful env t x :=
    forall₂_flip_iff hvs fun x hm w hw => ih x hm w hw (encode_wellFormed (hx x hm) hw)
  simp only [decodeNew_vector_eq_ok, Value.arrayValue.injEq, exists_eq_left', hall]
  exact ⟨.vector, fun h => by cases h; assumption⟩

private theorem tuple_iff {vs : List Value} (hl : ts.length = xs.length)
    (hx : ∀ p ∈ ts.zip xs, HasType env p.1 p.2)
    (hvs : List.Forall₂ (fun p v => encode env p.1 p.2 = .success v) (ts.zip xs) vs)
    (ih : ∀ p ∈ ts.zip xs, ∀ v, encode env p.1 p.2 = .success v → v.WellFormed →
      (decodeNew env p.1 v = .ok p.2 ↔ Faithful env p.1 p.2)) :
    decodeNew env (.tuple ts) (.arrayValue vs) = .ok (.tuple xs) ↔
      Faithful env (.tuple ts) (.tuple xs) := by
  have hall : List.Forall₂ (fun v (p : LspType × LspValue) => decodeNew env p.1 v = .ok p.2) vs
      (ts.zip xs) ↔ ∀ p ∈ ts.zip xs, Faithful env p.1 p.2 :=
    forall₂_flip_iff hvs fun p hm w hw => ih p hm w hw (encode_wellFormed (hx p hm) hw)
  simp only [decodeNew_tuple_eq_ok hl, Value.arrayValue.injEq, exists_eq_left', hall]
  exact ⟨.tuple, fun h => by cases h; assumption⟩

private theorem map_iff {es : List (String × LspValue)} {ms : List Member}
    (hv : (Value.objectValue ms).WellFormed) (hx : ∀ e ∈ es, HasType env t e.2)
    (hms : List.Forall₂ (fun e m => m.1 = e.1 ∧ encode env t e.2 = .success m.2) es ms)
    (ih : ∀ e ∈ es, ∀ v, encode env t e.2 = .success v → v.WellFormed →
      (decodeNew env t v = .ok e.2 ↔ Faithful env t e.2)) :
    decodeNew env (.map t) (.objectValue ms) = .ok (.map es) ↔
      Faithful env (.map t) (.map es) := by
  have hall : List.Forall₂ (fun m e => e.1 = m.1 ∧ decodeNew env t m.2 = .ok e.2) ms es ↔
      ∀ e ∈ es, Faithful env t e.2 :=
    forall₂_flip_iff hms fun e hm m hw =>
      (and_iff_right hw.1.symm).trans (ih e hm m.2 hw.2 (encode_wellFormed (hx e hm) hw.2))
  simp only [decodeNew_map_eq_ok hv, Value.objectValue.injEq, exists_eq_left', hall]
  exact ⟨.map, fun h => by cases h; assumption⟩

/-- A `OneOf` comes back when its value does and no earlier alternative matches. -/
private theorem decodeNew_oneOf_iff (hk : ts[k]? = some t) (hv : encode env t x = .success v)
    (hw : v.WellFormed) : decodeNew env (.oneOf ts) v = .ok (.oneOf k x) ↔
      ¬ Shadowed env ts k t x ∧ decodeNew env t v = .ok x := by
  rw [decodeNew_oneOf_eq_ok hw hk, and_comm]
  refine and_congr_left fun _ => ?_
  constructor
  · intro hfirst h
    obtain ⟨i, hi, u, w, hu, hw', hm⟩ := h
    rw [hv, Outcome.success.injEq] at hw'
    subst hw'
    exact hfirst i hi u hu hm
  · intro hs i hi u hu hm
    exact hs ⟨i, hi, u, v, hu, hv, hm⟩

private theorem oneOf_iff (hk : ts[k]? = some t) (hv : encode env t x = .success v)
    (hw : v.WellFormed) (ih : decodeNew env t v = .ok x ↔ Faithful env t x) :
    decodeNew env (.oneOf ts) v = .ok (.oneOf k x) ↔ Faithful env (.oneOf ts) (.oneOf k x) := by
  rw [decodeNew_oneOf_iff hk hv hw, ih]
  constructor
  · intro h
    exact .oneOf hk h.1 h.2
  · intro h
    cases h with
    | oneOf hk' hs hf =>
      cases hk.symm.trans hk'
      exact ⟨hs, hf⟩

private theorem lspAny_iff (hk : lspAnyItems[k]? = some t) (hv : encode env t x = .success v)
    (hw : v.WellFormed) (ih : decodeNew env t v = .ok x ↔ Faithful env t x) :
    decodeNew env .lspAny v = .ok (.oneOf k x) ↔ Faithful env .lspAny (.oneOf k x) := by
  rw [decodeNew_lspAny, decodeNew_oneOf_iff hk hv hw, ih]
  constructor
  · intro h
    exact .lspAny hk h.1 h.2
  · intro h
    cases h with
    | lspAny hk' hs hf =>
      cases hk.symm.trans hk'
      exact ⟨hs, hf⟩

/-- The object that has been written for a structure is read back exactly when the structure
is faithful, if this is so for the values in its slots. -/
private theorem reference_iff {n : String} (hs : (env.find n).Shaped x)
    (hx : ∀ m t y, (m, Slot.value t y) ∈ (env.find n).slots x → HasType env t y)
    {ws : List Member} (hws : Written (encode env) ((env.find n).slots x) ws)
    (hwf : (Json.Builder.object ws).WellFormed)
    (ih : ∀ m t y, (m, Slot.value t y) ∈ (env.find n).slots x → ∀ v,
      encode env t y = .success v → v.WellFormed →
      (decodeNew env t v = .ok y ↔ Faithful env t y)) :
    decodeNew env (.reference n) (Json.Builder.object ws) = .ok x ↔
      Faithful env (.reference n) x := by
  have hkind : (Json.Builder.object ws).kind = .object := rfl
  have hreads : ∀ m s, (m, s) ∈ (env.find n).slots x →
      (SlotReads (decode env) env.default (Json.Builder.object ws) m s ↔
        ∃ l, OrderedEntries.lastWrite m ((env.find n).slots x) = some l ∧ s.ReadsFrom env l) :=
    fun m s hm => slotReads_object hws hwf (fun k hk => kind_of_mem_slots _ (hk ▸ hm))
      fun t y hty => hx m t y (hty ▸ hm)
  -- the last slot of a name is read from what it has written itself
  have hself : ∀ m s, (m, s) ∈ (env.find n).slots x → (s.ReadsFrom env s ↔
      ∀ t y, s = .value t y → Faithful env t y) := by
    intro m s hm
    obtain ⟨w, -, -, hw⟩ := exists_of_mem_left hws hm
    cases s with
    | kind k =>
      refine iff_of_true ⟨.stringValue k, rfl, rfl⟩ ?_
      intro t y h
      cases h
    | value t y =>
      have hwt := encode_wellFormed (hx m t y hm) hw
      have hy : ReadsAs env t w.2 y ↔ Faithful env t y :=
        (decodeNew_iff_readsAs (hx m t y hm) hwt).symm.trans (ih m t y hm w.2 hw hwt)
      constructor
      · intro h
        obtain ⟨w', hw', hd⟩ := h
        cases hw.symm.trans hw'
        intro t' y' heq
        cases heq
        exact hy.mp hd
      · intro h
        exact ⟨w.2, hw, hy.mpr (h t y rfl)⟩
  rw [decodeNew_reference hs, hkind, ReadsBack]
  simp only [true_and, has_object hws]
  constructor
  · intro h
    obtain ⟨hslots, habsent⟩ := h
    refine .reference (fun m t y hl => ?_) (fun m s l hm hl _ => ?_) habsent
    · have hm := OrderedEntries.mem_of_lastWrite hl
      obtain ⟨l, hl', hr⟩ := (hreads m _ hm).mp (hslots m _ hm)
      rw [hl, Option.some.injEq] at hl'
      subst hl'
      exact (hself m _ hm).mp hr t y rfl
    · obtain ⟨l', hl', hr⟩ := (hreads m s hm).mp (hslots m s hm)
      rw [hl, Option.some.injEq] at hl'
      exact hl' ▸ hr
  · intro h
    cases h with
    | reference hlast hover habsent =>
      refine ⟨fun m s hm => (hreads m s hm).mpr ?_, habsent⟩
      obtain ⟨l, hl⟩ := OrderedEntries.exists_lastWrite hm
      refine ⟨l, hl, ?_⟩
      by_cases hsl : s = l
      · subst hsl
        refine (hself m s hm).mpr fun t y hty => hlast m t y ?_
        rw [hl, hty]
      · exact hover m s l hm hl hsl

/-- What is written for a value of the type decodes to that value exactly when the value
is faithful. -/
theorem decode_encode_iff (h : HasType env t x) (hv : encode env t x = .success v) :
    decodeNew env t v = .ok x ↔ Faithful env t x := by
  have hwf := encode_wellFormed h hv
  induction h generalizing v with
  | null | boolean | integer | uinteger | decimal | string =>
    rw [encode_eq] at hv
    cases hv
    refine iff_of_true (decode_eq ..) ?_
    constructor
  | enumeration =>
    rw [decodeNew_enumeration (encode_enumeration.mp hv)]
    exact ⟨.enumeration, fun h => by cases h; assumption⟩
  | vector hx ih =>
    obtain ⟨vs, rfl, hvs⟩ := encode_vector.mp hv
    exact vector_iff hx hvs fun x hm v hv hw => ih x hm hv hw
  | tuple hl hx ih =>
    obtain ⟨vs, rfl, hvs⟩ := encode_tuple.mp hv
    exact tuple_iff hl hx hvs fun p hm v hv hw => ih p hm hv hw
  | map ho hx ih =>
    obtain ⟨ms, rfl, -, hms⟩ := (encode_map ho).mp hv
    exact map_iff hwf hx hms fun e hm v hv hw => ih e hm hv hw
  | oneOfEmpty | lspAnyEmpty =>
    rw [encode_eq] at hv
    cases hv
  | oneOf hk _ ih =>
    rw [encode_oneOf hk] at hv
    exact oneOf_iff hk hv hwf (ih hv hwf)
  | lspAny hk _ ih =>
    rw [encode_lspAny hk] at hv
    exact lspAny_iff hk hv hwf (ih hv hwf)
  | reference hs hx ih =>
    obtain ⟨ws, hws, rfl⟩ := (encode_reference hs).mp hv
    exact reference_iff hs hx hws hwf fun m t y hm v hv hw => ih m t y hm hv hw

end RoundTrip

end Langsvr.Lsp
