import Langsvr.CodecRoundTrip

/-!
# Arbitrary JSON through `LSPAny`

Every JSON value decodes into an `LSPAny` that is written as the same value. Three of the
alternatives are numbers that overlap, so a number may come back in another type; two
values are the same if their numbers have the same mathematical value.
-/

namespace Langsvr

namespace Json.Value

/-- The same JSON value, up to the types in which the numbers are stored. -/
inductive Same : Value → Value → Prop
  | null : Same .nullValue .nullValue
  | boolean (b : Bool) : Same (.booleanValue b) (.booleanValue b)
  | string (s : String) : Same (.stringValue s) (.stringValue s)
  | number {v w : Value} {q : ℚ} (hv : v.number = some q) (hw : w.number = some q) : Same v w
  | array {vs ws : List Value} (hl : vs.length = ws.length)
      (h : ∀ p ∈ vs.zip ws, Same p.1 p.2) : Same (.arrayValue vs) (.arrayValue ws)
  | object {ms ns : List Member} (hk : ms.map Prod.fst = ns.map Prod.fst)
      (h : ∀ p ∈ ms.zip ns, Same p.1.2 p.2.2) : Same (.objectValue ms) (.objectValue ns)

mutual

def FiniteReals : Value → Prop
  | .realValue d => d.Finite
  | .arrayValue elements => FiniteElements elements
  | .objectValue members => FiniteMembers members
  | _ => True

def FiniteElements : List Value → Prop
  | [] => True
  | e :: es => e.FiniteReals ∧ FiniteElements es

def FiniteMembers : List (String × Value) → Prop
  | [] => True
  | (_, m) :: ms => m.FiniteReals ∧ FiniteMembers ms

end

theorem finiteElements_iff {es : List Value} :
    FiniteElements es ↔ ∀ e ∈ es, e.FiniteReals := by
  induction es with
  | nil => simp [FiniteElements]
  | cons e es ih => simp [FiniteElements, ih]

theorem finiteMembers_iff {ms : List (String × Value)} :
    FiniteMembers ms ↔ ∀ m ∈ ms, m.2.FiniteReals := by
  induction ms with
  | nil => simp [FiniteMembers]
  | cons m ms ih =>
    obtain ⟨n, v⟩ := m
    simp [FiniteMembers, ih]

section Numbers

theorem number_ofInt64 {i : ℤ} (h : -2 ^ 63 ≤ i ∧ i < 2 ^ 63) :
    (Value.intValue (Int64.ofInt i)).number = some (i : ℚ) := by
  have hi : (Int64.ofInt i).toInt = i := by
    rw [Int64.toInt_ofInt_of_le] <;> omega
  simp [Value.number, hi]

theorem number_ofUInt64 {i : ℤ} (h : 0 ≤ i ∧ i < 2 ^ 64) :
    (Value.uintValue (UInt64.ofNat i.toNat)).number = some (i : ℚ) := by
  have hlt : i.toNat < UInt64.size := by
    have hsize : UInt64.size = 2 ^ 64 := rfl
    omega
  have hi : ((UInt64.ofNat i.toNat).toNat : ℤ) = i := by
    rw [UInt64.toNat_ofNat_of_lt' hlt]
    omega
  simp only [Value.number, Option.some.injEq]
  exact_mod_cast hi

theorem value_of_realIntegral {d : F64} {i : ℤ} (h : realIntegral d = some i) :
    d.value = some (i : ℚ) := by
  unfold realIntegral at h
  cases hd : d.value with
  | none => simp [hd] at h
  | some q =>
    simp only [hd, Option.bind_some, Option.ite_none_right_eq_some, Option.some.injEq] at h
    obtain ⟨hden, rfl⟩ := h
    rw [Rat.coe_int_num_of_den_eq_one hden]

/-- Reading a number as one of the integer types keeps its value. -/
theorem number_asInt64 {v : Value} (h : v.isInt64) (hv : v.number ≠ none) :
    (Value.intValue v.asInt64).number = v.number := by
  cases v with
  | intValue i => rfl
  | uintValue u =>
    have hu : u.toNat < 2 ^ 63 := by simpa [isInt64] using h
    rw [Value.asInt64, number_ofInt64 (by omega)]
    rfl
  | realValue d =>
    simp only [isInt64, Option.any_eq_true, Bool.and_eq_true, decide_eq_true_eq] at h
    obtain ⟨i, hi, hr⟩ := h
    have hn : (Value.realValue d).number = some (i : ℚ) := value_of_realIntegral hi
    simp only [Value.asInt64, hi, Option.getD_some, number_ofInt64 hr, hn]
  | _ => simp [Value.number] at hv

theorem number_asUInt64 {v : Value} (h : v.isUInt64) (hv : v.number ≠ none) :
    (Value.uintValue v.asUInt64).number = v.number := by
  cases v with
  | intValue i =>
    have hi : 0 ≤ i.toInt := by simpa [isUInt64] using h
    have hlt := i.toInt_lt
    rw [Value.asUInt64, number_ofUInt64 (by omega)]
    rfl
  | uintValue u => rfl
  | realValue d =>
    simp only [isUInt64, Option.any_eq_true, Bool.and_eq_true, decide_eq_true_eq] at h
    obtain ⟨i, hi, hr⟩ := h
    have hn : (Value.realValue d).number = some (i : ℚ) := value_of_realIntegral hi
    simp only [Value.asUInt64, hi, Option.getD_some, number_ofUInt64 hr, hn]
  | _ => simp [Value.number] at hv

theorem number_of_i64 {v : Value} {i : Int64} (h : v.i64 = .ok i) :
    v.number = some (i.toInt : ℚ) := by
  unfold Value.i64 at h
  by_cases hv : v.isInt64
  · rw [if_pos hv] at h
    cases h
    have hn : v.number ≠ none := by
      cases v with
      | realValue d =>
        simp only [isInt64, Option.any_eq_true] at hv
        obtain ⟨i, hi, -⟩ := hv
        rw [Value.number, value_of_realIntegral hi]
        simp
      | intValue i => simp [Value.number]
      | uintValue u => simp [Value.number]
      | _ => cases hv
    exact (number_asInt64 hv hn).symm
  · rw [if_neg hv] at h
    cases h

theorem number_of_u64 {v : Value} {u : UInt64} (h : v.u64 = .ok u) :
    v.number = some (u.toNat : ℚ) := by
  unfold Value.u64 at h
  by_cases hv : v.isUInt64
  · rw [if_pos hv] at h
    cases h
    have hn : v.number ≠ none := by
      cases v with
      | realValue d =>
        simp only [isUInt64, Option.any_eq_true] at hv
        obtain ⟨i, hi, -⟩ := hv
        rw [Value.number, value_of_realIntegral hi]
        simp
      | intValue i => simp [Value.number]
      | uintValue u => simp [Value.number]
      | _ => cases hv
    exact (number_asUInt64 hv hn).symm
  · rw [if_neg hv] at h
    cases h

end Numbers

end Json.Value

namespace Lsp

open Json (Value Member)
open ListRelations

section PassThrough

variable {env : Declarations}

/-- The value decodes into an `LSPAny` that is written as the same value. -/
def PassesThrough (env : Declarations) (v : Value) : Prop :=
  ∃ x w, decodeNew env .lspAny v = .ok x ∧ encode env .lspAny x = .success w ∧ v.Same w

/-- The value passes through the first alternative that accepts it. -/
private theorem PassesThrough.of_alternative {v w : Value} {k : ℕ} {t : LspType} {x : LspValue}
    (hk : lspAnyItems[k]? = some t) (hx : decodeNew env t v = .ok x)
    (hfirst : ∀ u ∈ lspAnyItems.take k, ¬ Accepts env u v) (hw : encode env t x = .success w)
    (hs : v.Same w) : PassesThrough env v := by
  refine ⟨.oneOf k x, w, ?_, (encode_lspAny hk x).trans hw, hs⟩
  rw [decodeNew_lspAny]
  refine decodeNew_oneOf.mpr ⟨k, t, x, rfl, hk, hx, fun i hi u hu => hfirst u ?_⟩
  exact List.mem_of_getElem? ((List.getElem?_take_of_lt hi).trans hu)

/-- A number is held by the first of the numeric alternatives that accepts it. -/
theorem passesThrough_number {v : Value} {q : ℚ} (hv : v.number = some q) :
    PassesThrough env v := by
  have hn : v.number ≠ none := by simp [hv]
  have hsame : ∀ w : Value, w.number = v.number → v.Same w := fun w hw =>
    .number hv (hw.trans hv)
  have hwf : v.WellFormed := by cases v <;> simp_all [Value.number, Value.WellFormed]
  have haccepts : ∀ t, Accepts env t v → Matches env t v := fun t ha =>
    (accepts_iff_matches hwf).mp ha
  have hother : ∀ t ∈ lspAnyItems.take 3, ¬ Accepts env t v := by
    intro t ht ha
    have hm := haccepts t ha
    simp only [lspAnyItems, List.take, List.mem_cons, List.not_mem_nil, or_false] at ht
    rcases ht with rfl | rfl | rfl <;> cases hm <;> simp [Value.number] at hv
  by_cases h64 : v.isInt64
  · have hx : decodeNew env .integer v = .ok (.integer v.asInt64) := by
      rw [decodeNew, decode_eq]
      simp [decodeLayer, decodeInteger, Value.i64, h64, bind, Except.bind, pure, Except.pure]
    exact .of_alternative (k := 3) rfl hx hother (encode_eq ..)
      (hsame _ (Value.number_asInt64 h64 hn))
  have hinteger : ∀ t ∈ lspAnyItems.take 4, ¬ Accepts env t v := by
    intro t ht ha
    have htake : lspAnyItems.take 4 = lspAnyItems.take 3 ++ [.integer] := rfl
    rw [htake, List.mem_append, List.mem_singleton] at ht
    rcases ht with ht | rfl
    · exact hother t ht ha
    · cases haccepts _ ha with
      | integer h => exact h64 h
  by_cases hu64 : v.isUInt64
  · have hx : decodeNew env .uinteger v = .ok (.uinteger v.asUInt64) := by
      rw [decodeNew, decode_eq]
      simp [decodeLayer, decodeUinteger, Value.u64, hu64, bind, Except.bind, pure, Except.pure]
    exact .of_alternative (k := 4) rfl hx hinteger (encode_eq ..)
      (hsame _ (Value.number_asUInt64 hu64 hn))
  have huinteger : ∀ t ∈ lspAnyItems.take 5, ¬ Accepts env t v := by
    intro t ht ha
    have htake : lspAnyItems.take 5 = lspAnyItems.take 4 ++ [.uinteger] := rfl
    rw [htake, List.mem_append, List.mem_singleton] at ht
    rcases ht with ht | rfl
    · exact hinteger t ht ha
    · cases haccepts _ ha with
      | uinteger h => exact hu64 h
  -- only a double is in neither of the integer types
  cases v with
  | realValue d =>
    exact .of_alternative (k := 5) (x := .decimal d) rfl (decode_eq ..) huinteger (encode_eq ..)
      (hsame _ rfl)
  | intValue i => exact absurd rfl h64
  | uintValue u => exact absurd rfl hu64
  | _ => simp [Value.number] at hv

private theorem exists_passed {vs : List Value} (h : ∀ v ∈ vs, PassesThrough env v) :
    ∃ ps : List (LspValue × Value), List.Forall₂ (fun v p => decodeNew env .lspAny v = .ok p.1 ∧
      encode env .lspAny p.1 = .success p.2 ∧ v.Same p.2) vs ps := by
  refine exists_forall₂_iff.mpr fun v hv => ?_
  obtain ⟨x, w, hxw⟩ := h v hv
  exact ⟨(x, w), hxw⟩

theorem passesThrough_array {vs : List Value} (h : ∀ v ∈ vs, PassesThrough env v) :
    PassesThrough env (.arrayValue vs) := by
  obtain ⟨ps, hps⟩ := exists_passed h
  refine .of_alternative (k := 1) (x := .vector (ps.map Prod.fst))
    (w := .arrayValue (ps.map Prod.snd)) rfl (decodeNew_vector.mpr ⟨_, rfl, ?_⟩) ?_
    (encode_vector.mpr ⟨_, rfl, ?_⟩) (.array ?_ ?_)
  · exact List.forall₂_map_right_iff.mpr (hps.imp fun _ _ hp => hp.1)
  · intro t ht ha
    obtain rfl : t = .map .lspAny := by simpa [lspAnyItems] using ht
    obtain ⟨y, hy⟩ := ha
    rw [decodeNew, decode_eq] at hy
    cases hy
  · refine List.forall₂_map_left_iff.mpr (List.forall₂_map_right_iff.mpr ?_)
    refine List.forall₂_same.mpr fun p hp => ?_
    obtain ⟨v, -, hv⟩ := exists_of_mem_right hps hp
    exact hv.2.1
  · simpa using hps.length_eq
  · rintro ⟨v, w⟩ hvw
    rw [List.zip_map_right] at hvw
    obtain ⟨⟨v', p⟩, hp, heq⟩ := List.mem_map.mp hvw
    cases heq
    exact ((List.forall₂_iff_zip.mp hps).2 hp).2.2

theorem passesThrough_object {ms : List Member} (ho : OrderedEntries.Ordered ms)
    (h : ∀ m ∈ ms, PassesThrough env m.2) : PassesThrough env (.objectValue ms) := by
  -- the entry of the map and the written value of each member
  have hmember : ∀ m ∈ ms, ∃ q : (String × LspValue) × Value, q.1.1 = m.1 ∧
      decodeNew env .lspAny m.2 = .ok q.1.2 ∧ encode env .lspAny q.1.2 = .success q.2 ∧
        m.2.Same q.2 := fun m hm => by
    obtain ⟨x, w, hxw⟩ := h m hm
    exact ⟨((m.1, x), w), rfl, hxw⟩
  obtain ⟨qs, hqs⟩ := exists_forall₂_iff.mpr hmember
  have hentries : (qs.map Prod.fst).map Prod.fst = ms.map Prod.fst := by
    rw [List.map_map]
    exact map_eq_map hqs fun _ _ hq => hq.1
  have hordered : OrderedEntries.Ordered (qs.map Prod.fst) := by
    have hp : (ms.map Prod.fst).Pairwise (· < ·) := List.pairwise_map.mpr ho
    rw [← hentries] at hp
    exact List.pairwise_map.mp hp
  refine .of_alternative (k := 0) (x := .map (qs.map Prod.fst))
    (w := .objectValue (qs.map fun q => (q.1.1, q.2))) rfl
    ((decodeNew_map ho).mpr ⟨_, rfl, ?_⟩) (by simp)
    ((encode_map hordered).mpr ⟨_, rfl, ?_, ?_⟩) (.object ?_ ?_)
  · exact List.forall₂_map_right_iff.mpr (hqs.imp fun _ _ hq => ⟨hq.1, hq.2.1⟩)
  · unfold OrderedEntries.Ordered at hordered ⊢
    rw [List.pairwise_map] at hordered ⊢
    exact hordered
  · refine List.forall₂_map_left_iff.mpr (List.forall₂_map_right_iff.mpr ?_)
    refine List.forall₂_same.mpr fun q hq => ⟨rfl, ?_⟩
    obtain ⟨m, -, hm⟩ := exists_of_mem_right hqs hq
    exact hm.2.2.1
  · rw [List.map_map]
    exact (map_eq_map hqs fun _ _ hq => hq.1).symm
  · rintro ⟨m, n⟩ hmn
    rw [List.zip_map_right] at hmn
    obtain ⟨⟨m', q⟩, hq, heq⟩ := List.mem_map.mp hmn
    cases heq
    exact ((List.forall₂_iff_zip.mp hqs).2 hq).2.2.2

private theorem passesThrough {v : Value} (hv : v.WellFormed) (hf : v.FiniteReals) :
    PassesThrough env v := by
  induction hn : v.depth using Nat.strong_induction_on generalizing v with
  | _ n ih =>
    cases v with
    | nullValue => exact ⟨.oneOf 7 .null, .nullValue, decode_eq .., encode_eq .., .null⟩
    | booleanValue b =>
      exact ⟨.oneOf 6 (.boolean b), .booleanValue b, decode_eq .., encode_eq .., .boolean b⟩
    | stringValue s =>
      exact ⟨.oneOf 2 (.string s), .stringValue s, decode_eq .., encode_eq .., .string s⟩
    | intValue i => exact passesThrough_number rfl
    | uintValue u => exact passesThrough_number rfl
    | realValue d =>
      obtain ⟨q, hq⟩ := Json.F64.value_of_finite hf
      exact passesThrough_number (q := q) hq
    | arrayValue vs =>
      have hw := Value.wellFormedElements_iff.mp hv
      have hr := Value.finiteElements_iff.mp hf
      refine passesThrough_array fun w hm => ih w.depth ?_ (hw w hm) (hr w hm) rfl
      exact hn ▸ Nat.lt_succ_of_le (depth_le_depthElements hm)
    | objectValue ms =>
      have hw := Value.wellFormedMembers_iff.mp hv.2
      have hr := Value.finiteMembers_iff.mp hf
      refine passesThrough_object hv.1 fun m hm => ih m.2.depth ?_ (hw m hm) (hr m hm) rfl
      exact hn ▸ Nat.lt_succ_of_le (depth_le_depthMembers (n := m.1) hm)

/-- Any JSON value decodes into an `LSPAny`, which is written as the same value. -/
theorem lspAny_passes_through {v : Value} (hv : v.WellFormed) (hf : v.FiniteReals) :
    ∃ x w, decode env .lspAny v (env.default .lspAny) = .ok x ∧
      encode env .lspAny x = .success w ∧ v.Same w :=
  passesThrough hv hf

/-- The double 42 may come back as an integer. -/
theorem lspAny_passes_through_answer : ∃ x w,
    decode [] .lspAny (.objectValue [("data", .arrayValue [.realValue ⟨0x4045000000000000⟩])])
        (Declarations.default [] .lspAny) = .ok x ∧
      encode [] .lspAny x = .success w ∧
        Value.Same (.objectValue [("data", .arrayValue [.realValue ⟨0x4045000000000000⟩])]) w :=
  lspAny_passes_through
    (by simp [Value.WellFormed, Value.WellFormedMembers, Value.WellFormedElements,
      OrderedEntries.Ordered])
    (by simp only [Value.FiniteReals, Value.FiniteMembers, Value.FiniteElements, and_true,
      Json.F64.Finite]; decide)

end PassThrough

end Lsp

end Langsvr
