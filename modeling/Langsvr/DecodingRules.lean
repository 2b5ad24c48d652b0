import Langsvr.ListRelations
import Langsvr.StructureSlots

/-!
# Decoding into default-constructed outputs

One rule for each overload of `Decode` that takes values apart: it yields a given
value exactly when the parts of the JSON value yield the parts of that value.
-/

namespace Langsvr.Lsp

open Json (Value Member)
open LspValue (Blank BlankList)
open ListRelations

/-- `Decode` into a default-constructed output. -/
def decodeNew (env : Declarations) (t : LspType) (v : Value) : Result LspValue :=
  decode env t v (env.default t)

/-- A type accepts a JSON value. -/
def Accepts (env : Declarations) (t : LspType) (v : Value) : Prop :=
  ∃ x, decodeNew env t v = .ok x

section Loops

variable {dec : Decoder} {fresh : LspValue}

/-- A loop that may fail yields a list exactly when each round yields its entry. -/
theorem mapM_eq_ok {α β : Type} {f : α → Result β} {as : List α} {bs : List β} :
    as.mapM f = .ok bs ↔ List.Forall₂ (fun a b => f a = .ok b) as bs := by
  induction as generalizing bs with
  | nil => cases bs <;> simp [pure, Except.pure]
  | cons a as ih =>
    simp only [List.mapM_cons, Except.bind_eq_ok, ih, pure, Except.pure, Except.ok.injEq]
    constructor
    · intro h
      obtain ⟨b, hb, bs, hbs, rfl⟩ := h
      exact .cons hb hbs
    · intro h
      cases h with
      | cons hb hbs => exact ⟨_, hb, _, hbs, rfl⟩

theorem decodeVector_eq_ok {vs : List Value} {y : LspValue} :
    decodeVector dec fresh (.arrayValue vs) (.vector []) = .ok y ↔
      ∃ xs, y = .vector xs ∧ List.Forall₂ (fun v x => dec v fresh = .ok x) vs xs := by
  simp only [decodeVector, Value.kind, ne_eq, not_true_eq_false, if_false, Except.bind_eq_ok,
    mapM_eq_ok, pure, Except.pure, Except.ok.injEq, Value.count, LspValue.elements,
    List.getD_nil]
  constructor
  · intro h
    obtain ⟨xs, hxs, rfl⟩ := h
    refine ⟨xs, rfl, forall₂_iff_getElem?.mpr ?_⟩
    obtain ⟨hl, h⟩ := forall₂_iff_getElem?.mp hxs
    refine ⟨by simpa using hl, fun i v hi => ?_⟩
    have hlt : i < vs.length := (List.getElem?_eq_some_iff.mp hi).1
    obtain ⟨x, hx, w, hw, hd⟩ := h i i (by simp [hlt])
    simp only [Value.getIndex, hi, Except.ok.injEq] at hw
    exact ⟨x, hx, hw ▸ hd⟩
  · intro h
    obtain ⟨xs, rfl, hxs⟩ := h
    refine ⟨xs, forall₂_iff_getElem?.mpr ?_, rfl⟩
    obtain ⟨hl, h⟩ := forall₂_iff_getElem?.mp hxs
    refine ⟨by simpa using hl, fun i j hi => ?_⟩
    obtain ⟨hlt, rfl⟩ : i < vs.length ∧ i = j := by
      have hr := List.getElem?_eq_some_iff.mp hi
      simpa using hr
    obtain ⟨x, hx, hd⟩ := h i vs[i] (by simp [hlt])
    exact ⟨x, hx, vs[i], by simp [Value.getIndex, hlt], hd⟩

/-- The rounds of the loop over the members that are left, when the members before
them have been decoded. -/
private theorem decodeEntries_eq_ok {ms : List Member} (done : List Member)
    {es : List (String × LspValue)} (hm : OrderedEntries.Ordered (done ++ ms))
    (he : es.map Prod.fst = done.map Prod.fst) {fs : List (String × LspValue)} :
    (OrderedEntries.keys ms).foldlM
        (decodeEntry dec fresh (.objectValue (done ++ ms))) es = .ok fs ↔
      ∃ gs, fs = es ++ gs ∧
        List.Forall₂ (fun m e => e.1 = m.1 ∧ dec m.2 fresh = .ok e.2) ms gs := by
  induction ms generalizing done es with
  | nil => simp [OrderedEntries.keys, pure, Except.pure, eq_comm]
  | cons m ms ih =>
    have hlt : ∀ e ∈ es, e.1 < m.1 := by
      intro e hes
      have hk : e.1 ∈ done.map Prod.fst := he ▸ List.mem_map_of_mem hes
      obtain ⟨d, hd, hde⟩ := List.mem_map.mp hk
      exact hde ▸ (List.pairwise_append.mp hm).2.2 d hd m (List.mem_cons_self ..)
    have hget : (Value.objectValue (done ++ m :: ms)).get m.1 = .ok m.2 := by
      have hl := hm.lookup_of_mem (k := m.1) (a := m.2) (by simp)
      simp only [Value.get, hl]
    have hnone : List.lookup m.1 es = none := by
      refine (OrderedEntries.lookup_eq_none_iff m.1 es).mpr fun hk => ?_
      obtain ⟨e, hes, hem⟩ := List.mem_map.mp hk
      exact absurd (hlt e hes) (by rw [hem]; exact lt_irrefl _)
    have hstep : ∀ x, decodeEntry dec fresh (.objectValue (done ++ m :: ms)) es m.1 = .ok x ↔
        ∃ a, dec m.2 fresh = .ok a ∧ x = es ++ [(m.1, a)] := by
      intro x
      simp only [decodeEntry, hget, hnone, Option.getD_none, bind, Except.bind, pure, Except.pure]
      cases dec m.2 fresh with
      | error f => simp
      | ok a => simp [OrderedEntries.Ordered.assign_of_forall_lt a hlt, eq_comm]
    simp only [OrderedEntries.keys, List.map_cons, List.foldlM_cons, Except.bind_eq_ok, hstep]
    have hsplit : done ++ m :: ms = (done ++ [m]) ++ ms := by simp
    constructor
    · intro h
      obtain ⟨x, ⟨a, ha, rfl⟩, hrest⟩ := h
      rw [hsplit] at hrest hm
      obtain ⟨gs, rfl, hgs⟩ := (ih (done ++ [m]) hm (by simp [he])).mp hrest
      exact ⟨(m.1, a) :: gs, by simp, .cons ⟨rfl, ha⟩ hgs⟩
    · intro h
      obtain ⟨gs, rfl, hgs⟩ := h
      cases hgs with
      | @cons _ g _ gs hg hgs =>
        refine ⟨es ++ [(m.1, g.2)], ⟨g.2, hg.2, rfl⟩, ?_⟩
        rw [hsplit] at hm ⊢
        have hn : g = (m.1, g.2) := by rw [← hg.1]
        exact (ih (done ++ [m]) hm (by simp [he])).mpr ⟨gs, by rw [hn]; simp, hgs⟩

theorem decodeMap_eq_ok {ms : List Member} (hm : OrderedEntries.Ordered ms) {y : LspValue} :
    decodeMap dec fresh (.objectValue ms) (.map []) = .ok y ↔
      ∃ es, y = .map es ∧
        List.Forall₂ (fun m e => e.1 = m.1 ∧ dec m.2 fresh = .ok e.2) ms es := by
  have hloop : ∀ fs, (OrderedEntries.keys ms).foldlM
      (decodeEntry dec fresh (.objectValue ([] ++ ms))) [] = .ok fs ↔ _ := fun fs =>
    decodeEntries_eq_ok [] (by simpa using hm) rfl
  simp only [List.nil_append, exists_eq_left'] at hloop
  simp only [decodeMap, Value.kind, ne_eq, not_true_eq_false, if_false, Value.memberNames, pure,
    Except.pure, LspValue.entries]
  simp only [bind, Except.bind]
  cases hl : (OrderedEntries.keys ms).foldlM (decodeEntry dec fresh (.objectValue ms)) [] with
  | error f =>
    simp only [reduceCtorEq, false_iff, not_exists, not_and]
    rintro es rfl hes
    rw [(hloop es).mpr hes] at hl
    cases hl
  | ok es =>
    simp only [Except.ok.injEq]
    constructor
    · rintro rfl
      exact ⟨es, rfl, (hloop es).mp hl⟩
    · intro h
      obtain ⟨fs, rfl, hfs⟩ := h
      rw [(hloop fs).mpr hfs] at hl
      cases hl
      rfl

theorem decodeTuple_eq_ok {decs : List Decoder} {v : Value} {out y : LspValue} :
    decodeTuple decs v out = .ok y ↔ ∃ vs, v = .arrayValue vs ∧ vs.length = decs.length ∧
      ∃ xs, y = .tuple xs ∧ decodeItems v decs 0 out.elements = (xs, "") := by
  unfold decodeTuple
  cases v with
  | arrayValue vs =>
    have hcount : (Value.arrayValue vs).count = vs.length := rfl
    rw [hcount]
    obtain ⟨xs, reason⟩ := decodeItems (.arrayValue vs) decs 0 out.elements
    by_cases hl : vs.length = decs.length
    · by_cases hr : reason = "" <;> simp [Value.kind, hl, hr, eq_comm]
    · simp [Value.kind, hl]
  | _ => simp [Value.kind]

theorem tryTypes_eq_some {v : Value} {types : List (Decoder × LspValue)} {n : ℕ} {y : LspValue} :
    tryTypes v n types = some y ↔ ∃ k x d, y = .oneOf (n + k) x ∧ types[k]? = some d ∧
      d.1 v d.2 = .ok x ∧ ∀ i < k, ∀ e, types[i]? = some e → ∀ z, e.1 v e.2 ≠ .ok z := by
  induction types generalizing n with
  | nil => simp [tryTypes]
  | cons d types ih =>
    cases hd : d.1 v d.2 with
    | ok x =>
      simp only [tryTypes, hd, Option.some.injEq]
      constructor
      · rintro rfl
        exact ⟨0, x, d, rfl, rfl, hd, by simp⟩
      · intro h
        obtain ⟨k, z, e, rfl, hk, hz, hfirst⟩ := h
        cases k with
        | zero =>
          simp only [List.getElem?_cons_zero, Option.some.injEq] at hk
          subst hk
          rw [hd] at hz
          cases hz
          rfl
        | succ k => exact absurd hd (hfirst 0 (Nat.succ_pos k) d rfl x)
    | error f =>
      simp only [tryTypes, hd, ih]
      constructor
      · intro h
        obtain ⟨k, x, e, rfl, hk, hx, hfirst⟩ := h
        refine ⟨k + 1, x, e, by congr 1; omega, hk, hx, fun i hi e' he' z hz => ?_⟩
        cases i with
        | zero =>
          simp only [List.getElem?_cons_zero, Option.some.injEq] at he'
          subst he'
          rw [hd] at hz
          cases hz
        | succ i => exact hfirst i (by omega) e' he' z hz
      · intro h
        obtain ⟨k, x, e, rfl, hk, hx, hfirst⟩ := h
        cases k with
        | zero =>
          simp only [List.getElem?_cons_zero, Option.some.injEq] at hk
          subst hk
          rw [hd] at hx
          cases hx
        | succ k =>
          exact ⟨k, x, e, by congr 1; omega, hk, hx, fun i hi => hfirst (i + 1) (by omega)⟩

end Loops

section Rules

variable {env : Declarations}

theorem decodeNew_of_blank (t : LspType) (v : Value) (out : LspValue) (h : out.Blank) :
    decodeNew env t v = decodeLayer env (decode env) t v out := by
  rw [decodeNew, decode_blank env t v (blank_default env t) h, decode_eq]

theorem decodeNew_vector {t : LspType} {vs : List Value} {y : LspValue} :
    decodeNew env (.vector t) (.arrayValue vs) = .ok y ↔
      ∃ xs, y = .vector xs ∧ List.Forall₂ (fun v x => decodeNew env t v = .ok x) vs xs := by
  rw [decodeNew_of_blank _ _ (.vector []) rfl]
  exact decodeVector_eq_ok

theorem decodeNew_map {t : LspType} {ms : List Member} (hm : OrderedEntries.Ordered ms)
    {y : LspValue} : decodeNew env (.map t) (.objectValue ms) = .ok y ↔
      ∃ es, y = .map es ∧
        List.Forall₂ (fun m e => e.1 = m.1 ∧ decodeNew env t m.2 = .ok e.2) ms es := by
  rw [decodeNew_of_blank _ _ (.map []) rfl]
  exact decodeMap_eq_ok hm

/-- Each element is decoded into what the output holds at its position. -/
theorem decode_tuple {ts : List LspType} {v : Value} {out y : LspValue} :
    decode env (.tuple ts) v out = .ok y ↔ ∃ (vs : List Value) (xs : List LspValue),
      v = .arrayValue vs ∧ y = .tuple xs ∧ vs.length = ts.length ∧ xs.length = ts.length ∧
        ∀ (i : ℕ) (t : LspType), ts[i]? = some t → ∃ e x, vs[i]? = some e ∧ xs[i]? = some x ∧
          decode env t e (out.elements.getD i .null) = .ok x := by
  have he : ∀ dec ∈ ts.map (decode env), ∀ c o, (dec c o).Explained := by
    intro dec hd
    obtain ⟨t, -, rfl⟩ := List.mem_map.mp hd
    exact decode_explained env t
  have hindex : ∀ vs i e, (Value.arrayValue vs).getIndex i = .ok e ↔ vs[i]? = some e := by
    intro vs i e
    simp [Value.getIndex_eq_ok]
  rw [decode_eq, decodeLayer, decodeTuple_eq_ok]
  simp only [decodeItems_eq_empty he, List.length_map, List.getElem?_map, Option.map_eq_some_iff,
    forall_exists_index, and_imp, forall_apply_eq_imp_iff₂, Nat.zero_add]
  constructor
  · intro h
    obtain ⟨vs, rfl, hl, xs, rfl, hxl, hxs⟩ := h
    simp only [hindex] at hxs
    exact ⟨vs, xs, rfl, rfl, hl, hxl, hxs⟩
  · intro h
    obtain ⟨vs, xs, rfl, rfl, hl, hxl, hxs⟩ := h
    simp only [hindex]
    exact ⟨vs, rfl, hl, xs, rfl, hxl, hxs⟩

theorem decodeNew_tuple {ts : List LspType} {vs : List Value} {y : LspValue} :
    decodeNew env (.tuple ts) (.arrayValue vs) = .ok y ↔
      ∃ xs : List LspValue, y = .tuple xs ∧ vs.length = ts.length ∧ xs.length = ts.length ∧
        ∀ (i : ℕ) (t : LspType), ts[i]? = some t → ∃ v x, vs[i]? = some v ∧ xs[i]? = some x ∧
          decodeNew env t v = .ok x := by
  have hnew : ∀ t v, decode env t v .null = decodeNew env t v := fun t v =>
    decode_blank env t v trivial (blank_default env t)
  have hblank : (LspValue.tuple []).Blank := trivial
  rw [decodeNew, decode_blank env _ _ (blank_default env _) hblank, decode_tuple]
  simp only [LspValue.elements, List.getD_nil, hnew]
  constructor
  · intro h
    obtain ⟨ws, xs, hws, hrest⟩ := h
    cases hws
    exact ⟨xs, hrest⟩
  · intro h
    obtain ⟨xs, hrest⟩ := h
    exact ⟨vs, xs, rfl, hrest⟩

theorem decodeNew_oneOf {ts : List LspType} {v : Value} {y : LspValue} :
    decodeNew env (.oneOf ts) v = .ok y ↔ ∃ (k : ℕ) (t : LspType) (x : LspValue),
      y = .oneOf k x ∧ ts[k]? = some t ∧ decodeNew env t v = .ok x ∧
        ∀ i < k, ∀ u, ts[i]? = some u → ¬ Accepts env u v := by
  have htry := @tryTypes_eq_some v (ts.map fun t => (decode env t, env.default t)) 0 y
  have hdecode : decodeNew env (.oneOf ts) v = .ok y ↔
      tryTypes v 0 (ts.map fun t => (decode env t, env.default t)) = some y := by
    rw [decodeNew, decode_oneOf, decodeOneOf]
    cases tryTypes v 0 (ts.map fun t => (decode env t, env.default t)) <;> simp
  rw [hdecode, htry]
  simp only [Nat.zero_add, List.getElem?_map, Option.map_eq_some_iff]
  constructor
  · intro h
    obtain ⟨k, x, d, rfl, ⟨t, ht, rfl⟩, hx, hfirst⟩ := h
    refine ⟨k, t, x, rfl, ht, hx, ?_⟩
    rintro i hi u hu ⟨z, hz⟩
    exact hfirst i hi _ ⟨u, hu, rfl⟩ z hz
  · intro h
    obtain ⟨k, t, x, rfl, ht, hx, hfirst⟩ := h
    refine ⟨k, x, _, rfl, ⟨t, ht, rfl⟩, hx, ?_⟩
    rintro i hi _ ⟨u, hu, rfl⟩ z hz
    exact hfirst i hi u hu ⟨z, hz⟩

theorem decodeNew_lspAny (v : Value) : decodeNew env .lspAny v = decodeNew env (.oneOf lspAnyItems) v := by
  rw [decodeNew, decode_lspAny]
  exact decode_blank env _ v (blank_default env _) (blank_default env _)

theorem decodeNew_reference {n : String} {v : Value} {x : LspValue} (hs : (env.find n).Shaped x) :
    decodeNew env (.reference n) v = .ok x ↔ v.kind = .object ∧
      ReadsBack (decode env) env.default v ((env.find n).slots x) ((env.find n).absentNames x) := by
  rw [decodeNew, decode_eq]
  refine decodeStructure_eq_ok (fun t c o o' _ hb hb' => ?_) (blank_default env) _ hs
    (blank_default env _)
  exact decode_blank env t c hb hb'

end Rules

end Langsvr.Lsp
