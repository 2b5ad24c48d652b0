import Langsvr.ListRelations
import Langsvr.StructureSlots

/-!
# Encoding typed values

One rule for each overload of `Encode` that takes values apart. The encoding of a
value of the encoded type never fails: it succeeds, or it visits a `OneOf` that holds
no value.
-/

namespace Langsvr

/-- A failure has a reason. -/
def Outcome.Explained {α : Type} (r : Outcome α) : Prop := ∀ f, r = .failure f → f.reason ≠ ""

namespace Outcome.Explained

variable {α β : Type}

theorem success (a : α) : Outcome.Explained (.success a) := by
  intro f h
  cases h

theorem unset : Outcome.Explained (α := α) .unset := by
  intro f h
  cases h

theorem andThen {r : Outcome α} {f : α → Outcome β} (hr : r.Explained)
    (hf : ∀ a, r = .success a → (f a).Explained) : (r.andThen f).Explained := by
  intro e h
  rcases Outcome.andThen_eq_failure.mp h with h | ⟨a, ha, h⟩
  · exact hr e h
  · exact hf a ha e h

end Outcome.Explained

namespace Lsp

open Json (Value Member)
open ListRelations

section Loops

variable {enc : Encoder}

theorem encodeElements_eq_success {xs : List LspValue} {vs : List Value} :
    encodeElements enc xs = .success vs ↔
      List.Forall₂ (fun x v => enc x = .success v) xs vs := by
  induction xs generalizing vs with
  | nil => cases vs <;> simp [encodeElements]
  | cons x xs ih =>
    simp only [encodeElements, Outcome.andThen_eq_success, ih, Outcome.success.injEq]
    constructor
    · intro h
      obtain ⟨v, hv, vs, hvs, rfl⟩ := h
      exact .cons hv hvs
    · intro h
      cases h with
      | cons hv hvs => exact ⟨_, hv, _, hvs, rfl⟩

theorem encodeEntries_eq_success {es : List (String × LspValue)} {ms : List Member} :
    encodeEntries enc es = .success ms ↔
      List.Forall₂ (fun e m => m.1 = e.1 ∧ enc e.2 = .success m.2) es ms := by
  induction es generalizing ms with
  | nil => cases ms <;> simp [encodeEntries]
  | cons e es ih =>
    obtain ⟨n, x⟩ := e
    simp only [encodeEntries, Outcome.andThen_eq_success, ih, Outcome.success.injEq]
    constructor
    · intro h
      obtain ⟨v, hv, ms, hms, rfl⟩ := h
      exact .cons ⟨rfl, hv⟩ hms
    · intro h
      cases h with
      | @cons _ m _ ms hm hms =>
        have hn : m.1 = n := hm.1
        exact ⟨m.2, hm.2, ms, hms, by rw [← hn]⟩

/-- The reason that the loop of the tuple codec reports is that of a failed item. -/
theorem encodeItems_reason {encs : List Encoder} {xs : List LspValue} {r : List Value × String}
    (h : encodeItems encs xs = .success r) :
    r.2 = "" ∨ ∃ p ∈ encs.zip xs, ∃ f, p.1 p.2 = .failure f ∧ f.reason = r.2 := by
  induction encs generalizing xs r with
  | nil =>
    simp only [encodeItems, Outcome.success.injEq] at h
    exact .inl (h ▸ rfl)
  | cons enc encs ih =>
    cases xs with
    | nil =>
      simp only [encodeItems, Outcome.success.injEq] at h
      exact .inl (h ▸ rfl)
    | cons x xs =>
      rw [List.zip_cons_cons]
      cases hx : enc x with
      | success v =>
        simp only [encodeItems, hx, Outcome.andThen_eq_success, Outcome.success.injEq] at h
        obtain ⟨r', hr', rfl⟩ := h
        rcases ih hr' with hr | ⟨p, hp, f, hf, hr⟩
        · exact .inl hr
        · exact .inr ⟨p, List.mem_cons_of_mem _ hp, f, hf, hr⟩
      | failure f =>
        simp only [encodeItems, hx, Outcome.success.injEq] at h
        exact .inr ⟨(enc, x), List.mem_cons_self .., f, hx, h ▸ rfl⟩
      | unset | asserted =>
        simp only [encodeItems, hx, reduceCtorEq] at h

/-- The loop of the tuple codec: without an error text, every item was encoded. -/
theorem encodeItems_eq_empty {encs : List Encoder} {xs : List LspValue}
    (he : ∀ p ∈ encs.zip xs, (p.1 p.2).Explained) {vs : List Value} :
    encodeItems encs xs = .success (vs, "") ↔
      List.Forall₂ (fun (p : Encoder × LspValue) v => p.1 p.2 = .success v) (encs.zip xs) vs := by
  induction encs generalizing xs vs with
  | nil => cases vs <;> simp [encodeItems]
  | cons enc encs ih =>
    cases xs with
    | nil => cases vs <;> simp [encodeItems]
    | cons x xs =>
      rw [List.zip_cons_cons] at he ⊢
      have htail := fun vs => @ih xs (fun p hp => he p (List.mem_cons_of_mem _ hp)) vs
      cases hx : enc x with
      | success v =>
        simp only [encodeItems, hx, Outcome.andThen_eq_success, Outcome.success.injEq,
          Prod.mk.injEq]
        constructor
        · intro h
          obtain ⟨⟨ws, reason⟩, hws, rfl, rfl⟩ := h
          exact .cons hx ((htail ws).mp hws)
        · intro h
          cases h with
          | @cons _ w _ ws hw hws =>
            simp only [hx, Outcome.success.injEq] at hw
            exact ⟨(ws, ""), (htail ws).mpr hws, by rw [hw], rfl⟩
      | failure f =>
        have hf := he (enc, x) (List.mem_cons_self ..) f hx
        simp only [encodeItems, hx, Outcome.success.injEq, Prod.mk.injEq, hf, and_false, false_iff]
        intro h
        cases h with
        | cons hv _ => simp [hx] at hv
      | unset | asserted =>
        simp only [encodeItems, hx, reduceCtorEq, false_iff]
        intro h
        cases h with
        | cons hv _ => simp [hx] at hv

end Loops

section Explained

/-! Every failure of an `Encode` has a reason. -/

theorem encodeElements_explained {enc : Encoder} {xs : List LspValue}
    (h : ∀ x ∈ xs, (enc x).Explained) : (encodeElements enc xs).Explained := by
  induction xs with
  | nil => exact .success _
  | cons x xs ih =>
    refine .andThen (h x (List.mem_cons_self ..)) fun v _ => ?_
    exact .andThen (ih fun y hy => h y (List.mem_cons_of_mem _ hy)) fun vs _ => .success _

theorem encodeEntries_explained {enc : Encoder} {es : List (String × LspValue)}
    (h : ∀ e ∈ es, (enc e.2).Explained) : (encodeEntries enc es).Explained := by
  induction es with
  | nil => exact .success _
  | cons e es ih =>
    obtain ⟨n, x⟩ := e
    refine .andThen (h (n, x) (List.mem_cons_self ..)) fun v _ => ?_
    exact .andThen (ih fun d hd => h d (List.mem_cons_of_mem _ hd)) fun ms _ => .success _

theorem encodeItems_ne_failure (encs : List Encoder) (xs : List LspValue) (f : Failure) :
    encodeItems encs xs ≠ .failure f := by
  induction encs generalizing xs with
  | nil => simp [encodeItems]
  | cons enc encs ih =>
    cases xs with
    | nil => simp [encodeItems]
    | cons x xs =>
      cases hx : enc x <;> simp [encodeItems, hx, Outcome.andThen_eq_failure, ih]

theorem encodeTuple_explained (encs : List Encoder) (x : LspValue) :
    (encodeTuple encs x).Explained := by
  cases x with
  | tuple xs =>
    refine .andThen (fun f h => absurd h (encodeItems_ne_failure encs xs f)) fun r _ => ?_
    by_cases hr : r.2 = ""
    · rw [if_pos hr]
      exact .success _
    · rw [if_neg hr]
      intro f h
      cases h
      exact hr
  | _ => exact .unset

theorem encodeOneOf_explained {encs : List Encoder} {k : ℕ} {x : LspValue}
    (h : ∀ enc ∈ encs, (enc x).Explained) : (encodeOneOf encs (.oneOf k x)).Explained := by
  rw [encodeOneOf]
  cases hk : encs[k]? with
  | none => exact .unset
  | some enc => exact h enc (List.mem_of_getElem? hk)

variable {enc : LspType → Encoder} {d : ℕ}

theorem encodeProperties_explained (h : ∀ t y, y.depth < d → (enc t y).Explained)
    (ps : List Property) {xs : List LspValue} (hd : LspValue.depthList xs < d) :
    (encodeProperties enc ps xs).Explained := by
  induction ps generalizing xs with
  | nil => exact .success _
  | cons p ps ih =>
    cases xs with
    | nil => exact .success _
    | cons x xs =>
      simp only [LspValue.depthList, max_lt_iff] at hd
      refine .andThen ?_ fun m _ => .andThen (ih hd.2) fun ms _ => .success _
      unfold encodeProperty
      split
      · split
        · next y => exact .andThen (h _ _ (Nat.lt_of_succ_lt hd.1)) fun v _ => .success _
        · exact .success _
      · exact .andThen (h _ _ hd.1) fun v _ => .success _

mutual

theorem encodeMembers_explained (h : ∀ t y, y.depth < d → (enc t y).Explained) (s : Structure)
    {x : LspValue} (hd : x.depth ≤ d) : (encodeMembers enc s x).Explained := by
  cases s with
  | mk kind ps bs =>
    cases x with
    | struct ms ss =>
      simp only [LspValue.depth, Nat.add_one_le_iff, max_lt_iff] at hd
      refine .andThen (encodeProperties_explained h ps hd.1) fun own _ => ?_
      exact .andThen (encodeBases_explained h bs hd.2.le) fun inherited _ => .success _
    | _ => exact .unset

theorem encodeBases_explained (h : ∀ t y, y.depth < d → (enc t y).Explained)
    (bs : List Structure) {ss : List LspValue} (hd : LspValue.depthList ss ≤ d) :
    (encodeBases enc bs ss).Explained := by
  cases bs with
  | nil => exact .success _
  | cons b bs =>
    cases ss with
    | nil => exact .success _
    | cons s ss =>
      simp only [LspValue.depthList, max_le_iff] at hd
      refine .andThen (encodeMembers_explained h b hd.1) fun m _ => ?_
      exact .andThen (encodeBases_explained h bs hd.2) fun ms _ => .success _

end

theorem encodeLayer_explained {env : Declarations} {x : LspValue}
    (h : ∀ u y, y.depth < x.depth → (enc u y).Explained) (t : LspType) :
    (encodeLayer env enc t x).Explained := by
  cases t with
  | null => exact .success _
  | boolean | integer | uinteger | decimal | string =>
    cases x <;> first | exact .success _ | exact .unset
  | enumeration e =>
    cases x with
    | enumeration i =>
      simp only [encodeLayer, encodeEnumeration]
      split
      · exact .success _
      · intro f hf
        cases hf
        simp
    | _ => exact .unset
  | vector t =>
    cases x with
    | vector xs =>
      refine .andThen (encodeElements_explained fun y hy => ?_) fun vs _ => .success _
      exact h t y (Nat.lt_succ_of_le (LspValue.depth_le_depthList hy))
    | _ => exact .unset
  | tuple ts => exact encodeTuple_explained _ x
  | map t =>
    cases x with
    | map es =>
      refine .andThen (encodeEntries_explained fun e he => ?_) fun ms _ => .success _
      exact h t e.2 (Nat.lt_succ_of_le (LspValue.depth_le_depthEntries he))
    | _ => exact .unset
  | oneOf ts =>
    cases x with
    | oneOf k y =>
      refine encodeOneOf_explained fun enc he => ?_
      obtain ⟨u, -, rfl⟩ := List.mem_map.mp he
      exact h u y (Nat.lt_succ_self _)
    | _ => exact .unset
  | lspAny =>
    cases x with
    | oneOf k y =>
      refine encodeOneOf_explained fun enc he => ?_
      obtain ⟨u, -, rfl⟩ := List.mem_map.mp he
      exact h u y (Nat.lt_succ_self _)
    | _ => exact .unset
  | reference n =>
    exact .andThen (encodeMembers_explained h _ (Nat.le_refl _)) fun ms _ => .success _

theorem encode_explained {env : Declarations} (t : LspType) (x : LspValue) :
    (encode env t x).Explained := by
  induction hn : x.depth using Nat.strong_induction_on generalizing t x with
  | _ n ih =>
    rw [encode_eq]
    exact encodeLayer_explained (fun u y hy => ih y.depth (hn ▸ hy) u y rfl) t

end Explained

section Typed

variable {env : Declarations}

theorem encode_vector {t : LspType} {xs : List LspValue} {j : Value} :
    encode env (.vector t) (.vector xs) = .success j ↔ ∃ vs, j = .arrayValue vs ∧
      List.Forall₂ (fun x v => encode env t x = .success v) xs vs := by
  rw [encode_eq]
  simp only [encodeLayer, encodeVector, Outcome.andThen_eq_success, encodeElements_eq_success,
    Json.Builder.array, Outcome.success.injEq]
  constructor
  · intro h
    obtain ⟨vs, hvs, rfl⟩ := h
    exact ⟨vs, rfl, hvs⟩
  · intro h
    obtain ⟨vs, rfl, hvs⟩ := h
    exact ⟨vs, hvs, rfl⟩

/-- The object of a map has the keys of the map, since these are distinct. -/
theorem encode_map {t : LspType} {es : List (String × LspValue)}
    (ho : OrderedEntries.Ordered es) {j : Value} :
    encode env (.map t) (.map es) = .success j ↔ ∃ ms, j = .objectValue ms ∧
      OrderedEntries.Ordered ms ∧
        List.Forall₂ (fun e m => m.1 = e.1 ∧ encode env t e.2 = .success m.2) es ms := by
  have hordered : ∀ ms : List Member, List.Forall₂ (fun e m => m.1 = e.1 ∧
      encode env t e.2 = .success m.2) es ms → OrderedEntries.Ordered ms := by
    intro ms hms
    have hk : ms.map Prod.fst = es.map Prod.fst := map_eq_map hms fun _ _ h => h.1
    have hp : (es.map Prod.fst).Pairwise (· < ·) := List.pairwise_map.mpr ho
    rw [← hk] at hp
    exact List.pairwise_map.mp hp
  rw [encode_eq]
  simp only [encodeLayer, encodeMap, Outcome.andThen_eq_success, encodeEntries_eq_success,
    Json.Builder.object, Outcome.success.injEq]
  constructor
  · intro h
    obtain ⟨ms, hms, rfl⟩ := h
    exact ⟨ms, by rw [(hordered ms hms).assignAll_self], hordered ms hms, hms⟩
  · intro h
    obtain ⟨ms, rfl, hm, hms⟩ := h
    exact ⟨ms, hms, by rw [hm.assignAll_self]⟩

theorem encode_tuple {ts : List LspType} {xs : List LspValue} {j : Value} :
    encode env (.tuple ts) (.tuple xs) = .success j ↔ ∃ vs, j = .arrayValue vs ∧
      List.Forall₂ (fun (p : LspType × LspValue) v => encode env p.1 p.2 = .success v)
        (ts.zip xs) vs := by
  have hzip : (ts.map (encode env)).zip xs = (ts.zip xs).map fun p => (encode env p.1, p.2) := by
    rw [List.zip_map_left]
    rfl
  have hitems : ∀ vs, encodeItems (ts.map (encode env)) xs = .success (vs, "") ↔ _ := fun vs =>
    encodeItems_eq_empty (by
      rw [hzip]
      intro p hp
      obtain ⟨q, -, rfl⟩ := List.mem_map.mp hp
      exact encode_explained q.1 q.2)
  simp only [hzip, List.forall₂_map_left_iff] at hitems
  rw [encode_eq]
  simp only [encodeLayer, encodeTuple, Outcome.andThen_eq_success, Json.Builder.array]
  constructor
  · intro h
    obtain ⟨⟨vs, reason⟩, hr, hj⟩ := h
    by_cases hreason : reason = ""
    · subst hreason
      simp only [if_true, Outcome.success.injEq] at hj
      exact ⟨vs, hj.symm, (hitems vs).mp hr⟩
    · simp only [if_neg hreason, reduceCtorEq] at hj
  · intro h
    obtain ⟨vs, rfl, hvs⟩ := h
    exact ⟨(vs, ""), (hitems vs).mpr hvs, rfl⟩

theorem encode_oneOf {ts : List LspType} {k : ℕ} {t : LspType} (hk : ts[k]? = some t)
    (x : LspValue) : encode env (.oneOf ts) (.oneOf k x) = encode env t x := by
  rw [encode_eq]
  simp [encodeLayer, encodeOneOf, hk]

theorem encode_lspAny {k : ℕ} {t : LspType} (hk : lspAnyItems[k]? = some t) (x : LspValue) :
    encode env .lspAny (.oneOf k x) = encode env t x := by
  rw [encode_eq]
  simp [encodeLayer, encodeOneOf, hk]

theorem encode_enumeration {e : Enumeration} {i : ℕ} {j : Value} :
    encode env (.enumeration e) (.enumeration i) = .success j ↔ e.values.literals[i]? = some j := by
  rw [encode_eq, encodeLayer, encodeEnumeration]
  cases e.values.literals[i]? with
  | none => simp
  | some v => simp

theorem Enumerators.literals_cases {vs : Enumerators} {v : Value} (h : v ∈ vs.literals) :
    (∃ s, v = .stringValue s) ∨ (∃ i, v = .intValue i) ∨ ∃ u, v = .uintValue u := by
  cases vs with
  | string vs =>
    obtain ⟨s, -, rfl⟩ := List.mem_map.mp h
    exact .inl ⟨s, rfl⟩
  | integer vs =>
    obtain ⟨i, -, rfl⟩ := List.mem_map.mp h
    exact .inr (.inl ⟨i, rfl⟩)
  | uinteger vs =>
    obtain ⟨u, -, rfl⟩ := List.mem_map.mp h
    unfold createLiteral
    split
    · exact .inr (.inl ⟨_, rfl⟩)
    · exact .inr (.inr ⟨_, rfl⟩)

theorem encode_reference {n : String} {x : LspValue} (hs : (env.find n).Shaped x) {j : Value} :
    encode env (.reference n) x = .success j ↔
      ∃ ws, Written (encode env) ((env.find n).slots x) ws ∧ j = Json.Builder.object ws := by
  rw [encode_eq]
  exact encodeStructure_eq_success hs

theorem Enumerators.length_literals (e : Enumerators) : e.literals.length = e.length := by
  cases e <;> simp [Enumerators.literals, Enumerators.length]

private theorem encodeSlots_ne_failure {enc : LspType → Encoder} {ss : List (String × Slot)}
    (h : ∀ n t x, (n, Slot.value t x) ∈ ss → ∀ f, enc t x ≠ .failure f) (f : Failure) :
    encodeSlots enc ss ≠ .failure f := by
  induction ss with
  | nil => simp [encodeSlots]
  | cons s ss ih =>
    obtain ⟨n, s⟩ := s
    have hs : ∀ f, encodeSlot enc s ≠ .failure f := by
      intro f
      cases s with
      | kind k => simp [encodeSlot]
      | value t x => exact h n t x (List.mem_cons_self ..) f
    have hss := ih fun m t x hm => h m t x (List.mem_cons_of_mem _ hm)
    simp only [encodeSlots, ne_eq, Outcome.andThen_eq_failure, hs, hss, false_or, reduceCtorEq,
      and_false, exists_false, not_false_eq_true]

private theorem encodeElements_ne_failure {enc : Encoder} {xs : List LspValue}
    (h : ∀ x ∈ xs, ∀ f, enc x ≠ .failure f) (f : Failure) :
    encodeElements enc xs ≠ .failure f := by
  induction xs with
  | nil => simp [encodeElements]
  | cons x xs ih =>
    have hx := h x (List.mem_cons_self ..)
    have hxs := ih fun y hy => h y (List.mem_cons_of_mem _ hy)
    simp only [encodeElements, ne_eq, Outcome.andThen_eq_failure, hx, hxs, false_or, reduceCtorEq,
      and_false, exists_false, not_false_eq_true]

private theorem encodeEntries_ne_failure {enc : Encoder} {es : List (String × LspValue)}
    (h : ∀ e ∈ es, ∀ f, enc e.2 ≠ .failure f) (f : Failure) :
    encodeEntries enc es ≠ .failure f := by
  induction es with
  | nil => simp [encodeEntries]
  | cons e es ih =>
    obtain ⟨n, x⟩ := e
    have hx := h (n, x) (List.mem_cons_self ..)
    have hxs := ih fun y hy => h y (List.mem_cons_of_mem _ hy)
    simp only at hx
    simp only [encodeEntries, ne_eq, Outcome.andThen_eq_failure, hx, hxs, false_or, reduceCtorEq,
      and_false, exists_false, not_false_eq_true]

theorem encode_ne_failure {t : LspType} {x : LspValue} (h : HasType env t x) :
    ∀ f, encode env t x ≠ .failure f := by
  induction h with
  | enumeration hi =>
    rename_i e i
    intro f
    have hl : i < e.values.literals.length := by rwa [Enumerators.length_literals]
    rw [encode_enumeration.mpr (List.getElem?_eq_getElem hl)]
    simp
  | vector hx ih =>
    intro f
    rw [encode_eq]
    simp [encodeLayer, encodeVector, Outcome.andThen_eq_failure, encodeElements_ne_failure ih]
  | @tuple ts xs hl hx ih =>
    intro f h
    rw [encode_eq] at h
    simp only [encodeLayer, encodeTuple, Outcome.andThen_eq_failure, encodeItems_ne_failure,
      false_or] at h
    obtain ⟨r, hr, hf⟩ := h
    have hz : (ts.map (encode env)).zip xs = (ts.zip xs).map fun p => (encode env p.1, p.2) := by
      rw [List.zip_map_left]
      rfl
    rcases encodeItems_reason hr with hreason | ⟨p, hp, g, hg, -⟩
    · simp [hreason] at hf
    · rw [hz] at hp
      obtain ⟨q, hq, rfl⟩ := List.mem_map.mp hp
      exact ih q hq g hg
  | map ho hx ih =>
    intro f
    rw [encode_eq]
    simp [encodeLayer, encodeMap, Outcome.andThen_eq_failure, encodeEntries_ne_failure ih]
  | oneOf hk hx ih =>
    intro f
    rw [encode_oneOf hk]
    exact ih f
  | lspAny hk hx ih =>
    intro f
    rw [encode_lspAny hk]
    exact ih f
  | reference hs hx ih =>
    intro f
    rw [encode_eq]
    simp [encodeLayer, encodeStructure, encodeMembers_eq_slots _ hs, Outcome.andThen_eq_failure,
      encodeSlots_ne_failure ih]
  | _ =>
    intro f
    rw [encode_eq]
    simp [encodeLayer, encodeNull, encodeBoolean, encodeInteger, encodeUinteger, encodeDecimal,
      encodeString, encodeOneOf]

open LspValue (AllSet AllSetList)

theorem allSet_slots (s : Structure) {x : LspValue} (hx : x.AllSet) {n : String} {t : LspType}
    {y : LspValue} (h : (n, Slot.value t y) ∈ s.slots x) : y.AllSet := by
  replace h := contributes_of_mem s h
  generalize hslot : Slot.value t y = slot at h
  induction h with
  | kind => cases hslot
  | member _ hm hy =>
    cases hslot
    have hset := LspValue.allSetList_iff.mp hx.1 _ hm
    rcases hy with rfl | rfl
    · exact hset
    · exact hset
  | base _ hs _ ih => exact ih (LspValue.allSetList_iff.mp hx.2 _ hs) hslot

theorem encode_eq_success_of_allSet {t : LspType} {x : LspValue} (h : HasType env t x)
    (hx : x.AllSet) : ∃ j, encode env t x = .success j := by
  induction h with
  | @enumeration e i hi =>
    have hl : i < e.values.literals.length := by rwa [Enumerators.length_literals]
    exact ⟨_, encode_enumeration.mpr (List.getElem?_eq_getElem hl)⟩
  | vector _ ih =>
    have hset := LspValue.allSetList_iff.mp hx
    obtain ⟨vs, hvs⟩ := exists_forall₂_iff.mpr fun x hm => ih x hm (hset x hm)
    exact ⟨.arrayValue vs, encode_vector.mpr ⟨vs, rfl, hvs⟩⟩
  | tuple hl hxs ih =>
    have hset := LspValue.allSetList_iff.mp hx
    obtain ⟨vs, hvs⟩ := exists_forall₂_iff.mpr fun p hm => ih p hm (hset p.2 (List.of_mem_zip hm).2)
    exact ⟨.arrayValue vs, encode_tuple.mpr ⟨vs, rfl, hvs⟩⟩
  | @map t es ho _ ih =>
    have hset := LspValue.allSetEntries_iff.mp hx
    have hmember : ∀ e ∈ es, ∃ m : Member, m.1 = e.1 ∧ encode env t e.2 = .success m.2 := by
      intro e hm
      obtain ⟨j, hj⟩ := ih e hm (hset e hm)
      exact ⟨(e.1, j), rfl, hj⟩
    obtain ⟨ms, hms⟩ := exists_forall₂_iff.mpr hmember
    obtain ⟨j, hj⟩ : ∃ j, encodeEntries (encode env t) es = .success j :=
      ⟨ms, encodeEntries_eq_success.mpr hms⟩
    refine ⟨Json.Builder.object j, ?_⟩
    rw [encode_eq]
    simp [encodeLayer, encodeMap, hj]
  | oneOfEmpty | lspAnyEmpty => exact absurd hx (by simp [AllSet])
  | oneOf hk _ ih =>
    rw [encode_oneOf hk]
    exact ih hx
  | lspAny hk _ ih =>
    rw [encode_lspAny hk]
    exact ih hx
  | @reference n x hs _ ih =>
    have hslot : ∀ s ∈ (env.find n).slots x, ∃ w : Member,
        w.1 = s.1 ∧ encodeSlot (encode env) s.2 = .success w.2 := by
      intro s hm
      obtain ⟨m, s⟩ := s
      cases s with
      | kind k => exact ⟨(m, .stringValue k), rfl, rfl⟩
      | value t y =>
        obtain ⟨j, hj⟩ := ih m t y hm (allSet_slots _ hx hm)
        exact ⟨(m, j), rfl, hj⟩
    obtain ⟨ws, hws⟩ := exists_forall₂_iff.mpr hslot
    exact ⟨_, (encode_reference hs).mpr ⟨ws, hws, rfl⟩⟩
  | _ =>
    rw [encode_eq]
    exact ⟨_, rfl⟩

theorem allSet_of_slots (s : Structure) {x : LspValue} (hs : s.Shaped x)
    (h : ∀ n t y, (n, Slot.value t y) ∈ s.slots x → y.AllSet) : x.AllSet :=
  s.of_slots trivial (fun _ hy => hy)
    (fun _ _ hms hss => ⟨LspValue.allSetList_iff.mpr hms, LspValue.allSetList_iff.mpr hss⟩) hs h

/-- A successful `Encode` has visited no empty `OneOf`. -/
theorem allSet_of_encode_eq_success {t : LspType} {x : LspValue} (h : HasType env t x)
    {j : Value} (he : encode env t x = .success j) : x.AllSet := by
  induction h generalizing j with
  | vector _ ih =>
    obtain ⟨vs, -, hvs⟩ := encode_vector.mp he
    refine LspValue.allSetList_iff.mpr fun x hx => ?_
    obtain ⟨v, hv⟩ := exists_forall₂_iff.mp ⟨vs, hvs⟩ x hx
    exact ih x hx hv
  | @tuple ts xs hl hx ih =>
    obtain ⟨vs, -, hvs⟩ := encode_tuple.mp he
    refine LspValue.allSetList_iff.mpr fun x hmem => ?_
    obtain ⟨i, hi⟩ := List.mem_iff_getElem?.mp hmem
    have hlt : i < ts.length := hl ▸ (List.getElem?_eq_some_iff.mp hi).1
    have hp : (ts[i], x) ∈ ts.zip xs := List.mem_of_getElem?
      (List.getElem?_zip_eq_some.mpr ⟨List.getElem?_eq_getElem hlt, hi⟩)
    obtain ⟨v, hv⟩ := exists_forall₂_iff.mp ⟨vs, hvs⟩ _ hp
    exact ih _ hp hv
  | @map t es ho _ ih =>
    obtain ⟨ms, -, -, hms⟩ := (encode_map ho).mp he
    refine LspValue.allSetEntries_iff.mpr fun e hmem => ?_
    obtain ⟨m, -, hm⟩ := exists_forall₂_iff.mp ⟨ms, hms⟩ e hmem
    exact ih e hmem hm
  | oneOfEmpty | lspAnyEmpty =>
    rw [encode_eq] at he
    cases he
  | oneOf hk _ ih =>
    rw [encode_oneOf hk] at he
    exact ih he
  | lspAny hk _ ih =>
    rw [encode_lspAny hk] at he
    exact ih he
  | @reference n x hs _ ih =>
    obtain ⟨ws, hws, -⟩ := (encode_reference hs).mp he
    refine allSet_of_slots _ hs fun m t y hy => ?_
    obtain ⟨w, -, hw⟩ := exists_forall₂_iff.mp ⟨ws, hws⟩ (m, .value t y) hy
    exact ih m t y hy hw
  | _ => trivial

/-- `Encode` of a value of the type succeeds if and only if every `OneOf` holds a value. -/
theorem encode_eq_success_iff {t : LspType} {x : LspValue} (h : HasType env t x) :
    (∃ j, encode env t x = .success j) ↔ x.AllSet := by
  constructor
  · intro he
    obtain ⟨j, hj⟩ := he
    exact allSet_of_encode_eq_success h hj
  · exact encode_eq_success_of_allSet h

end Typed

end Lsp

end Langsvr
