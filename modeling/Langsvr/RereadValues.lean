import Langsvr.CodecRoundTrip
import Langsvr.GeneratedEncoders
import Langsvr.SessionMessages

/-!
# Values that are read back from their texts

The text of a value keeps it, but for the types in which its integers are stored. `Decode`
yields the same for a value and for what is read back, so a value of the protocol survives
its text whenever it survives its JSON value.
-/

namespace Langsvr

open Json (Value Member F64)

namespace Json.Value

/-- The integer that a stored integer denotes. -/
def integer : Value → Option ℤ
  | .intValue i => some i.toInt
  | .uintValue u => some u.toNat
  | _ => none

/-- The same value, up to the types in which the integers are stored. -/
inductive Rereads : Value → Value → Prop
  | null : Rereads .nullValue .nullValue
  | boolean (b : Bool) : Rereads (.booleanValue b) (.booleanValue b)
  | string (s : String) : Rereads (.stringValue s) (.stringValue s)
  | real (d : F64) : Rereads (.realValue d) (.realValue d)
  | integer {v w : Value} {i : ℤ} (hv : v.integer = some i) (hw : w.integer = some i) :
      Rereads v w
  | array {vs ws : List Value} (hl : vs.length = ws.length)
      (h : ∀ p ∈ vs.zip ws, Rereads p.1 p.2) : Rereads (.arrayValue vs) (.arrayValue ws)
  | object {ms ns : List Member} (hk : ms.map Prod.fst = ns.map Prod.fst)
      (h : ∀ p ∈ ms.zip ns, Rereads p.1.2 p.2.2) : Rereads (.objectValue ms) (.objectValue ns)

section Readers

variable {v : Value} {n : ℤ}

theorem i64_of_integer (h : v.integer = some n) {i : Int64} : v.i64 = .ok i ↔ i.toInt = n := by
  have hlt := i.toInt_lt
  have hle := i.le_toInt
  cases v with
  | intValue j =>
    cases h
    simp [i64, isInt64, asInt64, ← Int64.toInt_inj, eq_comm]
  | uintValue u =>
    cases h
    by_cases hu : u.toNat < 2 ^ 63
    · have hi : (Int64.ofInt u.toNat).toInt = u.toNat := by
        rw [Int64.toInt_ofInt_of_le] <;> omega
      simp only [i64, isInt64, hu, decide_true, if_true, asInt64, Except.ok.injEq,
        ← Int64.toInt_inj, hi, eq_comm]
    · simp only [i64, isInt64, hu, decide_false, Bool.false_eq_true, if_false, reduceCtorEq,
        false_iff]
      omega
  | _ => cases h

theorem u64_of_integer (h : v.integer = some n) {u : UInt64} :
    v.u64 = .ok u ↔ (u.toNat : ℤ) = n := by
  have hlt := u.toNat_lt
  cases v with
  | intValue j =>
    cases h
    have hj := j.toInt_lt
    by_cases hn : 0 ≤ j.toInt
    · have hsize : UInt64.size = 2 ^ 64 := rfl
      have hi : (UInt64.ofNat j.toInt.toNat).toNat = j.toInt.toNat :=
        UInt64.toNat_ofNat_of_lt' (by omega)
      simp only [u64, isUInt64, hn, decide_true, if_true, asUInt64, Except.ok.injEq,
        ← UInt64.toNat_inj, hi]
      omega
    · simp only [u64, isUInt64, hn, decide_false, Bool.false_eq_true, if_false, reduceCtorEq,
        false_iff]
      omega
  | uintValue w =>
    cases h
    simp [u64, isUInt64, asUInt64, ← UInt64.toNat_inj, eq_comm]
  | _ => cases h

theorem f64_of_integer (h : v.integer = some n) : v.f64 = .ok (F64.ofInt n) := by
  cases v with
  | intValue j =>
    cases h
    rfl
  | uintValue w =>
    cases h
    rfl
  | _ => cases h

theorem number_of_integer (h : v.integer = some n) : v.number = some (n : ℚ) := by
  cases v with
  | intValue j =>
    cases h
    rfl
  | uintValue w =>
    cases h
    simp [number]
  | _ => cases h

end Readers

namespace Rereads

variable {v w : Value}

theorem symm (h : v.Rereads w) : w.Rereads v := by
  induction h with
  | null => exact .null
  | boolean b => exact .boolean b
  | string s => exact .string s
  | real d => exact .real d
  | integer hv hw => exact .integer hw hv
  | @array vs ws hl _ ih =>
    refine .array hl.symm fun p hp => ih p.swap ?_
    rw [← List.zip_swap]
    exact List.mem_map_of_mem hp
  | @object ms ns hk _ ih =>
    refine .object hk.symm fun p hp => ih p.swap ?_
    rw [← List.zip_swap]
    exact List.mem_map_of_mem hp

theorem i64 (h : v.Rereads w) {i : Int64} (hi : v.i64 = .ok i) : w.i64 = .ok i := by
  cases h with
  | integer hv hw => exact (i64_of_integer hw).mpr ((i64_of_integer hv).mp hi)
  | real d => exact hi
  | _ => cases hi

theorem u64 (h : v.Rereads w) {u : UInt64} (hu : v.u64 = .ok u) : w.u64 = .ok u := by
  cases h with
  | integer hv hw => exact (u64_of_integer hw).mpr ((u64_of_integer hv).mp hu)
  | real d => exact hu
  | _ => cases hu

theorem f64 (h : v.Rereads w) {d : F64} (hd : v.f64 = .ok d) : w.f64 = .ok d := by
  cases h with
  | integer hv hw =>
    rw [f64_of_integer hw]
    exact (f64_of_integer hv).symm.trans hd
  | real d => exact hd
  | _ => cases hd

theorem null_eq (h : v.Rereads w) (hv : v = .nullValue) : w = .nullValue := by
  subst hv
  cases h with
  | null => rfl
  | integer hv => cases hv

theorem boolean_eq {b : Bool} (h : v.Rereads w) (hv : v = .booleanValue b) :
    w = .booleanValue b := by
  subst hv
  cases h with
  | boolean => rfl
  | integer hv => cases hv

theorem string_eq {s : String} (h : v.Rereads w) (hv : v = .stringValue s) :
    w = .stringValue s := by
  subst hv
  cases h with
  | string => rfl
  | integer hv => cases hv

theorem bool (h : v.Rereads w) {b : Bool} (hv : v.bool = .ok b) : w.bool = .ok b :=
  bool_eq_ok.mpr (h.boolean_eq (bool_eq_ok.mp hv))

theorem readString (h : v.Rereads w) {s : String} (hv : v.string = .ok s) : w.string = .ok s :=
  string_eq_ok.mpr (h.string_eq (string_eq_ok.mp hv))

theorem array_eq {vs : List Value} (h : v.Rereads w) (hv : v = .arrayValue vs) :
    ∃ ws, w = .arrayValue ws ∧ List.Forall₂ Rereads vs ws := by
  subst hv
  cases h with
  | array hl h => exact ⟨_, rfl, List.forall₂_iff_zip.mpr ⟨hl, fun hp => h _ hp⟩⟩
  | integer hv => cases hv

theorem object_eq {ms : List Member} (h : v.Rereads w) (hv : v = .objectValue ms) :
    ∃ ns, w = .objectValue ns ∧ ms.map Prod.fst = ns.map Prod.fst ∧
      List.Forall₂ (fun m n => n.1 = m.1 ∧ Rereads m.2 n.2) ms ns := by
  subst hv
  cases h with
  | @object _ ns hk h =>
    refine ⟨ns, rfl, hk, List.forall₂_iff_zip.mpr ⟨by simpa using congrArg List.length hk, ?_⟩⟩
    intro m n hp
    refine ⟨?_, h _ hp⟩
    obtain ⟨i, hi⟩ := List.mem_iff_getElem?.mp hp
    obtain ⟨hm, hn⟩ := List.getElem?_zip_eq_some.mp hi
    have hkeys : (ms.map Prod.fst)[i]? = (ns.map Prod.fst)[i]? := by rw [hk]
    simp only [List.getElem?_map, hm, hn, Option.map_some, Option.some.injEq] at hkeys
    exact hkeys.symm
  | integer hv => cases hv

theorem lookup {ms ns : List Member} (h : (objectValue ms).Rereads (objectValue ns)) {n : String}
    {m : Value} (hm : List.lookup n ms = some m) :
    ∃ k, List.lookup n ns = some k ∧ m.Rereads k := by
  obtain ⟨ns', hns', -, hns⟩ := h.object_eq rfl
  cases hns'
  have hrel := OrderedEntries.lookup_forall₂ hns n
  rw [hm] at hrel
  generalize List.lookup n ns = o at hrel ⊢
  cases hrel with
  | some hmk => exact ⟨_, rfl, hmk⟩

theorem get (h : v.Rereads w) {n : String} {m : Value} (hm : v.get n = .ok m) :
    ∃ k, w.get n = .ok k ∧ m.Rereads k := by
  obtain ⟨ms, rfl, hl⟩ := get_eq_ok.mp hm
  obtain ⟨ns, rfl, -⟩ := h.object_eq rfl
  obtain ⟨k, hk, hmk⟩ := h.lookup hl
  exact ⟨k, get_eq_ok.mpr ⟨ns, rfl, hk⟩, hmk⟩

theorem has (h : v.Rereads w) (n : String) : w.has n = v.has n := by
  rw [Bool.eq_iff_iff, has_iff, has_iff]
  constructor
  · intro hw
    obtain ⟨m, hm⟩ := hw
    obtain ⟨k, hk, -⟩ := h.symm.get hm
    exact ⟨k, hk⟩
  · intro hv
    obtain ⟨m, hm⟩ := hv
    obtain ⟨k, hk, -⟩ := h.get hm
    exact ⟨k, hk⟩

theorem wellFormed (h : v.Rereads w) (hv : v.WellFormed) : w.WellFormed := by
  induction h with
  | null | boolean | string | real => exact hv
  | @integer v w i _ hw =>
    cases w with
    | intValue | uintValue => trivial
    | _ => cases hw
  | @array vs ws hl _ ih =>
    refine wellFormedElements_iff.mpr fun w hw => ?_
    obtain ⟨i, hi⟩ := List.mem_iff_getElem?.mp hw
    obtain ⟨v, hi'⟩ := ListRelations.exists_getElem?_of_length_eq hl.symm hi
    exact ih (v, w) (List.mem_of_getElem? (List.getElem?_zip_eq_some.mpr ⟨hi', hi⟩))
      (wellFormedElements_iff.mp hv v (List.mem_of_getElem? hi'))
  | @object ms ns hk _ ih =>
    obtain ⟨hordered, hms⟩ := hv
    refine ⟨?_, wellFormedMembers_iff.mpr fun n hn => ?_⟩
    · have hkeys : ns.map Prod.fst |>.Pairwise (· < ·) := hk ▸ List.pairwise_map.mpr hordered
      exact List.pairwise_map.mp hkeys
    · obtain ⟨i, hi⟩ := List.mem_iff_getElem?.mp hn
      obtain ⟨m, hi'⟩ := ListRelations.exists_getElem?_of_length_eq
        (by simpa using congrArg List.length hk.symm) hi
      exact ih (m, n) (List.mem_of_getElem? (List.getElem?_zip_eq_some.mpr ⟨hi', hi⟩))
        (wellFormedMembers_iff.mp hms m (List.mem_of_getElem? hi'))

/-- What is read back is the same value if its numbers are finite. -/
theorem same (h : v.Rereads w) (hf : v.FiniteReals) : v.Same w := by
  induction h with
  | null => exact .null
  | boolean b => exact .boolean b
  | string s => exact .string s
  | real d =>
    obtain ⟨q, hq⟩ := F64.value_of_finite hf
    exact .number (q := q) hq hq
  | integer hv hw => exact .number (number_of_integer hv) (number_of_integer hw)
  | array hl _ ih =>
    exact .array hl fun p hp => ih p hp (finiteElements_iff.mp hf p.1 (List.of_mem_zip hp).1)
  | object hk _ ih =>
    exact .object hk fun p hp => ih p hp (finiteMembers_iff.mp hf p.1 (List.of_mem_zip hp).1)

end Rereads

end Json.Value

namespace Lsp

open ListRelations

section Decoding

variable {env : Declarations} {v w : Value}

theorem Enumerators.Holds.reread {vs : Enumerators} (h : v.Rereads w) (hv : vs.Holds v) :
    vs.Holds w := by
  cases vs with
  | string vs =>
    obtain ⟨s, hs, hv⟩ := hv
    exact ⟨s, hs, h.string_eq hv⟩
  | integer vs =>
    obtain ⟨hi, hmem⟩ := hv
    obtain ⟨hw, heq⟩ := Value.i64_eq_ok.mp (h.i64 (Value.i64_eq_ok.mpr ⟨hi, rfl⟩))
    exact ⟨hw, heq ▸ hmem⟩
  | uinteger vs =>
    obtain ⟨hu, hmem⟩ := hv
    obtain ⟨hw, heq⟩ := Value.u64_eq_ok.mp (h.u64 (Value.u64_eq_ok.mpr ⟨hu, rfl⟩))
    exact ⟨hw, heq ▸ hmem⟩

/-- A value that is read back has the form that the type asks for. -/
theorem Matches.reread {t : LspType} (hv : Matches env t v) (h : v.Rereads w) :
    Matches env t w := by
  induction hv generalizing w with
  | null =>
    obtain rfl := h.null_eq rfl
    exact .null
  | boolean b =>
    obtain rfl := h.boolean_eq rfl
    exact .boolean b
  | string s =>
    obtain rfl := h.string_eq rfl
    exact .string s
  | integer hv =>
    exact .integer (Value.i64_eq_ok.mp (h.i64 (Value.i64_eq_ok.mpr ⟨hv, rfl⟩))).1
  | uinteger hv =>
    exact .uinteger (Value.u64_eq_ok.mp (h.u64 (Value.u64_eq_ok.mpr ⟨hv, rfl⟩))).1
  | decimal hv =>
    exact .decimal (Value.f64_eq_ok.mp (h.f64 (Value.f64_eq_ok.mpr ⟨hv, rfl⟩))).1
  | enumeration hv => exact .enumeration (hv.reread h)
  | vector _ ih =>
    obtain ⟨ws, rfl, hws⟩ := h.array_eq rfl
    refine .vector fun w hw => ?_
    obtain ⟨v, hv, hvw⟩ := exists_of_mem_right hws hw
    exact ih v hv hvw
  | @tuple ts vs hl _ ih =>
    obtain ⟨ws, rfl, hws⟩ := h.array_eq rfl
    refine .tuple (hl.trans hws.length_eq) fun p hp => ?_
    obtain ⟨i, hi⟩ := List.mem_iff_getElem?.mp hp
    obtain ⟨ht, hw⟩ := List.getElem?_zip_eq_some.mp hi
    obtain ⟨v, hv⟩ := exists_getElem?_of_length_eq hws.length_eq.symm hw
    have hmem : (p.1, v) ∈ ts.zip vs :=
      List.mem_of_getElem? (List.getElem?_zip_eq_some.mpr ⟨ht, hv⟩)
    obtain ⟨w, hw', hvw⟩ := (forall₂_iff_getElem?.mp hws).2 i v hv
    cases hw.symm.trans hw'
    exact ih (p.1, v) hmem hvw
  | map _ ih =>
    obtain ⟨ns, rfl, -, hns⟩ := h.object_eq rfl
    refine .map fun n hn => ?_
    obtain ⟨m, hm, -, hmn⟩ := exists_of_mem_right hns hn
    exact ih m hm hmn
  | oneOf ht _ ih => exact .oneOf ht (ih h)
  | lspAny ht _ ih => exact .lspAny ht (ih h)
  | @reference n ms hk hr _ ih =>
    obtain ⟨ns, rfl, -⟩ := h.object_eq rfl
    refine .reference (fun k hkind => ?_) (fun p hp ho => ?_) fun p hp m' hm' => ?_
    · obtain ⟨m', hm', hm⟩ := h.lookup (hk k hkind)
      rw [hm', hm.string_eq rfl]
    · obtain ⟨m, hm⟩ := hr p hp ho
      obtain ⟨m', hm', -⟩ := h.lookup hm
      exact ⟨m', hm'⟩
    · obtain ⟨m, hm, hmm⟩ := h.symm.lookup hm'
      exact ih p hp m hm hmm.symm

theorem Accepts.reread {t : LspType} (h : v.Rereads w) (hv : v.WellFormed)
    (ha : Accepts env t v) : Accepts env t w :=
  (accepts_iff_matches (h.wellFormed hv)).mpr (((accepts_iff_matches hv).mp ha).reread h)

theorem Enumerators.Picks.reread {vs : Enumerators} {i : ℕ} (h : v.Rereads w)
    (hv : vs.Picks v i) : vs.Picks w i := by
  cases vs with
  | string vs =>
    obtain ⟨s, hs, hi⟩ := hv
    exact ⟨s, h.string_eq hs, hi⟩
  | integer vs =>
    obtain ⟨hw, heq⟩ := Value.i64_eq_ok.mp (h.i64 (Value.i64_eq_ok.mpr ⟨hv.1, rfl⟩))
    exact ⟨hw, heq ▸ hv.2⟩
  | uinteger vs =>
    obtain ⟨hw, heq⟩ := Value.u64_eq_ok.mp (h.u64 (Value.u64_eq_ok.mpr ⟨hv.1, rfl⟩))
    exact ⟨hw, heq ▸ hv.2⟩

/-- What a value is as a value of a type is also what is read back. -/
theorem ReadsAs.reread {t : LspType} {x : LspValue} (hv : ReadsAs env t v x) (h : v.Rereads w) :
    ReadsAs env t w x := by
  induction hv generalizing w with
  | null =>
    obtain rfl := h.null_eq rfl
    exact .null
  | boolean b =>
    obtain rfl := h.boolean_eq rfl
    exact .boolean b
  | string s =>
    obtain rfl := h.string_eq rfl
    exact .string s
  | integer hv =>
    obtain ⟨hw, heq⟩ := Value.i64_eq_ok.mp (h.i64 (Value.i64_eq_ok.mpr ⟨hv, rfl⟩))
    exact heq ▸ .integer hw
  | uinteger hv =>
    obtain ⟨hw, heq⟩ := Value.u64_eq_ok.mp (h.u64 (Value.u64_eq_ok.mpr ⟨hv, rfl⟩))
    exact heq ▸ .uinteger hw
  | decimal hv =>
    obtain ⟨hw, heq⟩ := Value.f64_eq_ok.mp (h.f64 (Value.f64_eq_ok.mpr ⟨hv, rfl⟩))
    exact heq ▸ .decimal hw
  | enumeration hv => exact .enumeration (hv.reread h)
  | vector hl hv ih =>
    obtain ⟨ws, rfl, hws⟩ := h.array_eq rfl
    exact readsAs_vector.mpr ⟨ws, rfl, forall₂_of_zip hws hl fun p hp w hw => ih p hp hw⟩
  | tuple hl hlx hv ih =>
    obtain ⟨ws, rfl, hws⟩ := h.array_eq rfl
    exact (readsAs_tuple hlx).mpr ⟨ws, rfl, forall₂_of_zip hws hl fun p hp w hw => ih p hp hw⟩
  | @map t ms es hk hv ih =>
    obtain ⟨ns, rfl, hkeys, hns⟩ := h.object_eq rfl
    have hl : ms.length = es.length := by simpa using congrArg List.length hk.symm
    have hes : List.Forall₂ (fun (n : Member) e => ReadsAs env t n.2 e.2) ns es :=
      forall₂_of_zip hns hl fun p hp n hn => ih p hp hn.2
    exact .map (hk.trans hkeys) fun p hp => (List.forall₂_iff_zip.mp hes).2 hp
  | oneOf hk _ hfirst ih =>
    exact .oneOf hk (ih h) fun i hi u hu hm => hfirst i hi u hu (hm.reread h.symm)
  | lspAny hk _ hfirst ih =>
    exact .lspAny hk (ih h) fun i hi u hu hm => hfirst i hi u hu (hm.reread h.symm)
  | reference hk hr hv ha ih =>
    obtain ⟨ns, rfl, -⟩ := h.object_eq rfl
    refine .reference (fun m k hm => ?_) (fun m t y hm => ?_) (fun m t y w hm hw => ?_)
      fun m hm => ?_
    · obtain ⟨w, hw, hkw⟩ := h.lookup (hk m k hm)
      rw [hw, hkw.string_eq rfl]
    · obtain ⟨v, hv⟩ := hr m t y hm
      obtain ⟨w, hw, -⟩ := h.lookup hv
      exact ⟨w, hw⟩
    · obtain ⟨v, hv, hwv⟩ := h.symm.lookup hw
      exact ih m t y v hm hv hwv.symm
    · cases hl : List.lookup m ns with
      | none => rfl
      | some w =>
        obtain ⟨v, hv, -⟩ := h.symm.lookup hl
        cases (ha m hm).symm.trans hv

/-- What `Decode` yields for a value it also yields for what is read back. -/
theorem decodeNew_reread {t : LspType} {x : LspValue} (hx : HasType env t x)
    (h : v.Rereads w) (hv : v.WellFormed) (hd : decodeNew env t v = .ok x) :
    decodeNew env t w = .ok x :=
  (decodeNew_iff_readsAs hx (h.wellFormed hv)).mpr
    (((decodeNew_iff_readsAs hx hv).mp hd).reread h)

end Decoding

inductive HasDecimal (d : F64) : LspValue → Prop
  | decimal : HasDecimal d (.decimal d)
  | vector {x : LspValue} {xs : List LspValue} (hx : x ∈ xs) (h : HasDecimal d x) :
      HasDecimal d (.vector xs)
  | tuple {x : LspValue} {xs : List LspValue} (hx : x ∈ xs) (h : HasDecimal d x) :
      HasDecimal d (.tuple xs)
  | map {e : String × LspValue} {es : List (String × LspValue)} (he : e ∈ es)
      (h : HasDecimal d e.2) : HasDecimal d (.map es)
  | oneOf {k : ℕ} {x : LspValue} (h : HasDecimal d x) : HasDecimal d (.oneOf k x)
  | present {x : LspValue} (h : HasDecimal d x) : HasDecimal d (.present x)
  | member {x : LspValue} {ms ss : List LspValue} (hx : x ∈ ms) (h : HasDecimal d x) :
      HasDecimal d (.struct ms ss)
  | base {x : LspValue} {ms ss : List LspValue} (hx : x ∈ ss) (h : HasDecimal d x) :
      HasDecimal d (.struct ms ss)

def LspValue.FiniteDecimals (x : LspValue) : Prop := ∀ d, HasDecimal d x → d.Finite

section Encoding

variable {env : Declarations}

theorem finiteDecimals_slots (s : Structure) {x : LspValue} (hx : x.FiniteDecimals) {n : String}
    {t : LspType} {y : LspValue} (h : (n, Slot.value t y) ∈ s.slots x) : y.FiniteDecimals := by
  replace h := contributes_of_mem s h
  generalize hslot : Slot.value t y = slot at h
  induction h with
  | kind => cases hslot
  | member _ hm hy =>
    cases hslot
    intro d hd
    rcases hy with rfl | rfl
    · exact hx d (.member hm hd)
    · exact hx d (.member hm (.present hd))
  | base _ hs _ ih => exact ih (fun d hd => hx d (.base hs hd)) hslot

theorem depthElements_le {vs : List Value} {n : ℕ} (h : ∀ v ∈ vs, v.depth ≤ n) :
    Value.depthElements vs ≤ n := by
  induction vs with
  | nil => exact Nat.zero_le n
  | cons v vs ih =>
    exact max_le (h v (List.mem_cons_self ..)) (ih fun w hw => h w (List.mem_cons_of_mem _ hw))

theorem depthMembers_le {ms : List Member} {n : ℕ} (h : ∀ m ∈ ms, m.2.depth ≤ n) :
    Value.depthMembers ms ≤ n := by
  induction ms with
  | nil => exact Nat.zero_le n
  | cons m ms ih =>
    exact max_le (h m (List.mem_cons_self ..)) (ih fun w hw => h w (List.mem_cons_of_mem _ hw))

theorem literal_bounded {vs : Enumerators} {v : Value} (h : v ∈ vs.literals) :
    v.FiniteReals ∧ v.depth = 0 := by
  obtain ⟨s, rfl⟩ | ⟨i, rfl⟩ | ⟨u, rfl⟩ := Enumerators.literals_cases h
  · exact ⟨trivial, rfl⟩
  · exact ⟨trivial, rfl⟩
  · exact ⟨trivial, rfl⟩

/-- What is written for a value is as finite as it and nested no deeper. -/
theorem encode_bounded {t : LspType} {x : LspValue} (h : HasType env t x)
    (hf : x.FiniteDecimals) {v : Value} (hv : encode env t x = .success v) :
    v.FiniteReals ∧ v.depth ≤ x.depth := by
  induction h generalizing v with
  | enumeration =>
    obtain ⟨hfin, hd⟩ := literal_bounded (List.mem_of_getElem? (encode_enumeration.mp hv))
    exact ⟨hfin, hd ▸ Nat.zero_le _⟩
  | @vector t xs _ ih =>
    obtain ⟨vs, rfl, hvs⟩ := encode_vector.mp hv
    have hbound : ∀ w ∈ vs, w.FiniteReals ∧ w.depth ≤ LspValue.depthList xs := by
      intro w hw
      obtain ⟨x, hx, hxw⟩ := exists_of_mem_right hvs hw
      obtain ⟨hfin, hd⟩ := ih x hx (fun d hd => hf d (.vector hx hd)) hxw
      exact ⟨hfin, hd.trans (LspValue.depth_le_depthList hx)⟩
    exact ⟨Value.finiteElements_iff.mpr fun w hw => (hbound w hw).1,
      Nat.succ_le_succ (depthElements_le fun w hw => (hbound w hw).2)⟩
  | @tuple ts xs hl _ ih =>
    obtain ⟨vs, rfl, hvs⟩ := encode_tuple.mp hv
    have hbound : ∀ w ∈ vs, w.FiniteReals ∧ w.depth ≤ LspValue.depthList xs := by
      intro w hw
      obtain ⟨p, hp, hxw⟩ := exists_of_mem_right hvs hw
      have hx := (List.of_mem_zip hp).2
      obtain ⟨hfin, hd⟩ := ih p hp (fun d hd => hf d (.tuple hx hd)) hxw
      exact ⟨hfin, hd.trans (LspValue.depth_le_depthList hx)⟩
    exact ⟨Value.finiteElements_iff.mpr fun w hw => (hbound w hw).1,
      Nat.succ_le_succ (depthElements_le fun w hw => (hbound w hw).2)⟩
  | @map t es ho _ ih =>
    obtain ⟨ms, rfl, -, hms⟩ := (encode_map ho).mp hv
    have hbound : ∀ m ∈ ms, m.2.FiniteReals ∧ m.2.depth ≤ LspValue.depthEntries es := by
      intro m hm
      obtain ⟨e, he, -, hem⟩ := exists_of_mem_right hms hm
      obtain ⟨hfin, hd⟩ := ih e he (fun d hd => hf d (.map he hd)) hem
      exact ⟨hfin, hd.trans (LspValue.depth_le_depthEntries (n := e.1) he)⟩
    exact ⟨Value.finiteMembers_iff.mpr fun m hm => (hbound m hm).1,
      Nat.succ_le_succ (depthMembers_le fun m hm => (hbound m hm).2)⟩
  | oneOfEmpty | lspAnyEmpty =>
    rw [encode_eq] at hv
    cases hv
  | oneOf hk _ ih =>
    rw [encode_oneOf hk] at hv
    obtain ⟨hfin, hd⟩ := ih (fun d hd => hf d (.oneOf hd)) hv
    exact ⟨hfin, Nat.le_succ_of_le hd⟩
  | lspAny hk _ ih =>
    rw [encode_lspAny hk] at hv
    obtain ⟨hfin, hd⟩ := ih (fun d hd => hf d (.oneOf hd)) hv
    exact ⟨hfin, Nat.le_succ_of_le hd⟩
  | @reference n x hs _ ih =>
    obtain ⟨ws, hws, rfl⟩ := (encode_reference hs).mp hv
    obtain ⟨d, hd⟩ : ∃ d, x.depth = d + 1 := by
      generalize env.find n = s at hs
      cases s
      cases x <;> first | exact hs.elim | exact ⟨_, rfl⟩
    have hbound : ∀ m ∈ OrderedEntries.assignAll [] ws, m.2.FiniteReals ∧ m.2.depth ≤ d := by
      intro m hm
      obtain ⟨l, hl, hw⟩ := exists_slot_of_mem hws hm
      cases l with
      | kind k =>
        rw [encodeSlot, Outcome.success.injEq] at hw
        rw [← hw]
        exact ⟨trivial, Nat.zero_le d⟩
      | value t y =>
        obtain ⟨hfin, hle⟩ := ih m.1 t y hl (finiteDecimals_slots _ hf hl) hw
        have hlt := depth_slots _ hl
        exact ⟨hfin, by omega⟩
    rw [hd]
    exact ⟨Value.finiteMembers_iff.mpr fun m hm => (hbound m hm).1,
      Nat.succ_le_succ (depthMembers_le fun m hm => (hbound m hm).2)⟩
  | decimal d =>
    rw [encode_eq] at hv
    cases hv
    exact ⟨hf d .decimal, Nat.le_refl 0⟩
  | _ =>
    rw [encode_eq] at hv
    cases hv
    exact ⟨trivial, Nat.le_refl 0⟩

end Encoding

end Lsp

end Langsvr
