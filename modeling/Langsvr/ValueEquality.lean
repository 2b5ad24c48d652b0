import Langsvr.ListRelations
import Langsvr.OrderedValues
import Langsvr.ProtocolExcerpt

/-!
# Equality of values

The operators `==` of the types of the protocol: the one that is generated for a structure,
those of `Optional` and `OneOf`, and those of the library. They are symmetric and
transitive. A value is equal to itself, and to a copy, if and only if every `OneOf` in it
holds a value.
-/

namespace Langsvr

namespace Json.F64

def isNaN (d : F64) : Bool := decide (d.exponent = 2047) && decide (d.mantissa ≠ 0)

def isZero (d : F64) : Bool := decide (d.exponent = 0) && decide (d.mantissa = 0)

/-- The operator `==` of double: a NaN is not equal to anything, and the zeros are equal. -/
def equals (d e : F64) : Bool :=
  !d.isNaN && !e.isNaN && (decide (d = e) || (d.isZero && e.isZero))

theorem equals_self (d : F64) : d.equals d = !d.isNaN := by
  cases h : d.isNaN <;> simp [equals, h]

theorem equals_symm {d e : F64} (h : d.equals e) : e.equals d := by
  simp only [equals, Bool.and_eq_true, Bool.or_eq_true, decide_eq_true_eq] at h ⊢
  obtain ⟨⟨hd, he⟩, h⟩ := h
  refine ⟨⟨he, hd⟩, ?_⟩
  rcases h with rfl | h
  · exact .inl rfl
  · exact .inr ⟨h.2, h.1⟩

theorem equals_trans {d e f : F64} (h : d.equals e) (h' : e.equals f) : d.equals f := by
  simp only [equals, Bool.and_eq_true, Bool.or_eq_true, decide_eq_true_eq] at h h' ⊢
  obtain ⟨⟨hd, -⟩, h⟩ := h
  obtain ⟨⟨-, hf⟩, h'⟩ := h'
  refine ⟨⟨hd, hf⟩, ?_⟩
  rcases h with rfl | h
  · exact h'
  · rcases h' with rfl | h'
    · exact .inr h
    · exact .inr ⟨h.1, h'.2⟩

end Json.F64

namespace Lsp.LspValue

mutual

/-- The operator `==`, selected by the type of the operands. The one of a structure compares
the own members and then the bases. -/
def equals : LspValue → LspValue → Bool
  | .null, .null => true
  | .boolean a, .boolean b => decide (a = b)
  | .integer a, .integer b => decide (a = b)
  | .uinteger a, .uinteger b => decide (a = b)
  | .decimal a, .decimal b => a.equals b
  | .string a, .string b => decide (a = b)
  | .enumeration i, .enumeration j => decide (i = j)
  | .vector xs, .vector ys | .tuple xs, .tuple ys => equalsList xs ys
  | .map es, .map fs => decide (es.length = fs.length) && equalsEntries es fs
  -- the visit calls back with the value that is held, and the other `OneOf` is asked for a
  -- value of the same type; without a value the visit returns `false`
  | .oneOf k x, .oneOf j y => decide (k = j) && equals x y
  | .absent, .absent => true
  | .present x, .present y => equals x y
  | .struct ms ss, .struct ns ts => equalsList ms ns && equalsList ss ts
  | _, _ => false

def equalsList : List LspValue → List LspValue → Bool
  | [], [] => true
  | x :: xs, y :: ys => equals x y && equalsList xs ys
  | _, _ => false

def equalsEntries : List (String × LspValue) → List (String × LspValue) → Bool
  | [], _ => true
  | (k, x) :: es, fs =>
    (match List.lookup k fs with
      | some y => equals x y
      | none => false) && equalsEntries es fs

end

mutual

/-- The copy constructor. An `Optional` and a `OneOf` copy the value that they hold. -/
def copy : LspValue → LspValue
  | .vector xs => .vector (copyList xs)
  | .tuple xs => .tuple (copyList xs)
  | .map es => .map (copyEntries es)
  | .oneOf k x => .oneOf k x.copy
  | .present x => .present x.copy
  | .struct ms ss => .struct (copyList ms) (copyList ss)
  | x => x

def copyList : List LspValue → List LspValue
  | [] => []
  | x :: xs => x.copy :: copyList xs

def copyEntries : List (String × LspValue) → List (String × LspValue)
  | [] => []
  | (k, x) :: es => (k, x.copy) :: copyEntries es

end

mutual

def NoNaN : LspValue → Prop
  | .decimal d => d.isNaN = false
  | .vector xs | .tuple xs => NoNaNList xs
  | .map es => NoNaNEntries es
  | .oneOf _ x | .present x => x.NoNaN
  | .struct ms ss => NoNaNList ms ∧ NoNaNList ss
  | _ => True

def NoNaNList : List LspValue → Prop
  | [] => True
  | x :: xs => x.NoNaN ∧ NoNaNList xs

def NoNaNEntries : List (String × LspValue) → Prop
  | [] => True
  | (_, x) :: es => x.NoNaN ∧ NoNaNEntries es

end

section Parts

theorem equalsList_iff {xs ys : List LspValue} :
    equalsList xs ys = true ↔ List.Forall₂ (fun x y => x.equals y = true) xs ys := by
  induction xs generalizing ys with
  | nil => cases ys <;> simp [equalsList]
  | cons x xs ih => cases ys <;> simp [equalsList, ih]

theorem equalsEntries_iff {es fs : List (String × LspValue)} : equalsEntries es fs = true ↔
    ∀ e ∈ es, ∃ y, List.lookup e.1 fs = some y ∧ e.2.equals y = true := by
  induction es with
  | nil => simp [equalsEntries]
  | cons e es ih =>
    obtain ⟨k, x⟩ := e
    rw [equalsEntries, Bool.and_eq_true, ih, List.forall_mem_cons]
    cases List.lookup k fs <;> simp

theorem equals_map_iff {es fs : List (String × LspValue)} (he : OrderedEntries.Ordered es)
    (hf : OrderedEntries.Ordered fs) : (LspValue.map es).equals (.map fs) = true ↔
      List.Forall₂ (fun e f => e.1 = f.1 ∧ e.2.equals f.2 = true) es fs := by
  rw [equals, Bool.and_eq_true, decide_eq_true_eq, equalsEntries_iff]
  constructor
  · intro h
    exact he.forall₂_of_lookup (R := fun x y => x.equals y = true) hf h.1 h.2
  · intro h
    refine ⟨h.length_eq, fun e hmem => ?_⟩
    obtain ⟨f, hfmem, hk, hr⟩ := ListRelations.exists_of_mem_left h hmem
    refine ⟨f.2, ?_, hr⟩
    rw [hk]
    exact hf.lookup_of_mem hfmem

theorem noNaNList_iff {xs : List LspValue} : NoNaNList xs ↔ ∀ x ∈ xs, x.NoNaN := by
  induction xs with
  | nil => simp [NoNaNList]
  | cons x xs ih => simp [NoNaNList, ih]

theorem noNaNEntries_iff {es : List (String × LspValue)} :
    NoNaNEntries es ↔ ∀ e ∈ es, e.2.NoNaN := by
  induction es with
  | nil => simp [NoNaNEntries]
  | cons e es ih =>
    obtain ⟨n, x⟩ := e
    simp [NoNaNEntries, ih]

/-- To prove a property of a value, prove it from the property of all that it contains. -/
theorem depth_induct {P : LspValue → Prop} (h : ∀ x, (∀ y, y.depth < x.depth → P y) → P x)
    (x : LspValue) : P x := by
  induction hn : x.depth using Nat.strong_induction_on generalizing x with
  | _ n ih => exact h x fun y hy => ih y.depth (hn ▸ hy) y rfl

theorem depth_lt_vector {x : LspValue} {xs : List LspValue} (h : x ∈ xs) :
    x.depth < (LspValue.vector xs).depth := Nat.lt_succ_of_le (depth_le_depthList h)

theorem depth_lt_map {e : String × LspValue} {es : List (String × LspValue)} (h : e ∈ es) :
    e.2.depth < (LspValue.map es).depth := Nat.lt_succ_of_le (depth_le_depthEntries (n := e.1) h)

theorem depth_lt_members {x : LspValue} {ms : List LspValue} (ss : List LspValue) (h : x ∈ ms) :
    x.depth < (LspValue.struct ms ss).depth :=
  Nat.lt_succ_of_le ((depth_le_depthList h).trans (le_max_left _ _))

theorem depth_lt_bases {x : LspValue} (ms : List LspValue) {ss : List LspValue} (h : x ∈ ss) :
    x.depth < (LspValue.struct ms ss).depth :=
  Nat.lt_succ_of_le ((depth_le_depthList h).trans (le_max_right _ _))

end Parts

section Laws

private theorem equalsList_self {xs : List LspValue}
    (h : ∀ x ∈ xs, x.equals x = true ↔ x.AllSet) :
    equalsList xs xs = true ↔ AllSetList xs := by
  rw [equalsList_iff, List.forall₂_same, allSetList_iff]
  exact forall₂_congr h

theorem equals_self_iff (x : LspValue) (hk : x.KeysOrdered) (hn : x.NoNaN) :
    x.equals x = true ↔ x.AllSet := by
  induction x using depth_induct with
  | h x ih =>
    cases x with
    | vector xs | tuple xs =>
      exact equalsList_self fun x hx => ih x (depth_lt_vector hx)
        (keysOrderedList_iff.mp hk x hx) (noNaNList_iff.mp hn x hx)
    | map es =>
      rw [equals_map_iff hk.1 hk.1, List.forall₂_same, AllSet, allSetEntries_iff]
      refine forall₂_congr fun e he => ?_
      rw [ih e.2 (depth_lt_map he) (keysOrderedEntries_iff.mp hk.2 e he)
        (noNaNEntries_iff.mp hn e he)]
      simp
    | struct ms ss =>
      rw [equals, Bool.and_eq_true, AllSet]
      exact and_congr
        (equalsList_self fun x hx => ih x (depth_lt_members ss hx)
          (keysOrderedList_iff.mp hk.1 x hx) (noNaNList_iff.mp hn.1 x hx))
        (equalsList_self fun x hx => ih x (depth_lt_bases ms hx)
          (keysOrderedList_iff.mp hk.2 x hx) (noNaNList_iff.mp hn.2 x hx))
    | oneOf k x =>
      have hx := ih x (Nat.lt_succ_self _) hk hn
      simpa [equals, AllSet] using hx
    | present x => exact ih x (Nat.lt_succ_self _) hk hn
    | decimal d =>
      have hd : d.isNaN = false := hn
      simp [equals, AllSet, Json.F64.equals_self, hd]
    | _ => simp [equals, AllSet]

private theorem equalsList_symm {xs ys : List LspValue} (hx : KeysOrderedList xs)
    (hy : KeysOrderedList ys)
    (hs : ∀ x ∈ xs, x.KeysOrdered → ∀ y, y.KeysOrdered → x.equals y = true → y.equals x = true)
    (h : equalsList xs ys = true) : equalsList ys xs = true := by
  rw [equalsList_iff] at h ⊢
  exact ListRelations.symm_of_mem (fun x hmx y hmy => hs x hmx (keysOrderedList_iff.mp hx x hmx) y
    (keysOrderedList_iff.mp hy y hmy)) h

theorem equals_symm (x : LspValue) : x.KeysOrdered → ∀ y, y.KeysOrdered →
    x.equals y = true → y.equals x = true := by
  induction x using depth_induct with
  | h x ih =>
    intro hx y hy h
    cases x with
    | vector xs =>
      cases y with
      | vector ys => exact equalsList_symm hx hy (fun x hm => ih x (depth_lt_vector hm)) h
      | _ => cases h
    | tuple xs =>
      cases y with
      | tuple ys => exact equalsList_symm hx hy (fun x hm => ih x (depth_lt_vector hm)) h
      | _ => cases h
    | map es =>
      cases y with
      | map fs =>
        rw [equals_map_iff hx.1 hy.1] at h
        rw [equals_map_iff hy.1 hx.1]
        refine ListRelations.symm_of_mem (fun e he f hf hr => ⟨hr.1.symm, ?_⟩) h
        exact ih e.2 (depth_lt_map he) (keysOrderedEntries_iff.mp hx.2 e he) f.2
          (keysOrderedEntries_iff.mp hy.2 f hf) hr.2
      | _ => cases h
    | struct ms ss =>
      cases y with
      | struct ns ts =>
        rw [equals, Bool.and_eq_true] at h ⊢
        exact ⟨equalsList_symm hx.1 hy.1 (fun x hm => ih x (depth_lt_members ss hm)) h.1,
          equalsList_symm hx.2 hy.2 (fun x hm => ih x (depth_lt_bases ms hm)) h.2⟩
      | _ => cases h
    | oneOf k x =>
      cases y with
      | oneOf j y =>
        rw [equals, Bool.and_eq_true, decide_eq_true_eq] at h ⊢
        exact ⟨h.1.symm, ih x (Nat.lt_succ_self _) hx y hy h.2⟩
      | _ => cases h
    | present x =>
      cases y with
      | present y => exact ih x (Nat.lt_succ_self _) hx y hy h
      | _ => cases h
    | decimal d =>
      cases y with
      | decimal e => exact Json.F64.equals_symm h
      | _ => cases h
    | _ =>
      cases y with
      | _ => first
        | exact h
        | cases h
        | simpa [equals, eq_comm] using h

private theorem equalsList_trans {xs ys zs : List LspValue}
    (hx : KeysOrderedList xs) (hy : KeysOrderedList ys) (hz : KeysOrderedList zs)
    (ht : ∀ x ∈ xs, x.KeysOrdered → ∀ y z, y.KeysOrdered → z.KeysOrdered →
      x.equals y = true → y.equals z = true → x.equals z = true)
    (h : equalsList xs ys = true) (h' : equalsList ys zs = true) : equalsList xs zs = true := by
  rw [equalsList_iff] at h h' ⊢
  exact ListRelations.trans_of_mem (fun x hmx y hmy z hmz => ht x hmx (keysOrderedList_iff.mp hx x hmx) y z
    (keysOrderedList_iff.mp hy y hmy) (keysOrderedList_iff.mp hz z hmz)) h h'

theorem equals_trans (x : LspValue) : x.KeysOrdered → ∀ y z, y.KeysOrdered → z.KeysOrdered →
    x.equals y = true → y.equals z = true → x.equals z = true := by
  induction x using depth_induct with
  | h x ih =>
    intro hx y z hy hz h h'
    cases x with
    | vector xs =>
      cases y with
      | vector ys =>
        cases z with
        | vector zs => exact equalsList_trans hx hy hz (fun x hm => ih x (depth_lt_vector hm)) h h'
        | _ => cases h'
      | _ => cases h
    | tuple xs =>
      cases y with
      | tuple ys =>
        cases z with
        | tuple zs => exact equalsList_trans hx hy hz (fun x hm => ih x (depth_lt_vector hm)) h h'
        | _ => cases h'
      | _ => cases h
    | map es =>
      cases y with
      | map fs =>
        cases z with
        | map gs =>
          rw [equals_map_iff hx.1 hy.1] at h
          rw [equals_map_iff hy.1 hz.1] at h'
          rw [equals_map_iff hx.1 hz.1]
          refine ListRelations.trans_of_mem (fun e he f hf g hg hr hr' => ⟨hr.1.trans hr'.1, ?_⟩) h h'
          exact ih e.2 (depth_lt_map he) (keysOrderedEntries_iff.mp hx.2 e he) f.2 g.2
            (keysOrderedEntries_iff.mp hy.2 f hf) (keysOrderedEntries_iff.mp hz.2 g hg) hr.2 hr'.2
        | _ => cases h'
      | _ => cases h
    | struct ms ss =>
      cases y with
      | struct ns ts =>
        cases z with
        | struct os us =>
          rw [equals, Bool.and_eq_true] at h h' ⊢
          exact ⟨equalsList_trans hx.1 hy.1 hz.1 (fun x hm => ih x (depth_lt_members ss hm)) h.1 h'.1,
            equalsList_trans hx.2 hy.2 hz.2 (fun x hm => ih x (depth_lt_bases ms hm)) h.2 h'.2⟩
        | _ => cases h'
      | _ => cases h
    | oneOf k x =>
      cases y with
      | oneOf j y =>
        cases z with
        | oneOf i z =>
          rw [equals, Bool.and_eq_true, decide_eq_true_eq] at h h' ⊢
          exact ⟨h.1.trans h'.1, ih x (Nat.lt_succ_self _) hx y z hy hz h.2 h'.2⟩
        | _ => cases h'
      | _ => cases h
    | present x =>
      cases y with
      | present y =>
        cases z with
        | present z => exact ih x (Nat.lt_succ_self _) hx y z hy hz h h'
        | _ => cases h'
      | _ => cases h
    | decimal d =>
      cases y with
      | decimal e =>
        cases z with
        | decimal f => exact Json.F64.equals_trans h h'
        | _ => cases h'
      | _ => cases h
    | null | absent =>
      cases y with
      | _ => first
        | exact h'
        | cases h
    | oneOfEmpty =>
      cases y with
      | _ => cases h
    | boolean a | integer a | uinteger a | string a | enumeration a =>
      cases y with
      | _ => first
        | cases h
        | (rw [equals, decide_eq_true_eq] at h
           rw [h]
           exact h')

mutual

theorem copy_eq (x : LspValue) : x.copy = x := by
  cases x with
  | vector xs | tuple xs => rw [copy, copyList_eq xs]
  | map es => rw [copy, copyEntries_eq es]
  | oneOf k x => rw [copy, copy_eq x]
  | present x => rw [copy, copy_eq x]
  | struct ms ss => rw [copy, copyList_eq ms, copyList_eq ss]
  | _ => rfl

theorem copyList_eq (xs : List LspValue) : copyList xs = xs := by
  cases xs with
  | nil => rfl
  | cons x xs => rw [copyList, copy_eq x, copyList_eq xs]

theorem copyEntries_eq (es : List (String × LspValue)) : copyEntries es = es := by
  cases es with
  | nil => rfl
  | cons e es =>
    obtain ⟨k, x⟩ := e
    rw [copyEntries, copy_eq x, copyEntries_eq es]

end

/-- The operators `==` are symmetric and transitive on the values of a type. A value without
a NaN is equal to itself, and its copy is equal to it, if and only if every `OneOf` in it
holds a value. -/
theorem equals_equivalence {env : Declarations} {t : LspType} {x y z : LspValue}
    (hx : HasType env t x) (hy : HasType env t y) (hz : HasType env t z) (hn : x.NoNaN) :
    (x.equals x = true ↔ x.AllSet) ∧ (x.copy.equals x = true ↔ x.AllSet) ∧
      (x.equals y = true ↔ y.equals x = true) ∧
      (x.equals y = true → y.equals z = true → x.equals z = true) := by
  have hkx := hx.keysOrdered
  have hky := hy.keysOrdered
  have hself := equals_self_iff x hkx hn
  refine ⟨hself, ?_, ⟨equals_symm x hkx y hky, equals_symm y hky x hkx⟩, ?_⟩
  · rw [copy_eq]
    exact hself
  · exact equals_trans x hkx y z hky hz.keysOrdered

theorem equals_equivalence_string :
    (LspValue.oneOf 1 (.string "a")).equals (.oneOf 1 (.string "a")) = true ↔
      (LspValue.oneOf 1 (.string "a")).AllSet := by
  have h : HasType [] (.oneOf [.integer, .string]) (.oneOf 1 (.string "a")) := .oneOf rfl (.string _)
  exact (equals_equivalence h h h trivial).1

/-- A `OneOf` without a value is not equal to itself or to its copy, and neither is a
default-constructed `ProgressParams`, which contains one. -/
theorem default_progressParams_not_equal_to_itself :
    LspValue.oneOfEmpty.equals .oneOfEmpty = false ∧
      LspValue.oneOfEmpty.copy.equals .oneOfEmpty = false ∧
      (Declarations.default [⟨"ProgressParams", progressParams⟩]
        (.reference "ProgressParams")).equals
        (Declarations.default [⟨"ProgressParams", progressParams⟩]
          (.reference "ProgressParams")) = false := by
  decide

end Laws

end Lsp.LspValue

end Langsvr
