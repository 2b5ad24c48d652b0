import Langsvr.StructureSlots

/-!
# Ordered values

A map is listed in the order of its keys, so that two maps with the same entries are equal.
Every value of a type is ordered in this sense, and so is every default-constructed object.
-/

namespace Langsvr.Lsp

namespace LspValue

mutual

/-- The keys of every map in the value are in order. -/
def KeysOrdered : LspValue → Prop
  | .vector xs | .tuple xs => KeysOrderedList xs
  | .map es => OrderedEntries.Ordered es ∧ KeysOrderedEntries es
  | .oneOf _ x | .present x => x.KeysOrdered
  | .struct ms ss => KeysOrderedList ms ∧ KeysOrderedList ss
  | _ => True

def KeysOrderedList : List LspValue → Prop
  | [] => True
  | x :: xs => x.KeysOrdered ∧ KeysOrderedList xs

def KeysOrderedEntries : List (String × LspValue) → Prop
  | [] => True
  | (_, x) :: es => x.KeysOrdered ∧ KeysOrderedEntries es

end

theorem keysOrderedList_iff {xs : List LspValue} :
    KeysOrderedList xs ↔ ∀ x ∈ xs, x.KeysOrdered := by
  induction xs with
  | nil => simp [KeysOrderedList]
  | cons x xs ih => simp [KeysOrderedList, ih]

theorem keysOrderedEntries_iff {es : List (String × LspValue)} :
    KeysOrderedEntries es ↔ ∀ e ∈ es, e.2.KeysOrdered := by
  induction es with
  | nil => simp [KeysOrderedEntries]
  | cons e es ih =>
    obtain ⟨n, x⟩ := e
    simp [KeysOrderedEntries, ih]

namespace KeysOrderedList

variable {xs : List LspValue}

theorem getD (h : KeysOrderedList xs) (i : ℕ) {y : LspValue} (hy : y.KeysOrdered) :
    (xs.getD i y).KeysOrdered := by
  rw [List.getD_eq_getElem?_getD]
  cases hi : xs[i]? with
  | none => exact hy
  | some x => exact keysOrderedList_iff.mp h x (List.mem_of_getElem? hi)

theorem headD (h : KeysOrderedList xs) : (xs.headD .null).KeysOrdered := by
  cases xs with
  | nil => trivial
  | cons x xs => exact h.1

theorem tail (h : KeysOrderedList xs) : KeysOrderedList xs.tail := by
  cases xs with
  | nil => trivial
  | cons x xs => exact h.2

end KeysOrderedList

namespace KeysOrdered

variable {x : LspValue}

theorem elements (h : x.KeysOrdered) : KeysOrderedList x.elements := by
  cases x with
  | vector xs | tuple xs => exact h
  | _ => trivial

theorem entries (h : x.KeysOrdered) :
    OrderedEntries.Ordered x.entries ∧ KeysOrderedEntries x.entries := by
  cases x with
  | map es => exact h
  | _ => exact ⟨.nil, trivial⟩

theorem members (h : x.KeysOrdered) : KeysOrderedList x.members := by
  cases x with
  | struct ms ss => exact h.1
  | _ => trivial

theorem bases (h : x.KeysOrdered) : KeysOrderedList x.bases := by
  cases x with
  | struct ms ss => exact h.2
  | _ => trivial

end KeysOrdered

end LspValue

section Typed

variable {env : Declarations}

private theorem keysOrdered_struct (ms ss : List LspValue) (hms : ∀ m ∈ ms, m.KeysOrdered)
    (hss : ∀ b ∈ ss, b.KeysOrdered) : (LspValue.struct ms ss).KeysOrdered :=
  ⟨LspValue.keysOrderedList_iff.mpr hms, LspValue.keysOrderedList_iff.mpr hss⟩

theorem keysOrdered_default (env : Declarations) (t : LspType) : (env.default t).KeysOrdered := by
  refine env.of_default (fun x hx => ?_) (fun _ h => LspValue.keysOrderedList_iff.mpr h)
    keysOrdered_struct t
  simp only [LspValue.defaults, List.mem_cons, List.not_mem_nil, or_false] at hx
  rcases hx with rfl | rfl | rfl | rfl | rfl | rfl | rfl | rfl | rfl | rfl | rfl
  all_goals trivial

theorem HasType.keysOrdered {t : LspType} {x : LspValue} (h : HasType env t x) :
    x.KeysOrdered := by
  induction h with
  | vector _ ih => exact LspValue.keysOrderedList_iff.mpr ih
  | @tuple ts xs hl _ ih =>
    refine LspValue.keysOrderedList_iff.mpr fun x hx => ?_
    obtain ⟨i, hi⟩ := List.mem_iff_getElem?.mp hx
    have hlt : i < ts.length := hl ▸ (List.getElem?_eq_some_iff.mp hi).1
    exact ih (ts[i], x) (List.mem_of_getElem?
      (List.getElem?_zip_eq_some.mpr ⟨List.getElem?_eq_getElem hlt, hi⟩))
  | map ho _ ih => exact ⟨ho, LspValue.keysOrderedEntries_iff.mpr ih⟩
  | @reference n x hs _ ih =>
    exact (env.find n).of_slots trivial (fun _ hy => hy) keysOrdered_struct hs ih
  | oneOf _ _ ih | lspAny _ _ ih => exact ih
  | _ => trivial

end Typed

end Langsvr.Lsp
