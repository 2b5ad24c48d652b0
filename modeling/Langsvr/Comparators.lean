import Langsvr.ProtocolExcerpt
import Langsvr.ValueEquality
import Mathlib.Data.Prod.Lex
import Mathlib.Order.Interval.Set.Disjoint
import Mathlib.Order.Interval.Set.LinearOrder

/-!
# Comparison of positions

The comparison of positions is the lexicographic order of their lines and characters, and what a
range contains is an interval of this order.
-/

namespace Langsvr.Lsp

structure Position where
  line : UInt64
  character : UInt64
  deriving DecidableEq

structure Range where
  start : Position
  «end» : Position
  deriving DecidableEq

namespace Position

def compare (a b : Position) : ℤ :=
  if a.line < b.line then -1
  else if a.line > b.line then 1
  else if a.character < b.character then -1
  else if a.character > b.character then 1
  else 0

def less (a b : Position) : Bool := compare a b < 0

def lessEqual (a b : Position) : Bool := compare a b ≤ 0

def greater (a b : Position) : Bool := compare a b > 0

def greaterEqual (a b : Position) : Bool := compare a b ≥ 0

/-- The position as a value of the generated structure. -/
def value (a : Position) : LspValue := .struct [.uinteger a.line, .uinteger a.character] []

/-- What positions are ordered by: the line, and in a line the character. -/
def place (a : Position) : ℕ ×ₗ ℕ := toLex (a.line.toNat, a.character.toNat)

end Position

def containsExclusive (r : Range) (p : Position) : Bool :=
  p.greaterEqual r.start && p.less r.end

def containsInclusive (r : Range) (p : Position) : Bool :=
  p.greaterEqual r.start && p.lessEqual r.end

section Order

variable {a b c p : Position} {r : Range}

theorem slots_position (y z : LspValue) : position.slots (.struct [y, z] []) =
    [("line", .value .uinteger y), ("character", .value .uinteger z)] := rfl

/-- The values of the generated structure are the positions. -/
theorem hasType_position_iff {x : LspValue} :
    HasType protocol (.reference "Position") x ↔ ∃ a : Position, x = a.value := by
  have hfind : protocol.find "Position" = position := rfl
  constructor
  · intro h
    cases h with
    | reference hs hx =>
      rw [hfind] at hs hx
      match x, hs with
      | .struct [y, z] [], _ =>
        simp only [slots_position, List.mem_cons, List.not_mem_nil, or_false] at hx
        cases hx _ _ _ (.inl rfl) with
        | uinteger u =>
          cases hx _ _ _ (.inr rfl) with
          | uinteger v => exact ⟨⟨u, v⟩, rfl⟩
  · rintro ⟨a, rfl⟩
    refine .reference ?_ fun m t y hslot => ?_
    · rw [hfind]
      exact ⟨⟨fun h => absurd h Bool.false_ne_true, fun h => absurd h Bool.false_ne_true, trivial⟩,
        trivial⟩
    · rw [hfind, Position.value, slots_position] at hslot
      simp only [List.mem_cons, List.not_mem_nil, or_false] at hslot
      rcases hslot with hslot | hslot
      · cases hslot
        exact .uinteger _
      · cases hslot
        exact .uinteger _

/-- The operator `==` that is generated for positions compares both members. -/
theorem equals_value_iff : a.value.equals b.value = true ↔ a = b := by
  cases a
  cases b
  simp [Position.value, LspValue.equals, LspValue.equalsList]

theorem place_injective : Function.Injective Position.place := by
  intro a b h
  have hpair := Prod.mk.inj (toLex.injective h)
  cases a
  cases b
  simp only [Position.mk.injEq]
  exact ⟨UInt64.toNat_inj.mp hpair.1, UInt64.toNat_inj.mp hpair.2⟩

theorem place_lt_iff : a.place < b.place ↔
    a.line < b.line ∨ a.line = b.line ∧ a.character < b.character := by
  rw [Position.place, Position.place, Prod.Lex.toLex_lt_toLex, UInt64.lt_iff_toNat_lt,
    UInt64.lt_iff_toNat_lt, UInt64.toNat_inj]

theorem compare_cases (a b : Position) : (a.place < b.place ∧ a.compare b = -1) ∨
    (a = b ∧ a.compare b = 0) ∨ (b.place < a.place ∧ a.compare b = 1) := by
  by_cases hline : a.line < b.line
  · refine .inl ⟨place_lt_iff.mpr (.inl hline), ?_⟩
    rw [Position.compare, if_pos hline]
  by_cases hline' : b.line < a.line
  · refine .inr (.inr ⟨place_lt_iff.mpr (.inl hline'), ?_⟩)
    rw [Position.compare, if_neg hline, if_pos hline']
  have heq : a.line = b.line := UInt64.le_antisymm (UInt64.not_lt.mp hline') (UInt64.not_lt.mp hline)
  by_cases hcharacter : a.character < b.character
  · refine .inl ⟨place_lt_iff.mpr (.inr ⟨heq, hcharacter⟩), ?_⟩
    rw [Position.compare, if_neg hline, if_neg hline', if_pos hcharacter]
  by_cases hcharacter' : b.character < a.character
  · refine .inr (.inr ⟨place_lt_iff.mpr (.inr ⟨heq.symm, hcharacter'⟩), ?_⟩)
    rw [Position.compare, if_neg hline, if_neg hline', if_neg hcharacter, if_pos hcharacter']
  have heq' : a.character = b.character :=
    UInt64.le_antisymm (UInt64.not_lt.mp hcharacter') (UInt64.not_lt.mp hcharacter)
  refine .inr (.inl ⟨?_, ?_⟩)
  · cases a
    cases b
    exact congrArg₂ Position.mk heq heq'
  · rw [Position.compare, if_neg hline, if_neg hline', if_neg hcharacter, if_neg hcharacter']

theorem less_iff : a.less b = true ↔ a.place < b.place := by
  rw [Position.less, decide_eq_true_iff]
  rcases compare_cases a b with ⟨hlt, h⟩ | ⟨rfl, h⟩ | ⟨hlt, h⟩
  · simp [h, hlt]
  · simp [h]
  · simp [h, hlt.le]

theorem lessEqual_iff : a.lessEqual b = true ↔ a.place ≤ b.place := by
  rw [Position.lessEqual, decide_eq_true_iff]
  rcases compare_cases a b with ⟨hlt, h⟩ | ⟨rfl, h⟩ | ⟨hlt, h⟩
  · simp [h, hlt.le]
  · simp [h]
  · simp [h, hlt]

theorem compare_swap (a b : Position) : a.compare b = -b.compare a := by
  rcases compare_cases a b with ⟨hlt, h⟩ | ⟨rfl, h⟩ | ⟨hlt, h⟩
  · rcases compare_cases b a with ⟨hlt', h'⟩ | ⟨rfl, h'⟩ | ⟨hlt', h'⟩
    · exact absurd hlt' hlt.asymm
    · exact absurd hlt (lt_irrefl _)
    · rw [h, h']
  · rw [h, neg_zero]
  · rcases compare_cases b a with ⟨hlt', h'⟩ | ⟨rfl, h'⟩ | ⟨hlt', h'⟩
    · rw [h, h', neg_neg]
    · exact absurd hlt (lt_irrefl _)
    · exact absurd hlt' hlt.asymm

theorem greater_eq : a.greater b = b.less a := by
  rw [Position.greater, Position.less, compare_swap a b]
  simp

theorem greaterEqual_eq : a.greaterEqual b = b.lessEqual a := by
  rw [Position.greaterEqual, Position.lessEqual, compare_swap a b]
  simp

theorem lessEqual_eq : a.lessEqual b = !b.less a := by
  rw [Bool.eq_iff_iff, lessEqual_iff, Bool.not_eq_true', ← Bool.not_eq_true, less_iff, not_lt]

/-- What a range contains without its end is an interval. -/
theorem containsExclusive_iff :
    containsExclusive r p = true ↔ p.place ∈ Set.Ico r.start.place r.end.place := by
  rw [containsExclusive, Bool.and_eq_true, greaterEqual_eq, lessEqual_iff, less_iff, Set.mem_Ico]

theorem containsInclusive_iff :
    containsInclusive r p = true ↔ p.place ∈ Set.Icc r.start.place r.end.place := by
  rw [containsInclusive, Bool.and_eq_true, greaterEqual_eq, lessEqual_iff, lessEqual_iff,
    Set.mem_Icc]

theorem compare_eq_zero_iff : a.compare b = 0 ↔ a.value.equals b.value = true := by
  rw [equals_value_iff]
  rcases compare_cases a b with ⟨hlt, h⟩ | ⟨heq, h⟩ | ⟨hlt, h⟩
  · rw [h]
    exact ⟨fun h => absurd h (by decide), fun heq => absurd hlt (heq ▸ lt_irrefl _)⟩
  · exact ⟨fun _ => heq, fun _ => h⟩
  · rw [h]
    exact ⟨fun h => absurd h (by decide), fun heq => absurd hlt (heq ▸ lt_irrefl _)⟩

theorem less_strictWeakOrder : IsStrictWeakOrder Position fun a b => a.less b = true where
  irrefl a := by
    rw [less_iff]
    exact lt_irrefl _
  trans a b c := by
    rw [less_iff, less_iff, less_iff]
    exact lt_trans
  incomp_trans a b c := by
    simp only [less_iff, not_lt]
    exact fun hab hbc => ⟨hbc.1.trans hab.1, hab.2.trans hbc.2⟩

/-- A range that is cut in two contains what one of the two ranges contains. -/
theorem containsExclusive_split (hab : a.lessEqual b = true) (hbc : b.lessEqual c = true) :
    containsExclusive ⟨a, c⟩ p = true ↔
      Xor (containsExclusive ⟨a, b⟩ p = true) (containsExclusive ⟨b, c⟩ p = true) := by
  rw [lessEqual_iff] at hab hbc
  have hdisjoint : p.place ∈ Set.Ico a.place b.place → p.place ∉ Set.Ico b.place c.place :=
    fun h => Set.disjoint_left.mp Set.Ico_disjoint_Ico_same h
  rw [containsExclusive_iff, containsExclusive_iff, containsExclusive_iff,
    ← Set.Ico_union_Ico_eq_Ico hab hbc, Set.mem_union, Xor]
  constructor
  · rintro (h | h)
    · exact .inl ⟨h, hdisjoint h⟩
    · exact .inr ⟨h, fun h' => hdisjoint h' h⟩
  · rintro (h | h)
    · exact .inl h.1
    · exact .inr h.1

theorem containsInclusive_of_containsExclusive (h : containsExclusive r p = true) :
    containsInclusive r p = true := by
  rw [containsExclusive_iff] at h
  exact containsInclusive_iff.mpr (Set.Ico_subset_Icc_self h)

/-- The end is what the two kinds of ranges differ in. -/
theorem contains_ne_iff (h : r.start.lessEqual r.end = true) :
    containsExclusive r p ≠ containsInclusive r p ↔ p.value.equals r.end.value = true := by
  rw [lessEqual_iff] at h
  rw [equals_value_iff, Ne, Bool.eq_iff_iff, containsExclusive_iff, containsInclusive_iff,
    ← Set.Ico_insert_right h, Set.mem_insert_iff, place_injective.eq_iff]
  constructor
  · intro hne
    by_contra hend
    exact hne ⟨.inr, fun h => h.resolve_left hend⟩
  · rintro rfl heq
    exact lt_irrefl _ (heq.mpr (.inl rfl)).2

/-- Positions are totally ordered, and what a range contains is an interval of the order. -/
theorem positions_ordered :
    (∀ a b : Position, a.compare b = -b.compare a) ∧
    (∀ a b c : Position, a.compare b ≤ 0 → b.compare c ≤ 0 → a.compare c ≤ 0) ∧
    (∀ a b : Position, a.compare b ≤ 0 ∨ b.compare a ≤ 0) ∧
    (∀ a b : Position, a.compare b = 0 ↔ a.value.equals b.value = true) ∧
    IsStrictWeakOrder Position (fun a b => a.less b = true) ∧
    (∀ a b : Position, (a.less b = true ↔ a.compare b < 0) ∧
      (¬ a.less b = true ∧ ¬ b.less a = true ↔ a.compare b = 0) ∧
      a.greater b = b.less a ∧ a.greaterEqual b = b.lessEqual a ∧ a.lessEqual b = !b.less a) ∧
    (∀ a b c p : Position, a.lessEqual b = true → b.lessEqual c = true →
      (containsExclusive ⟨a, c⟩ p = true ↔
        Xor (containsExclusive ⟨a, b⟩ p = true) (containsExclusive ⟨b, c⟩ p = true))) ∧
    (∀ (r : Range) (p : Position), containsExclusive r p = true → containsInclusive r p = true) ∧
    ∀ (r : Range) (p : Position), r.start.lessEqual r.end = true →
      (containsExclusive r p ≠ containsInclusive r p ↔ p.value.equals r.end.value = true) := by
  have hle : ∀ a b : Position, a.compare b ≤ 0 ↔ a.place ≤ b.place := by
    intro a b
    rw [← lessEqual_iff, Position.lessEqual, decide_eq_true_iff]
  refine ⟨compare_swap, fun a b c => ?_, fun a b => ?_, fun a b => compare_eq_zero_iff,
    less_strictWeakOrder,
    fun a b => ⟨decide_eq_true_iff, ?_, greater_eq, greaterEqual_eq, lessEqual_eq⟩,
    fun a b c p => containsExclusive_split, fun r p => containsInclusive_of_containsExclusive,
    fun r p => contains_ne_iff⟩
  · rw [hle, hle, hle]
    exact le_trans
  · rw [hle, hle]
    exact le_total _ _
  · rw [compare_eq_zero_iff, equals_value_iff, less_iff, less_iff, not_lt, not_lt,
      ← place_injective.eq_iff]
    exact ⟨fun h => le_antisymm h.2 h.1, fun h => ⟨h.ge, h.le⟩⟩

/-- A range that is cut at a position in it. -/
theorem positions_ordered_cut : Position.compare ⟨1, 1⟩ ⟨2, 1⟩ ≤ 0 ∧
    (containsExclusive ⟨⟨1, 1⟩, ⟨2, 1⟩⟩ ⟨1, 2⟩ = true ↔
      Xor (containsExclusive ⟨⟨1, 1⟩, ⟨1, 2⟩⟩ ⟨1, 2⟩ = true)
        (containsExclusive ⟨⟨1, 2⟩, ⟨2, 1⟩⟩ ⟨1, 2⟩ = true)) ∧
    containsInclusive ⟨⟨1, 1⟩, ⟨2, 1⟩⟩ ⟨1, 2⟩ = true ∧
    containsExclusive ⟨⟨1, 1⟩, ⟨2, 1⟩⟩ ⟨2, 1⟩ ≠ containsInclusive ⟨⟨1, 1⟩, ⟨2, 1⟩⟩ ⟨2, 1⟩ := by
  obtain ⟨-, htrans, -, -, -, -, hcut, hinclusive, hdiffer⟩ := positions_ordered
  refine ⟨htrans ⟨1, 1⟩ ⟨1, 2⟩ ⟨2, 1⟩ (by decide) (by decide),
    hcut ⟨1, 1⟩ ⟨1, 2⟩ ⟨2, 1⟩ ⟨1, 2⟩ (by decide) (by decide), ?_, ?_⟩
  · exact hinclusive ⟨⟨1, 1⟩, ⟨2, 1⟩⟩ ⟨1, 2⟩ (by decide)
  · exact (hdiffer ⟨⟨1, 1⟩, ⟨2, 1⟩⟩ ⟨2, 1⟩ (by decide)).mpr (by decide)

end Order

end Langsvr.Lsp
