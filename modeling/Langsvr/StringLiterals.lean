import Mathlib.Data.List.TakeWhile
import Mathlib.Data.Set.Finite.Lemmas

/-!
# String literals

The value of a C++ string literal with a given text between its quotes. The text is the value
itself as long as it has no escape sequences and no null character; any other value is shorter
than the text.
-/

namespace Langsvr

namespace StringLiteral

/-- What the next character of a literal belongs to: nothing in particular, or an escape sequence
with the value of its digits so far. Of an octal number and of a universal character name it is
known how many more digits are read. -/
inductive State where
  | text
  | escape
  | octal (left value : ℕ)
  | hexadecimal (value : Option ℕ)
  | universal (left value : ℕ)

def doubleQuote : Char := Char.ofNat 34

def backslash : Char := Char.ofNat 92

def simpleEscapes : List (Char × Char) :=
  [('a', Char.ofNat 7), ('b', Char.ofNat 8), ('t', Char.ofNat 9), ('n', Char.ofNat 10),
    ('v', Char.ofNat 11), ('f', Char.ofNat 12), ('r', Char.ofNat 13), ('?', '?'),
    (Char.ofNat 39, Char.ofNat 39), (doubleQuote, doubleQuote), (backslash, backslash)]

def octalDigit (c : Char) : Option ℕ :=
  if '0' ≤ c ∧ c ≤ '7' then some (c.toNat - '0'.toNat) else none

def hexadecimalDigit (c : Char) : Option ℕ :=
  if '0' ≤ c ∧ c ≤ '9' then some (c.toNat - '0'.toNat)
  else if 'a' ≤ c ∧ c ≤ 'f' then some (c.toNat - 'a'.toNat + 10)
  else if 'A' ≤ c ∧ c ≤ 'F' then some (c.toNat - 'A'.toNat + 10)
  else none

/-- The character with a number. Numbers of code units are read for ASCII characters only. -/
def codeUnit (value : ℕ) : Option Char := if value < 128 then some (Char.ofNat value) else none

def codePoint (value : ℕ) : Option Char :=
  if value.isValidChar then some (Char.ofNat value) else none

namespace State

/-- A character outside of escape sequences. A quote or the end of the line ends the literal. -/
def stepText (c : Char) : Option (List Char × State) :=
  if c = backslash then some ([], .escape)
  else if c = doubleQuote ∨ c = '\n' ∨ c = '\r' then none
  else some ([c], .text)

def stepEscape (c : Char) : Option (List Char × State) :=
  match simpleEscapes.lookup c with
  | some value => some ([value], .text)
  | none =>
    if c = 'x' then some ([], .hexadecimal none)
    else if c = 'u' then some ([], .universal 3 0)
    else if c = 'U' then some ([], .universal 7 0)
    else (octalDigit c).map fun digit => ([], .octal 2 digit)

/-- A character after a complete escape sequence. -/
def stepAfter (value : ℕ) (c : Char) : Option (List Char × State) := do
  let unit ← codeUnit value
  let next ← stepText c
  return (unit :: next.1, next.2)

/-- The characters that are known after the next one, and what follows it. -/
def step : State → Char → Option (List Char × State)
  | .text, c => stepText c
  | .escape, c => stepEscape c
  | .octal left value, c =>
    match left, octalDigit c with
    | left + 1, some digit => some ([], .octal left (8 * value + digit))
    | _, _ => stepAfter value c
  | .hexadecimal value, c =>
    match value, hexadecimalDigit c with
    | value, some digit => some ([], .hexadecimal (some (16 * value.getD 0 + digit)))
    | some value, none => stepAfter value c
    | none, none => none
  | .universal left value, c => do
    let digit ← hexadecimalDigit c
    match left with
    | left + 1 => return ([], .universal left (16 * value + digit))
    | 0 => (codePoint (16 * value + digit)).map fun point => ([point], .text)

def finish : State → Option (List Char)
  | .text => some []
  | .octal _ value | .hexadecimal (some value) => (codeUnit value).map fun unit => [unit]
  | .escape | .hexadecimal none | .universal _ _ => none

def read : State → List Char → Option (List Char)
  | s, [] => s.finish
  | s, c :: cs => do
    let next ← s.step c
    let rest ← read next.2 cs
    return next.1 ++ rest

end State

end StringLiteral

open StringLiteral

/-- The value of the string literal with a text between the quotes, if the text is that of one
literal. The functions that it is passed to take it up to its first null character. -/
def literal (text : String) : Option String :=
  (State.read .text text.toList).map fun cs =>
    String.ofList (cs.takeWhile fun c => c ≠ Char.ofNat 0)

/-- A text without characters that have a meaning of their own in a string literal. -/
def Verbatim (text : String) : Prop :=
  ∀ c ∈ text.toList, c ∉ [backslash, doubleQuote, '\n', '\r', Char.ofNat 0]

instance (text : String) : Decidable (Verbatim text) :=
  List.decidableBAll
    (fun c => c ∉ [backslash, doubleQuote, '\n', '\r', Char.ofNat 0]) text.toList

namespace StringLiteral.State

/-- The characters that a state still stands for. -/
def pending : State → ℕ
  | .text | .escape => 0
  | .octal _ _ | .hexadecimal _ | .universal _ _ => 1

theorem stepText_length {c : Char} {next : List Char × State} (h : stepText c = some next) :
    next.1.length + next.2.pending ≤ 1 := by
  unfold stepText at h
  split_ifs at h
  · cases h
    simp [pending]
  · cases h
    simp [pending]

theorem stepEscape_length {c : Char} {next : List Char × State} (h : stepEscape c = some next) :
    next.1.length + next.2.pending ≤ 1 := by
  unfold stepEscape at h
  split at h
  · cases h
    simp [pending]
  · split_ifs at h
    · cases h
      simp [pending]
    · cases h
      simp [pending]
    · cases h
      simp [pending]
    · obtain ⟨digit, -, rfl⟩ := Option.map_eq_some_iff.mp h
      simp [pending]

theorem stepAfter_length {value : ℕ} {c : Char} {next : List Char × State}
    (h : stepAfter value c = some next) : next.1.length + next.2.pending ≤ 2 := by
  obtain ⟨unit, -, h⟩ := Option.bind_eq_some_iff.mp h
  obtain ⟨after, hafter, h⟩ := Option.bind_eq_some_iff.mp h
  cases h
  have hlength := stepText_length hafter
  simp only [List.length_cons]
  omega

/-- A character adds at most one to what is known and what is still to come. -/
theorem step_length {s : State} {c : Char} {next : List Char × State} (h : s.step c = some next) :
    next.1.length + next.2.pending ≤ s.pending + 1 := by
  cases s with
  | text => exact stepText_length h
  | escape => exact stepEscape_length h
  | octal left value =>
    simp only [step] at h
    split at h
    · cases h
      simp [pending]
    · exact stepAfter_length h
  | hexadecimal value =>
    simp only [step] at h
    split at h
    · cases h
      simp [pending]
    · exact stepAfter_length h
    · cases h
  | universal left value =>
    obtain ⟨digit, -, h⟩ := Option.bind_eq_some_iff.mp h
    cases left with
    | zero =>
      obtain ⟨point, -, rfl⟩ := Option.map_eq_some_iff.mp h
      simp [pending]
    | succ left =>
      cases h
      simp [pending]

theorem finish_length {s : State} {cs : List Char} (h : s.finish = some cs) :
    cs.length ≤ s.pending := by
  unfold finish at h
  split at h
  · cases h
    exact Nat.le_refl 0
  · obtain ⟨unit, -, rfl⟩ := Option.map_eq_some_iff.mp h
    exact Nat.le_refl 1
  · obtain ⟨unit, -, rfl⟩ := Option.map_eq_some_iff.mp h
    exact Nat.le_refl 1
  all_goals cases h

theorem read_length {s : State} {cs out : List Char} (h : s.read cs = some out) :
    out.length ≤ s.pending + cs.length := by
  induction cs generalizing s out with
  | nil => exact finish_length h
  | cons c cs ih =>
    obtain ⟨next, hnext, h⟩ := Option.bind_eq_some_iff.mp h
    obtain ⟨rest, hrest, h⟩ := Option.bind_eq_some_iff.mp h
    cases h
    have hstep := step_length hnext
    have htail := ih hrest
    simp only [List.length_append, List.length_cons]
    omega

/-- A literal has fewer characters than its text, or they are those of the text. -/
theorem read_text {cs out : List Char} (h : State.text.read cs = some out) :
    out.length < cs.length ∨ out = cs ∧ ∀ c ∈ cs, c ∉ [backslash, doubleQuote, '\n', '\r'] := by
  induction cs generalizing out with
  | nil =>
    cases h
    exact .inr ⟨rfl, by simp⟩
  | cons c cs ih =>
    obtain ⟨next, hnext, h⟩ := Option.bind_eq_some_iff.mp h
    obtain ⟨rest, hrest, h⟩ := Option.bind_eq_some_iff.mp h
    cases h
    simp only [step, stepText] at hnext
    split_ifs at hnext with hescape hend
    · cases hnext
      have hlength := read_length hrest
      simp only [pending, Nat.zero_add] at hlength
      exact .inl (Nat.lt_succ_of_le hlength)
    · cases hnext
      rcases ih hrest with hlength | ⟨rfl, hplain⟩
      · exact .inl (Nat.succ_lt_succ hlength)
      · refine .inr ⟨rfl, List.forall_mem_cons.mpr ⟨?_, hplain⟩⟩
        simp only [List.mem_cons, List.not_mem_nil, or_false]
        rintro (hc | hc)
        · exact hescape hc
        · exact hend hc

theorem read_of_plain {cs : List Char}
    (h : ∀ c ∈ cs, c ∉ [backslash, doubleQuote, '\n', '\r', Char.ofNat 0]) :
    State.text.read cs = some cs := by
  induction cs with
  | nil => rfl
  | cons c cs ih =>
    obtain ⟨hc, hcs⟩ := List.forall_mem_cons.mp h
    simp only [List.mem_cons, List.not_mem_nil, or_false, not_or] at hc
    have hstep : State.text.step c = some ([c], .text) := by
      simp only [step, stepText, hc, or_self, if_false]
    simp only [read, hstep, ih hcs, bind, Option.bind]
    rfl

end StringLiteral.State

theorem literal_of_verbatim {text : String} (h : Verbatim text) : literal text = some text := by
  have htake : text.toList.takeWhile (fun c => c ≠ Char.ofNat 0) = text.toList := by
    apply List.takeWhile_eq_self_iff.mpr
    intro c hc
    have hne := h c hc
    simp only [List.mem_cons, List.not_mem_nil, or_false, not_or] at hne
    exact decide_eq_true hne.2.2.2.2
  rw [literal, State.read_of_plain h, Option.map_some, htake, String.ofList_toList]

/-- Any other value is shorter than the text. -/
theorem length_lt_of_literal {text value : String} (h : literal text = some value)
    (ht : ¬ Verbatim text) : value.length < text.length := by
  obtain ⟨cs, hcs, rfl⟩ := Option.map_eq_some_iff.mp h
  rw [String.length_ofList, ← String.length_toList]
  have htake := (List.takeWhile_sublist (fun c => decide (c ≠ Char.ofNat 0)) (l := cs)).length_le
  rcases State.read_text hcs with hlength | ⟨rfl, hplain⟩
  · omega
  · -- the only special character that can be left is the null character
    refine Nat.lt_of_le_of_ne htake fun heq => ht ?_
    intro c hc hspecial
    have hall := List.takeWhile_eq_self_iff.mp
      ((List.takeWhile_sublist _).eq_of_length heq) c hc
    have hne := hplain c hc
    simp only [List.mem_cons, List.not_mem_nil, or_false, not_or, decide_eq_true_eq] at *
    tauto

/-- Texts among which is the text of a literal for each one of them are verbatim, if there are
finitely many: the longest other one would be the value of a longer text. -/
theorem verbatim_of_values {texts : Set String} (hfinite : texts.Finite)
    (h : ∀ value ∈ texts, ∃ text ∈ texts, literal text = some value) :
    ∀ text ∈ texts, Verbatim text := by
  intro text htext
  by_contra hnot
  obtain ⟨longest, ⟨hmem, hspecial⟩, hmax⟩ :=
    Set.exists_max_image {t ∈ texts | ¬ Verbatim t} String.length
      (hfinite.subset (Set.sep_subset _ _)) ⟨text, htext, hnot⟩
  obtain ⟨longer, hlonger, hvalue⟩ := h longest hmem
  have hother : ¬ Verbatim longer := by
    intro hverbatim
    rw [literal_of_verbatim hverbatim, Option.some.injEq] at hvalue
    exact hspecial (hvalue ▸ hverbatim)
  exact absurd (length_lt_of_literal hvalue hother) (Nat.not_lt.mpr (hmax longer ⟨hlonger, hother⟩))

example : literal "a\\u0062\\x63\\0d" = some "abc" := by decide

end Langsvr
