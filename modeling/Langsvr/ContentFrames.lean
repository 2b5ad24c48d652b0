import Langsvr.ContentStream

/-!
# The frames that are accepted

`ReadContent` succeeds on a header, digits, two line breaks and as many bytes as the
digits say, read modulo the range of the length. The value of a numeral without a bound
is compared with the length that is read.
-/

namespace Langsvr.Stream

section Accepting

variable {s t : Bytes}

theorem readString_eq_ok {n : ℕ} {out : Bytes} :
    readString n s = (.ok out, t) ↔ s = out ++ t ∧ out.length = n := by
  unfold readString
  rw [Reading.bind_eq_ok]
  constructor
  · intro h
    obtain ⟨a, u, ha, h⟩ := h
    cases ha
    split at h
    · cases h
    · next hl =>
      cases h
      exact ⟨(List.take_append_drop n s).symm, not_not.mp hl⟩
  · intro h
    obtain ⟨rfl, rfl⟩ := h
    refine ⟨out, t, ?_, ?_⟩
    · simp [Reading.take]
    · rw [if_neg (not_not_intro rfl)]
      rfl

/-- A fixed text is read and compared, and then the reading goes on. -/
private theorem expect_eq_ok {α : Type} {a : α} {k : FromReader α} {bad : Bytes → FromReader α}
    (str : Bytes) (hbad : ∀ got u, bad got u ≠ (.ok a, t)) :
    (do
      let got ← readString str.length
      if got ≠ str then bad got else k) s = (.ok a, t) ↔
      ∃ u, s = str ++ u ∧ k u = (.ok a, t) := by
  rw [Reading.bind_eq_ok]
  simp only [readString_eq_ok]
  constructor
  · intro h
    obtain ⟨got, u, ⟨rfl, -⟩, h⟩ := h
    split at h
    · exact absurd h (hbad got u)
    · next he =>
      rw [not_not.mp he]
      exact ⟨u, rfl, h⟩
  · intro h
    obtain ⟨u, rfl, h⟩ := h
    refine ⟨str, u, ⟨rfl, rfl⟩, ?_⟩
    rw [if_neg (not_not_intro rfl)]
    exact h

theorem matchText_eq_ok {str : Bytes} {u : Unit} :
    matchText str s = (.ok u, t) ↔ s = str ++ t := by
  refine (expect_eq_ok (k := pure ()) str ?_).trans ?_
  · intro got r h
    cases h
  · simp [pure]

theorem readLength_eq_ok {len n : UInt64} : readLength len s = (.ok n, t) ↔
    ∃ ds, s = ds ++ 13 :: t ∧ (∀ c ∈ ds, isDigit c) ∧ n = ds.foldl appendDigit len := by
  induction s generalizing len with
  | nil => simp [readLength]
  | cons c s ih =>
    by_cases hc : isDigit c
    · simp only [readLength, hc, if_true, ih]
      constructor
      · intro h
        obtain ⟨ds, rfl, hd, rfl⟩ := h
        refine ⟨c :: ds, rfl, ?_, rfl⟩
        intro b hb
        rcases List.mem_cons.mp hb with rfl | hb
        · exact hc
        · exact hd b hb
      · intro h
        obtain ⟨ds, hs, hd, rfl⟩ := h
        cases ds with
        | nil =>
          rw [(List.cons.inj hs).1] at hc
          exact absurd hc (by decide)
        | cons d ds =>
          obtain ⟨rfl, rfl⟩ := List.cons.inj hs
          exact ⟨ds, rfl, fun b hb => hd b (List.mem_cons_of_mem _ hb), rfl⟩
    · have hds : ∀ ds : Bytes, c :: s = ds ++ 13 :: t → (∀ b ∈ ds, isDigit b) → ds = [] := by
        intro ds hs hd
        cases ds with
        | nil => rfl
        | cons d ds =>
          obtain ⟨rfl, -⟩ := List.cons.inj hs
          exact absurd (hd c (List.mem_cons_self ..)) hc
      simp only [readLength, if_neg hc]
      constructor
      · intro h
        split at h
        · next hcr =>
          cases h
          exact ⟨[], by rw [hcr]; rfl, by simp, rfl⟩
        · cases h
      · intro h
        obtain ⟨ds, hs, hd, rfl⟩ := h
        obtain rfl := hds ds hs hd
        obtain ⟨rfl, rfl⟩ := List.cons.inj hs
        rfl

theorem readContent_eq_ok {content : Bytes} : readContent s = (.ok content, t) ↔
    ∃ ds, s = contentLengthHeader ++ (ds ++ (text "\r\n\r\n" ++ (content ++ t))) ∧
      (∀ c ∈ ds, isDigit c) ∧ content.length = (ds.foldl appendDigit 0).toNat := by
  have hbody : ∀ (n : UInt64) (u : Bytes), (do
      let got ← readString 3
      if got ≠ text "\n\r\n" then
        failure (text "expected '␍␊␍␊' got '␍" ++ visible got ++ text "'")
      else readString n.toNat) u = (.ok content, t) ↔
        u = text "\n\r\n" ++ (content ++ t) ∧ content.length = n.toNat := by
    intro n u
    refine (expect_eq_ok (k := readString n.toNat) (text "\n\r\n") ?_).trans ?_
    · intro got r h
      cases h
    simp only [readString_eq_ok]
    constructor
    · intro h
      obtain ⟨w, rfl, rfl, hl⟩ := h
      exact ⟨rfl, hl⟩
    · intro h
      obtain ⟨rfl, hl⟩ := h
      exact ⟨_, rfl, rfl, hl⟩
  have hcr : text "\r\n\r\n" = 13 :: text "\n\r\n" := by decide
  unfold readContent
  rw [Reading.bind_eq_ok]
  simp only [matchText_eq_ok, Reading.bind_eq_ok, readLength_eq_ok, hbody, hcr]
  constructor
  · intro h
    obtain ⟨-, _, rfl, n, _, ⟨ds, rfl, hd, rfl⟩, rfl, hl⟩ := h
    exact ⟨ds, rfl, hd, hl⟩
  · intro h
    obtain ⟨ds, rfl, hd, hl⟩ := h
    exact ⟨(), _, rfl, _, _, ⟨ds, rfl, hd, rfl⟩, rfl, hl⟩

end Accepting

section Lengths

/-- The digits after the header, as many as there are. -/
def lengthDigits (s : Bytes) : Bytes := (s.drop contentLengthHeader.length).takeWhile isDigit

/-- What follows the digits. -/
def afterDigits (s : Bytes) : Bytes := (s.drop contentLengthHeader.length).dropWhile isDigit

/-- The value of a numeral as an unbounded number. -/
def numeral (ds : Bytes) : ℕ := ds.foldl (fun n c => n * 10 + (c.toNat - 48)) 0

theorem appendDigit_toNat {len : UInt64} {c : UInt8} (hc : isDigit c) :
    (appendDigit len c).toNat = (len.toNat * 10 + (c.toNat - 48)) % 2 ^ 64 := by
  simp only [isDigit, Bool.and_eq_true, decide_eq_true_eq] at hc
  have hsub : ((c - 48).toUInt64).toNat = c.toNat - 48 := by
    rw [UInt8.toNat_toUInt64, UInt8.toNat_sub_of_le _ _ hc.1]
    rfl
  rw [appendDigit, UInt64.toNat_add, UInt64.toNat_mul, hsub]
  have hten : (10 : UInt64).toNat = 10 := rfl
  rw [hten]
  omega

/-- The length that is read is the value of the numeral modulo the range of the type. -/
theorem foldl_appendDigit_toNat {ds : Bytes} (hd : ∀ c ∈ ds, isDigit c) :
    (ds.foldl appendDigit 0).toNat = numeral ds % 2 ^ 64 := by
  have hfold : ∀ (ds : Bytes) (len : UInt64) (n : ℕ), (∀ c ∈ ds, isDigit c) →
      len.toNat = n % 2 ^ 64 → (ds.foldl appendDigit len).toNat =
        ds.foldl (fun n c => n * 10 + (c.toNat - 48)) n % 2 ^ 64 := by
    intro ds
    induction ds with
    | nil => exact fun _ _ _ h => h
    | cons c ds ih =>
      intro len n hd hn
      refine ih _ _ (fun b hb => hd b (List.mem_cons_of_mem _ hb)) ?_
      rw [appendDigit_toNat (hd c (List.mem_cons_self ..)), hn]
      show _ = (n * 10 + (c.toNat - 48)) % 2 ^ 64
      omega
  exact hfold ds 0 0 hd rfl

variable {s t content : Bytes}

/-- An accepted stream, taken apart by the digits after its header. -/
private theorem accepted_iff : readContent s = (.ok content, t) ↔
    contentLengthHeader <+: s ∧ afterDigits s = text "\r\n\r\n" ++ (content ++ t) ∧
      content.length = numeral (lengthDigits s) % 2 ^ 64 := by
  rw [readContent_eq_ok]
  constructor
  · intro h
    obtain ⟨ds, rfl, hd, hl⟩ := h
    have hstop : (text "\r\n\r\n" ++ (content ++ t)).takeWhile isDigit = [] := rfl
    have hrest : (text "\r\n\r\n" ++ (content ++ t)).dropWhile isDigit =
        text "\r\n\r\n" ++ (content ++ t) := rfl
    have hdigits : lengthDigits (contentLengthHeader ++
        (ds ++ (text "\r\n\r\n" ++ (content ++ t)))) = ds := by
      rw [lengthDigits, List.drop_left, List.takeWhile_append_of_pos hd, hstop, List.append_nil]
    have hafter : afterDigits (contentLengthHeader ++
        (ds ++ (text "\r\n\r\n" ++ (content ++ t)))) = text "\r\n\r\n" ++ (content ++ t) := by
      rw [afterDigits, List.drop_left, List.dropWhile_append_of_pos hd, hrest]
    rw [hdigits, hafter, hl, foldl_appendDigit_toNat hd]
    exact ⟨List.prefix_append _ _, rfl, rfl⟩
  · intro h
    obtain ⟨⟨u, rfl⟩, ha, hl⟩ := h
    have hd : ∀ c ∈ lengthDigits (contentLengthHeader ++ u), isDigit c := by
      exact List.all_eq_true.mp List.all_takeWhile
    refine ⟨lengthDigits (contentLengthHeader ++ u), ?_, hd, ?_⟩
    · rw [← ha, lengthDigits, afterDigits, List.drop_left, List.takeWhile_append_dropWhile]
    · rw [hl, foldl_appendDigit_toNat hd]

/-- A stream is rejected if the header is missing, or if its digits are not followed by a
line break. A stream with digits that denote a number in range is accepted if two line
breaks and that many bytes follow. These bytes are the content, and no more is consumed. -/
theorem readContent_accepts_frames (s : Bytes) :
    (¬ contentLengthHeader <+: s ∨ (afterDigits s).head? ≠ some 13 →
      ∃ e, (readContent s).1 = .error e) ∧
    (contentLengthHeader <+: s → numeral (lengthDigits s) < 2 ^ 64 →
      ((∃ content t, readContent s = (.ok content, t)) ↔
        text "\r\n\r\n" <+: afterDigits s ∧
          numeral (lengthDigits s) ≤ ((afterDigits s).drop 4).length) ∧
      ∀ content t, readContent s = (.ok content, t) →
        content = ((afterDigits s).drop 4).take (numeral (lengthDigits s)) ∧
          t = ((afterDigits s).drop 4).drop (numeral (lengthDigits s))) := by
  constructor
  · intro h
    cases hr : readContent s with
    | mk o t =>
      cases o with
      | error e => exact ⟨e, rfl⟩
      | ok content =>
        obtain ⟨hp, ha, -⟩ := accepted_iff.mp hr
        rcases h with h | h
        · exact absurd hp h
        · rw [ha] at h
          exact absurd rfl h
  · intro hp hn
    have hbody : ∀ content t, readContent s = (.ok content, t) →
        (afterDigits s).drop 4 = content ++ t ∧ content.length = numeral (lengthDigits s) := by
      intro content t h
      obtain ⟨-, ha, hl⟩ := accepted_iff.mp h
      rw [Nat.mod_eq_of_lt hn] at hl
      rw [ha]
      exact ⟨rfl, hl⟩
    refine ⟨⟨fun h => ?_, fun h => ?_⟩, fun content t h => ?_⟩
    · obtain ⟨content, t, h⟩ := h
      obtain ⟨hd, hl⟩ := hbody content t h
      obtain ⟨-, ha, -⟩ := accepted_iff.mp h
      refine ⟨⟨content ++ t, ha.symm⟩, ?_⟩
      rw [hd, List.length_append]
      omega
    · obtain ⟨⟨u, hu⟩, hl⟩ := h
      have hdrop : (afterDigits s).drop 4 = u := by rw [← hu]; rfl
      rw [hdrop] at hl
      refine ⟨u.take (numeral (lengthDigits s)), u.drop (numeral (lengthDigits s)),
        accepted_iff.mpr ⟨hp, ?_, ?_⟩⟩
      · rw [List.take_append_drop, hu]
      · rw [List.length_take, Nat.mod_eq_of_lt hn]
        omega
    · obtain ⟨hd, hl⟩ := hbody content t h
      rw [hd, ← hl, List.take_left, List.drop_left]
      exact ⟨rfl, rfl⟩

/-- A frame with leading zeros before the length, and a stream without a header. -/
theorem readContent_leading_zeros :
    readContent (text "Content-Length: 003\r\n\r\nabcd") = (.ok (text "abc"), text "d") ∧
      ∃ e, (readContent (text "apples")).1 = .error e := by
  have hframe := readContent_accepts_frames (text "Content-Length: 003\r\n\r\nabcd")
  have happles := readContent_accepts_frames (text "apples")
  obtain ⟨content, t, h⟩ := (hframe.2 (by decide) (by decide)).1.mpr (by decide)
  obtain ⟨hc, ht⟩ := (hframe.2 (by decide) (by decide)).2 content t h
  refine ⟨?_, happles.1 (.inl (by decide))⟩
  rw [h, hc, ht]
  decide

/-- The length that is honoured is the length that was written if and only if the numeral
has a digit and its value is in the range of the length. -/
theorem readContent_honours_length (h : readContent s = (.ok content, t)) :
    (lengthDigits s ≠ [] ∧ numeral (lengthDigits s) = content.length) ↔
      lengthDigits s ≠ [] ∧ numeral (lengthDigits s) < 2 ^ 64 := by
  obtain ⟨-, -, hl⟩ := accepted_iff.mp h
  have hlt := Nat.mod_lt (numeral (lengthDigits s)) (show 2 ^ 64 > 0 by decide)
  constructor
  · intro h
    exact ⟨h.1, by omega⟩
  · intro h
    exact ⟨h.1, by rw [hl, Nat.mod_eq_of_lt h.2]⟩

theorem readContent_honours_eleven :
    (lengthDigits (text "Content-Length: 11\r\n\r\nhello world") ≠ [] ∧
      numeral (lengthDigits (text "Content-Length: 11\r\n\r\nhello world")) = 11) ↔
      lengthDigits (text "Content-Length: 11\r\n\r\nhello world") ≠ [] ∧
        numeral (lengthDigits (text "Content-Length: 11\r\n\r\nhello world")) < 2 ^ 64 := by
  have h : readContent (text "Content-Length: 11\r\n\r\nhello world") =
      (.ok (text "hello world"), []) := by decide
  exact readContent_honours_length h

/-- No digit is read as the length zero, and so is the numeral of `2 ^ 64`. -/
theorem readContent_lengths_not_honoured :
    readContent (text "Content-Length: \r\n\r\n") = (.ok [], []) ∧
      lengthDigits (text "Content-Length: \r\n\r\n") = [] ∧
      readContent (text "Content-Length: 18446744073709551616\r\n\r\n") = (.ok [], []) ∧
      numeral (lengthDigits (text "Content-Length: 18446744073709551616\r\n\r\n")) = 2 ^ 64 := by
  decide

end Lengths

end Langsvr.Stream
