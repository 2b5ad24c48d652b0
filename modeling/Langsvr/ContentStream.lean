import Langsvr.StreamReading
import Mathlib.Algebra.Group.Nat.Defs
import Mathlib.Data.List.Infix

/-!
# The content stream

The framing of messages as bytes. A frame is the header `Content-Length: `, the decimal
length, two line breaks and the content. The texts of this layer are byte strings, and so
are the reasons of its failures, since they quote what has been read. An allocation that
fails is not modelled.
-/

namespace Langsvr.Stream

abbrev Bytes := List UInt8

def text (s : String) : Bytes := s.toUTF8.data.toList

/-- A `Failure` whose reason is a byte string. -/
structure StreamFailure where
  reason : Bytes
  deriving DecidableEq

/-- A byte string that fits in memory. -/
structure ByteString where
  bytes : Bytes
  length_lt : bytes.length < 2 ^ 64

/-- A call on a `Reader`. The stream is what the reader has not read yet. -/
abbrev FromReader (α : Type) := Reading UInt8 StreamFailure α

def failure {α : Type} (reason : Bytes) : FromReader α := Reading.fail ⟨reason⟩

section ReplaceAll

/-- `std::string::find` from a position, for a text that is not empty. -/
def find (substr : Bytes) (str : Bytes) (pos : ℕ) : Option ℕ :=
  (List.range' pos (str.length - pos)).find? fun i => substr.isPrefixOf (str.drop i)

theorem find_bounds {substr str : Bytes} {pos i : ℕ} (h : find substr str pos = some i) :
    pos ≤ i ∧ i < str.length ∧ substr.length ≤ str.length - i := by
  have hm := List.mem_of_find?_eq_some h
  have hp := List.find?_some h
  rw [List.isPrefixOf_iff_prefix] at hp
  have hl := hp.length_le
  rw [List.length_drop] at hl
  rw [List.mem_range'_1] at hm
  omega

/-- The loop of `ReplaceAll`. The search goes on after the text that has been put in. -/
def replaceAllFrom (substr replacement : Bytes) (hs : substr ≠ []) (str : Bytes) (pos : ℕ) :
    Bytes :=
  match _h : find substr str pos with
  | none => str
  | some i =>
    replaceAllFrom substr replacement hs
      (str.take i ++ replacement ++ str.drop (i + substr.length)) (i + replacement.length)
termination_by str.length - pos
decreasing_by
  have hb := find_bounds _h
  have hpos := List.length_pos_iff.mpr hs
  simp only [List.length_append, List.length_take, List.length_drop]
  omega

def replaceAll (str substr replacement : Bytes) (hs : substr ≠ []) : Bytes :=
  replaceAllFrom substr replacement hs str 0

end ReplaceAll

section Reader

/-- `Reader::String`. -/
def readString (len : ℕ) : FromReader Bytes := do
  let out ← Reading.take len
  if out.length ≠ len then failure (text "EOF")
  else return out

def contentLengthHeader : Bytes := text "Content-Length: "

def matchText (str : Bytes) : FromReader Unit := do
  let got ← readString str.length
  if got ≠ str then
    failure (text "expected '" ++ str ++ text "' got '" ++ got ++ text "'")
  else return ()

def isDigit (c : UInt8) : Bool := decide (48 ≤ c) && decide (c ≤ 57)

/-- One digit is appended to the length, modulo the range of its type. -/
def appendDigit (len : UInt64) (c : UInt8) : UInt64 := len * 10 + (c - 48).toUInt64

/-- The loop that reads the digits of the length, up to a carriage return. -/
def readLength (len : UInt64) : FromReader UInt64
  | [] => (.error ⟨text "end of stream while parsing content length"⟩, [])
  | c :: rest =>
    if isDigit c then readLength (appendDigit len c) rest
    else if c = 13 then (.ok len, rest)
    else (.error ⟨text "invalid content length value"⟩, rest)

/-- Line breaks made visible. -/
def visible (s : Bytes) : Bytes :=
  replaceAll (replaceAll s (text "\n") (text "␊") (by decide)) (text "\r") (text "␍") (by decide)

def readContent : FromReader Bytes := do
  matchText contentLengthHeader
  let len ← readLength 0
  let got ← readString 3
  if got ≠ text "\n\r\n" then
    failure (text "expected '␍␊␍␊' got '␍" ++ visible got ++ text "'")
  else readString len.toNat

end Reader

section Writer

def decimal (n : ℕ) : Bytes := (Nat.toDigits 10 n).map fun c => UInt8.ofNat c.toNat

structure BufferWriter where
  buffer : Bytes := []

/-- `BufferWriter::Write`, which always succeeds. -/
def BufferWriter.write (writer : BufferWriter) (bytes : Bytes) :
    Except StreamFailure Unit × BufferWriter :=
  (.ok (), ⟨writer.buffer ++ bytes⟩)

/-- What `WriteContent` collects before it writes. -/
def frame (content : Bytes) : Bytes :=
  contentLengthHeader ++ decimal content.length ++ text "\r\n\r\n" ++ content

def writeContent (writer : BufferWriter) (content : Bytes) :
    Except StreamFailure Unit × BufferWriter :=
  writer.write (frame content)

/-- The buffer after the contents have been written to it in order. -/
def written (contents : List ByteString) : Bytes :=
  (contents.foldl (fun writer c => (writeContent writer c.bytes).2) {}).buffer

end Writer

section Framing

open Reading (Frames Cut)

theorem readString_frames (s : Bytes) : Frames (readString s.length) s s where
  consumes t := by
    simp [readString, Reading.take, Bind.bind, Pure.pure]
  fails q h := by
    have hl : q.length < s.length :=
      lt_of_le_of_ne h.1.length_le fun hl => h.2 (h.1.eq_of_length hl)
    refine ⟨⟨text "EOF"⟩, ?_⟩
    have hne : (q.take s.length).length ≠ s.length := by
      rw [List.length_take]
      omega
    simp only [readString, Reading.take, Bind.bind, hne, ne_eq, not_false_eq_true, if_true]
    rfl

/-- A fixed text is read and compared before the reading goes on. -/
private theorem expect_frames {α : Type} {t : Bytes} {a : α} {k : FromReader α} (str : Bytes)
    (bad : Bytes → FromReader α) (hk : Frames k t a) :
    Frames (do
      let got ← readString str.length
      if got ≠ str then bad got else k) (str ++ t) a := by
  have hcheck : Frames (if str ≠ str then bad str else k) t a := by
    rwa [if_neg (not_not_intro rfl)]
  exact (readString_frames str).bind (f := fun got => if got ≠ str then bad got else k) hcheck

theorem matchText_frames (str : Bytes) : Frames (matchText str) str () := by
  have h := expect_frames str (fun got =>
    failure (text "expected '" ++ str ++ text "' got '" ++ got ++ text "'")) (Frames.pure ())
  rwa [List.append_nil] at h

/-- The digits are read up to the carriage return. -/
theorem readLength_frames (len : UInt64) {ds : Bytes} (hd : ∀ c ∈ ds, isDigit c) :
    Frames (readLength len) (ds ++ [13]) (ds.foldl appendDigit len) := by
  induction ds generalizing len with
  | nil =>
    refine ⟨fun t => rfl, fun q hq => ?_⟩
    have hnil : q = [] := by
      rcases List.prefix_cons_iff.mp hq.1 with rfl | ⟨r, rfl, hr⟩
      · rfl
      · exact absurd (by simpa using hr) (fun h : r = [] => hq.2 (by simp [h]))
    exact ⟨_, by rw [hnil]; rfl⟩
  | cons c ds ih =>
    have hc := hd c (List.mem_cons_self ..)
    have htail := ih (appendDigit len c) fun b hb => hd b (List.mem_cons_of_mem _ hb)
    constructor
    · intro t
      have ht := htail.consumes t
      simp only [List.cons_append, readLength, hc, if_true, ht, List.foldl_cons]
    · intro q hq
      rcases List.prefix_cons_iff.mp hq.1 with rfl | ⟨r, rfl, hr⟩
      · exact ⟨_, rfl⟩
      · obtain ⟨e, he⟩ := htail.fails r ⟨hr, fun h => hq.2 (by simp [h])⟩
        exact ⟨e, by simp only [readLength, hc, if_true, he]⟩

private theorem digit_byte {d : Char} (hd : d.isDigit) : 48 ≤ d.toNat ∧ d.toNat ≤ 57 := by
  simp only [Char.isDigit, Bool.and_eq_true, decide_eq_true_eq, ge_iff_le,
    UInt32.le_iff_toNat_le] at hd
  exact hd

private theorem byte_toNat {n : ℕ} (hn : 48 ≤ n ∧ n ≤ 57) : (UInt8.ofNat n).toNat = n := by
  have hsize : UInt8.size = 256 := rfl
  exact UInt8.toNat_ofNat_of_lt' (by omega)

theorem decimal_isDigit (n : ℕ) : ∀ c ∈ decimal n, isDigit c := by
  intro c hc
  obtain ⟨d, hd, rfl⟩ := List.mem_map.mp hc
  have hdigit := digit_byte (Nat.isDigit_of_mem_toDigits (by omega) (by omega) hd)
  have hbyte := byte_toNat hdigit
  simp only [isDigit, Bool.and_eq_true, decide_eq_true_eq, UInt8.le_iff_toNat_le, hbyte]
  exact hdigit

private theorem foldl_appendDigit (ds : List Char) (hd : ∀ d ∈ ds, d.isDigit) (m : ℕ) :
    (ds.map fun c => UInt8.ofNat c.toNat).foldl appendDigit (UInt64.ofNat m) =
      UInt64.ofNat (Nat.ofDigitChars 10 ds m) := by
  induction ds generalizing m with
  | nil => simp
  | cons d ds ih =>
    have hdigit := digit_byte (hd d (List.mem_cons_self ..))
    have hstep : appendDigit (UInt64.ofNat m) (UInt8.ofNat d.toNat) =
        UInt64.ofNat (10 * m + (d.toNat - 48)) := by
      have hsub : (UInt8.ofNat d.toNat - 48).toUInt64 = UInt64.ofNat (d.toNat - 48) := by
        have hbyte : (UInt8.ofNat d.toNat).toNat = d.toNat := byte_toNat hdigit
        have hle : 48 ≤ UInt8.ofNat d.toNat := by
          rw [UInt8.le_iff_toNat_le, hbyte]
          exact hdigit.1
        apply UInt64.toNat.inj
        rw [UInt8.toNat_toUInt64, UInt8.toNat_sub_of_le _ _ hle, hbyte,
          UInt64.toNat_ofNat_of_lt' (by have hsize : UInt64.size = 2 ^ 64 := rfl; omega)]
        rfl
      rw [appendDigit, hsub, Nat.mul_comm, UInt64.ofNat_add, UInt64.ofNat_mul]
      rfl
    rw [List.map_cons, List.foldl_cons, hstep, ih (fun c hc => hd c (List.mem_cons_of_mem _ hc)),
      Nat.ofDigitChars_cons]
    rfl

/-- Reading the digits of a decimal length gives that length. -/
theorem decimal_value (n : ℕ) : (decimal n).foldl appendDigit 0 = UInt64.ofNat n := by
  have h := foldl_appendDigit (Nat.toDigits 10 n)
    (fun d hd => Nat.isDigit_of_mem_toDigits (by omega) (by omega) hd) 0
  rwa [Nat.ofDigitChars_ten_toDigits] at h

theorem readContent_frames (content : ByteString) :
    Frames readContent (frame content.bytes) content.bytes := by
  have hlen : (UInt64.ofNat content.bytes.length).toNat = content.bytes.length :=
    UInt64.toNat_ofNat_of_lt' content.length_lt
  have hbody : Frames (readString (UInt64.ofNat content.bytes.length).toNat) content.bytes
      content.bytes := by
    rw [hlen]
    exact readString_frames content.bytes
  have hbreaks := expect_frames (text "\n\r\n") (fun got =>
    failure (text "expected '␍␊␍␊' got '␍" ++ visible got ++ text "'")) hbody
  have hdigits := readLength_frames 0 (decimal_isDigit content.bytes.length)
  rw [decimal_value] at hdigits
  have hframe : frame content.bytes = contentLengthHeader ++ (decimal content.bytes.length ++ [13] ++
      (text "\n\r\n" ++ content.bytes)) := by
    have hcr : text "\r\n\r\n" = [13] ++ text "\n\r\n" := by decide
    simp only [frame, hcr, List.append_assoc]
  rw [hframe]
  unfold readContent
  exact Frames.bind (matchText_frames contentLengthHeader) (Frames.bind hdigits hbreaks)

theorem written_eq (contents : List ByteString) :
    written contents = contents.flatMap fun c => frame c.bytes := by
  have hfold : ∀ (writer : BufferWriter) (cs : List ByteString),
      (cs.foldl (fun writer c => (writeContent writer c.bytes).2) writer).buffer =
        writer.buffer ++ cs.flatMap fun c => frame c.bytes := by
    intro writer cs
    induction cs generalizing writer with
    | nil => simp
    | cons c cs ih =>
      have hc : (writeContent writer c.bytes).2.buffer = writer.buffer ++ frame c.bytes := rfl
      rw [List.foldl_cons, ih, hc, List.flatMap_cons, List.append_assoc]
  simpa [written] using hfold {} contents

/-- The contents that were written are read back in order, and a frame that is cut short
fails. -/
theorem read_written_contents (contents : List ByteString) (next : ByteString) {p : Bytes}
    (hp : p <+: written [next]) (hne : p ≠ written [next]) :
    ∃ e, Reading.outcomes readContent (contents.length + 1) (written contents ++ p) =
      contents.map (fun c => .ok c.bytes) ++ [.error e] := by
  rw [written_eq] at hp hne ⊢
  rw [List.flatMap_singleton] at hp hne
  exact Frames.outcomes_flatMap readContent_frames contents ⟨hp, hne⟩

/-- An empty content, one that contains a header, and a frame that is cut in its digits. -/
theorem read_written_contents_nested :
    ∃ e, Reading.outcomes readContent 3
        (written [⟨[], by decide⟩, ⟨text "Content-Length: 1\r\n\r\n", by decide⟩] ++
          text "Content-Length: 1") =
      [.ok [], .ok (text "Content-Length: 1\r\n\r\n"), .error e] :=
  read_written_contents [⟨[], by decide⟩, ⟨text "Content-Length: 1\r\n\r\n", by decide⟩]
    ⟨text "0123456789", by decide⟩ (by decide) (by decide)

end Framing

end Langsvr.Stream
