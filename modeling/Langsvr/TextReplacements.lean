import Langsvr.ContentStream
import Langsvr.Occurrences

/-!
# Replacements in texts

`ReplaceAll` splits a text at the leftmost occurrences of another one and joins the parts with the
replacement. It does not search what it has put in.
-/

namespace Langsvr.Stream

open Occurrences (OccursAt Splits occursAt_append)

variable {substr replacement str : Bytes} {pos i : ℕ}

theorem find_eq_some (h : find substr str pos = some i) :
    pos ≤ i ∧ OccursAt substr str i ∧ ∀ k, pos ≤ k → k < i → ¬ OccursAt substr str k := by
  obtain ⟨hi, hmem, hfirst⟩ := List.find?_range'_eq_some.mp h
  refine ⟨(List.mem_range'_1.mp hmem).1, List.isPrefixOf_iff_prefix.mp hi, fun k hle hlt hk => ?_⟩
  have hnot := hfirst k hle hlt
  rw [List.isPrefixOf_iff_prefix.mpr hk] at hnot
  cases hnot

/-- A search that fails has missed no occurrence. -/
theorem find_eq_none (hs : substr ≠ []) (h : find substr str pos = none) {k : ℕ} (hk : pos ≤ k) :
    ¬ OccursAt substr str k := by
  intro hoccurs
  have hlt := hoccurs.lt_length hs
  have hnot := List.find?_range'_eq_none.mp h k hk (by omega)
  rw [List.isPrefixOf_iff_prefix.mpr hoccurs] at hnot
  cases hnot

/-- What is before the position of the loop stays. What is behind it is split at the occurrences in
it, and its parts are joined. -/
theorem replaceAllFrom_spec (hs : substr ≠ []) (done rest : Bytes) : ∃ parts,
    Splits substr rest parts ∧ replaceAllFrom substr replacement hs (done ++ rest) done.length =
      done ++ replacement.intercalate parts := by
  -- on the length of what has not been searched
  induction hn : rest.length using Nat.strong_induction_on generalizing done rest with
  | _ n ih =>
    subst hn
    rw [replaceAllFrom.eq_def]
    split
    · next hfind =>
      refine ⟨[rest], .last fun k hk => ?_, by rw [List.intercalate_singleton]⟩
      exact find_eq_none hs hfind (Nat.le_add_right _ _) (occursAt_append.mpr hk)
    · next i hfind =>
      obtain ⟨hle, hoccurs, hfirst⟩ := find_eq_some hfind
      obtain ⟨j, rfl⟩ := Nat.exists_eq_add_of_le hle
      rw [occursAt_append] at hoccurs
      have hcut := hoccurs.eq_append
      have hlt := hoccurs.lt_length hs
      have hpos := List.length_pos_iff.mpr hs
      have htail : (rest.drop (j + substr.length)).length < rest.length := by
        rw [List.length_drop]
        omega
      obtain ⟨parts, hparts, hrun⟩ := ih _ htail (done ++ rest.take j ++ replacement)
        (rest.drop (j + substr.length)) rfl
      refine ⟨rest.take j :: parts, ?_, ?_⟩
      · have hbefore : ∀ k, k < (rest.take j).length →
            ¬ OccursAt substr (rest.take j ++ substr ++ rest.drop (j + substr.length)) k := by
          intro k hk hoccurs
          rw [List.length_take] at hk
          rw [← hcut] at hoccurs
          exact hfirst (done.length + k) (Nat.le_add_right _ _) (by omega)
            (occursAt_append.mpr hoccurs)
        have hsplits := Splits.cut hbefore hparts
        rwa [← hcut] at hsplits
      · have htake : (done ++ rest).take (done.length + j) = done ++ rest.take j :=
          List.take_length_add_append j
        have hdrop : (done ++ rest).drop (done.length + j + substr.length) =
            rest.drop (j + substr.length) := by
          rw [Nat.add_assoc, List.drop_length_add_append]
        have hend : done.length + j + replacement.length =
            (done ++ rest.take j ++ replacement).length := by
          simp only [List.length_append, List.length_take]
          omega
        rw [htake, hdrop, hend, hrun, List.intercalate_cons_of_ne_nil hparts.ne_nil]
        simp only [List.append_assoc]

/-- `ReplaceAll` ends, and it replaces the leftmost occurrences, which do not overlap. What is
before the position of the loop is not searched. -/
theorem replaceAll_splits (str substr replacement : Bytes) (hs : substr ≠ []) :
    (∃ parts, (∀ qs, Splits substr str qs ↔ qs = parts) ∧ substr.intercalate parts = str ∧
      replaceAll str substr replacement hs = replacement.intercalate parts) ∧
    ∀ done, replaceAllFrom substr replacement hs (done ++ str) done.length =
      done ++ replaceAll str substr replacement hs := by
  obtain ⟨parts, hparts, hrun⟩ := @replaceAllFrom_spec substr replacement hs [] str
  have hjoined : replaceAll str substr replacement hs = replacement.intercalate parts := hrun
  refine ⟨⟨parts, fun qs => ⟨fun h => h.unique hparts, fun h => h ▸ hparts⟩,
    hparts.intercalate_eq, hjoined⟩, fun done => ?_⟩
  obtain ⟨parts', hparts', hrun'⟩ := @replaceAllFrom_spec substr replacement hs done str
  rw [hrun', hjoined, hparts'.unique hparts]

/-- A replacement that contains the text that is searched for. -/
theorem replaceAll_splits_newline :
    replaceAll (text "a\n\nb") (text "\n") (text "\n>") (by decide) = text "a\n>\n>b" ∧
    ∃ parts, (∀ qs, Splits (text "\n") (text "a\n\nb") qs ↔ qs = parts) ∧
      text "a\n>\n>b" = (text "\n>").intercalate parts := by
  have hrun : replaceAll (text "a\n\nb") (text "\n") (text "\n>") (by decide) =
      text "a\n>\n>b" := by
    decide +kernel
  obtain ⟨⟨parts, hsplits, -, hjoined⟩, -⟩ :=
    replaceAll_splits (text "a\n\nb") (text "\n") (text "\n>") (by decide)
  exact ⟨hrun, parts, hsplits, hrun ▸ hjoined⟩

end Langsvr.Stream
