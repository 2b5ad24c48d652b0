import Langsvr.DecodingRules
import Langsvr.EncodingRules

/-!
# Tuples

The tuple codecs infer success from an empty error text. Since every failure has a reason, they
succeed exactly when the codecs of all components do.
-/

namespace Langsvr.Lsp

open Json (Value)
open ListRelations

variable {env : Declarations} {ts : List LspType}

theorem decode_tuple_accepts {v : Value} {outs : List LspValue} (ho : outs.length = ts.length) :
    (∃ y, decode env (.tuple ts) v (.tuple outs) = .ok y) ↔
      ∃ vs, v = .arrayValue vs ∧ vs.length = ts.length ∧
        ∀ (i : ℕ) (t : LspType) (e : Value) (o : LspValue), ts[i]? = some t → vs[i]? = some e →
          outs[i]? = some o → ∃ x, decode env t e o = .ok x := by
  constructor
  · intro h
    obtain ⟨y, hy⟩ := h
    obtain ⟨vs, xs, rfl, -, hl, -, hxs⟩ := decode_tuple.mp hy
    refine ⟨vs, rfl, hl, ?_⟩
    intro i t e o ht he hout
    obtain ⟨e', x, he', -, hx⟩ := hxs i t ht
    rw [he] at he'
    cases he'
    have hheld : (LspValue.tuple outs).elements.getD i .null = o := by
      simp [LspValue.elements, hout]
    exact ⟨x, hheld ▸ hx⟩
  · intro h
    obtain ⟨vs, rfl, hl, hvs⟩ := h
    have hcomponent : ∀ i t, ts[i]? = some t → ∃ x, ∃ e, vs[i]? = some e ∧
        decode env t e ((LspValue.tuple outs).elements.getD i .null) = .ok x := by
      intro i t ht
      obtain ⟨e, he⟩ := exists_getElem?_of_length_eq hl.symm ht
      obtain ⟨o, hout⟩ := exists_getElem?_of_length_eq ho.symm ht
      obtain ⟨x, hx⟩ := hvs i t e o ht he hout
      have hheld : (LspValue.tuple outs).elements.getD i .null = o := by
        simp [LspValue.elements, hout]
      exact ⟨x, e, he, hheld ▸ hx⟩
    obtain ⟨xs, hxl, hxs⟩ := exists_list_of_getElem? hcomponent
    refine ⟨.tuple xs, decode_tuple.mpr ⟨vs, xs, rfl, rfl, hl, hxl, ?_⟩⟩
    intro i t ht
    obtain ⟨x, hx, e, he, hd⟩ := hxs i t ht
    exact ⟨e, x, he, hx, hd⟩

theorem decode_tuple_components {v : Value} {outs : List LspValue} {y : LspValue}
    (h : decode env (.tuple ts) v (.tuple outs) = .ok y) :
    ∃ vs xs, v = .arrayValue vs ∧ y = .tuple xs ∧ xs.length = ts.length ∧
      ∀ (i : ℕ) (t : LspType) (e : Value) (o : LspValue), ts[i]? = some t → vs[i]? = some e →
        outs[i]? = some o → ∃ x, xs[i]? = some x ∧ decode env t e o = .ok x := by
  obtain ⟨vs, xs, rfl, rfl, -, hxl, hxs⟩ := decode_tuple.mp h
  refine ⟨vs, xs, rfl, rfl, hxl, ?_⟩
  intro i t e o ht he hout
  obtain ⟨e', x, he', hx, hd⟩ := hxs i t ht
  rw [he] at he'
  cases he'
  have hheld : (LspValue.tuple outs).elements.getD i .null = o := by
    simp [LspValue.elements, hout]
  exact ⟨x, hx, hheld ▸ hd⟩

theorem encode_tuple_accepts {xs : List LspValue} :
    (∃ j, encode env (.tuple ts) (.tuple xs) = .success j) ↔
      ∀ (i : ℕ) (t : LspType) (x : LspValue), ts[i]? = some t → xs[i]? = some x →
        ∃ j, encode env t x = .success j := by
  have hlist : (∃ j, encode env (.tuple ts) (.tuple xs) = .success j) ↔
      ∃ vs, List.Forall₂ (fun (p : LspType × LspValue) v => encode env p.1 p.2 = .success v)
        (ts.zip xs) vs := by
    simp only [encode_tuple]
    constructor
    · intro h
      obtain ⟨j, vs, -, hvs⟩ := h
      exact ⟨vs, hvs⟩
    · intro h
      obtain ⟨vs, hvs⟩ := h
      exact ⟨.arrayValue vs, vs, rfl, hvs⟩
  rw [hlist, exists_forall₂_iff]
  constructor
  · intro h i t x ht hx
    exact h (t, x) (List.mem_of_getElem? (List.getElem?_zip_eq_some.mpr ⟨ht, hx⟩))
  · intro h p hp
    obtain ⟨i, hi⟩ := List.mem_iff_getElem?.mp hp
    obtain ⟨ht, hx⟩ := List.getElem?_zip_eq_some.mp hi
    exact h i p.1 p.2 ht hx

theorem encode_tuple_components {xs : List LspValue} (hl : xs.length = ts.length) {j : Value}
    (h : encode env (.tuple ts) (.tuple xs) = .success j) :
    ∃ js, j = .arrayValue js ∧ js.length = ts.length ∧
      ∀ (i : ℕ) (t : LspType) (x : LspValue), ts[i]? = some t → xs[i]? = some x →
        ∃ e, js[i]? = some e ∧ encode env t x = .success e := by
  obtain ⟨js, rfl, hjs⟩ := encode_tuple.mp h
  obtain ⟨hjl, hindex⟩ := forall₂_iff_getElem?.mp hjs
  refine ⟨js, rfl, by rw [hjl, List.length_zip, hl, Nat.min_self], ?_⟩
  intro i t x ht hx
  exact hindex i (t, x) (List.getElem?_zip_eq_some.mpr ⟨ht, hx⟩)

/-- A tuple is decoded and encoded exactly when all its components are, and then component by
component. -/
theorem tuple_codec (env : Declarations) (ts : List LspType) :
    (∀ (v : Value) (outs : List LspValue), outs.length = ts.length →
      ((∃ y, decode env (.tuple ts) v (.tuple outs) = .ok y) ↔
        ∃ vs, v = .arrayValue vs ∧ vs.length = ts.length ∧
          ∀ (i : ℕ) (t : LspType) (e : Value) (o : LspValue), ts[i]? = some t → vs[i]? = some e →
            outs[i]? = some o → ∃ x, decode env t e o = .ok x) ∧
      ∀ y, decode env (.tuple ts) v (.tuple outs) = .ok y →
        ∃ vs xs, v = .arrayValue vs ∧ y = .tuple xs ∧ xs.length = ts.length ∧
          ∀ (i : ℕ) (t : LspType) (e : Value) (o : LspValue), ts[i]? = some t → vs[i]? = some e →
            outs[i]? = some o → ∃ x, xs[i]? = some x ∧ decode env t e o = .ok x) ∧
    (∀ xs : List LspValue, xs.length = ts.length →
      ((∃ j, encode env (.tuple ts) (.tuple xs) = .success j) ↔
        ∀ (i : ℕ) (t : LspType) (x : LspValue), ts[i]? = some t → xs[i]? = some x →
          ∃ e, encode env t x = .success e) ∧
      ∀ j, encode env (.tuple ts) (.tuple xs) = .success j →
        ∃ js, j = .arrayValue js ∧ js.length = ts.length ∧
          ∀ (i : ℕ) (t : LspType) (x : LspValue), ts[i]? = some t → xs[i]? = some x →
            ∃ e, js[i]? = some e ∧ encode env t x = .success e) ∧
    (∀ (t : LspType) (v : Value) (out : LspValue) (f : Failure),
      decode env t v out = .error f → f.reason ≠ "") ∧
    ∀ (t : LspType) (x : LspValue) (f : Failure), encode env t x = .failure f → f.reason ≠ "" := by
  refine ⟨fun v outs ho => ⟨decode_tuple_accepts ho, fun y => decode_tuple_components⟩,
    fun xs hl => ⟨encode_tuple_accepts, fun j => encode_tuple_components hl⟩, ?_, ?_⟩
  · intro t v out f hf
    exact decode_explained env t v out f hf
  · intro t x f hf
    exact encode_explained t x f hf

/-- The offsets of a parameter in a signature label. -/
theorem tuple_codec_offsets :
    ∃ y, decode [] (.tuple [.uinteger, .uinteger]) (.arrayValue [.uintValue 3, .uintValue 7])
      (.tuple [.uinteger 0, .uinteger 0]) = .ok y := by
  refine ((tuple_codec [] [.uinteger, .uinteger]).1 _ [.uinteger 0, .uinteger 0] rfl).1.mpr
    ⟨[.uintValue 3, .uintValue 7], rfl, rfl, ?_⟩
  intro i t e o ht he ho
  match i with
  | 0 =>
    cases ht
    cases he
    cases ho
    exact ⟨_, rfl⟩
  | 1 =>
    cases ht
    cases he
    cases ho
    exact ⟨_, rfl⟩
  | i + 2 => cases ht

end Langsvr.Lsp
