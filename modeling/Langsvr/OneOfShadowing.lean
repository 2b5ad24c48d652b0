import Langsvr.CodecRoundTrip
import Langsvr.ProtocolExcerpt

/-!
# Shadowed alternatives

When a `OneOf` comes back from a round trip as the alternative that it held. The
first alternative that matches is taken, so `OneOf<TextEdit, AnnotatedTextEdit>` never
comes back as an `AnnotatedTextEdit`: a `TextEdit` asks for fewer members.
-/

namespace Langsvr.Lsp

open Json (Value Member)

def LspType.alternatives : LspType → Option (List LspType)
  | .oneOf ts => some ts
  | .lspAny => some lspAnyItems
  | _ => none

section Shadowing

variable {env : Declarations} {u t : LspType} {ts : List LspType} {k : ℕ} {x : LspValue}

theorem encode_alternative (hu : u.alternatives = some ts) (hk : ts[k]? = some t) :
    encode env u (.oneOf k x) = encode env t x := by
  cases u with
  | oneOf us =>
    cases hu
    exact encode_oneOf hk x
  | lspAny =>
    cases hu
    exact encode_lspAny hk x
  | _ => cases hu

theorem faithful_alternative (hu : u.alternatives = some ts) (hk : ts[k]? = some t) :
    Faithful env u (.oneOf k x) ↔ ¬ Shadowed env ts k t x ∧ Faithful env t x := by
  constructor
  · intro h
    cases h with
    | oneOf hk' hs hf =>
      cases hu
      rw [hk, Option.some.injEq] at hk'
      exact hk' ▸ ⟨hs, hf⟩
    | lspAny hk' hs hf =>
      cases hu
      rw [hk, Option.some.injEq] at hk'
      exact hk' ▸ ⟨hs, hf⟩
    | _ => cases hu
  · intro h
    obtain ⟨hs, hf⟩ := h
    cases u with
    | oneOf us =>
      cases hu
      exact .oneOf hk hs hf
    | lspAny =>
      cases hu
      exact .lspAny hk hs hf
    | _ => cases hu

theorem hasType_alternative (hu : u.alternatives = some ts) (hk : ts[k]? = some t)
    (hx : HasType env t x) : HasType env u (.oneOf k x) := by
  cases u with
  | oneOf us =>
    cases hu
    exact .oneOf hk hx
  | lspAny =>
    cases hu
    exact .lspAny hk hx
  | _ => cases hu

/-- A `OneOf` comes back as it was exactly when no earlier alternative matches what is
written and the value that it holds is faithful. -/
theorem alternative_round_trip_iff (hu : u.alternatives = some ts) (hk : ts[k]? = some t)
    (hx : HasType env t x) {v : Value} (hv : encode env t x = .success v) :
    (encode env u (.oneOf k x) = .success v ∧
        decode env u v (env.default u) = .ok (.oneOf k x)) ↔
      ¬ Shadowed env ts k t x ∧ Faithful env t x := by
  have hw : encode env u (.oneOf k x) = .success v := (encode_alternative hu hk).trans hv
  rw [← faithful_alternative hu hk, ← decode_encode_iff (hasType_alternative hu hk hx) hw]
  exact and_iff_right hw

end Shadowing

section TextEdits

/-- The type of an element of `TextDocumentEdit::edits`. -/
def edit : LspType := .oneOf [.reference "TextEdit", .reference "AnnotatedTextEdit"]

private def origin : LspValue := .struct [.uinteger 0, .uinteger 0] []

def insertion : LspValue := .struct [.struct [origin, origin] [], .string "x"] []

def annotatedInsertion : LspValue := .struct [.string "id"] [insertion]

private theorem origin_hasType : HasType protocol (.reference "Position") origin := by
  refine .reference ?_ fun m t y hm => ?_
  · simp [protocol, Declarations.find, position, origin, Structure.Shaped, Structure.MembersShaped,
      Structure.MemberShaped, Structure.BasesShaped]
  · have hslots : (protocol.find "Position").slots origin =
      [("line", .value .uinteger (.uinteger 0)), ("character", .value .uinteger (.uinteger 0))] := rfl
    simp only [hslots, List.mem_cons, Prod.mk.injEq, Slot.value.injEq, List.not_mem_nil,
      or_false] at hm
    rcases hm with ⟨-, rfl, rfl⟩ | ⟨-, rfl, rfl⟩ <;> exact .uinteger 0

private theorem range_hasType :
    HasType protocol (.reference "Range") (.struct [origin, origin] []) := by
  refine .reference ?_ fun m t y hm => ?_
  · simp [protocol, Declarations.find, range, Structure.Shaped, Structure.MembersShaped,
      Structure.MemberShaped, Structure.BasesShaped]
  · have hslots : (protocol.find "Range").slots (.struct [origin, origin] []) =
      [("start", .value (.reference "Position") origin),
        ("end", .value (.reference "Position") origin)] := rfl
    simp only [hslots, List.mem_cons, Prod.mk.injEq, Slot.value.injEq, List.not_mem_nil,
      or_false] at hm
    rcases hm with ⟨-, rfl, rfl⟩ | ⟨-, rfl, rfl⟩ <;> exact origin_hasType

private theorem annotatedInsertion_hasType :
    HasType protocol (.reference "AnnotatedTextEdit") annotatedInsertion := by
  refine .reference ?_ fun m t y hm => ?_
  · simp [protocol, Declarations.find, annotatedTextEdit, textEdit, annotatedInsertion, insertion,
      Structure.Shaped, Structure.MembersShaped, Structure.MemberShaped, Structure.BasesShaped]
  · have hslots : (protocol.find "AnnotatedTextEdit").slots annotatedInsertion =
      [("annotationId", .value .string (.string "id")),
        ("range", .value (.reference "Range") (.struct [origin, origin] [])),
        ("newText", .value .string (.string "x"))] := rfl
    simp only [hslots, List.mem_cons, Prod.mk.injEq, Slot.value.injEq, List.not_mem_nil,
      or_false] at hm
    rcases hm with ⟨-, rfl, rfl⟩ | ⟨-, rfl, rfl⟩ | ⟨-, rfl, rfl⟩
    · exact .string _
    · exact range_hasType
    · exact .string _

/-- An `AnnotatedTextEdit` comes back as the `TextEdit` that it derives from. -/
theorem annotatedTextEdit_shadowed :
    HasType protocol (.reference "AnnotatedTextEdit") annotatedInsertion ∧
      ∃ v, encode protocol (.reference "AnnotatedTextEdit") annotatedInsertion = .success v ∧
        encode protocol edit (.oneOf 1 annotatedInsertion) = .success v ∧
          decode protocol edit v (protocol.default edit) = .ok (.oneOf 0 insertion) :=
  ⟨annotatedInsertion_hasType, _, rfl, rfl, rfl⟩

def progressToken : LspType := .oneOf [.integer, .string]

/-- A text in place of an integer comes back, but an `AnnotatedTextEdit` does not come back as the
second alternative. -/
theorem alternative_round_trip_iff_edit :
    (∃ v, encode protocol .string (.string "indexing") = .success v ∧
      encode protocol progressToken (.oneOf 1 (.string "indexing")) = .success v ∧
      decode protocol progressToken v (protocol.default progressToken) =
        .ok (.oneOf 1 (.string "indexing"))) ∧
    ∃ v, encode protocol (.reference "AnnotatedTextEdit") annotatedInsertion = .success v ∧
      ((encode protocol edit (.oneOf 1 annotatedInsertion) = .success v ∧
          decode protocol edit v (protocol.default edit) = .ok (.oneOf 1 annotatedInsertion)) ↔
        ¬ Shadowed protocol [.reference "TextEdit", .reference "AnnotatedTextEdit"] 1
            (.reference "AnnotatedTextEdit") annotatedInsertion ∧
          Faithful protocol (.reference "AnnotatedTextEdit") annotatedInsertion) := by
  refine ⟨⟨_, rfl, ?_⟩, _, rfl, ?_⟩
  · refine (alternative_round_trip_iff (u := progressToken) rfl rfl (.string _) rfl).mpr ⟨?_, ?_⟩
    · rintro ⟨i, hi, u, v, hu, hv, hm⟩
      obtain rfl : i = 0 := by omega
      cases hu
      cases hv
      cases hm with
      | integer h => cases h
    · exact .string _
  · exact alternative_round_trip_iff rfl rfl annotatedInsertion_hasType rfl

end TextEdits

end Langsvr.Lsp
