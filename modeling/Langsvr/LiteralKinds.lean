import Langsvr.CodecRoundTrip
import Langsvr.ProtocolExcerpt

/-!
# Literal kinds

The member `kind` of an encoded structure. `EncodeMembers` appends the literal kind
first, so a property of that name, of the structure or of one of its bases, replaces
it: the kind of a `CreateFile` is the `kind` of its base `ResourceOperation`.
-/

namespace Langsvr.Lsp

open Json (Value Member)

/-- `Spells t x k`: the value `x` of type `t` is a text, namely `k`. -/
inductive Spells : LspType → LspValue → String → Prop
  | string (k : String) : Spells .string (.string k) k
  | enumeration {name : String} {vs : List String} {i : ℕ} {k : String} (hi : vs[i]? = some k) :
      Spells (.enumeration ⟨name, .string vs⟩) (.enumeration i) k
  | oneOf {ts : List LspType} {i : ℕ} {t : LspType} {x : LspValue} {k : String}
      (hi : ts[i]? = some t) (hx : Spells t x k) : Spells (.oneOf ts) (.oneOf i x) k
  | lspAny {i : ℕ} {t : LspType} {x : LspValue} {k : String} (hi : lspAnyItems[i]? = some t)
      (hx : Spells t x k) : Spells .lspAny (.oneOf i x) k

theorem spells_string {s k : String} : Spells .string (.string s) k ↔ s = k := by
  constructor
  · intro h
    cases h
    rfl
  · rintro rfl
    exact .string s

/-- The slot is a text, namely `k`. -/
def Slot.Spells : Slot → String → Prop
  | .kind k', k => k' = k
  | .value t x, k => Lsp.Spells t x k

/-- The last of the members named `kind` spells the literal kind, and no base has another
literal kind. The literal kind comes first, then the own properties, then the bases. -/
def KeepsKind (s : Structure) (x : LspValue) (kind : String) : Prop :=
  (∃ l, OrderedEntries.lastWrite "kind" (s.slots x) = some l ∧ l.Spells kind) ∧
    ∀ k ∈ s.literalKinds, k = kind

section Texts

variable {env : Declarations}

/-- The values that are written as a text are those that spell it. -/
theorem encode_eq_string_iff {t : LspType} {x : LspValue} (h : HasType env t x) {k : String} :
    encode env t x = .success (.stringValue k) ↔ Spells t x k := by
  induction h with
  | null | boolean _ | integer _ | uinteger _ | decimal _ =>
    rw [encode_eq]
    exact iff_of_false (fun h => by cases h) (fun h => by cases h)
  | string =>
    rw [encode_eq]
    constructor
    · intro h
      cases h
      exact .string _
    · intro h
      cases h
      rfl
  | @enumeration e i hi =>
    obtain ⟨name, values⟩ := e
    have hl : i < values.literals.length := by rwa [Enumerators.length_literals]
    rw [encode_enumeration, List.getElem?_eq_getElem hl, Option.some.injEq]
    constructor
    · intro h
      cases values with
      | string vs =>
        apply Spells.enumeration
        have hs : i < vs.length := hi
        simpa [Enumerators.literals, hs] using h
      | integer vs => simp [Enumerators.literals] at h
      | uinteger vs =>
        simp only [Enumerators.literals, List.getElem_map, createLiteral] at h
        split at h <;> cases h
    · intro h
      cases h with
      | enumeration hk =>
        obtain ⟨_, hk⟩ := List.getElem?_eq_some_iff.mp hk
        simp [Enumerators.literals, hk]
  | vector hx ih =>
    refine iff_of_false (fun h => ?_) (fun h => by cases h)
    obtain ⟨vs, hvs, -⟩ := encode_vector.mp h
    cases hvs
  | tuple hl hx ih =>
    refine iff_of_false (fun h => ?_) (fun h => by cases h)
    obtain ⟨vs, hvs, -⟩ := encode_tuple.mp h
    cases hvs
  | map ho hx ih =>
    refine iff_of_false (fun h => ?_) (fun h => by cases h)
    obtain ⟨ms, hms, -⟩ := (encode_map ho).mp h
    cases hms
  | reference hs hx ih =>
    refine iff_of_false (fun h => ?_) (fun h => by cases h)
    obtain ⟨ws, -, hws⟩ := (encode_reference hs).mp h
    cases hws
  | oneOfEmpty | lspAnyEmpty =>
    rw [encode_eq]
    exact iff_of_false (fun h => by cases h) (fun h => by cases h)
  | oneOf hk hx ih =>
    rw [encode_oneOf hk, ih]
    constructor
    · exact .oneOf hk
    · intro h
      cases h with
      | oneOf hk' hs =>
        rw [hk, Option.some.injEq] at hk'
        exact hk' ▸ hs
  | lspAny hk hx ih =>
    rw [encode_lspAny hk, ih]
    constructor
    · exact .lspAny hk
    · intro h
      cases h with
      | lspAny hk' hs =>
        rw [hk, Option.some.injEq] at hk'
        exact hk' ▸ hs

variable {n kind : String} {ps : List Property} {bs : List Structure} {x : LspValue} {v : Value}

private theorem getString_kind_iff (hx : HasType env (.reference n) x)
    (hv : encode env (.reference n) x = .success v) (k : String) :
    v.getString "kind" = .ok k ↔
      ∃ l, OrderedEntries.lastWrite "kind" ((env.find n).slots x) = some l ∧ l.Spells k := by
  cases hx with
  | reference hs hx =>
    obtain ⟨ws, hws, rfl⟩ := (encode_reference hs).mp hv
    rw [getString_object hws]
    refine exists_congr fun l => and_congr_right fun hl => ?_
    cases l with
    | kind k' => simp [encodeSlot, Slot.Spells]
    | value t y => exact encode_eq_string_iff (hx _ t y (OrderedEntries.mem_of_lastWrite hl))

/-- The object says the literal kind of the structure, and `MatchKind` accepts it for the
structure and for its bases, exactly when the value keeps the kind. `Decode` of the structure asks
for this and, of each property, for a member that can be decoded. -/
theorem literal_kind_survives_iff (hn : env.find n = .mk (some kind) ps bs)
    (hx : HasType env (.reference n) x) (hv : encode env (.reference n) x = .success v) :
    ((v.getString "kind" = .ok kind ∧ matchKind v kind = .ok () ∧
        ∀ k ∈ Structure.baseLiteralKinds bs, matchKind v k = .ok ()) ↔
      KeepsKind (.mk (some kind) ps bs) x kind) ∧
    (Accepts env (.reference n) v ↔ KeepsKind (.mk (some kind) ps bs) x kind ∧
      ∀ p ∈ (Structure.mk (some kind) ps bs).allProperties,
        Provides (decode env) env.default v p) := by
  have hkind := getString_kind_iff hx hv kind
  rw [hn] at hkind
  have hkeeps : KeepsKind (.mk (some kind) ps bs) x kind ↔ v.getString "kind" = .ok kind ∧
      ∀ k ∈ Structure.baseLiteralKinds bs, v.getString "kind" = .ok k := by
    simp only [KeepsKind, ← hkind, Structure.literalKinds, Option.toList_some,
      List.singleton_append, List.forall_mem_cons, true_and]
    refine and_congr_right fun h => ?_
    rw [h]
    exact forall₂_congr fun k _ => by rw [Except.ok.injEq, eq_comm]
  have hobject : v.kind = .object := by
    cases hx with
    | reference hs hx =>
      obtain ⟨ws, -, rfl⟩ := (encode_reference hs).mp hv
      rfl
  rw [hkeeps, accepts_structure, hn]
  simp only [matchKind_eq_ok, and_self_left, Structure.literalKinds, Option.toList_some,
    List.singleton_append, List.forall_mem_cons, hobject, true_and]

end Texts

section CreateFile

def fileOfKind (kind : String) : LspValue :=
  .struct [.string "file:///a", .absent] [.struct [.string kind, .absent] []]

def newFile : LspValue := fileOfKind ""

private theorem fileOfKind_hasType (kind : String) :
    HasType protocol (.reference "CreateFile") (fileOfKind kind) := by
  refine .reference ?_ fun m t y hm => ?_
  · simp [protocol, Declarations.find, createFile, resourceOperation, fileOfKind, Structure.Shaped,
      Structure.MembersShaped, Structure.MemberShaped, Structure.BasesShaped]
  · have hslots : (protocol.find "CreateFile").slots (fileOfKind kind) =
      [("kind", .kind "create"), ("uri", .value .string (.string "file:///a")),
        ("kind", .value .string (.string kind))] := rfl
    simp only [hslots, List.mem_cons, Prod.mk.injEq, reduceCtorEq, and_false, Slot.value.injEq,
      List.not_mem_nil, or_false, false_or] at hm
    rcases hm with ⟨-, rfl, rfl⟩ | ⟨-, rfl, rfl⟩ <;> exact .string _

/-- The member `kind` of the base replaces the literal kind, and the object is rejected. -/
theorem createFile_kind_replaced : HasType protocol (.reference "CreateFile") newFile ∧
    ∃ v, encode protocol (.reference "CreateFile") newFile = .success v ∧
      v.getString "kind" = .ok "" ∧
        decode protocol (.reference "CreateFile") v (protocol.default (.reference "CreateFile")) =
          .error ⟨"'kind' mismatch.\nGot ''\nexpected ' + std:string(want) +'"⟩ :=
  ⟨fileOfKind_hasType "", _, rfl, rfl, rfl⟩

/-- The kind of the file is kept if and only if the base says it as well. -/
theorem literal_kind_survives_iff_newFile :
    (∃ v, encode protocol (.reference "CreateFile") (fileOfKind "create") = .success v ∧
      v.getString "kind" = .ok "create" ∧ Accepts protocol (.reference "CreateFile") v) ∧
    ∃ v, encode protocol (.reference "CreateFile") newFile = .success v ∧
      v.getString "kind" ≠ .ok "create" ∧ ¬ Accepts protocol (.reference "CreateFile") v := by
  refine ⟨⟨_, rfl, ?_⟩, _, rfl, ?_⟩
  · have h := literal_kind_survives_iff (n := "CreateFile") rfl (fileOfKind_hasType "create") rfl
    have hkeeps : KeepsKind createFile (fileOfKind "create") "create" := by
      refine ⟨⟨_, rfl, .string _⟩, fun k hk => ?_⟩
      simpa [createFile, resourceOperation, Structure.literalKinds,
        Structure.baseLiteralKinds] using hk
    exact ⟨(h.1.mpr hkeeps).1, _, rfl⟩
  · have h := literal_kind_survives_iff (n := "CreateFile") rfl (fileOfKind_hasType "") rfl
    have hreplaced : ¬ KeepsKind createFile newFile "create" := by
      intro hk
      obtain ⟨l, hl, hspells⟩ := hk.1
      cases hl
      exact absurd (spells_string.mp hspells) (by decide)
    exact ⟨by decide, fun ha => hreplaced (h.2.mp ha).1⟩

end CreateFile

end Langsvr.Lsp
