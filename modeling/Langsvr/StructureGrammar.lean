import Langsvr.ProtocolExcerpt
import Langsvr.SchemaMatching

/-!
# What a structure reads

The grammar of the objects that a structure accepts, level by level, and the members of
an object on which its decoding depends: those that the structure and its transitive
bases declare, and no others.
-/

namespace Langsvr.Lsp

open Json (Value)
open LspValue (Blank BlankList)

/-- `Decode` of a structure, or of a base of another one, succeeds into a
default-constructed output. -/
def Structure.Accepts (env : Declarations) (s : Structure) (v : Value) : Prop :=
  ∃ x, decodeStructure (decode env) env.default s v (s.default env.default) = .ok x

def Property.Reads (env : Declarations) (v : Value) (p : Property) : Prop :=
  (p.optional = false → ∃ m, v.get p.jsonName = .ok m) ∧
    ∀ m, v.get p.jsonName = .ok m → Accepts env p.type m

section Grammar

variable {env : Declarations} {v : Value}

theorem blankBelow_decode : BlankBelow (decode env) v :=
  fun t c _ _ _ ho ho' => decode_blank env t c ho ho'

theorem structure_accepts_iff {s : Structure} {out : LspValue} (ho : out.Blank) :
    (∃ x, decodeStructure (decode env) env.default s v out = .ok x) ↔ s.Accepts env v := by
  rw [Structure.Accepts, decodeStructure_blank blankBelow_decode env.default s ho
    (blank_structure_default (blank_default env) s)]

theorem accepts_reference_iff {n : String} :
    Accepts env (.reference n) v ↔ (env.find n).Accepts env v := by
  rw [← structure_accepts_iff (blank_default env (.reference n))]
  simp only [Accepts, decodeNew, decode_eq env (.reference n), decodeLayer]

theorem provides_iff_reads {p : Property} :
    Provides (decode env) env.default v p ↔ p.Reads env v := by
  unfold Provides Property.Reads
  cases hm : v.get p.jsonName with
  | ok m =>
    have hhas : v.has p.jsonName = true := Value.has_iff.mpr ⟨m, hm⟩
    simp [hhas, Accepts, decodeNew]
  | error f =>
    have hhas : v.has p.jsonName = false := by
      rw [← Bool.not_eq_true, Value.has_iff]
      simp [hm]
    simp [hhas]

/-- The literal kinds and the properties of a tree of bases, all at once. -/
theorem structure_accepts_flat {s : Structure} : s.Accepts env v ↔ v.kind = .object ∧
    (∀ k ∈ s.literalKinds, v.getString "kind" = .ok k) ∧
      ∀ p ∈ s.allProperties, p.Reads env v := by
  rw [Structure.Accepts, decodeStructure_accepts blankBelow_decode (blank_default env) s
    (blank_structure_default (blank_default env) s)]
  simp only [provides_iff_reads]

theorem structure_accepts_mk {kind : Option String} {ps : List Property} {bs : List Structure} :
    (Structure.mk kind ps bs).Accepts env v ↔ v.kind = .object ∧
      (∀ k, kind = some k → v.getString "kind" = .ok k) ∧ (∀ p ∈ ps, p.Reads env v) ∧
        ∀ b ∈ bs, b.Accepts env v := by
  simp only [structure_accepts_flat, Structure.literalKinds, Structure.allProperties,
    List.mem_append, Option.mem_toList, mem_baseLiteralKinds, mem_baseProperties]
  constructor
  · intro h
    obtain ⟨hk, hkinds, hprops⟩ := h
    refine ⟨hk, fun k hkind => hkinds k (.inl hkind), fun p hp => hprops p (.inl hp), ?_⟩
    intro b hb
    exact ⟨hk, fun k hkind => hkinds k (.inr ⟨b, hb, hkind⟩),
      fun p hp => hprops p (.inr ⟨b, hb, hp⟩)⟩
  · intro h
    obtain ⟨hk, hkind, hprops, hbases⟩ := h
    refine ⟨hk, fun k hmem => ?_, fun p hmem => ?_⟩
    · rcases hmem with hmem | ⟨b, hb, hmem⟩
      · exact hkind k hmem
      · exact (hbases b hb).2.1 k hmem
    · rcases hmem with hmem | ⟨b, hb, hmem⟩
      · exact hprops p hmem
      · exact (hbases b hb).2.2 p hmem

end Grammar

section Agreement

variable {env : Declarations} {dec : LspType → Decoder} {fresh : LspType → LspValue} {v w : Value}

structure AgreeOn (names : List String) (v w : Value) : Prop where
  left : v.kind = .object
  right : w.kind = .object
  get : ∀ name ∈ names, v.get name = w.get name

theorem AgreeOn.mono {names names' : List String} (h : AgreeOn names v w)
    (hs : ∀ name ∈ names', name ∈ names) : AgreeOn names' v w :=
  ⟨h.left, h.right, fun name hn => h.get name (hs name hn)⟩

theorem AgreeOn.has {names : List String} (h : AgreeOn names v w) {name : String}
    (hn : name ∈ names) : v.has name = w.has name := by
  rw [Bool.eq_iff_iff, Value.has_iff, Value.has_iff, h.get name hn]

private theorem decodeProperties_agree (ps : List Property)
    (h : AgreeOn (ps.map Property.jsonName) v w) (outs : List LspValue) :
    decodeProperties dec fresh v ps outs = decodeProperties dec fresh w ps outs := by
  induction ps generalizing outs with
  | nil => rfl
  | cons p ps ih =>
    have hp : p.jsonName ∈ (p :: ps).map Property.jsonName := List.mem_cons_self ..
    have hproperty : ∀ out, decodeProperty dec fresh p v out = decodeProperty dec fresh p w out := by
      intro out
      simp only [decodeProperty, h.has hp, h.get _ hp]
    have htail := ih (h.mono fun name hn => List.mem_cons_of_mem _ hn)
    simp only [decodeProperties, hproperty, htail]

mutual

theorem decodeStructure_agree (s : Structure) (h : AgreeOn s.memberNames v w) (out : LspValue) :
    decodeStructure dec fresh s v out = decodeStructure dec fresh s w out := by
  cases s with
  | mk kind ps bs =>
    have hmem : ∀ name, name ∈ Structure.memberNames (.mk kind ps bs) ↔
        (name ∈ (Structure.kindSlots kind).map Prod.fst ∨ name ∈ ps.map Property.jsonName) ∨
          name ∈ Structure.baseMemberNames bs := by
      intro name
      simp only [Structure.memberNames, List.mem_append]
    have hkind : decodeKind v kind = decodeKind w kind := by
      cases kind with
      | none => rfl
      | some k =>
        have hget := h.get "kind" ((hmem _).mpr (.inl (.inl (List.mem_cons_self ..))))
        simp only [decodeKind, matchKind, Value.getString, hget]
    have hprops : ∀ outs, decodeProperties dec fresh v ps outs = decodeProperties dec fresh w ps outs :=
      decodeProperties_agree ps (h.mono fun name hn => (hmem name).mpr (.inl (.inr hn)))
    have hbases := decodeBases_agree bs (h.mono fun name hn => (hmem name).mpr (.inr hn))
    simp only [decodeStructure, h.left, h.right, hkind, hprops, hbases]

theorem decodeBases_agree (bs : List Structure) (h : AgreeOn (Structure.baseMemberNames bs) v w)
    (outs : List LspValue) :
    decodeBases dec fresh v bs outs = decodeBases dec fresh w bs outs := by
  cases bs with
  | nil => rfl
  | cons b bs =>
    have hbase := decodeStructure_agree b (h.mono fun name hn => List.mem_append_left _ hn)
    have htail := decodeBases_agree bs (h.mono fun name hn => List.mem_append_right _ hn)
    simp only [decodeBases, hbase, htail]

end

/-- The decoding of a structure depends on the members that it and its bases name. -/
theorem decode_reference_agree {n : String} (h : AgreeOn (env.find n).memberNames v w)
    (out : LspValue) : decode env (.reference n) v out = decode env (.reference n) w out := by
  rw [decode_eq env (.reference n) v, decode_eq env (.reference n) w]
  exact decodeStructure_agree _ h out

/-- A structure accepts the objects of its grammar, and its decoding depends on the members
that it and its transitive bases declare and on no others, whatever the output holds. -/
theorem decode_structure_grammar (env : Declarations) (n : String) :
    (∀ kind ps bs, env.find n = .mk kind ps bs → ∀ v, Accepts env (.reference n) v ↔
      v.kind = .object ∧ (∀ k, kind = some k → v.getString "kind" = .ok k) ∧
        (∀ p ∈ ps, p.Reads env v) ∧ ∀ b ∈ bs, b.Accepts env v) ∧
    (∀ kind ps bs v, (Structure.mk kind ps bs).Accepts env v ↔
      v.kind = .object ∧ (∀ k, kind = some k → v.getString "kind" = .ok k) ∧
        (∀ p ∈ ps, p.Reads env v) ∧ ∀ b ∈ bs, b.Accepts env v) ∧
    ∀ v w, AgreeOn (env.find n).memberNames v w → ∀ out,
      decode env (.reference n) v out = decode env (.reference n) w out := by
  refine ⟨fun kind ps bs hn v => ?_, fun kind ps bs v => structure_accepts_mk,
    fun v w h out => decode_reference_agree h out⟩
  rw [accepts_reference_iff, hn, structure_accepts_mk]

/-- A member that `CreateFile` does not declare makes no difference. -/
theorem decode_structure_grammar_createFile :
    Accepts protocol (.reference "CreateFile")
        (.objectValue [("kind", .stringValue "create"), ("uri", .stringValue "a")]) ∧
      decode protocol (.reference "CreateFile") (.objectValue [("kind", .stringValue "create"),
          ("newer", .nullValue), ("uri", .stringValue "a")])
          (protocol.default (.reference "CreateFile")) =
        decode protocol (.reference "CreateFile")
          (.objectValue [("kind", .stringValue "create"), ("uri", .stringValue "a")])
          (protocol.default (.reference "CreateFile")) := by
  have h := decode_structure_grammar protocol "CreateFile"
  refine ⟨⟨_, rfl⟩, h.2.2 _ _ ⟨rfl, rfl, fun name hn => ?_⟩ _⟩
  have hnames : name = "kind" ∨ name = "uri" ∨ name = "options" ∨ name = "kind" ∨
      name = "annotationId" := by
    simpa [Structure.memberNames, Structure.baseMemberNames, Structure.kindSlots, protocol,
      Declarations.find, createFile, resourceOperation] using hn
  rcases hnames with rfl | rfl | rfl | rfl | rfl <;> rfl

end Agreement

end Langsvr.Lsp
