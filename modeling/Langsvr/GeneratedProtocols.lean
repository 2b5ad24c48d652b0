import Langsvr.Conformance
import Langsvr.GeneratedCodecs
import Langsvr.GeneratedEncoders
import Langsvr.RoundTripReadiness

/-!
# From the metamodel to the running code

The generator as a whole: the metamodel is resolved, the templates print the protocol, and the
generated functions are run. With enough nested calls they compute what the codec computes for
the declarations that the strict metamodel means.
-/

namespace Langsvr

open Json (Value)
open Lsp (LspType LspValue Declarations HasType RoundTripReady)
open MetaModel (Means Declares Conforms)
open Templates

namespace Resolver

variable {U : Unicode} {m : MetaModel} {p : Protocol} {u : CppUnit} {env : Declarations}
  {scope : Option LiteralScope} {t : MetaModel.TypeImpl} {lt : LspType} {ct : CppType}

theorem Emitted.declaredOnce (h : Emitted U m u) : m.DeclaredOnce := by
  have hnodup := h.nodup
  rw [declarations, List.map_append, List.map_append, map_declarations] at hnodup
  replace hnodup := hnodup.sublist ((name_sublist m.structures).append_left _)
  apply List.Nodup.of_map U.className
  simp only [List.map_append, List.map_map] at hnodup ⊢
  exact hnodup

section Generated

variable (hr : resolve U m = .ok (.ok p)) (hg : generateUnit p = some u)
  (hdistinct : u.MembersDistinct) (hm : Declares U m.strict env) (ht : Means U m.strict scope t lt)
  (hct : typeTemplate (translate U scope t) = some ct)
include hr hg hdistinct hm ht hct

/-- The generated functions for a type compute what the codec computes for what the type means. -/
theorem generated_code_computes_codec :
    (∀ v : Value, ∃ N, ∀ n ≥ N, ∀ out, u.decode n ct v out = Lsp.decode env lt v out) ∧
      ∀ x, HasType env lt x → ∃ N, ∀ n ≥ N, u.encode n ct x = Lsp.encode env lt x := by
  have h := (emitted_of_generate hr hg).strict
  have hcompiles := compiles_of_declares h hdistinct hm
  have hstands := stands_of_means h ht hct
  constructor
  · intro v
    obtain ⟨N, hN⟩ := Filter.eventually_atTop.mp
      (CppUnit.decodesBelow hcompiles (v.depth + 1) hstands)
    exact ⟨N, fun n hn out => hN n hn v (Nat.lt_succ_self _) out⟩
  · intro x hx
    obtain ⟨N, hN⟩ := Filter.eventually_atTop.mp
      (CppUnit.encodesBelow hcompiles (x.depth + 1) hstands)
    exact ⟨N, fun n hn => hN n hn x (Nat.lt_succ_self _) hx⟩

/-- A generated `Decode` accepts the JSON values that conform to the type in the strict metamodel,
and no others. -/
theorem generated_decode_accepts {v : Value} (hv : v.WellFormed) : ∃ N, ∀ n ≥ N,
    ((∃ x, u.decode n ct v (u.default n ct) = .ok x) ↔ Conforms m.strict t v) := by
  have h := (emitted_of_generate hr hg).strict
  have hcompiles := compiles_of_declares h hdistinct hm
  have hstands := stands_of_means h ht hct
  obtain ⟨N, hN⟩ := Filter.eventually_atTop.mp
    ((CppUnit.decodesBelow hcompiles (v.depth + 1) hstands).and (hcompiles.default_eq hstands))
  refine ⟨N, fun n hn => ?_⟩
  obtain ⟨hdecode, hdefault⟩ := hN n hn
  rw [MetaModel.conforms_iff_matches h.declaredOnce hm ht, ← Lsp.accepts_iff_matches hv, hdefault,
    hdecode v (Nat.lt_succ_self _)]
  rfl

/-- What a generated `Encode` writes conforms to the type in the strict metamodel and is read back
by `Decode`, for the values of a type whose values all come back. -/
theorem generated_code_round_trip (hready : RoundTripReady env lt) {x : LspValue}
    (hx : HasType env lt x) (hset : x.AllSet) : ∃ v, Conforms m.strict t v ∧ ∃ N, ∀ n ≥ N,
      u.encode n ct x = .success v ∧ u.decode n ct v (u.default n ct) = .ok x := by
  have h := (emitted_of_generate hr hg).strict
  have hcompiles := compiles_of_declares h hdistinct hm
  have hstands := stands_of_means h ht hct
  obtain ⟨v, hv⟩ := Lsp.encode_eq_success_of_allSet hx hset
  have hback := (Lsp.decode_encode_iff hx hv).mpr (hready.faithful hx .root hset)
  have hmatches := (Lsp.accepts_iff_matches (Lsp.encode_wellFormed hx hv)).mp ⟨x, hback⟩
  refine ⟨v, (MetaModel.conforms_iff_matches h.declaredOnce hm ht).mpr hmatches, ?_⟩
  obtain ⟨N, hN⟩ := Filter.eventually_atTop.mp
    (((CppUnit.decodesBelow hcompiles (v.depth + 1) hstands).and (hcompiles.default_eq hstands)).and
      (CppUnit.encodesBelow hcompiles (x.depth + 1) hstands))
  refine ⟨N, fun n hn => ?_⟩
  obtain ⟨⟨hdecode, hdefault⟩, hencode⟩ := hN n hn
  rw [hencode x (Nat.lt_succ_self _) hx, hdefault, hdecode v (Nat.lt_succ_self _)]
  exact ⟨hv, hback⟩

end Generated

end Resolver

namespace MetaModel

def resourceOperation : Structure where
  name := "ResourceOperation"
  properties := [⟨"kind", false, .base "string"⟩,
    ⟨"annotationId", true, .reference "ChangeAnnotationIdentifier"⟩]

def createFileOptions : Structure where
  name := "CreateFileOptions"
  properties := [⟨"overwrite", true, .base "boolean"⟩, ⟨"ignoreIfExists", true, .base "boolean"⟩]

def createFile : Structure where
  name := "CreateFile"
  extendsTypes := [.reference "ResourceOperation"]
  properties := [⟨"kind", false, .stringLiteral "create"⟩, ⟨"uri", false, .base "DocumentUri"⟩,
    ⟨"options", true, .reference "CreateFileOptions"⟩]

def workDoneProgressBegin : Structure where
  name := "WorkDoneProgressBegin"
  properties := [⟨"kind", false, .stringLiteral "begin"⟩, ⟨"title", false, .base "string"⟩,
    ⟨"cancellable", true, .base "boolean"⟩, ⟨"message", true, .base "string"⟩,
    ⟨"percentage", true, .base "uinteger"⟩]

/-- A part of the metamodel of the protocol, with an alias, a base and literal kinds. It is strict:
nothing is mixed in, and no enumeration has custom values. -/
def fileModel : MetaModel where
  structures := [resourceOperation, createFileOptions, createFile, workDoneProgressBegin]
  typeAliases := [⟨"ChangeAnnotationIdentifier", .base "string"⟩]

end MetaModel

namespace Resolver

open MetaModel (fileModel)

section Progress

def fileProtocol : Protocol where
  structures := fileModel.structures.map (translateStructure asciiTables)
  typeAliases := [⟨"ChangeAnnotationIdentifier", .string⟩]
  references := [
    ("ChangeAnnotationIdentifier", some (.typeAlias ⟨"ChangeAnnotationIdentifier", .string⟩)),
    ("ResourceOperation",
      some (.structure (translateStructure asciiTables MetaModel.resourceOperation))),
    ("CreateFileOptions",
      some (.structure (translateStructure asciiTables MetaModel.createFileOptions)))]

def fileUnit : CppUnit where
  program := {
    aliases := [("ChangeAnnotationIdentifier", .string)]
    structures := [
      { name := "ResourceOperation"
        bases := []
        members := [(false, .string, "kind"),
          (true, .named "ChangeAnnotationIdentifier", "annotation_id")]
        decode := [.member "kind" "kind",
          .optionalMember "annotationId" (.named "ChangeAnnotationIdentifier") "annotation_id"]
        encodeMembers := [.member "kind" "kind",
          .optionalMember "annotationId" "annotation_id"] },
      { name := "CreateFileOptions"
        bases := []
        members := [(true, .boolean, "overwrite"), (true, .boolean, "ignore_if_exists")]
        decode := [.optionalMember "overwrite" .boolean "overwrite",
          .optionalMember "ignoreIfExists" .boolean "ignore_if_exists"]
        encodeMembers := [.optionalMember "overwrite" "overwrite",
          .optionalMember "ignoreIfExists" "ignore_if_exists"] },
      { name := "CreateFile"
        bases := [.named "ResourceOperation"]
        members := [(false, .documentUri, "uri"), (true, .named "CreateFileOptions", "options")]
        decode := [.matchKind "create", .member "uri" "uri",
          .optionalMember "options" (.named "CreateFileOptions") "options",
          .base "ResourceOperation"]
        encodeMembers := [.kind "create", .member "uri" "uri",
          .optionalMember "options" "options", .base "ResourceOperation"] },
      { name := "WorkDoneProgressBegin"
        bases := []
        members := [(false, .string, "title"), (true, .boolean, "cancellable"),
          (true, .string, "message"), (true, .uinteger, "percentage")]
        decode := [.matchKind "begin", .member "title" "title",
          .optionalMember "cancellable" .boolean "cancellable",
          .optionalMember "message" .string "message",
          .optionalMember "percentage" .uinteger "percentage"]
        encodeMembers := [.kind "begin", .member "title" "title",
          .optionalMember "cancellable" "cancellable", .optionalMember "message" "message",
          .optionalMember "percentage" "percentage"] }] }
  enumerations := []

theorem resolve_fileModel : resolve asciiTables fileModel = .ok (.ok fileProtocol) := by
  rfl

theorem generateUnit_fileProtocol : generateUnit fileProtocol = some fileUnit := by
  rfl

theorem fileUnit_membersDistinct : fileUnit.MembersDistinct := by
  simp [CppUnit.MembersDistinct, fileUnit]

theorem fileModel_sources : fileModel.sources asciiTables =
    fileModel.structures.map .declared := by
  rfl

theorem protocol_ordered : Lsp.protocol.Ordered := by
  simp [Lsp.protocol, Lsp.Declarations.Ordered, Lsp.Declarations.names, Lsp.Structure.held,
    Lsp.Structure.heldBases, Lsp.LspType.held, Lsp.workDoneProgressBegin, Lsp.annotatedTextEdit,
    Lsp.createFile, Lsp.createFileOptions, Lsp.resourceOperation, Lsp.textEdit, Lsp.range,
    Lsp.position]

theorem changeAnnotationIdentifier_means {scope : Option LiteralScope} :
    Means asciiTables fileModel scope (.reference "ChangeAnnotationIdentifier") .string :=
  .typeAlias (a := ⟨"ChangeAnnotationIdentifier", .base "string"⟩) (List.mem_singleton_self _)
    (by decide) .string

theorem resourceOperation_means : MetaModel.DefinitionMeans asciiTables fileModel
    Lsp.resourceOperation (.declared MetaModel.resourceOperation) := by
  refine ⟨⟨rfl, by decide, by decide⟩, rfl, ?_, trivial⟩
  refine .cons ⟨by decide, rfl, rfl, .string⟩ (.cons ⟨by decide, rfl, rfl, ?_⟩ .nil)
  exact changeAnnotationIdentifier_means

theorem fileModel_declares : Declares asciiTables fileModel Lsp.protocol where
  ordered := protocol_ordered
  definitions s hs := by
    rw [fileModel_sources, fileModel] at hs
    simp only [List.map_cons, List.map_nil, List.mem_cons, List.not_mem_nil, or_false] at hs
    rcases hs with rfl | rfl | rfl | rfl
    · exact ⟨by decide, resourceOperation_means⟩
    · refine ⟨by decide, ⟨rfl, by decide, by decide⟩, rfl, ?_, trivial⟩
      exact .cons ⟨by decide, rfl, rfl, .boolean⟩ (.cons ⟨by decide, rfl, rfl, .boolean⟩ .nil)
    · refine ⟨by decide, ⟨rfl, by decide, by decide⟩, rfl, ?_,
        ⟨_, MetaModel.resourceOperation, rfl, ?_, resourceOperation_means⟩, trivial⟩
      · refine .cons ⟨by decide, rfl, rfl, .documentUri⟩ (.cons ⟨by decide, rfl, rfl, ?_⟩ .nil)
        exact .declared (s := MetaModel.createFileOptions) (by simp [fileModel])
      · exact .declared (s := MetaModel.resourceOperation) (by simp [fileModel])
    · refine ⟨by decide, ⟨rfl, by decide, by decide⟩, rfl, ?_, trivial⟩
      exact .cons ⟨by decide, rfl, rfl, .string⟩ (.cons ⟨by decide, rfl, rfl, .boolean⟩
        (.cons ⟨by decide, rfl, rfl, .string⟩ (.cons ⟨by decide, rfl, rfl, .uinteger⟩ .nil)))
  lspAny a ha hname := by
    rw [List.mem_singleton.mp ha] at hname
    exact absurd hname (by decide)

def messageType : MetaModel.TypeImpl := .or [.base "string", .reference "WorkDoneProgressBegin"]

theorem messageType_means :
    Means asciiTables fileModel none messageType Lsp.progressMessage := by
  refine .or rfl ?_
  simp only [List.zip_cons_cons, List.zip_nil_left, List.forall_mem_cons]
  refine ⟨.string, ?_, by simp⟩
  exact .declared (s := MetaModel.workDoneProgressBegin) (by simp [fileModel])

def messageCode : CppType := .oneOf [.string, .named "WorkDoneProgressBegin"]

theorem typeTemplate_messageType :
    typeTemplate (translate asciiTables none messageType) = some messageCode := by
  rfl

theorem generated_code_computes_codec_progress :
    (∀ v : Value, ∃ N, ∀ n ≥ N, ∀ out,
      fileUnit.decode n messageCode v out = Lsp.decode Lsp.protocol Lsp.progressMessage v out) ∧
    ∀ x, HasType Lsp.protocol Lsp.progressMessage x → ∃ N, ∀ n ≥ N,
      fileUnit.encode n messageCode x = Lsp.encode Lsp.protocol Lsp.progressMessage x :=
  generated_code_computes_codec resolve_fileModel generateUnit_fileProtocol
    fileUnit_membersDistinct fileModel_declares messageType_means typeTemplate_messageType

theorem generated_decode_accepts_progress : ∃ N, ∀ n ≥ N,
    ((∃ x, fileUnit.decode n messageCode (.stringValue "Indexing")
      (fileUnit.default n messageCode) = .ok x) ↔
        Conforms fileModel messageType (.stringValue "Indexing")) :=
  generated_decode_accepts resolve_fileModel generateUnit_fileProtocol
    fileUnit_membersDistinct fileModel_declares messageType_means typeTemplate_messageType
      (by simp [Value.WellFormed])

theorem generated_code_round_trip_progress : ∃ v, Conforms fileModel messageType v ∧
    ∃ N, ∀ n ≥ N, fileUnit.encode n messageCode Lsp.indexing = .success v ∧
      fileUnit.decode n messageCode v (fileUnit.default n messageCode) = .ok Lsp.indexing :=
  generated_code_round_trip resolve_fileModel generateUnit_fileProtocol
    fileUnit_membersDistinct fileModel_declares messageType_means typeTemplate_messageType
      Lsp.progressMessage_ready Lsp.indexing_hasType
        (by simp [Lsp.indexing, LspValue.AllSet, LspValue.AllSetList])

end Progress

end Resolver

end Langsvr
