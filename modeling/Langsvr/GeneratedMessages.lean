import Langsvr.CompiledModels
import Langsvr.GeneratedCodecs
import Langsvr.GeneratedEncoders
import Langsvr.GeneratedMembers
import Langsvr.PendingRequests

/-!
# Generated messages

The structures that the templates print for the requests and the notifications of a protocol, and
what the templates of a session do with them. A session is compiled with the generated functions
for the params, the result and the error data of a request.
-/

namespace Langsvr

open Json (Value Member)
open Lsp (LspType LspValue Declarations HasType)
open MetaModel (Means Declares)

/-- The structure of a request. A failure type `void` is missing. -/
structure CppRequest where
  name : String
  bases : List CppType
  kMethod : String
  kHasParams : Bool
  successType : CppType
  failureType : Option CppType

structure CppNotification where
  name : String
  bases : List CppType
  kMethod : String
  kHasParams : Bool

structure CppMessages where
  requests : List CppRequest
  notifications : List CppNotification

namespace Templates

/-- The condition on `ErrorData`. A request without error data has a null pointer there. -/
def failureTemplate : Protocol.TypeImpl → Option (Option CppType)
  | .nil => some none
  | t => (typeTemplate t).map some

def requestTemplate (r : Protocol.Request) : Option CppRequest := do
  let bases ← typeTemplates r.params
  let kMethod ← literal r.method
  let successType ← typeTemplate r.result
  let failureType ← failureTemplate r.errorData
  return { name := r.name ++ "Request", bases, kMethod
           kHasParams := !r.params.isEmpty, successType, failureType }

def notificationTemplate (n : Protocol.Notification) : Option CppNotification := do
  let bases ← typeTemplates n.params
  let kMethod ← literal n.method
  return { name := n.name ++ "Notification", bases, kMethod, kHasParams := !n.params.isEmpty }

/-- The requests and notifications of a protocol, or nothing if a template fails. -/
def generateMessages (p : Protocol) : Option CppMessages := do
  let requests ← p.requests.mapM requestTemplate
  let notifications ← p.notifications.mapM notificationTemplate
  return { requests, notifications }

end Templates

section Params

variable (u : CppUnit) (n : ℕ) (hasParams : Bool) (bases : List CppType)

/-- The `Encode` that is selected for a message is the one for its base. -/
def encodeMessageParams (params : LspValue) : Outcome (List Member) :=
  if hasParams then
    (u.encode n (bases.headD .null) params).andThen fun v => .success [("params", v)]
  else .success []

def decodeMessageParams (object : Value) : Result (Option LspValue) :=
  if hasParams then do
    let params ← object.get "params"
    let request ← u.decode n (bases.headD .null) params (u.default n (bases.headD .null))
    return some request
  else .ok none

end Params

namespace CppRequest

variable (u : CppUnit) (n : ℕ) (c : CppRequest)

def encodeReply : Reply → Outcome Member
  | .success x => (u.encode n c.successType x).andThen fun v => .success ("result", v)
  | .failure x =>
    match c.failureType with
    | some t => (u.encode n t x).andThen fun v => .success ("error", v)
    | none => .unset

/-- What the handler of a response sets, or the failure that it returns. -/
def readResponse (response : Value) : Result Reply :=
  match response.get "result" with
  | .ok result => do
    let x ← u.decode n c.successType result (u.default n c.successType)
    return .success x
  | .error _ =>
    match c.failureType with
    | none => .error ⟨"response missing 'result'"⟩
    | some t => do
      let error ← response.get "error"
      let x ← u.decode n t error (u.default n t)
      return .failure x

end CppRequest

namespace MetaModel

variable (U : Unicode) (m : MetaModel)

/-- The params of a message mean one type or none. -/
inductive ParamsMean : List TypeImpl → Option LspType → Prop
  | none : ParamsMean [] none
  | single {t : TypeImpl} {lt : LspType} (h : Means U m none t lt) : ParamsMean [t] (some lt)

/-- The error data of a request means a type, if there is any. -/
inductive ErrorDataMeans : TypeImpl → Option LspType → Prop
  | none : ErrorDataMeans .nil none
  | some {t : TypeImpl} {lt : LspType} (h : Means U m none t lt) : ErrorDataMeans t (some lt)

/-- A request of the metamodel means a request of a session. Its method is printed as it is. -/
structure Request.Means (r : Request) (type : RequestType) : Prop where
  verbatim : Verbatim r.method
  method : type.method = r.method
  params : ParamsMean U m r.params type.params
  result : MetaModel.Means U m none r.result type.success
  errorData : ErrorDataMeans U m r.errorData type.failure

structure Notification.Means (n : Notification) (type : NotificationType) : Prop where
  verbatim : Verbatim n.method
  method : type.method = n.method
  params : ParamsMean U m n.params type.params

end MetaModel

namespace CppUnit

open Filter (Eventually atTop)

variable {u : CppUnit} {env : Declarations} {ct : CppType} {t : LspType}

/-- The generated `Decode` of a new object, with enough nested calls. -/
theorem eventually_decode (h : u.Compiles env) (ht : u.Stands ct t) (v : Value) :
    ∀ᶠ n in atTop, u.decode n ct v (u.default n ct) = Lsp.decode env t v (env.default t) := by
  refine ((decodesBelow h (v.depth + 1) ht).and (h.default_eq ht)).mono fun n hn => ?_
  rw [hn.2]
  exact hn.1 v (Nat.lt_succ_self _) _

theorem eventually_encode (h : u.Compiles env) (ht : u.Stands ct t) {x : LspValue}
    (hx : HasType env t x) : ∀ᶠ n in atTop, u.encode n ct x = Lsp.encode env t x :=
  (encodesBelow h (x.depth + 1) ht).mono fun _ hn => hn x (Nat.lt_succ_self _) hx

section Messages

inductive ParamsStand (u : CppUnit) : Bool → List CppType → Option LspType → Prop
  | none : ParamsStand u false [] none
  | single {ct : CppType} {t : LspType} (h : u.Stands ct t) : ParamsStand u true [ct] (some t)

variable {hasParams : Bool} {bases : List CppType} {type : Option LspType}

theorem ParamsStand.eventually_decode (hp : u.ParamsStand hasParams bases type)
    (h : u.Compiles env) (object : Value) : ∀ᶠ n in atTop,
      decodeMessageParams u n hasParams bases object = Session.decodeParams env type object := by
  cases hp with
  | none => exact .of_forall fun _ => rfl
  | @single ct t ht =>
    cases hparams : object.get "params" with
    | error f =>
      refine .of_forall fun n => ?_
      simp only [decodeMessageParams, Session.decodeParams, hparams, if_true]
      rfl
    | ok v =>
      refine (CppUnit.eventually_decode h ht v).mono fun n hn => ?_
      simp only [decodeMessageParams, Session.decodeParams, hparams, if_true, List.headD_cons, bind,
        Except.bind, hn]

theorem ParamsStand.eventually_encode (hp : u.ParamsStand hasParams bases type)
    (h : u.Compiles env) {params : LspValue}
    (hx : ∀ t, type = some t → HasType env t params) : ∀ᶠ n in atTop,
      encodeMessageParams u n hasParams bases params = Session.encodeParams env type params := by
  cases hp with
  | none => exact .of_forall fun _ => rfl
  | @single ct t ht =>
    refine (CppUnit.eventually_encode h ht (hx t rfl)).mono fun n hn => ?_
    simp only [encodeMessageParams, Session.encodeParams, List.headD_cons, if_true, hn]

end Messages

end CppUnit

namespace CppRequest

open Filter (Eventually atTop)

variable {u : CppUnit} {env : Declarations} {c : CppRequest} {type : RequestType}

/-- The structure of a request stands for a request of a session. -/
structure Stands (u : CppUnit) (c : CppRequest) (type : RequestType) : Prop where
  method : c.kMethod = type.method
  params : u.ParamsStand c.kHasParams c.bases type.params
  success : u.Stands c.successType type.success
  failure : Option.Rel u.Stands c.failureType type.failure

def IsReply (env : Declarations) (type : RequestType) : Reply → Prop
  | .success x => HasType env type.success x
  | .failure x => ∀ t, type.failure = some t → HasType env t x

theorem Stands.eventually_encodeReply (hc : c.Stands u type) (h : u.Compiles env) {reply : Reply}
    (hx : IsReply env type reply) :
    ∀ᶠ n in atTop, c.encodeReply u n reply = Session.encodeReply env type reply := by
  cases reply with
  | success x =>
    refine (CppUnit.eventually_encode h hc.success hx).mono fun n hn => ?_
    simp only [encodeReply, Session.encodeReply, hn]
  | failure x =>
    have hfailure := hc.failure
    generalize hcf : c.failureType = cf, htf : type.failure = tf at hfailure
    cases hfailure with
    | none =>
      refine .of_forall fun n => ?_
      simp only [encodeReply, Session.encodeReply, hcf, htf]
    | some hs =>
      refine (CppUnit.eventually_encode h hs (hx _ htf)).mono fun n hn => ?_
      simp only [encodeReply, Session.encodeReply, hcf, htf, hn]

theorem Stands.eventually_readResponse (hc : c.Stands u type) (h : u.Compiles env) (promise : ℕ)
    (response : Value) : ∀ᶠ n in atTop, c.readResponse u n response =
      Session.readResponse env ⟨promise, type.success, type.failure⟩ response := by
  cases hresult : response.get "result" with
  | ok result =>
    refine (CppUnit.eventually_decode h hc.success result).mono fun n hn => ?_
    simp only [readResponse, Session.readResponse, hresult, bind, Except.bind, hn]
  | error f =>
    have hfailure := hc.failure
    generalize hcf : c.failureType = cf, htf : type.failure = tf at hfailure
    cases hfailure with
    | none =>
      refine .of_forall fun n => ?_
      simp only [readResponse, Session.readResponse, hresult, hcf]
    | some hs =>
      cases herror : response.get "error" with
      | error f =>
        refine .of_forall fun n => ?_
        simp only [readResponse, Session.readResponse, hresult, hcf, herror]
        rfl
      | ok error =>
        refine (CppUnit.eventually_decode h hs error).mono fun n hn => ?_
        simp only [readResponse, Session.readResponse, hresult, hcf, herror, bind, Except.bind, hn]

end CppRequest

section Agreement

variable (u : CppUnit) (env : Declarations)

/-- With enough nested calls, a session does with the params of a generated message what it does
with the params of the message. -/
structure ParamsAgree (hasParams : Bool) (bases : List CppType) (type : Option LspType) : Prop where
  encode : ∀ params, (∀ t, type = some t → HasType env t params) → ∃ N, ∀ n ≥ N,
    encodeMessageParams u n hasParams bases params = Session.encodeParams env type params
  decode : ∀ object, ∃ N, ∀ n ≥ N,
    decodeMessageParams u n hasParams bases object = Session.decodeParams env type object

/-- With enough nested calls, a session does with a generated request what it does with the
request. -/
structure CppRequest.Agrees (c : CppRequest) (type : RequestType) : Prop where
  method : c.kMethod = type.method
  params : ParamsAgree u env c.kHasParams c.bases type.params
  encodeReply : ∀ reply, CppRequest.IsReply env type reply → ∃ N, ∀ n ≥ N,
    c.encodeReply u n reply = Session.encodeReply env type reply
  readResponse : ∀ promise response, ∃ N, ∀ n ≥ N, c.readResponse u n response =
    Session.readResponse env ⟨promise, type.success, type.failure⟩ response

structure CppNotification.Agrees (c : CppNotification) (type : NotificationType) : Prop where
  method : c.kMethod = type.method
  params : ParamsAgree u env c.kHasParams c.bases type.params

variable {u env}

theorem CppUnit.ParamsStand.agree (h : u.Compiles env) {hasParams : Bool} {bases : List CppType}
    {type : Option LspType} (hp : u.ParamsStand hasParams bases type) :
    ParamsAgree u env hasParams bases type where
  encode _ hx := Filter.eventually_atTop.mp (hp.eventually_encode h hx)
  decode object := Filter.eventually_atTop.mp (hp.eventually_decode h object)

theorem CppRequest.Stands.agrees (h : u.Compiles env) {c : CppRequest} {type : RequestType}
    (hc : c.Stands u type) : c.Agrees u env type where
  method := hc.method
  params := hc.params.agree h
  encodeReply _ hx := Filter.eventually_atTop.mp (hc.eventually_encodeReply h hx)
  readResponse promise response :=
    Filter.eventually_atTop.mp (hc.eventually_readResponse h promise response)

end Agreement

namespace Resolver

open Templates

variable {U : Unicode} {m : MetaModel} {p : Protocol} {u : CppUnit} {msgs : CppMessages}
  {env : Declarations}

theorem messages_of_resolve (hr : resolve U m = .ok (.ok p)) :
    p.notifications = m.notifications.map (translateNotification U) ∧
      p.requests = m.requests.map (translateRequest U) := by
  obtain ⟨st, hrun, -⟩ := resolve_eq_ok hr
  obtain ⟨_, _, _, _, _, _, -, -, -, -, -, -, -, -, -, hnotifications, hrequests, -⟩ :=
    model_eq_ok hrun
  exact ⟨hnotifications, hrequests⟩

section Printed

/-- A type that has a meaning is not missing. -/
theorem translate_ne_nil {scope : Option LiteralScope} {t : MetaModel.TypeImpl} {lt : LspType}
    (ht : Means U m scope t lt) : translate U scope t ≠ .nil := by
  cases ht <;> simp [translate, baseType]

theorem failureTemplate_eq_some {t : Protocol.TypeImpl} (ht : t ≠ .nil) {failure : Option CppType}
    (h : failureTemplate t = some failure) :
    ∃ ct, typeTemplate t = some ct ∧ failure = some ct := by
  cases t with
  | nil => exact absurd rfl ht
  | _ =>
    rw [failureTemplate] at h
    · obtain ⟨ct, hct, rfl⟩ := Option.map_eq_some_iff.mp h
      exact ⟨ct, hct, rfl⟩
    · simp

theorem paramsStand_of_mean (h : Emitted U m u) {ts : List MetaModel.TypeImpl}
    {type : Option LspType} (ht : MetaModel.ParamsMean U m ts type) {bases : List CppType}
    (hbases : typeTemplates (translateAll U none ts) = some bases) :
    u.ParamsStand (!(translateAll U none ts).isEmpty) bases type := by
  have hall := typeTemplates_translateAll hbases
  cases ht with
  | none =>
    cases hall
    exact .none
  | single ht =>
    cases hall with
    | cons hct hall =>
      cases hall
      exact .single (stands_of_means h ht hct)

theorem failureStands_of_means (h : Emitted U m u) {t : MetaModel.TypeImpl} {type : Option LspType}
    (ht : MetaModel.ErrorDataMeans U m t type) {failureType : Option CppType}
    (hfailure : failureTemplate (translate U none t) = some failureType) :
    Option.Rel u.Stands failureType type := by
  cases ht with
  | none =>
    cases hfailure
    exact .none
  | some ht =>
    obtain ⟨ct, hct, rfl⟩ := failureTemplate_eq_some (translate_ne_nil ht) hfailure
    exact .some (stands_of_means h ht hct)

theorem stands_of_requestTemplate (h : Emitted U m u) {r : MetaModel.Request} {type : RequestType}
    (hr : r.Means U m type) {c : CppRequest}
    (hc : requestTemplate (translateRequest U r) = some c) :
    c.name = U.className r.method ++ "Request" ∧ c.Stands u type := by
  obtain ⟨bases, hbases, hc⟩ := Option.bind_eq_some_iff.mp hc
  obtain ⟨kMethod, hmethod, hc⟩ := Option.bind_eq_some_iff.mp hc
  obtain ⟨successType, hsuccess, hc⟩ := Option.bind_eq_some_iff.mp hc
  obtain ⟨failureType, hfailure, hc⟩ := Option.bind_eq_some_iff.mp hc
  cases hc
  cases (literal_of_verbatim hr.verbatim).symm.trans hmethod
  exact ⟨rfl, hr.method.symm, paramsStand_of_mean h hr.params hbases,
    stands_of_means h hr.result hsuccess, failureStands_of_means h hr.errorData hfailure⟩

end Printed

/-- For every request and every notification of an accepted metamodel a structure is generated
with which a session does what the message of the strict metamodel means. -/
theorem generated_messages_agree (hr : resolve U m = .ok (.ok p)) (hg : generateUnit p = some u)
    (hmsgs : generateMessages p = some msgs) (hdistinct : u.MembersDistinct)
    (hm : Declares U m.strict env) :
    (∀ r ∈ m.requests, ∀ type, r.Means U m.strict type → ∃ c ∈ msgs.requests,
      c.name = U.className r.method ++ "Request" ∧ c.Agrees u env type) ∧
    ∀ n ∈ m.notifications, ∀ type, n.Means U m.strict type → ∃ c ∈ msgs.notifications,
      c.name = U.className n.method ++ "Notification" ∧ c.Agrees u env type := by
  have h := (emitted_of_generate hr hg).strict
  have hcompiles := compiles_of_declares h hdistinct hm
  obtain ⟨hnotifications, hrequests⟩ := messages_of_resolve hr
  obtain ⟨requests, hrs, hmsgs⟩ := Option.bind_eq_some_iff.mp hmsgs
  obtain ⟨notifications, hns, hmsgs⟩ := Option.bind_eq_some_iff.mp hmsgs
  cases hmsgs
  rw [hrequests] at hrs
  rw [hnotifications] at hns
  constructor
  · intro r hmem type hmeans
    obtain ⟨c, hc, hrc⟩ := ListRelations.exists_of_mem_left (ListRelations.mapM_eq_some hrs)
      (List.mem_map_of_mem hmem)
    obtain ⟨hname, hstands⟩ := stands_of_requestTemplate h hmeans hrc
    exact ⟨c, hc, hname, hstands.agrees hcompiles⟩
  · intro n hmem type hmeans
    obtain ⟨c, hc, hnc⟩ := ListRelations.exists_of_mem_left (ListRelations.mapM_eq_some hns)
      (List.mem_map_of_mem hmem)
    obtain ⟨bases, hbases, hnc⟩ := Option.bind_eq_some_iff.mp hnc
    obtain ⟨kMethod, hmethod, hnc⟩ := Option.bind_eq_some_iff.mp hnc
    cases hnc
    cases (literal_of_verbatim hmeans.verbatim).symm.trans hmethod
    exact ⟨_, hc, rfl, hmeans.method.symm,
      (paramsStand_of_mean h hmeans.params hbases).agree hcompiles⟩

section Lifecycle

def shutdownRequest : MetaModel.Request where
  method := "shutdown"
  messageDirection := "clientToServer"
  params := []
  errorData := .nil
  partialResult := .nil
  registrationOptions := .nil
  result := .base "null"

def exitNotification : MetaModel.Notification where
  method := "exit"
  messageDirection := "clientToServer"
  params := []
  registrationOptions := .nil

/-- The messages of the protocol that end a session. -/
def lifecycleModel : MetaModel where
  requests := [shutdownRequest]
  notifications := [exitNotification]

theorem lifecycleModel_declares : Declares asciiTables lifecycleModel [] where
  ordered := trivial
  definitions s hs := by cases hs
  lspAny a ha := by cases ha

theorem shutdownRequest_means {m : MetaModel} :
    shutdownRequest.Means asciiTables m Session.shutdown where
  verbatim := by decide
  method := rfl
  params := .none
  result := .null
  errorData := .none

end Lifecycle

section Deletions

def fileDelete : MetaModel.Structure where
  name := "FileDelete"
  properties := [⟨"uri", false, .base "string"⟩]

def deleteFilesParams : MetaModel.Structure where
  name := "DeleteFilesParams"
  properties := [⟨"files", false, .array (.reference "FileDelete")⟩]

def didDeleteFiles : MetaModel.Notification where
  method := "workspace/didDeleteFiles"
  messageDirection := "clientToServer"
  params := [.reference "DeleteFilesParams"]
  registrationOptions := .nil

/-- A request without params and a notification with params. -/
def deletionModel : MetaModel where
  structures := [fileDelete, deleteFilesParams]
  requests := [shutdownRequest]
  notifications := [didDeleteFiles]

def deletionProtocol : Protocol where
  structures := deletionModel.structures.map (translateStructure asciiTables)
  notifications := [translateNotification asciiTables didDeleteFiles]
  requests := [translateRequest asciiTables shutdownRequest]
  clientToServerRequests := [translateRequest asciiTables shutdownRequest]
  references := [
    ("DeleteFilesParams", some (.structure (translateStructure asciiTables deleteFilesParams))),
    ("FileDelete", some (.structure (translateStructure asciiTables fileDelete)))]

theorem resolve_deletionModel :
    resolve asciiTables deletionModel = .ok (.ok deletionProtocol) := by
  rfl

def deletionUnit : CppUnit where
  program := {
    aliases := []
    structures := [
      { name := "FileDelete"
        bases := []
        members := [(false, .string, "uri")]
        decode := [.member "uri" "uri"]
        encodeMembers := [.member "uri" "uri"] },
      { name := "DeleteFilesParams"
        bases := []
        members := [(false, .vector (.named "FileDelete"), "files")]
        decode := [.member "files" "files"]
        encodeMembers := [.member "files" "files"] }] }
  enumerations := []

theorem generateUnit_deletionProtocol : generateUnit deletionProtocol = some deletionUnit := by
  rfl

def deletionMessages : CppMessages where
  requests := [
    { name := "ShutdownRequest"
      bases := []
      kMethod := "shutdown"
      kHasParams := false
      successType := .null
      failureType := none }]
  notifications := [
    { name := "WorkspaceDidDeleteFilesNotification"
      bases := [.named "DeleteFilesParams"]
      kMethod := "workspace/didDeleteFiles"
      kHasParams := true }]

theorem generateMessages_deletionProtocol :
    generateMessages deletionProtocol = some deletionMessages := by
  rfl

def deletionDeclarations : Declarations := [
  ⟨"DeleteFilesParams", .mk none [⟨"files", false, .vector (.reference "FileDelete")⟩] []⟩,
  ⟨"FileDelete", .mk none [⟨"uri", false, .string⟩] []⟩]

theorem deletionModel_declares :
    Declares asciiTables deletionModel deletionDeclarations where
  ordered := by
    simp [deletionDeclarations, Lsp.Declarations.Ordered, Lsp.Declarations.names,
      Lsp.Structure.held, Lsp.Structure.heldBases, Lsp.LspType.held]
  definitions s hs := by
    have hsources : deletionModel.sources asciiTables = deletionModel.structures.map .declared :=
      rfl
    rw [hsources, deletionModel] at hs
    simp only [List.map_cons, List.map_nil, List.mem_cons, List.not_mem_nil, or_false] at hs
    rcases hs with rfl | rfl
    · refine ⟨by decide, ⟨rfl, by decide, by decide⟩, rfl, ?_, trivial⟩
      exact .cons ⟨by decide, rfl, rfl, .string⟩ .nil
    · refine ⟨by decide, ⟨rfl, by decide, by decide⟩, rfl, ?_, trivial⟩
      refine .cons ⟨by decide, rfl, rfl, .array ?_⟩ .nil
      exact .declared (s := fileDelete) (List.mem_cons_self ..)
  lspAny a ha := by cases ha

def deletion : NotificationType :=
  ⟨"workspace/didDeleteFiles", some (.reference "DeleteFilesParams")⟩

theorem didDeleteFiles_means : didDeleteFiles.Means asciiTables deletionModel deletion where
  verbatim := by decide
  method := rfl
  params := .single (.declared (s := deleteFilesParams) (.tail _ (.head _)))

theorem generated_messages_agree_deletions :
    (∃ c ∈ deletionMessages.requests, c.name = "ShutdownRequest" ∧
      c.Agrees deletionUnit deletionDeclarations Session.shutdown) ∧
    ∃ c ∈ deletionMessages.notifications, c.name = "WorkspaceDidDeleteFilesNotification" ∧
      c.Agrees deletionUnit deletionDeclarations deletion := by
  have hdistinct : deletionUnit.MembersDistinct := by
    simp [CppUnit.MembersDistinct, deletionUnit]
  obtain ⟨hrequests, hnotifications⟩ := generated_messages_agree resolve_deletionModel
    generateUnit_deletionProtocol generateMessages_deletionProtocol hdistinct
    deletionModel_declares
  exact ⟨hrequests _ (List.mem_singleton_self _) _ shutdownRequest_means,
    hnotifications _ (List.mem_singleton_self _) _ didDeleteFiles_means⟩

end Deletions

end Resolver

end Langsvr
