import Langsvr.Conformance
import Langsvr.Dispatch
import Langsvr.GeneratedMessages
import Langsvr.PromiseSources
import Langsvr.RequestExecutions
import Langsvr.RoundTripReadiness

/-!
# Messages that conform to the metamodel

A session lets the messages in that conform to the metamodel, and no others: handlers are called
for params that conform, and promises are set by responses that conform. What two sessions send to
each other conforms, too. The metamodel has declarations in the codec, so no structure of it mixes
in others, and the types of the messages mean something there, so no enumeration in them has custom
values.
-/

namespace Langsvr

open Json (Value Member)
open Lsp (LspType LspValue Declarations)
open MetaModel (Means Declares Conforms)
open Session (IsRequest IsResponse IsNotification)

def JsonText.WellFormed (text : JsonText) : Prop :=
  ∀ json object, text.parse json = .ok object → object.WellFormed

namespace MetaModel

variable (m : MetaModel)

/-- A message has params that conform to the types of its params. -/
def ParamsConform (ts : List TypeImpl) (object : Value) : Prop :=
  ∀ t ∈ ts, ∃ v, object.get "params" = .ok v ∧ Conforms m t v

/-- A response has a result that conforms, or error data that conforms in place of a result. -/
inductive Request.ResponseConforms (r : Request) (response : Value) : Prop
  | result {v : Value} (hv : response.get "result" = .ok v) (h : Conforms m r.result v) :
      ResponseConforms r response
  | error {v : Value} (hn : ∀ v, response.get "result" ≠ .ok v)
      (hv : response.get "error" = .ok v) (h : Conforms m r.errorData v) :
      ResponseConforms r response

end MetaModel

variable {U : Unicode} {m : MetaModel} {env : Declarations} {text : JsonText}

section Readers

variable {object : Value}

/-- The values that are decoded are those that conform to the metamodel. -/
theorem exists_decode_iff (hu : m.DeclaredOnce) (hm : Declares U m env)
    {scope : Option Resolver.LiteralScope} {t : MetaModel.TypeImpl} {lt : LspType}
    (ht : Means U m scope t lt) {v : Value} (hv : v.WellFormed) :
    (∃ x, Lsp.decode env lt v (env.default lt) = .ok x) ↔ Conforms m t v := by
  rw [MetaModel.conforms_iff_matches hu hm ht, ← Lsp.accepts_iff_matches hv]
  rfl

theorem exists_decodeParams_iff (hu : m.DeclaredOnce) (hm : Declares U m env)
    {ts : List MetaModel.TypeImpl} {type : Option LspType} (ht : MetaModel.ParamsMean U m ts type)
    (hv : object.WellFormed) :
    (∃ params, Session.decodeParams env type object = .ok params) ↔ m.ParamsConform ts object := by
  cases ht with
  | none => simp [Session.decodeParams, MetaModel.ParamsConform]
  | @single t lt ht =>
    simp only [MetaModel.ParamsConform, List.mem_singleton, forall_eq]
    constructor
    · rintro ⟨params, hp⟩
      obtain ⟨v, hget, hp⟩ := Except.bind_eq_ok.mp hp
      obtain ⟨x, hx, -⟩ := Except.bind_eq_ok.mp hp
      exact ⟨v, hget, (exists_decode_iff hu hm ht (hv.get hget)).mp ⟨x, hx⟩⟩
    · rintro ⟨v, hget, hc⟩
      obtain ⟨x, hx⟩ := (exists_decode_iff hu hm ht (hv.get hget)).mpr hc
      exact ⟨some x, Except.bind_eq_ok.mpr ⟨v, hget, Except.bind_eq_ok.mpr ⟨x, hx, rfl⟩⟩⟩

variable {r : MetaModel.Request} {type : RequestType}

theorem exists_readResponse_iff (hu : m.DeclaredOnce) (hm : Declares U m env)
    (hr : r.Means U m type) (hv : object.WellFormed) (promise : ℕ) :
    (∃ value, Session.readResponse env ⟨promise, type.success, type.failure⟩ object = .ok value) ↔
      r.ResponseConforms m object := by
  cases hresult : object.get "result" with
  | ok v =>
    have hdecode := exists_decode_iff hu hm hr.result (hv.get hresult)
    simp only [Session.readResponse, hresult]
    constructor
    · rintro ⟨value, h⟩
      obtain ⟨x, hx, -⟩ := Except.bind_eq_ok.mp h
      exact .result hresult (hdecode.mp ⟨x, hx⟩)
    · intro h
      cases h with
      | result hw h =>
        cases hresult.symm.trans hw
        obtain ⟨x, hx⟩ := hdecode.mpr h
        exact ⟨.success x, Except.bind_eq_ok.mpr ⟨x, hx, rfl⟩⟩
      | error hn => exact absurd hresult (hn v)
  | error f =>
    have hn : ∀ v, object.get "result" ≠ .ok v := fun v h => by cases hresult.symm.trans h
    simp only [Session.readResponse, hresult]
    have herror := hr.errorData
    generalize hdata : r.errorData = t, htype : type.failure = lt at herror
    cases herror with
    | none =>
      constructor
      · rintro ⟨value, h⟩
        cases h
      · intro h
        cases h with
        | result hw => exact absurd hw (hn _)
        | error _ _ h =>
          rw [hdata] at h
          cases h
    | some ht =>
      constructor
      · rintro ⟨value, h⟩
        obtain ⟨v, hget, h⟩ := Except.bind_eq_ok.mp h
        obtain ⟨x, hx, -⟩ := Except.bind_eq_ok.mp h
        have hc := (exists_decode_iff hu hm ht (hv.get hget)).mp ⟨x, hx⟩
        rw [← hdata] at hc
        exact .error hn hget hc
      · intro h
        cases h with
        | result hw => exact absurd hw (hn _)
        | error _ hget h =>
          rw [hdata] at h
          obtain ⟨x, hx⟩ := (exists_decode_iff hu hm ht (hv.get hget)).mpr h
          exact ⟨.failure x, Except.bind_eq_ok.mpr
            ⟨_, hget, Except.bind_eq_ok.mpr ⟨x, hx, rfl⟩⟩⟩

end Readers

namespace Session

section Receive

variable {json : String} {object : Value} {id : Int64} {w : World}

/-- A request reaches its handler if and only if its params can be read. -/
theorem request_served_iff {method : String} {handler : RequestHandler}
    (h : IsRequest text json object method id)
    (hl : List.lookup method w.session.requestHandlers = some handler) :
    (∃ params next, (receive text env json).run w =
      (.waiting (.request handler.callback params) next, w)) ↔
        ∃ params, decodeParams env handler.type.params object = .ok params := by
  constructor
  · rintro ⟨params, next, hrun⟩
    cases hd : decodeParams env handler.type.params object with
    | ok params => exact ⟨params, rfl⟩
    | error f =>
      rw [run_receive_undecoded h hl hd] at hrun
      cases hrun
  · rintro ⟨params, hd⟩
    exact ⟨params, _, run_receive_request h hl hd⟩

theorem notification_served_iff {method : String} {handler : NotificationHandler}
    (h : IsNotification text json object method)
    (hl : List.lookup method w.session.notificationHandlers = some handler) :
    (∃ params next, (receive text env json).run w =
      (.waiting (.notification handler.callback params) next, w)) ↔
        ∃ params, decodeParams env handler.type.params object = .ok params := by
  constructor
  · rintro ⟨params, next, hrun⟩
    cases hd : decodeParams env handler.type.params object with
    | ok params => exact ⟨params, rfl⟩
    | error f =>
      rw [run_receive_undecoded_notification h hl hd] at hrun
      cases hrun
  · rintro ⟨params, hd⟩
    exact ⟨params, _, run_receive_notification h hl hd⟩

theorem response_settles_iff {handler : ResponseHandler} (h : IsResponse text json object id)
    (hl : List.lookup id w.session.responseHandlers = some handler)
    (hp : w.promises[handler.promise]? = some none) :
    (∃ value, (receive text env json).run w = (.returned (.ok ()),
      (w.takeHandler id handler object).setValue handler.promise value)) ↔
        ∃ value, readResponse env handler object = .ok value := by
  have hrun : (receive text env json).run w = _ := run_receive_pending h hl hp
  constructor
  · rintro ⟨value, hset⟩
    cases hv : readResponse env handler object with
    | ok value => exact ⟨value, rfl⟩
    | error f =>
      rw [hrun, hv] at hset
      cases hset
  · rintro ⟨value, hv⟩
    rw [hv] at hrun
    exact ⟨value, hrun⟩

end Receive

/-- `Receive` fails and leaves a state behind. -/
def Refuses (text : JsonText) (env : Declarations) (json : String) (w w' : World) : Prop :=
  ∃ f, (receive text env json).run w = (.returned (.error f), w')

theorem exists_error_of_not {α : Type} {x : Result α} (h : ¬ ∃ a, x = .ok a) :
    ∃ f, x = .error f := by
  cases x with
  | error f => exact ⟨f, rfl⟩
  | ok a => exact absurd ⟨a, rfl⟩ h

/-- A session accepts the messages that conform to the metamodel, and no others: a registered
handler is called, and the promise of a pending request is set, if and only if what is read for it
conforms. Anything else is refused. The session stays as it was, but for the handler of a response
that does not conform. -/
theorem receive_conforming (hparse : text.WellFormed) (hu : m.DeclaredOnce) (hm : Declares U m env)
    (w : World) :
    (∀ json object method id handler r, IsRequest text json object method id →
      List.lookup method w.session.requestHandlers = some handler →
      MetaModel.Request.Means U m r handler.type →
        ((∃ params next, (receive text env json).run w =
          (.waiting (.request handler.callback params) next, w)) ↔
            m.ParamsConform r.params object) ∧
        (¬ m.ParamsConform r.params object → Refuses text env json w w)) ∧
    (∀ json object method handler n, IsNotification text json object method →
      List.lookup method w.session.notificationHandlers = some handler →
      MetaModel.Notification.Means U m n handler.type →
        ((∃ params next, (receive text env json).run w =
          (.waiting (.notification handler.callback params) next, w)) ↔
            m.ParamsConform n.params object) ∧
        (¬ m.ParamsConform n.params object → Refuses text env json w w)) ∧
    (∀ json object id promise type r, IsResponse text json object id →
      List.lookup id w.session.responseHandlers =
        some ⟨promise, type.success, type.failure⟩ →
      w.promises[promise]? = some none → MetaModel.Request.Means U m r type →
        ((∃ value, (receive text env json).run w = (.returned (.ok ()),
          (w.takeHandler id ⟨promise, type.success, type.failure⟩ object).setValue
            promise value)) ↔ r.ResponseConforms m object) ∧
        (¬ r.ResponseConforms m object → Refuses text env json w
          (w.takeHandler id ⟨promise, type.success, type.failure⟩ object))) ∧
    ∀ json, (∀ object method id, IsRequest text json object method id →
        List.lookup method w.session.requestHandlers = none) →
      (∀ object method, IsNotification text json object method →
        List.lookup method w.session.notificationHandlers = none) →
      (∀ object id, IsResponse text json object id →
        List.lookup id w.session.responseHandlers = none) → Refuses text env json w w := by
  refine ⟨?_, ?_, ?_, ?_⟩
  · intro json object method id handler r h hl hr
    have hread := exists_decodeParams_iff hu hm hr.params (hparse _ _ h.parse)
    refine ⟨(request_served_iff h hl).trans hread, fun hnot => ?_⟩
    obtain ⟨f, hf⟩ := exists_error_of_not (hread.not.mpr hnot)
    exact ⟨f, run_receive_undecoded h hl hf⟩
  · intro json object method handler n h hl hn
    have hread := exists_decodeParams_iff hu hm hn.params (hparse _ _ h.parse)
    refine ⟨(notification_served_iff h hl).trans hread, fun hnot => ?_⟩
    obtain ⟨f, hf⟩ := exists_error_of_not (hread.not.mpr hnot)
    exact ⟨f, run_receive_undecoded_notification h hl hf⟩
  · intro json object id promise type r h hl hp hr
    have hread := exists_readResponse_iff hu hm hr (hparse _ _ h.parse) promise
    refine ⟨(response_settles_iff h hl hp).trans hread, fun hnot => ?_⟩
    obtain ⟨f, hf⟩ := exists_error_of_not (hread.not.mpr hnot)
    have hrun : (receive text env json).run w = _ := run_receive_pending h hl hp
    rw [hf] at hrun
    exact ⟨f, hrun⟩
  · intro json hrequest hnotification hresponse
    refine run_receive_refused ?_ ?_ ?_
    · intro object method id handler params hs
      cases (hrequest _ _ _ hs.request).symm.trans hs.registered
    · intro object method handler params hn
      cases (hnotification _ _ hn.notification).symm.trans hn.registered
    · intro object id handler ht
      cases (hresponse _ _ ht.response).symm.trans ht.pending

end Session

section Futures

namespace Session

variable {c : Program.Pool World Crash Call Call.Answer Unit}

/-- Whatever a session is sent, and whatever it is used for in the meantime, the promise of a
request is set to what was read from a response with the id of the request, and that response
conforms to the metamodel. -/
theorem futures_conform (hparse : text.WellFormed) (hu : m.DeclaredOnce) (hm : Declares U m env)
    (h : Program.Pool.Reachable (Started text env) {} c)
    (hn : c.state.allocatedIds.length < 2 ^ 63 - 1) {id : Int64} {promise : ℕ} {type : RequestType}
    {params : LspValue} {message : Value} {value : Reply}
    (hi : .issued id promise type params message ∈ c.state.history)
    (hv : c.state.promises[promise]? = some (some value)) {r : MetaModel.Request}
    (hr : r.Means U m type) :
    ∃ response, .invoked promise response ∈ c.state.history ∧
      response.getI64 "id" = .ok id ∧ r.ResponseConforms m response ∧
        readResponse env ⟨promise, type.success, type.failure⟩ response = .ok value := by
  obtain ⟨hc, -⟩ := consistent_of_reachable h hn
  obtain ⟨id', type', params', message', response, hi', hinvoked, hread⟩ :=
    setFromResponses_of_reachable h hn promise value ((hc.settled promise value).mpr hv)
  cases hc.issued_unique_promise hi hi'
  obtain ⟨json, hj⟩ := parsed_of_reachable h hinvoked
  obtain ⟨id', type', params', message', hi', hid⟩ := hc.invoked promise response hinvoked
  cases hc.issued_unique_promise hi hi'
  exact ⟨response, hinvoked, hid,
    (exists_readResponse_iff hu hm hr (hparse json response hj) promise).mp ⟨value, hread⟩, hread⟩

end Session

end Futures

section Senders

open Session
open Lsp (HasType RoundTripReady)

/-- A value that comes back when it is encoded and decoded. -/
structure Sendable (env : Declarations) (t : LspType) (x : LspValue) : Prop where
  ready : RoundTripReady env t
  hasType : HasType env t x
  allSet : x.AllSet

def ParamsSendable (env : Declarations) (type : Option LspType) (params : LspValue) : Prop :=
  ∀ t, type = some t → Sendable env t params

def ReplySendable (env : Declarations) (type : RequestType) : Reply → Prop
  | .success x => Sendable env type.success x
  | .failure x => ∀ t, type.failure = some t → Sendable env t x

section Writers

theorem Sendable.conforms (hu : m.DeclaredOnce) (hm : Declares U m env)
    {scope : Option Resolver.LiteralScope} {t : MetaModel.TypeImpl} {lt : LspType}
    (ht : Means U m scope t lt) {x : LspValue} (hx : Sendable env lt x) {v : Value}
    (hv : Lsp.encode env lt x = .success v) : Conforms m t v := by
  have hback := (Lsp.decode_encode_iff hx.hasType hv).mpr
    (hx.ready.faithful hx.hasType .root hx.allSet)
  exact (exists_decode_iff hu hm ht (Lsp.encode_wellFormed hx.hasType hv)).mp ⟨x, hback⟩

/-- The params that are encoded conform in every message that they are a member of. -/
theorem paramsConform_of_encode (hu : m.DeclaredOnce) (hm : Declares U m env)
    {ts : List MetaModel.TypeImpl} {type : Option LspType} (ht : MetaModel.ParamsMean U m ts type)
    {params : LspValue} (hx : ParamsSendable env type params) {members : List Member}
    (he : encodeParams env type params = .success members) {message : Value}
    (hget : ∀ v, ("params", v) ∈ members → message.get "params" = .ok v) :
    m.ParamsConform ts message := by
  cases ht with
  | none => simp [MetaModel.ParamsConform]
  | single ht =>
    obtain ⟨v, hv, hmembers⟩ := Outcome.andThen_eq_success.mp he
    cases hmembers
    simp only [MetaModel.ParamsConform, List.mem_singleton, forall_eq]
    exact ⟨v, hget v (List.mem_singleton_self _), (hx _ rfl).conforms hu hm ht hv⟩

theorem responseConforms_of_encode (hu : m.DeclaredOnce) (hm : Declares U m env)
    {r : MetaModel.Request} {type : RequestType} (hr : r.Means U m type) {reply : Reply}
    (hx : ReplySendable env type reply) {member : Member}
    (he : encodeReply env type reply = .success member) (id : Int64) :
    r.ResponseConforms m (responseMessage id member) := by
  have hname := encodeReply_name he
  have hget := (get_responseMessage id hname).2
  cases reply with
  | success x =>
    obtain ⟨v, hv, hmember⟩ := Outcome.andThen_eq_success.mp he
    cases hmember
    exact .result hget (Sendable.conforms hu hm hr.result hx hv)
  | failure x =>
    have herror := hr.errorData
    generalize hdata : r.errorData = t, htype : type.failure = lt at herror
    simp only [encodeReply, htype] at he
    cases herror with
    | none => cases he
    | some ht =>
      obtain ⟨v, hv, hmember⟩ := Outcome.andThen_eq_success.mp he
      cases hmember
      obtain ⟨f, hf⟩ := (get_responseMessage_error id hname).2 rfl
      refine .error (fun w hw => ?_) hget ?_
      · cases hf.symm.trans hw
      · rw [hdata]
        exact (hx _ htype).conforms hu hm ht hv

end Writers

/-- A session sends messages that conform to the metamodel: what it gives to its sender in any
execution conforms, if the values come back that it is given. -/
theorem sent_conforms (hu : m.DeclaredOnce) (hm : Declares U m env) {rely : World → World → Prop}
    {s t : World} {vs : List CallVisit} {v : CallVisit} (hv : v ∈ vs) {sender : Callback}
    {msg : String} (hcall : v.call = .sender sender msg) :
    (∀ type params o r, Program.Execution rely (sendRequest text env type params) s vs o t →
      MetaModel.Request.Means U m r type → ParamsSendable env type.params params →
        ∃ message, msg = text.write message ∧ message.getString "method" = .ok r.method ∧
          message.getI64 "id" = .ok s.session.nextRequestId ∧ m.ParamsConform r.params message) ∧
    (∀ type params o n, Program.Execution rely (sendNotification text env type params) s vs o t →
      MetaModel.Notification.Means U m n type → ParamsSendable env type.params params →
        ∃ message, msg = text.write message ∧ message.getString "method" = .ok n.method ∧
          message.has "id" = false ∧ m.ParamsConform n.params message) ∧
    ∀ json o, Program.Execution rely (receive text env json) s vs o t →
      ∃ object method id handler params reply after, IsRequest text json object method id ∧
        List.lookup method s.session.requestHandlers = some handler ∧
        ⟨.request handler.callback params, s, reply, after⟩ ∈ vs ∧
        ∀ r, MetaModel.Request.Means U m r handler.type → ReplySendable env handler.type reply →
          ∃ message, msg = text.write message ∧ message.getI64 "id" = .ok id ∧
            r.ResponseConforms m message := by
  refine ⟨?_, ?_, ?_⟩
  · intro type params o r h hr hx
    cases requestAttempt_of_execution h with
    | sent he hs =>
      obtain rfl := List.mem_singleton.mp hv
      cases hcall
      obtain ⟨hmethod, hid, hget⟩ := get_requestMessage he
      refine ⟨_, rfl, ?_, Value.getI64_eq_ok.mpr ⟨_, hid, rfl⟩,
        paramsConform_of_encode hu hm hr.params hx he hget⟩
      rw [← hr.method]
      exact Value.getString_eq_ok.mpr hmethod
    | _ => cases hv
  · intro type params o n h hn hx
    cases notificationAttempt_of_execution h with
    | sent he hs =>
      obtain rfl := List.mem_singleton.mp hv
      cases hcall
      obtain ⟨hmethod, hid, hget⟩ := get_notificationMessage he
      refine ⟨_, rfl, ?_, hid, paramsConform_of_encode hu hm hn.params hx he hget⟩
      rw [← hn.method]
      exact Value.getString_eq_ok.mpr hmethod
    | _ => cases hv
  · intro json o h
    cases (receipt_of_execution h).visited hv with
    | @sender object method id handler params reply after member _ _ _ hs hr he hsender =>
      cases hcall
      refine ⟨_, _, _, _, _, _, _, hs.request, hs.registered, hr, fun r hmeans hx => ?_⟩
      have hid := (get_responseMessage id (encodeReply_name he)).1
      exact ⟨_, rfl, Value.getI64_eq_ok.mpr ⟨_, hid, rfl⟩,
        responseConforms_of_encode hu hm hmeans hx he id⟩
    | _ => cases hcall

end Senders

section Lifecycle

open Session (shutdown shutdownText)
open Resolver (asciiTables lifecycleModel lifecycleModel_declares shutdownRequest_means)

theorem shutdownText_wellFormed : shutdownText.WellFormed := by
  intro json object hj
  simp only [shutdownText] at hj
  split at hj
  · cases hj
    refine ⟨?_, trivial, trivial, trivial, trivial⟩
    unfold OrderedEntries.Ordered
    decide +kernel
  split at hj
  · cases hj
    refine ⟨?_, trivial, trivial, trivial, trivial⟩
    unfold OrderedEntries.Ordered
    decide +kernel
  split at hj
  · cases hj
    refine ⟨?_, ⟨.nil, trivial⟩, trivial, trivial⟩
    unfold OrderedEntries.Ordered
    decide +kernel
  split at hj
  · cases hj
    refine ⟨?_, trivial, trivial, trivial⟩
    unfold OrderedEntries.Ordered
    decide +kernel
  · cases hj

theorem lifecycleModel_declaredOnce : lifecycleModel.DeclaredOnce := List.nodup_nil

/-- A request without params conforms, and reaches its handler. -/
theorem receive_conforming_shutdown : ∃ object,
    IsRequest shutdownText Session.shutdownRequest object "shutdown" 1 ∧
      ((∃ params next, (Session.receive shutdownText [] Session.shutdownRequest).run
        Session.shutdownServer = (.waiting (.request 1 params) next, Session.shutdownServer)) ↔
          lifecycleModel.ParamsConform [] object) := by
  refine ⟨_, ⟨rfl, rfl, rfl⟩, ?_⟩
  exact ((Session.receive_conforming shutdownText_wellFormed lifecycleModel_declaredOnce
    lifecycleModel_declares Session.shutdownServer).1 Session.shutdownRequest _ "shutdown" 1
      ⟨shutdown, 1, some 2⟩ Resolver.shutdownRequest ⟨rfl, rfl, rfl⟩ rfl shutdownRequest_means).1

theorem futures_conform_shutdown : ∃ c : Program.Pool World Crash Call Call.Answer Unit,
    c.state.promises = [some (.success .null)] ∧ ∃ response,
      .invoked 0 response ∈ c.state.history ∧ response.getI64 "id" = .ok 1 ∧
        Resolver.shutdownRequest.ResponseConforms lifecycleModel response := by
  have hreach : Program.Pool.Reachable (Session.Started shutdownText []) {} _ :=
    .tail (.tail (.tail (.tail .refl
      (.start ⟨.setSender (some 0), rfl⟩))
      (.start ⟨.sendRequest shutdown .null, rfl⟩))
      (.resume [] [] (.ok () : Result Unit)))
      (.start ⟨.receive Session.shutdownResponse, rfl⟩)
  obtain ⟨response, hr, hid, hc, -⟩ := Session.futures_conform shutdownText_wellFormed
    lifecycleModel_declaredOnce lifecycleModel_declares hreach (by decide)
    (.tail _ (.tail _ (.head _))) rfl shutdownRequest_means
  exact ⟨_, rfl, response, hr, hid, hc⟩

theorem null_sendable : Sendable [] .null .null where
  ready := by
    have hnull : ∀ t, Lsp.Occurs [] .null t → t = .null := by
      intro t h
      induction h with
      | root => rfl
      | _ => simp_all
    constructor
    · intro n h
      cases hnull _ h
    · intro e h
      cases hnull _ h
    · intro ts h
      cases hnull _ h
    · intro h
      cases hnull _ h
  hasType := .null
  allSet := trivial

/-- The response to a request of which the result is null. -/
theorem sent_conforms_shutdown : ∃ id message,
    Session.shutdownResponse = shutdownText.write message ∧ message.getI64 "id" = .ok id ∧
      Resolver.shutdownRequest.ResponseConforms lifecycleModel message := by
  obtain ⟨_, method, id, handler, params, reply, _, -, hl, hv, hsent⟩ :=
    (sent_conforms lifecycleModel_declaredOnce lifecycleModel_declares (.tail _ (.head _))
      rfl).2.2 Session.shutdownRequest _ Session.shutdownCalls_execution
  obtain ⟨-, rfl⟩ : method = "shutdown" ∧ (⟨shutdown, 1, some 2⟩ : RequestHandler) = handler := by
    simpa [Session.shutdownServer, eq_comm] using OrderedEntries.mem_of_lookup hl
  obtain rfl : reply = .success .null := by
    simp only [List.mem_cons, List.not_mem_nil, or_false] at hv
    rcases hv with h | h | h
    · cases h
      rfl
    · cases h
    · cases h
  exact ⟨id, hsent _ shutdownRequest_means null_sendable⟩

end Lifecycle

end Langsvr
