import Langsvr.SessionModel

/-!
# The branches of `Receive`

Which message goes into which branch, and how far each branch runs before it calls user
code.
-/

namespace Langsvr.Session

open Json (Value Member)
open Lsp (LspValue Declarations)

variable {text : JsonText} {env : Declarations}

structure IsResponse (text : JsonText) (json : String) (object : Value) (id : Int64) : Prop where
  parse : text.parse json = .ok object
  method : ∀ method, object.getString "method" ≠ .ok method
  id : object.getI64 "id" = .ok id

structure IsRequest (text : JsonText) (json : String) (object : Value) (method : String)
    (id : Int64) : Prop where
  parse : text.parse json = .ok object
  method : object.getString "method" = .ok method
  id : object.getI64 "id" = .ok id

structure IsNotification (text : JsonText) (json : String) (object : Value) (method : String) :
    Prop where
  parse : text.parse json = .ok object
  method : object.getString "method" = .ok method
  id : object.has "id" = false

theorem run_sendJson {w : World} {sender : Callback} (h : w.session.sender = some sender)
    (msg : String) : (sendJson msg).run w = (.waiting (.sender sender msg) pure, w) := by
  simp only [sendJson, Program.run_get_bind, h]
  rfl

theorem has_of_getI64 {v : Value} {n : String} {i : Int64} (h : v.getI64 n = .ok i) :
    v.has n = true := by
  obtain ⟨m, hm, -⟩ := Except.bind_eq_ok.mp h
  obtain ⟨ms, rfl, hl⟩ := Value.get_eq_ok.mp hm
  rw [Value.has, hl]
  rfl

section Responses

variable {json : String} {object : Value} {id : Int64} {w : World}

theorem IsResponse.receive_eq (h : IsResponse text json object id) :
    receive text env json = receiveResponse env object := by
  have hm : ∃ f, object.getString "method" = .error f := by
    cases hm : object.getString "method" with
    | error f => exact ⟨f, rfl⟩
    | ok method => exact absurd hm (h.method method)
  obtain ⟨f, hf⟩ := hm
  simp only [receive, h.parse, hf]

/-- A response for which there is no handler fails and changes nothing. -/
theorem run_receive_unknown (h : IsResponse text json object id)
    (hl : List.lookup id w.session.responseHandlers = none) :
    (receive text env json).run w =
      (.returned (.error ⟨"received response for unknown request with ID " ++ toString id.toInt⟩),
        w) := by
  rw [h.receive_eq]
  simp only [receiveResponse, h.id, takeHandler, Program.run_modifyGet_bind, hl, Program.run_pure]

theorem run_setValue {promise : ℕ} {value : Reply}
    (hp : w.promises[promise]? = some none) :
    (setValue promise value).run w = (.returned (), w.setValue promise value) := by
  simp only [setValue, Program.run_get_bind, hp]
  rfl

theorem run_setValue_again {promise : ℕ} {value : Reply} (hp : w.promises[promise]? ≠ some none) :
    (setValue promise value).run w = (.aborted .promiseAlreadySatisfied, w) := by
  simp only [setValue, Program.run_get_bind]
  rfl

theorem run_receive_taken {handler : ResponseHandler} (h : IsResponse text json object id)
    (hl : List.lookup id w.session.responseHandlers = some handler) :
    (receive text env json).run w = match readResponse env handler object with
      | .error f => (.returned (.error f), w.takeHandler id handler object)
      | .ok value => (setValue handler.promise value >>= fun _ => pure (.ok ())).run
          (w.takeHandler id handler object) := by
  rw [h.receive_eq]
  simp only [receiveResponse, h.id, takeHandler, Program.run_modifyGet_bind, hl,
    callResponseHandler]
  cases readResponse env handler object with
  | error f => rfl
  | ok value => rfl

theorem run_receive_pending {handler : ResponseHandler} (h : IsResponse text json object id)
    (hl : List.lookup id w.session.responseHandlers = some handler)
    (hp : w.promises[handler.promise]? = some none) :
    (receive text env json).run w = match readResponse env handler object with
      | .error f => (.returned (.error f), w.takeHandler id handler object)
      | .ok value =>
        (.returned (.ok ()), (w.takeHandler id handler object).setValue handler.promise value) := by
  have hpromise : (w.takeHandler id handler object).promises[handler.promise]? = some none := hp
  rw [run_receive_taken h hl]
  cases readResponse env handler object with
  | error f => rfl
  | ok value => simp only [Program.run_bind, run_setValue hpromise, Program.run_pure]

end Responses

section Requests

variable {json : String} {object : Value} {method : String} {id : Int64} {w : World}

theorem IsRequest.receive_eq (h : IsRequest text json object method id) :
    receive text env json = receiveRequest text env method object := by
  simp only [receive, h.parse, h.method, has_of_getI64 h.id, if_true]

/-- What follows the reply of a request handler. -/
def answer (text : JsonText) (env : Declarations) (method : String) (id : Int64)
    (type : RequestType) (reply : Reply) : Method (Result Unit) :=
  check (encodeReply env type reply) >>= sendResponse text method id

/-- What follows the reply of the sender. -/
def sent (method : String) : Result Unit → Method (Result Unit)
  | .error f => return .error f
  | .ok _ => do
    let world ← Program.get
    match world.session.postSend method with
    | none => return .ok ()
    | some callback => do
      let _ ← Program.request (Call.postSend callback)
      return .ok ()

theorem run_receive_unregistered (h : IsRequest text json object method id)
    (hl : List.lookup method w.session.requestHandlers = none) :
    (receive text env json).run w =
      (.returned (.error ⟨"no handler registered for request method '" ++ method ++ "'"⟩), w) := by
  rw [h.receive_eq]
  simp only [receiveRequest, h.id, Program.run_get_bind, hl, Program.run_pure]

theorem run_receive_undecoded (h : IsRequest text json object method id)
    {handler : RequestHandler} {f : Failure}
    (hl : List.lookup method w.session.requestHandlers = some handler)
    (hd : decodeParams env handler.type.params object = .error f) :
    (receive text env json).run w = (.returned (.error f), w) := by
  rw [h.receive_eq]
  simp only [receiveRequest, h.id, Program.run_get_bind, hl, callRequestHandler, hd,
    Program.run_pure_bind, sendResponse, Program.run_pure]

/-- A request reaches its handler with its params. -/
theorem run_receive_request (h : IsRequest text json object method id)
    {handler : RequestHandler} {params : Option LspValue}
    (hl : List.lookup method w.session.requestHandlers = some handler)
    (hd : decodeParams env handler.type.params object = .ok params) :
    (receive text env json).run w =
      (.waiting (.request handler.callback params) (answer text env method id handler.type), w) := by
  rw [h.receive_eq]
  simp only [receiveRequest, h.id, Program.run_get_bind, hl, callRequestHandler, hd]
  rfl

variable {type : RequestType} {reply : Reply}

theorem run_answer (text : JsonText) (method : String) (id : Int64) (w : World) {member : Member}
    (he : encodeReply env type reply = .success member) :
    (answer text env method id type reply).run w = match w.session.sender with
      | none => (.returned (.error ⟨"no sender set"⟩), w)
      | some sender =>
        (.waiting (.sender sender (text.write (responseMessage id member))) (sent method), w) := by
  simp only [answer, he, check, Program.run_pure_bind, sendResponse, sendJson]
  rw [Program.run_bind, Program.run_get_bind]
  cases w.session.sender with
  | none => rfl
  | some sender =>
    refine congrArg (fun next => (Program.Stop.waiting _ next, w)) ?_
    funext r
    cases r <;> rfl

theorem run_answer_unencoded (text : JsonText) (method : String) (id : Int64) (w : World)
    (he : ∀ member, encodeReply env type reply ≠ .success member) :
    (∃ f, (answer text env method id type reply).run w = (.returned (.error f), w)) ∨
      (answer text env method id type reply).run w = (.aborted .resultUnset, w) := by
  cases h : encodeReply env type reply with
  | success member => exact absurd h (he member)
  | failure f => exact Or.inl ⟨f, by simp only [answer, h]; rfl⟩
  | unset => exact Or.inr (by simp only [answer, h]; rfl)
  | asserted => exact Or.inr (by simp only [answer, h]; rfl)

theorem run_sent (method : String) (w : World) : (sent method (.ok ())).run w =
    match w.session.postSend method with
    | none => (.returned (.ok ()), w)
    | some callback => (.waiting (.postSend callback) fun _ => pure (.ok ()), w) := by
  simp only [sent, Program.run_get_bind]
  cases w.session.postSend method with
  | none => rfl
  | some callback => rfl

end Requests

section Notifications

variable {json : String} {object : Value} {method : String} {w : World}

theorem IsNotification.receive_eq (h : IsNotification text json object method) :
    receive text env json = receiveNotification env method object := by
  simp only [receive, h.parse, h.method, h.id, Bool.false_eq_true, if_false]

theorem run_receive_unregistered_notification (h : IsNotification text json object method)
    (hl : List.lookup method w.session.notificationHandlers = none) :
    (receive text env json).run w =
      (.returned (.error ⟨"no handler registered for request method '" ++ method ++ "'"⟩), w) := by
  rw [h.receive_eq]
  simp only [receiveNotification, Program.run_get_bind, hl, Program.run_pure]

theorem run_receive_undecoded_notification (h : IsNotification text json object method)
    {handler : NotificationHandler} {f : Failure}
    (hl : List.lookup method w.session.notificationHandlers = some handler)
    (hd : decodeParams env handler.type.params object = .error f) :
    (receive text env json).run w = (.returned (.error f), w) := by
  rw [h.receive_eq]
  simp only [receiveNotification, Program.run_get_bind, hl, callNotificationHandler, hd,
    Program.run_pure]

theorem run_receive_notification (h : IsNotification text json object method)
    {handler : NotificationHandler} {params : Option LspValue}
    (hl : List.lookup method w.session.notificationHandlers = some handler)
    (hd : decodeParams env handler.type.params object = .ok params) :
    (receive text env json).run w =
      (.waiting (.notification handler.callback params) pure, w) := by
  rw [h.receive_eq]
  simp only [receiveNotification, Program.run_get_bind, hl, callNotificationHandler, hd]
  rfl

end Notifications

end Langsvr.Session
