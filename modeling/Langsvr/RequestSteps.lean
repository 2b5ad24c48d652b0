import Langsvr.ReceiveBranches
import Langsvr.SessionMessages

/-!
# The steps of the requests of a session

Between two calls to user code a method of a session does one of few things to the
requests of the session. Every operation is a sequence of these steps, whatever is called
in between.
-/

namespace Langsvr

open Json (Value Member)
open Lsp (LspValue Declarations)

namespace World

/-- A request gets its id, its promise and its handler. -/
def issue (w : World) (type : RequestType) (params : LspValue) (message : Value) : World :=
  w.allocateId.makePromise.emplaceHandler w.session.nextRequestId w.promises.length type params
    message

/-- A step of the requests of a session, and how it ends. What a step is made by has to be
an operation that `allow` allows. -/
inductive Step (text : JsonText) (env : Declarations) (allow : World → Session.Operation → Prop)
    (w : World) : Program.Ending Crash Call → World → Prop
  | configure {session : Session} {e : Program.Ending Crash Call}
      (he : e ≠ .aborted .promiseAlreadySatisfied)
      (hn : session.nextRequestId = w.session.nextRequestId)
      (hr : session.responseHandlers = w.session.responseHandlers) :
      Step text env allow w e { w with session := session }
  | allocate {e : Program.Ending Crash Call} (he : e ≠ .aborted .promiseAlreadySatisfied) :
      Step text env allow w e w.allocateId
  /-- A request that cannot be sent. -/
  | unsent {type : RequestType} {params : LspValue} {members : List Member}
      (ha : allow w (.sendRequest type params))
      (he : Session.encodeParams env type.params params = .success members)
      (hs : w.session.sender = none) :
      Step text env allow w .returned
        (w.issue type params (Session.requestMessage w.session.nextRequestId type.method members))
  | sent {type : RequestType} {params : LspValue} {members : List Member} {sender : Callback}
      (ha : allow w (.sendRequest type params))
      (he : Session.encodeParams env type.params params = .success members)
      (hs : w.session.sender = some sender) :
      Step text env allow w
        (.calling (.sender sender (text.write
          (Session.requestMessage w.session.nextRequestId type.method members))))
        (w.issue type params (Session.requestMessage w.session.nextRequestId type.method members))
  | settle {json : String} {id : Int64} {handler : ResponseHandler} {response : Value}
      {value : Reply} (ha : allow w (.receive json))
      (hr : Session.IsResponse text json response id)
      (hl : List.lookup id w.session.responseHandlers = some handler)
      (hv : Session.readResponse env handler response = .ok value)
      (hp : w.promises[handler.promise]? = some none) :
      Step text env allow w .returned
        ((w.takeHandler id handler response).setValue handler.promise value)
  | drop {json : String} {id : Int64} {handler : ResponseHandler} {response : Value} {f : Failure}
      (ha : allow w (.receive json)) (hr : Session.IsResponse text json response id)
      (hl : List.lookup id w.session.responseHandlers = some handler)
      (hv : Session.readResponse env handler response = .error f) :
      Step text env allow w .returned (w.takeHandler id handler response)
  | overset {json : String} {id : Int64} {handler : ResponseHandler} {response : Value}
      (ha : allow w (.receive json)) (hr : Session.IsResponse text json response id)
      (hl : List.lookup id w.session.responseHandlers = some handler)
      (hp : w.promises[handler.promise]? ≠ some none) :
      Step text env allow w (.aborted .promiseAlreadySatisfied) (w.takeHandler id handler response)

end World

namespace Session

variable {text : JsonText} {env : Declarations} {allow : World → Operation → Prop}

section Steps

open Program

variable {α : Type} {G : World → Ending Crash Call → World → Prop} {s t : World}

theorem check_obeys {o : Outcome α} {Q : World → Result α → World → Prop}
    (hs : ∀ a, o = .success a → Q s (.ok a) t) (hf : ∀ f, o = .failure f → Q s (.error f) t)
    (hu : G s (.aborted .resultUnset) t) : (check o).Obeys G Q s t := by
  cases o with
  | success a => exact hs a rfl
  | failure f => exact hf f rfl
  | unset => exact hu
  | asserted => exact hu

theorem sendJson_obeys {msg : String} {Q : World → Result Unit → World → Prop}
    (hn : t.session.sender = none → ∀ f, Q s (.error f) t)
    (hg : ∀ sender, t.session.sender = some sender → G s (.calling (.sender sender msg)) t)
    (hQ : ∀ r u, Q u r u) : (sendJson msg).Obeys G Q s t := by
  simp only [sendJson, obeys_bind, obeys_get]
  cases hs : t.session.sender with
  | none => exact hn hs _
  | some sender => exact ⟨hg sender hs, hQ⟩

theorem step_refl {e : Ending Crash Call} (w : World)
    (he : e ≠ .aborted .promiseAlreadySatisfied := by simp) : World.Step text env allow w e w :=
  .configure he rfl rfl

theorem sendRequest_guarantees {type : RequestType} {params : LspValue} {w : World}
    (ha : allow w (.sendRequest type params)) :
    (sendRequest text env type params).Guarantees (World.Step text env allow) w := by
  simp only [Guarantees, sendRequest, allocateId, obeys_bind, obeys_modifyGet]
  apply check_obeys
  · intro members hm
    simp only [makePromise, obeys_bind, obeys_modifyGet, obeys_modify]
    apply sendJson_obeys
    · intro hs f
      exact .unsent ha hm hs
    · intro sender hs
      exact .sent ha hm hs
    · intro r u
      cases r with
      | error f => exact step_refl u
      | ok _ => exact step_refl u
  · intro f _
    exact .allocate (by simp)
  · exact .allocate (by simp)

theorem sendNotification_guarantees (type : NotificationType) (params : LspValue) (w : World) :
    (sendNotification text env type params).Guarantees (World.Step text env allow) w := by
  simp only [Guarantees, sendNotification, obeys_bind]
  apply check_obeys
  · intro members _
    exact sendJson_obeys (fun _ _ => step_refl w) (fun _ _ => step_refl w) fun r u => step_refl u
  · intro f _
    exact step_refl w
  · exact step_refl w

/-- The response branch is one stretch. -/
theorem receiveResponse_guarantees {json : String} {object : Value} {w : World} {f : Failure}
    (ha : allow w (.receive json)) (hj : text.parse json = .ok object)
    (hm : object.getString "method" = .error f) :
    (receiveResponse env object).Guarantees (World.Step text env allow) w := by
  unfold Guarantees receiveResponse
  cases hid : object.getI64 "id" with
  | error f => exact step_refl w
  | ok id =>
    have hr : IsResponse text json object id := ⟨hj, by simp [hm], hid⟩
    simp only [takeHandler, obeys_bind, obeys_modifyGet]
    cases hl : List.lookup id w.session.responseHandlers with
    | none => exact step_refl w
    | some handler =>
      simp only [callResponseHandler]
      cases hv : readResponse env handler object with
      | error f => exact .drop ha hr hl hv
      | ok value =>
        simp only [setValue, obeys_bind, obeys_get]
        have hpromises : (w.takeHandler id handler object).promises = w.promises := rfl
        rw [hpromises]
        cases hp : w.promises[handler.promise]? with
        | none => exact .overset ha hr hl (by simp [hp])
        | some state =>
          cases state with
          | none => exact .settle ha hr hl hv hp
          | some v => exact .overset ha hr hl (by simp [hp])

theorem sendResponse_obeys (method : String) (id : Int64) (r : Result Member) (w : World) :
    (sendResponse text method id r).Obeys (World.Step text env allow)
      (fun s _ t => World.Step text env allow s .returned t) w w := by
  cases r with
  | error f => exact step_refl w
  | ok member =>
    simp only [sendResponse, obeys_bind]
    apply sendJson_obeys
    · exact fun _ _ => step_refl w
    · exact fun _ _ => step_refl w
    · intro r u
      cases r with
      | error f => exact step_refl u
      | ok _ =>
        simp only [obeys_bind, obeys_get]
        split
        · exact step_refl u
        · simp only [obeys_bind, obeys_request]
          exact ⟨step_refl u, fun _ v => step_refl v⟩

theorem receiveRequest_guarantees (method : String) (object : Value) (w : World) :
    (receiveRequest text env method object).Guarantees (World.Step text env allow) w := by
  unfold Guarantees receiveRequest
  cases object.getI64 "id" with
  | error f => exact step_refl w
  | ok id =>
    simp only [obeys_bind, obeys_get]
    cases List.lookup method w.session.requestHandlers with
    | none => exact step_refl w
    | some handler =>
      simp only [callRequestHandler, obeys_bind]
      cases decodeParams env handler.type.params object with
      | error f => exact sendResponse_obeys method id _ w
      | ok params =>
        simp only [obeys_bind, obeys_request]
        refine ⟨step_refl w, fun reply u => ?_⟩
        apply check_obeys
        · intro member _
          exact sendResponse_obeys method id _ u
        · intro f _
          exact sendResponse_obeys method id _ u
        · exact step_refl u

theorem receiveNotification_guarantees (method : String) (object : Value) (w : World) :
    (receiveNotification env method object).Guarantees (World.Step text env allow) w := by
  simp only [Guarantees, receiveNotification, obeys_bind, obeys_get]
  cases List.lookup method w.session.notificationHandlers with
  | none => exact step_refl w
  | some handler =>
    simp only [callNotificationHandler]
    cases decodeParams env handler.type.params object with
    | error f => exact step_refl w
    | ok params => exact ⟨step_refl w, fun r u => step_refl u⟩

/-- `Receive` takes at most one response, the one that it is called with. -/
theorem receive_guarantees {json : String} {w : World} (ha : allow w (.receive json)) :
    (receive text env json).Guarantees (World.Step text env allow) w := by
  unfold Guarantees receive
  cases hj : text.parse json with
  | error f => exact step_refl w
  | ok object =>
    dsimp only
    cases hm : object.getString "method" with
    | error f => exact receiveResponse_guarantees ha hj hm
    | ok method =>
      dsimp only
      split
      · exact receiveRequest_guarantees method object w
      · exact receiveNotification_guarantees method object w

/-- Between two calls to user code every operation makes one step of the requests. -/
theorem Operation.guarantees {op : Operation} {w : World} (ha : allow w op) :
    (op.program text env).Guarantees (World.Step text env allow) w := by
  cases op with
  | receive json =>
    simp only [Operation.program, Guarantees, obeys_bind, obeys_pure]
    exact receive_guarantees ha
  | sendRequest type params =>
    simp only [Operation.program, Guarantees, obeys_bind, obeys_pure]
    exact sendRequest_guarantees ha
  | sendNotification type params =>
    simp only [Operation.program, Guarantees, obeys_bind, obeys_pure]
    exact sendNotification_guarantees type params w
  | setSender sender => exact .configure (by simp) rfl rfl
  | registerRequest type callback => exact .configure (by simp) rfl rfl
  | registerNotification type callback => exact .configure (by simp) rfl rfl
  | onPostSend method callback =>
    simp only [Operation.program, Guarantees, Session.onPostSend, obeys_modify]
    cases List.lookup method w.session.requestHandlers with
    | none => exact step_refl w
    | some handler => exact .configure (by simp) rfl rfl

end Steps

end Session

end Langsvr
