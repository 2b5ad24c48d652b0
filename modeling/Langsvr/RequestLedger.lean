import Langsvr.PendingRequests
import Langsvr.SessionNetwork

/-!
# Requests that are under way

A request is under way from when it is sent until its response is delivered. A message
that survives is read as what it was sent for. A ledger relates the requests that are
under way to the histories of the two sessions and to the replies of their handlers.
-/

namespace Langsvr

open Json (Value Member)
open Lsp (LspValue Declarations decodeNew)
open Session (Operation IsRequest IsResponse IsNotification)

variable {text : JsonText} {env : Declarations}

/-- The params that a handler is given for a request. -/
def given (type : Option Lsp.LspType) (params : LspValue) : Option LspValue :=
  type.map fun _ => params

namespace Network

section Messages

variable {id : Int64} {params : LspValue}

private theorem decodeParams_of_survives {type : Option Lsp.LspType} {members : List Member}
    {message object : Value} (he : Session.encodeParams env type params = .success members)
    (hm : ∀ v, ("params", v) ∈ members → message.get "params" = .ok v)
    (hs : message.Same object) (hd : ∀ t v, type = some t → object.get "params" = .ok v →
      decodeNew env t v = .ok params) :
    Session.decodeParams env type object = .ok (given type params) := by
  rcases Session.encodeParams_eq_success he with ⟨rfl, -⟩ | ⟨t, v, rfl, -, rfl⟩
  · rfl
  · obtain ⟨w, hw, -⟩ := hs.get (hm v (List.mem_singleton_self _))
    have hx : Lsp.decode env t w (env.default t) = .ok params := hd t w rfl hw
    simp only [Session.decodeParams, hw, hx, bind, Except.bind]
    rfl

/-- A request that survives is read as this request. -/
theorem ParamsSurvive.isRequest {type : RequestType}
    (h : ParamsSurvive text env type.params params (Session.requestMessage id type.method)) :
    ∃ members object, Session.encodeParams env type.params params = .success members ∧
      IsRequest text (text.write (Session.requestMessage id type.method members)) object
          type.method id ∧
        Session.decodeParams env type.params object = .ok (given type.params params) := by
  obtain ⟨members, object, he, hr, hd⟩ := h
  obtain ⟨hmethod, hid, hparams⟩ := Session.get_requestMessage he
  refine ⟨members, object, he, ⟨hr.parse, hr.same.getString hmethod, hr.same.getI64 hid⟩, ?_⟩
  exact decodeParams_of_survives he hparams hr.same hd

theorem ParamsSurvive.isNotification {type : NotificationType}
    (h : ParamsSurvive text env type.params params (Session.notificationMessage type.method)) :
    ∃ members object, Session.encodeParams env type.params params = .success members ∧
      IsNotification text (text.write (Session.notificationMessage type.method members)) object
          type.method ∧
        Session.decodeParams env type.params object = .ok (given type.params params) := by
  obtain ⟨members, object, he, hr, hd⟩ := h
  obtain ⟨hmethod, hid, hparams⟩ := Session.get_notificationMessage he
  refine ⟨members, object, he,
    ⟨hr.parse, hr.same.getString hmethod, (hr.same.has "id").trans hid⟩, ?_⟩
  exact decodeParams_of_survives he hparams hr.same hd

theorem ReplySurvives.isResponse {type : RequestType} {reply : Reply}
    (h : ReplySurvives text env id type reply) :
    ∃ member object, Session.encodeReply env type reply = .success member ∧
      IsResponse text (text.write (Session.responseMessage id member)) object id ∧
        ∀ promise, Session.readResponse env ⟨promise, type.success, type.failure⟩ object =
          .ok reply := by
  obtain ⟨member, object, he, hr, hd⟩ := h
  have hname := Session.encodeReply_name he
  obtain ⟨hid, hmember⟩ := Session.get_responseMessage id hname
  obtain ⟨⟨f, hmethod⟩, hresult⟩ := Session.get_responseMessage_error id hname
  refine ⟨member, object, he, ⟨hr.parse, fun method hm => ?_, hr.same.getI64 hid⟩, fun promise => ?_⟩
  · obtain ⟨g, hg⟩ := hr.same.get_error hmethod
    cases hg.symm.trans (Json.Value.getString_eq_ok.mp hm)
  · obtain ⟨v, hv, -⟩ := hr.same.get hmember
    cases reply with
    | success x =>
      obtain ⟨_, -, hmem⟩ := Outcome.andThen_eq_success.mp he
      cases hmem
      have hx : Lsp.decode env type.success v (env.default type.success) = .ok x := hd v hv
      simp only [Session.readResponse, hv, hx, bind, Except.bind]
      rfl
    | failure x =>
      cases hf : type.failure with
      | none =>
        simp only [Session.encodeReply, hf] at he
        cases he
      | some t =>
        simp only [Session.encodeReply, hf] at he
        obtain ⟨_, -, hmem⟩ := Outcome.andThen_eq_success.mp he
        cases hmem
        obtain ⟨g, hg⟩ := hresult rfl
        obtain ⟨k, hk⟩ := hr.same.get_error hg
        have hx : Lsp.decode env t v (env.default t) = .ok x := hd t v hf hv
        simp only [Session.readResponse, hk, hv, hx, bind, Except.bind]
        rfl

end Messages

end Network

/-- A request that is under way: its message is in flight, or it is with its handler, or its
response is in flight. -/
structure Token where
  issuer : Side
  id : Int64
  type : RequestType
  params : LspValue
  reply : Option Reply

def Token.key (t : Token) : Side × Int64 := (t.issuer, t.id)

def Handling.key (h : Handling) : Side × Int64 := (h.issuer, h.id)

def Packet.token (p : Packet) : Option Token :=
  match p.task with
  | .request id type params => some ⟨p.receiver.peer, id, type, params, none⟩
  | .response id type params reply => some ⟨p.receiver, id, type, params, some reply⟩
  | _ => none

def Activity.token (a : Activity) : Option Token :=
  match a.task with
  | .serve id type params => some ⟨a.side.peer, id, type, params, none⟩
  | _ => none

def Network.tokens (n : Network) : List Token :=
  n.wire.filterMap Packet.token ++ n.activities.filterMap Activity.token

/-- What holds between the sessions, the replies of the handlers and the requests that are
under way. -/
structure Ledger (world : Side → World) (handled : List Handling) (ts : List Token) : Prop where
  nodup : (ts.map Token.key).Nodup
  awaited : ∀ t ∈ ts, ∃ promise message,
    .issued t.id promise t.type t.params message ∈ (world t.issuer).history ∧
      promise ∉ (world t.issuer).invokedPromises
  unanswered : ∀ t ∈ ts, t.reply = none → t.key ∉ handled.map Handling.key
  answered : ∀ t ∈ ts, ∀ reply, t.reply = some reply →
    ⟨t.issuer, t.id, given t.type.params t.params, reply⟩ ∈ handled
  handled_nodup : (handled.map Handling.key).Nodup
  handled_issued : ∀ h ∈ handled, ∃ promise type params message,
    .issued h.id promise type params message ∈ (world h.issuer).history
  settled : ∀ side promise value, .settled promise value ∈ (world side).history →
    ∃ id type params message, .issued id promise type params message ∈ (world side).history ∧
      ⟨side, id, given type.params params, value⟩ ∈ handled

namespace Ledger

variable {world : Side → World} {handled : List Handling} {ts : List Token}

theorem perm (h : Ledger world handled ts) {us : List Token} (hp : ts.Perm us) :
    Ledger world handled us where
  nodup := (hp.map Token.key).nodup_iff.mp h.nodup
  awaited t ht := h.awaited t (hp.mem_iff.mpr ht)
  unanswered t ht := h.unanswered t (hp.mem_iff.mpr ht)
  answered t ht := h.answered t (hp.mem_iff.mpr ht)
  handled_nodup := h.handled_nodup
  handled_issued := h.handled_issued
  settled := h.settled

/-- Only the histories of the sessions matter. -/
theorem of_history (h : Ledger world handled ts) {world' : Side → World}
    (hw : ∀ side, (world' side).history = (world side).history) : Ledger world' handled ts where
  nodup := h.nodup
  awaited t ht := by
    obtain ⟨promise, message, hi, hinv⟩ := h.awaited t ht
    refine ⟨promise, message, ?_, ?_⟩
    · rw [hw]
      exact hi
    · unfold World.invokedPromises
      rw [hw]
      exact hinv
  unanswered := h.unanswered
  answered := h.answered
  handled_nodup := h.handled_nodup
  handled_issued k hk := by
    rw [hw]
    exact h.handled_issued k hk
  settled side := by
    rw [hw]
    exact h.settled side

private theorem mem_history_update (world : Side → World) {side : Side} {w : World}
    (hw : ∀ e ∈ (world side).history, e ∈ w.history) (s : Side) (e : Event)
    (he : e ∈ (world s).history) : e ∈ (Function.update world side w s).history := by
  by_cases hs : s = side
  · subst hs
    rw [Function.update_self]
    exact hw e he
  · rw [Function.update_of_ne hs]
    exact he

/-- A new request has an id that no request of the same side has. -/
theorem issue (h : Ledger world handled ts) {side : Side} (hc : (world side).Consistent env)
    (type : RequestType) (params : LspValue) (message : Value) :
    Ledger (Function.update world side ((world side).issue type params message)) handled
      (⟨side, (world side).session.nextRequestId, type, params, none⟩ :: ts) := by
  have hold := mem_history_update world (w := (world side).issue type params message)
    fun e he => List.mem_cons_of_mem _ (List.mem_cons_of_mem _ he)
  have hinvoked : ∀ s, (Function.update world side ((world side).issue type params message)
      s).invokedPromises = (world s).invokedPromises := by
    intro s
    by_cases hs : s = side
    · subst hs
      rw [Function.update_self]
      rfl
    · rw [Function.update_of_ne hs]
  have hfresh : ∀ promise type' params' message',
      .issued (world side).session.nextRequestId promise type' params' message' ∉
        (world side).history := by
    intro promise type' params' message' hi
    have hlt := (hc.issued_bounds hi).2
    omega
  constructor
  case nodup =>
    refine List.nodup_cons.mpr ⟨fun hmem => ?_, h.nodup⟩
    obtain ⟨t, ht, hkey⟩ := List.mem_map.mp hmem
    obtain ⟨promise, message', hi, -⟩ := h.awaited t ht
    obtain ⟨rfl, hid⟩ := Prod.mk.inj hkey
    rw [hid] at hi
    exact hfresh _ _ _ _ hi
  case awaited =>
    intro t ht
    rw [hinvoked]
    rcases List.mem_cons.mp ht with rfl | ht
    · refine ⟨(world side).promises.length, message, ?_, hc.next_promise⟩
      rw [Function.update_self]
      exact List.mem_cons_self ..
    · obtain ⟨promise, message', hi, hinv⟩ := h.awaited t ht
      exact ⟨promise, message', hold _ _ hi, hinv⟩
  case unanswered =>
    intro t ht hreply hmem
    rcases List.mem_cons.mp ht with rfl | ht
    · obtain ⟨k, hk, hkey⟩ := List.mem_map.mp hmem
      obtain ⟨_, _, _, _, hi⟩ := h.handled_issued k hk
      obtain ⟨rfl, hid⟩ := Prod.mk.inj hkey
      rw [hid] at hi
      exact hfresh _ _ _ _ hi
    · exact h.unanswered t ht hreply hmem
  case answered =>
    intro t ht reply hreply
    rcases List.mem_cons.mp ht with rfl | ht
    · cases hreply
    · exact h.answered t ht reply hreply
  case handled_nodup => exact h.handled_nodup
  case handled_issued =>
    intro k hk
    obtain ⟨promise, type', params', message', hi⟩ := h.handled_issued k hk
    exact ⟨promise, type', params', message', hold _ _ hi⟩
  case settled =>
    intro s promise value hv
    have hv' : .settled promise value ∈ (world s).history := by
      by_cases hs : s = side
      · subst hs
        rw [Function.update_self] at hv
        simpa [World.issue, World.emplaceHandler, World.makePromise, World.allocateId] using hv
      · rwa [Function.update_of_ne hs] at hv
    obtain ⟨id, type', params', message', hi, hk⟩ := h.settled s promise value hv'
    exact ⟨id, type', params', message', hold _ _ hi, hk⟩

theorem handle {t : Token} (h : Ledger world handled (t :: ts)) (ht : t.reply = none)
    (reply : Reply) : Ledger world
      (⟨t.issuer, t.id, given t.type.params t.params, reply⟩ :: handled)
      ({ t with reply := some reply } :: ts) where
  nodup := h.nodup
  awaited u hu := by
    rcases List.mem_cons.mp hu with rfl | hu
    · exact h.awaited t (List.mem_cons_self ..)
    · exact h.awaited u (List.mem_cons_of_mem _ hu)
  unanswered u hu hreply hmem := by
    rcases List.mem_cons.mp hu with rfl | hu
    · cases hreply
    · rcases List.mem_cons.mp hmem with hkey | hmem
      · -- two requests that are under way have different keys
        have hnodup := (List.nodup_cons.mp h.nodup).1
        exact hnodup (List.mem_map.mpr ⟨u, hu, hkey⟩)
      · exact h.unanswered u (List.mem_cons_of_mem _ hu) hreply hmem
  answered u hu r hr := by
    rcases List.mem_cons.mp hu with rfl | hu
    · cases hr
      exact List.mem_cons_self ..
    · exact List.mem_cons_of_mem _ (h.answered u (List.mem_cons_of_mem _ hu) r hr)
  handled_nodup :=
    List.nodup_cons.mpr ⟨h.unanswered t (List.mem_cons_self ..) ht, h.handled_nodup⟩
  handled_issued k hk := by
    rcases List.mem_cons.mp hk with rfl | hk
    · obtain ⟨promise, message, hi, -⟩ := h.awaited t (List.mem_cons_self ..)
      exact ⟨promise, t.type, t.params, message, hi⟩
    · exact h.handled_issued k hk
  settled side promise value hv := by
    obtain ⟨id, type, params, message, hi, hk⟩ := h.settled side promise value hv
    exact ⟨id, type, params, message, hi, List.mem_cons_of_mem _ hk⟩

/-- The response to a request is delivered: its promise is set. -/
theorem settle {t : Token} {reply : Reply} (h : Ledger world handled (t :: ts))
    (hr : t.reply = some reply) (hc : (world t.issuer).Consistent env) {promise : ℕ}
    {message : Value}
    (hi : .issued t.id promise t.type t.params message ∈ (world t.issuer).history)
    (handler : ResponseHandler) (hp : handler.promise = promise) (response : Value) :
    Ledger (Function.update world t.issuer
      (((world t.issuer).takeHandler t.id handler response).setValue promise reply)) handled ts := by
  subst hp
  have hold := mem_history_update world
    (w := ((world t.issuer).takeHandler t.id handler response).setValue handler.promise reply)
    fun e he => List.mem_cons_of_mem _ (List.mem_cons_of_mem _ he)
  obtain ⟨hkey, hnodup⟩ := List.nodup_cons.mp h.nodup
  constructor
  case nodup => exact hnodup
  case awaited =>
    intro u hu
    obtain ⟨promise', message', hi', hinv⟩ := h.awaited u (List.mem_cons_of_mem _ hu)
    refine ⟨promise', message', hold _ _ hi', ?_⟩
    by_cases hs : u.issuer = t.issuer
    · rw [hs, Function.update_self]
      intro hmem
      rw [hs] at hi' hinv
      rcases List.mem_cons.mp hmem with rfl | hmem
      · -- the two requests would have one promise
        have hsame := hc.issued_unique_promise hi hi'
        injection hsame with hid
        exact hkey (List.mem_map.mpr ⟨u, hu, Prod.ext hs hid.symm⟩)
      · exact hinv hmem
    · rw [Function.update_of_ne hs]
      exact hinv
  case unanswered => exact fun u hu => h.unanswered u (List.mem_cons_of_mem _ hu)
  case answered => exact fun u hu => h.answered u (List.mem_cons_of_mem _ hu)
  case handled_nodup => exact h.handled_nodup
  case handled_issued =>
    intro k hk
    obtain ⟨promise', type', params', message', hi'⟩ := h.handled_issued k hk
    exact ⟨promise', type', params', message', hold _ _ hi'⟩
  case settled =>
    intro s promise' value hv
    by_cases hnew : s = t.issuer ∧ Event.settled promise' value = .settled handler.promise reply
    · obtain ⟨rfl, hevent⟩ := hnew
      cases hevent
      exact ⟨t.id, t.type, t.params, message, hold _ _ hi,
        h.answered t (List.mem_cons_self ..) reply hr⟩
    · have hv' : .settled promise' value ∈ (world s).history := by
        by_cases hs : s = t.issuer
        · subst hs
          rw [Function.update_self] at hv
          rcases List.mem_cons.mp hv with hevent | hv
          · exact absurd ⟨rfl, hevent⟩ hnew
          · exact List.mem_of_ne_of_mem (by simp) hv
        · rwa [Function.update_of_ne hs] at hv
      obtain ⟨id, type', params', message', hi', hk⟩ := h.settled s promise' value hv'
      exact ⟨id, type', params', message', hold _ _ hi', hk⟩

end Ledger

end Langsvr
