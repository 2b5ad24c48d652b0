import Langsvr.ReceiveBranches

/-!
# Executions of `Receive`

Every execution of `Receive` with the calls that it makes, whatever user code does to the
session while a call lasts.
-/

namespace Langsvr.Session

open Json (Value Member)
open Lsp (LspValue Declarations)

/-- A call to user code with the states in which it was made and in which it returned. -/
abbrev CallVisit := Program.Visit World Call Call.Answer

/-- A request that reaches its handler. -/
structure Serves (text : JsonText) (env : Declarations) (json : String) (w : World)
    (object : Value) (method : String) (id : Int64) (handler : RequestHandler)
    (params : Option LspValue) : Prop where
  request : IsRequest text json object method id
  registered : List.lookup method w.session.requestHandlers = some handler
  decoded : decodeParams env handler.type.params object = .ok params

structure Notifies (text : JsonText) (env : Declarations) (json : String) (w : World)
    (object : Value) (method : String) (handler : NotificationHandler)
    (params : Option LspValue) : Prop where
  notification : IsNotification text json object method
  registered : List.lookup method w.session.notificationHandlers = some handler
  decoded : decodeParams env handler.type.params object = .ok params

structure Takes (text : JsonText) (json : String) (w : World) (object : Value) (id : Int64)
    (handler : ResponseHandler) : Prop where
  response : IsResponse text json object id
  pending : List.lookup id w.session.responseHandlers = some handler

/-- The ways in which `Receive` ends, with its calls. -/
inductive Receipt (text : JsonText) (env : Declarations) (json : String) (s : World) :
    List CallVisit → Except Crash (Result Unit) → World → Prop
  /-- The message reaches no handler. -/
  | refused {f : Failure}
      (hs : ∀ object method id handler params,
        ¬ Serves text env json s object method id handler params)
      (hn : ∀ object method handler params,
        ¬ Notifies text env json s object method handler params)
      (ht : ∀ object id handler, ¬ Takes text json s object id handler) :
      Receipt text env json s [] (.ok (.error f)) s
  | settled {object : Value} {id : Int64} {handler : ResponseHandler} {value : Reply}
      (h : Takes text json s object id handler)
      (hv : readResponse env handler object = .ok value)
      (hp : s.promises[handler.promise]? = some none) :
      Receipt text env json s [] (.ok (.ok ()))
        ((s.takeHandler id handler object).setValue handler.promise value)
  | dropped {object : Value} {id : Int64} {handler : ResponseHandler} {f : Failure}
      (h : Takes text json s object id handler)
      (hv : readResponse env handler object = .error f) :
      Receipt text env json s [] (.ok (.error f)) (s.takeHandler id handler object)
  | overset {object : Value} {id : Int64} {handler : ResponseHandler} {value : Reply}
      (h : Takes text json s object id handler)
      (hv : readResponse env handler object = .ok value)
      (hp : s.promises[handler.promise]? ≠ some none) :
      Receipt text env json s [] (.error .promiseAlreadySatisfied) (s.takeHandler id handler object)
  | notified {object : Value} {method : String} {handler : NotificationHandler}
      {params : Option LspValue} {r : Result Unit} {v : World}
      (h : Notifies text env json s object method handler params) :
      Receipt text env json s [⟨.notification handler.callback params, s, r, v⟩] (.ok r) v
  | unencoded {object : Value} {method : String} {id : Int64} {handler : RequestHandler}
      {params : Option LspValue} {reply : Reply} {o : Except Crash (Result Unit)} {v : World}
      (h : Serves text env json s object method id handler params)
      (he : ∀ member, encodeReply env handler.type reply ≠ .success member) :
      Receipt text env json s [⟨.request handler.callback params, s, reply, v⟩] o v
  | unsent {object : Value} {method : String} {id : Int64} {handler : RequestHandler}
      {params : Option LspValue} {reply : Reply} {f : Failure} {v : World}
      (h : Serves text env json s object method id handler params)
      (hn : v.session.sender = none) :
      Receipt text env json s [⟨.request handler.callback params, s, reply, v⟩] (.ok (.error f)) v
  /-- The response is sent. What follows depends on what the sender returns. -/
  | emitted {object : Value} {method : String} {id : Int64} {handler : RequestHandler}
      {params : Option LspValue} {reply : Reply} {member : Member} {sender : Callback}
      {r : Result Unit} {o : Except Crash (Result Unit)} {v u t : World} {ws : List CallVisit}
      (h : Serves text env json s object method id handler params)
      (he : encodeReply env handler.type reply = .success member)
      (hs : v.session.sender = some sender)
      (hw : (∃ f, r = .error f ∧ ws = [] ∧ t = u) ∨
        (r = .ok () ∧ u.session.postSend method = none ∧ ws = [] ∧ t = u) ∨
          ∃ callback, r = .ok () ∧ u.session.postSend method = some callback ∧
            ws = [⟨.postSend callback, u, (), t⟩]) :
      Receipt text env json s (⟨.request handler.callback params, s, reply, v⟩ ::
        ⟨.sender sender (text.write (responseMessage id member)), v, r, u⟩ :: ws) o t

section Inversion

open Program

variable {text : JsonText} {env : Declarations} {json : String} {rely : World → World → Prop}
  {s t : World} {vs : List CallVisit} {o : Except Crash (Result Unit)}

section Classes

variable {object object' : Value} {method method' : String} {id id' : Int64}

theorem IsResponse.not_request (h : IsResponse text json object id)
    (h' : IsRequest text json object' method id') : False := by
  cases h.parse.symm.trans h'.parse
  exact h.method method h'.method

theorem IsResponse.not_notification (h : IsResponse text json object id)
    (h' : IsNotification text json object' method) : False := by
  cases h.parse.symm.trans h'.parse
  exact h.method method h'.method

theorem IsNotification.not_request (h : IsNotification text json object method)
    (h' : IsRequest text json object' method' id') : False := by
  cases h.parse.symm.trans h'.parse
  have hhas := has_of_getI64 h'.id
  rw [h.id] at hhas
  cases hhas

end Classes

/-- What an execution of `Receive` does in the response branch. -/
private theorem receipt_of_taken {object : Value} {id : Int64} {handler : ResponseHandler}
    (ht : Takes text json s object id handler)
    (h : Execution rely (receive text env json) s vs o t) : Receipt text env json s vs o t := by
  have hrun : (receive text env json).run s = _ := run_receive_taken ht.response ht.pending
  cases hv : readResponse env handler object with
  | error f =>
    rw [hv] at hrun
    obtain ⟨rfl, rfl, rfl⟩ := returned_of_run h hrun
    exact .dropped ht hv
  | ok value =>
    simp only [hv, Program.run_bind] at hrun
    by_cases hp : s.promises[handler.promise]? = some none
    · rw [run_setValue (w := s.takeHandler id handler object) hp] at hrun
      obtain ⟨rfl, rfl, rfl⟩ := returned_of_run h hrun
      exact .settled ht hv hp
    · rw [run_setValue_again (w := s.takeHandler id handler object) hp] at hrun
      obtain ⟨rfl, rfl, rfl⟩ := aborted_of_run h hrun
      exact .overset ht hv hp

/-- What an execution of `Receive` does once a request has reached its handler. -/
private theorem receipt_of_served {object : Value} {method : String} {id : Int64}
    {handler : RequestHandler} {params : Option LspValue}
    (hs : Serves text env json s object method id handler params)
    (h : Execution rely (receive text env json) s vs o t) : Receipt text env json s vs o t := by
  obtain ⟨reply, v, ws, -, rfl, ha⟩ :=
    waiting_of_run h (run_receive_request hs.request hs.registered hs.decoded)
  by_cases he : ∃ member, encodeReply env handler.type reply = .success member
  · obtain ⟨member, he⟩ := he
    have hrun := run_answer text method id v he
    cases hsender : v.session.sender with
    | none =>
      rw [hsender] at hrun
      obtain ⟨rfl, rfl, rfl⟩ := returned_of_run ha hrun
      exact .unsent hs hsender
    | some sender =>
      rw [hsender] at hrun
      obtain ⟨r, u, ws, -, rfl, hk⟩ := waiting_of_run ha hrun
      apply Receipt.emitted hs he hsender
      cases r with
      | error f =>
        obtain ⟨rfl, rfl, rfl⟩ := returned_of_run hk (run_pure ..)
        exact Or.inl ⟨f, rfl, rfl, rfl⟩
      | ok _ =>
        have hsent := run_sent method u
        cases hps : u.session.postSend method with
        | none =>
          rw [hps] at hsent
          obtain ⟨rfl, rfl, rfl⟩ := returned_of_run hk hsent
          exact Or.inr (Or.inl ⟨rfl, rfl, rfl, rfl⟩)
        | some callback =>
          rw [hps] at hsent
          obtain ⟨_, z, ws, -, rfl, hz⟩ := waiting_of_run hk hsent
          obtain ⟨rfl, rfl, rfl⟩ := returned_of_run hz (run_pure ..)
          exact Or.inr (Or.inr ⟨callback, rfl, rfl, rfl⟩)
  · have hne : ∀ member, encodeReply env handler.type reply ≠ .success member :=
      fun member hm => he ⟨member, hm⟩
    rcases run_answer_unencoded text method id v hne with
      ⟨f, hrun⟩ | hrun
    · obtain ⟨rfl, rfl, rfl⟩ := returned_of_run ha hrun
      exact .unencoded hs hne
    · obtain ⟨rfl, rfl, rfl⟩ := aborted_of_run ha hrun
      exact .unencoded hs hne

/-- A message has one of the three forms, or `Receive` ends at once. -/
theorem run_receive_classes (text : JsonText) (env : Declarations) (json : String) (w : World) :
    (∃ object method id, IsRequest text json object method id) ∨
      (∃ object method, IsNotification text json object method) ∨
        (∃ object id, IsResponse text json object id) ∨
          ∃ f, (receive text env json).run w = (.returned (.error f), w) := by
  cases hparse : text.parse json with
  | error f => exact .inr (.inr (.inr ⟨f, by simp only [receive, hparse, run_pure]⟩))
  | ok object =>
    cases hm : object.getString "method" with
    | error e =>
      cases hid : object.getI64 "id" with
      | error f =>
        refine .inr (.inr (.inr ⟨f, ?_⟩))
        simp only [receive, hparse, hm, receiveResponse, hid, run_pure]
      | ok id => exact .inr (.inr (.inl ⟨object, id, hparse, by simp [hm], hid⟩))
    | ok method =>
      cases hhas : object.has "id" with
      | false => exact .inr (.inl ⟨object, method, hparse, hm, hhas⟩)
      | true =>
        cases hid : object.getI64 "id" with
        | error f =>
          refine .inr (.inr (.inr ⟨f, ?_⟩))
          simp only [receive, hparse, hm, hhas, if_true, receiveRequest, hid, run_pure]
        | ok id => exact .inl ⟨object, method, id, hparse, hm, hid⟩

/-- A message that reaches no handler fails and changes nothing. -/
theorem run_receive_refused {w : World}
    (hs : ∀ object method id handler params,
      ¬ Serves text env json w object method id handler params)
    (hn : ∀ object method handler params, ¬ Notifies text env json w object method handler params)
    (ht : ∀ object id handler, ¬ Takes text json w object id handler) :
    ∃ f, (receive text env json).run w = (.returned (.error f), w) := by
  rcases run_receive_classes text env json w with
    ⟨object, method, id, h⟩ | ⟨object, method, h⟩ | ⟨object, id, h⟩ | h
  · cases hl : List.lookup method w.session.requestHandlers with
    | none => exact ⟨_, run_receive_unregistered h hl⟩
    | some handler =>
      cases hd : decodeParams env handler.type.params object with
      | error f => exact ⟨f, run_receive_undecoded h hl hd⟩
      | ok params => exact absurd ⟨h, hl, hd⟩ (hs object method id handler params)
  · cases hl : List.lookup method w.session.notificationHandlers with
    | none => exact ⟨_, run_receive_unregistered_notification h hl⟩
    | some handler =>
      cases hd : decodeParams env handler.type.params object with
      | error f => exact ⟨f, run_receive_undecoded_notification h hl hd⟩
      | ok params => exact absurd ⟨h, hl, hd⟩ (hn object method handler params)
  · cases hl : List.lookup id w.session.responseHandlers with
    | none => exact ⟨_, run_receive_unknown h hl⟩
    | some handler => exact absurd ⟨h, hl⟩ (ht object id handler)
  · exact h

theorem receipt_of_execution (h : Execution rely (receive text env json) s vs o t) :
    Receipt text env json s vs o t := by
  by_cases hs : ∃ object method id handler params,
      Serves text env json s object method id handler params
  · obtain ⟨object, method, id, handler, params, hs⟩ := hs
    exact receipt_of_served hs h
  by_cases hn : ∃ object method handler params,
      Notifies text env json s object method handler params
  · obtain ⟨object, method, handler, params, hn⟩ := hn
    obtain ⟨r, v, ws, -, rfl, ha⟩ :=
      waiting_of_run h (run_receive_notification hn.notification hn.registered hn.decoded)
    obtain ⟨rfl, rfl, rfl⟩ := returned_of_run ha (run_pure ..)
    exact .notified hn
  by_cases ht : ∃ object id handler, Takes text json s object id handler
  · obtain ⟨object, id, handler, ht⟩ := ht
    exact receipt_of_taken ht h
  simp only [not_exists] at hs hn ht
  obtain ⟨f, hrun⟩ := run_receive_refused hs hn ht
  obtain ⟨rfl, rfl, rfl⟩ := returned_of_run h hrun
  exact .refused hs hn ht

end Inversion

end Langsvr.Session
