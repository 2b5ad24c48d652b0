import Langsvr.PendingRequests
import Langsvr.ReceiveExecutions
import Langsvr.SessionMessages

/-!
# What `Receive` calls and sends

Which handler a message reaches, when a response is sent and what it holds, and when the
callback of a registered handler is called.
-/

namespace Langsvr

open Json (Value Member)
open Lsp (LspValue Declarations)

namespace Call

def isHandler : Call → Bool
  | .request .. | .notification .. => true
  | _ => false

def isSender : Call → Bool
  | .sender .. => true
  | _ => false

def isPostSend : Call → Bool
  | .postSend .. => true
  | _ => false

end Call

namespace Session

/-- The number of pending handlers that were taken in the given stretches. -/
def invocations (stretches : List (World × World)) : ℕ :=
  (stretches.map fun s => s.2.invokedPromises.length - s.1.invokedPromises.length).sum

/-- What an execution of `Receive` calls and sends. A stretch is what `Receive` itself does
between two calls. -/
structure Dispatched (text : JsonText) (env : Declarations) (json : String) (s : World)
    (vs : List CallVisit) (o : Except Crash (Result Unit)) (t : World) : Prop where
  one_handler : vs.countP (·.call.isHandler) + invocations (Program.stretches s vs t) ≤ 1
  request_handler : ∀ v ∈ vs, ∀ callback params, v.call = .request callback params →
    ∃ object method id handler, Serves text env json s object method id handler params ∧
      handler.callback = callback ∧ v.before = s
  notification_handler : ∀ v ∈ vs, ∀ callback params, v.call = .notification callback params →
    ∃ object method handler, Notifies text env json s object method handler params ∧
      handler.callback = callback ∧ v.before = s
  response_handler : invocations (Program.stretches s vs t) ≠ 0 →
    ∃ object id handler, Takes text json s object id handler
  /-- A request with a handler for its method and params that decode reaches this handler. -/
  serves : ∀ object method id handler params,
    Serves text env json s object method id handler params →
      ∃ reply after, ⟨.request handler.callback params, s, reply, after⟩ ∈ vs
  notifies : ∀ object method handler params,
    Notifies text env json s object method handler params →
      ∃ r, vs = [⟨.notification handler.callback params, s, r, t⟩] ∧ o = .ok r
  /-- A response for a pending request runs the handler of the request. -/
  takes : ∀ object id handler, Takes text json s object id handler →
    vs = [] ∧ invocations (Program.stretches s vs t) = 1 ∧
      (∀ f, readResponse env handler object = .error f →
        o = .ok (.error f) ∧ t = s.takeHandler id handler object) ∧
      ∀ value, readResponse env handler object = .ok value →
        s.promises[handler.promise]? = some none →
          o = .ok (.ok ()) ∧ t = (s.takeHandler id handler object).setValue handler.promise value
  /-- A message with a method does not change the session. -/
  untouched : ∀ object method, text.parse json = .ok object →
    object.getString "method" = .ok method → ∀ st ∈ Program.stretches s vs t, st.2 = st.1
  /-- A message that reaches no handler fails. -/
  refused : (∀ object method id handler params,
      ¬ Serves text env json s object method id handler params) →
    (∀ object method handler params,
      ¬ Notifies text env json s object method handler params) →
      (∀ object id handler, ¬ Takes text json s object id handler) →
        vs = [] ∧ (∃ f, o = .ok (.error f)) ∧ t = s
  one_message : vs.countP (·.call.isSender) ≤ 1
  emits_iff : (∃ v ∈ vs, v.call.isSender) ↔
    ∃ object method id handler params reply after member,
      Serves text env json s object method id handler params ∧
        ⟨.request handler.callback params, s, reply, after⟩ ∈ vs ∧
          encodeReply env handler.type reply = .success member ∧ after.session.sender.isSome
  message : ∀ v ∈ vs, ∀ sender msg, v.call = .sender sender msg →
    ∃ object id ms member, text.parse json = .ok object ∧ object.getI64 "id" = .ok id ∧
      msg = text.write (.objectValue ms) ∧ OrderedEntries.Ordered ms ∧
        (member.1 = "result" ∨ member.1 = "error") ∧
          ∀ m, m ∈ ms ↔ m ∈ [("id", .intValue id), ("jsonrpc", .stringValue "2.0"), member]
  /-- If the sender reports success then the callback follows, if there is one. -/
  post_send : ∀ vs₀ ws sender msg before after, ∀ r : Result Unit,
    vs = vs₀ ++ ⟨.sender sender msg, before, r, after⟩ :: ws →
      ∀ object method, text.parse json = .ok object → object.getString "method" = .ok method →
        ws.map (·.call) =
          if r = .ok () then ((after.session.postSend method).map Call.postSend).toList else []
  /-- The callback is called in no other case. -/
  post_send_only : ∀ v ∈ vs, v.call.isPostSend → ∃ vs₀ sender msg before,
    vs = vs₀ ++ [⟨.sender sender msg, before, (.ok () : Result Unit), v.before⟩, v]
  one_post_send : vs.countP (·.call.isPostSend) ≤ 1

/-- The calls that an execution of `Receive` with the calls `vs` can make. -/
inductive Visited (text : JsonText) (env : Declarations) (json : String) (s : World)
    (vs : List CallVisit) : CallVisit → Prop
  | request {object : Value} {method : String} {id : Int64} {handler : RequestHandler}
      {params : Option LspValue} {reply : Reply} {after : World}
      (hs : Serves text env json s object method id handler params) :
      Visited text env json s vs ⟨.request handler.callback params, s, reply, after⟩
  | notification {object : Value} {method : String} {handler : NotificationHandler}
      {params : Option LspValue} {r : Result Unit} {after : World}
      (hn : Notifies text env json s object method handler params) :
      Visited text env json s vs ⟨.notification handler.callback params, s, r, after⟩
  | sender {object : Value} {method : String} {id : Int64} {handler : RequestHandler}
      {params : Option LspValue} {reply : Reply} {before : World} {member : Member}
      {sender : Callback} {r : Result Unit} {after : World}
      (hs : Serves text env json s object method id handler params)
      (hr : ⟨.request handler.callback params, s, reply, before⟩ ∈ vs)
      (he : encodeReply env handler.type reply = .success member)
      (hsender : before.session.sender = some sender) :
      Visited text env json s vs
        ⟨.sender sender (text.write (responseMessage id member)), before, r, after⟩
  | postSend {callback : Callback} {before after : World} :
      Visited text env json s vs ⟨.postSend callback, before, (), after⟩

section Dispatch

variable {text : JsonText} {env : Declarations} {json : String} {s t : World}
  {vs : List CallVisit} {o : Except Crash (Result Unit)}

private theorem Receipt.after_send {method : String} {r : Result Unit} {u t : World}
    {ws : List CallVisit}
    (hw : (∃ f, r = .error f ∧ ws = [] ∧ t = u) ∨
      (r = .ok () ∧ u.session.postSend method = none ∧ ws = [] ∧ t = u) ∨
        ∃ callback, r = .ok () ∧ u.session.postSend method = some callback ∧
          ws = [⟨.postSend callback, u, (), t⟩]) :
    (ws = [] ∧ t = u) ∨ ∃ callback, ws = [⟨.postSend callback, u, (), t⟩] := by
  rcases hw with ⟨f, -, h⟩ | ⟨-, -, h⟩ | ⟨callback, -, -, h⟩
  · exact Or.inl h
  · exact Or.inl h
  · exact Or.inr ⟨callback, h⟩

theorem Receipt.one_handler (h : Receipt text env json s vs o t) :
    vs.countP (·.call.isHandler) + invocations (Program.stretches s vs t) ≤ 1 := by
  cases h with
  | refused => simp [Program.stretches, invocations]
  | settled => simp [Program.stretches, invocations, World.invokedPromises, World.setValue,
      World.takeHandler]
  | dropped => simp [Program.stretches, invocations, World.invokedPromises, World.takeHandler]
  | overset => simp [Program.stretches, invocations, World.invokedPromises, World.takeHandler]
  | notified => simp [Program.stretches, invocations, Call.isHandler]
  | unencoded => simp [Program.stretches, invocations, Call.isHandler]
  | unsent => simp [Program.stretches, invocations, Call.isHandler]
  | emitted _ _ _ hw =>
    rcases after_send hw with ⟨rfl, rfl⟩ | ⟨callback, rfl⟩ <;>
      simp [Program.stretches, invocations, Call.isHandler]

theorem Receipt.visited (h : Receipt text env json s vs o t) {v : CallVisit} (hv : v ∈ vs) :
    Visited text env json s vs v := by
  cases h with
  | notified h =>
    obtain rfl := List.mem_singleton.mp hv
    exact .notification h
  | unencoded h =>
    obtain rfl := List.mem_singleton.mp hv
    exact .request h
  | unsent h =>
    obtain rfl := List.mem_singleton.mp hv
    exact .request h
  | emitted h he hs hw =>
    rcases List.mem_cons.mp hv with rfl | hv
    · exact .request h
    rcases List.mem_cons.mp hv with rfl | hv
    · exact .sender h (List.mem_cons_self ..) he hs
    · rcases after_send hw with ⟨rfl, -⟩ | ⟨_, rfl⟩
      · cases hv
      · obtain rfl := List.mem_singleton.mp hv
        exact .postSend
  | _ => cases hv

theorem Receipt.request_handler (h : Receipt text env json s vs o t) :
    ∀ v ∈ vs, ∀ callback params, v.call = .request callback params →
      ∃ object method id handler, Serves text env json s object method id handler params ∧
        handler.callback = callback ∧ v.before = s := by
  intro v hv callback params hc
  cases h.visited hv with
  | request hs =>
    cases hc
    exact ⟨_, _, _, _, hs, rfl, rfl⟩
  | _ => cases hc

theorem Receipt.notification_handler (h : Receipt text env json s vs o t) :
    ∀ v ∈ vs, ∀ callback params, v.call = .notification callback params →
      ∃ object method handler, Notifies text env json s object method handler params ∧
        handler.callback = callback ∧ v.before = s := by
  intro v hv callback params hc
  cases h.visited hv with
  | notification hn =>
    cases hc
    exact ⟨_, _, _, hn, rfl, rfl⟩
  | _ => cases hc

theorem Receipt.response_handler (h : Receipt text env json s vs o t)
    (hi : invocations (Program.stretches s vs t) ≠ 0) :
    ∃ object id handler, Takes text json s object id handler := by
  cases h with
  | settled h => exact ⟨_, _, _, h⟩
  | dropped h => exact ⟨_, _, _, h⟩
  | overset h => exact ⟨_, _, _, h⟩
  | emitted _ _ _ hw =>
    rcases after_send hw with ⟨rfl, rfl⟩ | ⟨callback, rfl⟩ <;>
      simp [Program.stretches, invocations] at hi
  | _ => simp [Program.stretches, invocations] at hi

theorem Serves.unique {object object' : Value} {method method' : String} {id id' : Int64}
    {handler handler' : RequestHandler} {params params' : Option LspValue}
    (h : Serves text env json s object method id handler params)
    (h' : Serves text env json s object' method' id' handler' params') :
    object' = object ∧ method' = method ∧ id' = id ∧ handler' = handler ∧ params' = params := by
  obtain ⟨⟨hp, hm, hid⟩, hl, hd⟩ := h
  obtain ⟨⟨hp', hm', hid'⟩, hl', hd'⟩ := h'
  cases hp.symm.trans hp'
  cases hm.symm.trans hm'
  cases hid.symm.trans hid'
  cases hl.symm.trans hl'
  cases hd.symm.trans hd'
  exact ⟨rfl, rfl, rfl, rfl, rfl⟩

theorem Notifies.unique {object object' : Value} {method method' : String}
    {handler handler' : NotificationHandler} {params params' : Option LspValue}
    (h : Notifies text env json s object method handler params)
    (h' : Notifies text env json s object' method' handler' params') :
    handler' = handler ∧ params' = params := by
  obtain ⟨⟨hp, hm, -⟩, hl, hd⟩ := h
  obtain ⟨⟨hp', hm', -⟩, hl', hd'⟩ := h'
  cases hp.symm.trans hp'
  cases hm.symm.trans hm'
  cases hl.symm.trans hl'
  cases hd.symm.trans hd'
  exact ⟨rfl, rfl⟩

theorem Takes.unique {object object' : Value} {id id' : Int64} {handler handler' : ResponseHandler}
    (h : Takes text json s object id handler) (h' : Takes text json s object' id' handler') :
    object' = object ∧ id' = id ∧ handler' = handler := by
  obtain ⟨⟨hp, -, hid⟩, hl⟩ := h
  obtain ⟨⟨hp', -, hid'⟩, hl'⟩ := h'
  cases hp.symm.trans hp'
  cases hid.symm.trans hid'
  cases hl.symm.trans hl'
  exact ⟨rfl, rfl, rfl⟩

/-- A request that is served reaches its handler in every execution. -/
theorem Receipt.served (h : Receipt text env json s vs o t) {object : Value} {method : String}
    {id : Int64} {handler : RequestHandler} {params : Option LspValue}
    (hs : Serves text env json s object method id handler params) :
    ∃ reply after, ⟨.request handler.callback params, s, reply, after⟩ ∈ vs := by
  cases h with
  | refused hr => exact absurd hs (hr _ _ _ _ _)
  | settled ht => exact (ht.response.not_request hs.request).elim
  | dropped ht => exact (ht.response.not_request hs.request).elim
  | overset ht => exact (ht.response.not_request hs.request).elim
  | notified hn => exact (hn.notification.not_request hs.request).elim
  | unencoded hs' =>
    obtain ⟨-, -, -, rfl, rfl⟩ := hs.unique hs'
    exact ⟨_, _, List.mem_cons_self ..⟩
  | unsent hs' =>
    obtain ⟨-, -, -, rfl, rfl⟩ := hs.unique hs'
    exact ⟨_, _, List.mem_cons_self ..⟩
  | emitted hs' =>
    obtain ⟨-, -, -, rfl, rfl⟩ := hs.unique hs'
    exact ⟨_, _, List.mem_cons_self ..⟩

theorem Receipt.notified_of (h : Receipt text env json s vs o t) {object : Value} {method : String}
    {handler : NotificationHandler} {params : Option LspValue}
    (hn : Notifies text env json s object method handler params) :
    ∃ r, vs = [⟨.notification handler.callback params, s, r, t⟩] ∧ o = .ok r := by
  cases h with
  | refused _ hr => exact absurd hn (hr _ _ _ _)
  | settled ht => exact (ht.response.not_notification hn.notification).elim
  | dropped ht => exact (ht.response.not_notification hn.notification).elim
  | overset ht => exact (ht.response.not_notification hn.notification).elim
  | notified hn' =>
    obtain ⟨rfl, rfl⟩ := hn.unique hn'
    exact ⟨_, rfl, rfl⟩
  | unencoded hs => exact (hn.notification.not_request hs.request).elim
  | unsent hs => exact (hn.notification.not_request hs.request).elim
  | emitted hs => exact (hn.notification.not_request hs.request).elim

theorem Receipt.taken (h : Receipt text env json s vs o t) {object : Value} {id : Int64}
    {handler : ResponseHandler} (ht : Takes text json s object id handler) :
    vs = [] ∧ invocations (Program.stretches s vs t) = 1 ∧
      (∀ f, readResponse env handler object = .error f →
        o = .ok (.error f) ∧ t = s.takeHandler id handler object) ∧
      ∀ value, readResponse env handler object = .ok value →
        s.promises[handler.promise]? = some none →
          o = .ok (.ok ()) ∧
            t = (s.takeHandler id handler object).setValue handler.promise value := by
  cases h with
  | refused _ _ hr => exact absurd ht (hr _ _ _)
  | settled ht' hv hp =>
    obtain ⟨rfl, rfl, rfl⟩ := ht.unique ht'
    simp [Program.stretches, invocations, World.invokedPromises, World.setValue, World.takeHandler,
      hv]
  | dropped ht' hv =>
    obtain ⟨rfl, rfl, rfl⟩ := ht.unique ht'
    simp [Program.stretches, invocations, World.invokedPromises, World.takeHandler, hv]
  | overset ht' hv hp =>
    obtain ⟨rfl, rfl, rfl⟩ := ht.unique ht'
    simp [Program.stretches, invocations, World.invokedPromises, World.takeHandler, hv, hp]
  | notified hn => exact (ht.response.not_notification hn.notification).elim
  | unencoded hs => exact (ht.response.not_request hs.request).elim
  | unsent hs => exact (ht.response.not_request hs.request).elim
  | emitted hs => exact (ht.response.not_request hs.request).elim

theorem Takes.not_method {object object' : Value} {id : Int64} {handler : ResponseHandler}
    {method : String} (h : Takes text json s object id handler)
    (hp : text.parse json = .ok object') (hm : object'.getString "method" = .ok method) : False := by
  cases hp.symm.trans h.response.parse
  exact h.response.method method hm

theorem Receipt.untouched (h : Receipt text env json s vs o t) {object : Value} {method : String}
    (hp : text.parse json = .ok object) (hm : object.getString "method" = .ok method) :
    ∀ st ∈ Program.stretches s vs t, st.2 = st.1 := by
  cases h with
  | settled h => exact (h.not_method hp hm).elim
  | dropped h => exact (h.not_method hp hm).elim
  | overset h => exact (h.not_method hp hm).elim
  | emitted _ _ _ hw =>
    rcases after_send hw with ⟨rfl, rfl⟩ | ⟨callback, rfl⟩ <;> simp [Program.stretches]
  | _ => simp [Program.stretches]

theorem Receipt.refused_of (h : Receipt text env json s vs o t)
    (hq : ∀ object method id handler params,
      ¬ Serves text env json s object method id handler params)
    (hn : ∀ object method handler params,
      ¬ Notifies text env json s object method handler params)
    (hr : ∀ object id handler, ¬ Takes text json s object id handler) :
    vs = [] ∧ (∃ f, o = .ok (.error f)) ∧ t = s := by
  cases h with
  | refused => exact ⟨rfl, ⟨_, rfl⟩, rfl⟩
  | settled h => exact absurd h (hr _ _ _)
  | dropped h => exact absurd h (hr _ _ _)
  | overset h => exact absurd h (hr _ _ _)
  | notified h => exact absurd h (hn _ _ _ _)
  | unencoded h => exact absurd h (hq _ _ _ _ _)
  | unsent h => exact absurd h (hq _ _ _ _ _)
  | emitted h => exact absurd h (hq _ _ _ _ _)

theorem Receipt.one_message (h : Receipt text env json s vs o t) :
    vs.countP (·.call.isSender) ≤ 1 := by
  cases h with
  | emitted _ _ _ hw =>
    rcases after_send hw with ⟨rfl, rfl⟩ | ⟨callback, rfl⟩ <;> simp [Call.isSender]
  | _ => simp [Call.isSender]

theorem Receipt.one_post_send (h : Receipt text env json s vs o t) :
    vs.countP (·.call.isPostSend) ≤ 1 := by
  cases h with
  | emitted _ _ _ hw =>
    rcases after_send hw with ⟨rfl, rfl⟩ | ⟨callback, rfl⟩ <;> simp [Call.isPostSend]
  | _ => simp [Call.isPostSend]

theorem Receipt.message (h : Receipt text env json s vs o t) :
    ∀ v ∈ vs, ∀ sender msg, v.call = .sender sender msg →
      ∃ object id ms member, text.parse json = .ok object ∧ object.getI64 "id" = .ok id ∧
        msg = text.write (.objectValue ms) ∧ OrderedEntries.Ordered ms ∧
          (member.1 = "result" ∨ member.1 = "error") ∧
            ∀ m, m ∈ ms ↔ m ∈ [("id", .intValue id), ("jsonrpc", .stringValue "2.0"), member] := by
  intro v hv sender msg hc
  cases h.visited hv with
  | @sender _ _ _ _ _ _ _ member _ _ _ hs _ he =>
    cases hc
    have hname := encodeReply_name he
    obtain ⟨ms, hms, ho, hmem⟩ := responseMessage_members hname
    exact ⟨_, _, ms, member, hs.request.parse, hs.request.id, by rw [hms], ho, hname, hmem⟩
  | _ => cases hc

/-- A request whose reply is encoded while there is a sender is answered. -/
theorem Receipt.emits_of_encoded (h : Receipt text env json s vs o t) {object : Value}
    {method : String} {id : Int64} {handler : RequestHandler} {params : Option LspValue}
    {reply : Reply} {after : World} {member : Member}
    (hs : Serves text env json s object method id handler params)
    (hv : ⟨.request handler.callback params, s, reply, after⟩ ∈ vs)
    (he : encodeReply env handler.type reply = .success member)
    (hsender : after.session.sender.isSome) : ∃ v ∈ vs, v.call.isSender := by
  cases h with
  | emitted => exact ⟨_, List.mem_cons_of_mem _ (List.mem_cons_self ..), rfl⟩
  | notified =>
    have hcall := congrArg Program.Visit.call (List.mem_singleton.mp hv)
    cases hcall
  | unencoded hs' he' =>
    obtain ⟨-, -, -, rfl, rfl⟩ := hs'.unique hs
    cases List.mem_singleton.mp hv
    exact absurd he (he' member)
  | unsent hs' hn =>
    obtain ⟨-, -, -, rfl, rfl⟩ := hs'.unique hs
    cases List.mem_singleton.mp hv
    rw [hn] at hsender
    cases hsender
  | _ => cases hv

theorem Receipt.emits_iff (h : Receipt text env json s vs o t) :
    (∃ v ∈ vs, v.call.isSender) ↔
      ∃ object method id handler params reply after member,
        Serves text env json s object method id handler params ∧
          ⟨.request handler.callback params, s, reply, after⟩ ∈ vs ∧
            encodeReply env handler.type reply = .success member ∧
              after.session.sender.isSome := by
  constructor
  · intro h
    obtain ⟨v, hv, hc⟩ := h
    cases h.visited hv with
    | sender hs hr he hsender => exact ⟨_, _, _, _, _, _, _, _, hs, hr, he, by rw [hsender]; rfl⟩
    | _ => cases hc
  · intro h
    obtain ⟨_, _, _, _, _, _, _, _, hs, hv, he, hsender⟩ := h
    exact h.emits_of_encoded hs hv he hsender

/-- The one call of the sender in an execution, with what is called after it. -/
theorem Receipt.split_sender (h : Receipt text env json s vs o t) {vs₀ ws : List CallVisit}
    {sender : Callback} {msg : String} {before after : World} {r : Result Unit}
    (hvs : vs = vs₀ ++ ⟨.sender sender msg, before, r, after⟩ :: ws) {object : Value}
    {method : String} (hp : text.parse json = .ok object)
    (hm : object.getString "method" = .ok method) :
    (∃ f, r = .error f ∧ ws = [] ∧ t = after) ∨
      (r = .ok () ∧ after.session.postSend method = none ∧ ws = [] ∧ t = after) ∨
        ∃ callback, r = .ok () ∧ after.session.postSend method = some callback ∧
          ws = [⟨.postSend callback, after, (), t⟩] := by
  have hmem : ⟨.sender sender msg, before, r, after⟩ ∈ vs := by
    rw [hvs]
    exact List.mem_append_right _ (List.mem_cons_self ..)
  cases h with
  | emitted h he hs hw =>
    cases hp.symm.trans h.request.parse
    cases hm.symm.trans h.request.method
    rcases vs₀ with _ | ⟨x, _ | ⟨y, vs₀⟩⟩
    · cases hvs
    · cases hvs
      exact hw
    · -- the sender is not called again after its reply
      simp only [List.cons_append, List.cons.injEq] at hvs
      obtain ⟨-, -, hvs⟩ := hvs
      rcases after_send hw with ⟨rfl, -⟩ | ⟨_, rfl⟩
      · cases vs₀ <;> cases hvs
      · rcases vs₀ with _ | ⟨z, _ | ⟨z', vs₀⟩⟩ <;> cases hvs
  | notified =>
    have hcall := congrArg Program.Visit.call (List.mem_singleton.mp hmem)
    cases hcall
  | unencoded =>
    have hcall := congrArg Program.Visit.call (List.mem_singleton.mp hmem)
    cases hcall
  | unsent =>
    have hcall := congrArg Program.Visit.call (List.mem_singleton.mp hmem)
    cases hcall
  | _ => cases hmem

theorem Receipt.post_send (h : Receipt text env json s vs o t) {vs₀ ws : List CallVisit}
    {sender : Callback} {msg : String} {before after : World} {r : Result Unit}
    (hvs : vs = vs₀ ++ ⟨.sender sender msg, before, r, after⟩ :: ws) {object : Value}
    {method : String} (hp : text.parse json = .ok object)
    (hm : object.getString "method" = .ok method) :
    ws.map (·.call) =
      if r = .ok () then ((after.session.postSend method).map Call.postSend).toList else [] := by
  rcases h.split_sender hvs hp hm with ⟨f, rfl, rfl, -⟩ | ⟨rfl, hps, rfl, -⟩ |
    ⟨callback, rfl, hps, rfl⟩
  · simp
  · simp [hps]
  · simp [hps]

theorem Receipt.post_send_only (h : Receipt text env json s vs o t) :
    ∀ v ∈ vs, v.call.isPostSend → ∃ vs₀ sender msg before,
      vs = vs₀ ++ [⟨.sender sender msg, before, (.ok () : Result Unit), v.before⟩, v] := by
  intro v hv hc
  cases h with
  | @emitted object method id handler params reply member sender r o v' u t ws h he hs hw =>
    rcases hw with ⟨f, -, rfl, -⟩ | ⟨-, -, rfl, -⟩ | ⟨callback, rfl, -, rfl⟩
    · rcases List.mem_cons.mp hv with rfl | hv
      · cases hc
      · cases List.mem_singleton.mp hv
        cases hc
    · rcases List.mem_cons.mp hv with rfl | hv
      · cases hc
      · cases List.mem_singleton.mp hv
        cases hc
    · rcases List.mem_cons.mp hv with rfl | hv
      · cases hc
      rcases List.mem_cons.mp hv with rfl | hv
      · cases hc
      · obtain rfl := List.mem_singleton.mp hv
        exact ⟨[⟨.request handler.callback params, s, reply, v'⟩], sender, _, v', rfl⟩
  | notified =>
    obtain rfl := List.mem_singleton.mp hv
    cases hc
  | unencoded =>
    obtain rfl := List.mem_singleton.mp hv
    cases hc
  | unsent =>
    obtain rfl := List.mem_singleton.mp hv
    cases hc
  | _ => cases hv

/-- Every execution of `Receive` on any text calls and sends what its message asks for. -/
theorem receive_dispatched {rely : World → World → Prop}
    (h : Program.Execution rely (receive text env json) s vs o t) :
    Dispatched text env json s vs o t :=
  have hr := receipt_of_execution h
  { one_handler := hr.one_handler
    request_handler := hr.request_handler
    notification_handler := hr.notification_handler
    response_handler := hr.response_handler
    serves := fun _ _ _ _ _ hs => hr.served hs
    notifies := fun _ _ _ _ hn => hr.notified_of hn
    takes := fun _ _ _ ht => hr.taken ht
    untouched := fun _ _ hp hm => hr.untouched hp hm
    refused := hr.refused_of
    one_message := hr.one_message
    emits_iff := hr.emits_iff
    message := hr.message
    post_send := fun _ _ _ _ _ _ _ hvs _ _ hp hm => hr.post_send hvs hp hm
    post_send_only := hr.post_send_only
    one_post_send := hr.one_post_send }

section Shutdown

def shutdownServer : World :=
  { session := { sender := some 0, requestHandlers := [("shutdown", ⟨shutdown, 1, some 2⟩)] } }

def shutdownCalls : List CallVisit :=
  [⟨.request 1 none, shutdownServer, .success .null, shutdownServer⟩,
    ⟨.sender 0 shutdownResponse, shutdownServer, (.ok () : Result Unit), shutdownServer⟩,
    ⟨.postSend 2, shutdownServer, (), shutdownServer⟩]

theorem shutdownCalls_execution : Program.Execution Eq (receive shutdownText [] shutdownRequest)
    shutdownServer shutdownCalls (.ok (.ok ())) shutdownServer :=
  .update (.call rfl (.update (.call rfl (.update (.call rfl (.ret _ _))))))

theorem receive_dispatched_shutdown : Dispatched shutdownText [] shutdownRequest shutdownServer
    shutdownCalls (.ok (.ok ())) shutdownServer :=
  receive_dispatched shutdownCalls_execution

end Shutdown

end Dispatch

end Session

end Langsvr
