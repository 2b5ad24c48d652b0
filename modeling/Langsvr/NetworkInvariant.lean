import Langsvr.ReceiveBranches
import Langsvr.RequestLedger

/-!
# The invariant of two sessions

What holds between two sessions and the messages between them, whatever is sent, delivered
and returned when. Every step keeps the requests that are under way in the ledger.
-/

namespace Langsvr

open Json (Value Member)
open Lsp (LspValue Declarations)
open Session (Operation IsRequest IsResponse IsNotification)

variable {text : JsonText} {env : Declarations}

section Runs

open Program

variable {w : World}

private theorem run_discard {α : Type} {p : Method α} {c : Call} {next : c.Answer → Method α}
    {u : World} (h : p.run w = (.waiting c next, u)) :
    (p >>= fun _ => pure ()).run w = (.waiting c fun r => next r >>= fun _ => pure (), u) := by
  rw [run_bind, h]

/-- The rest of a method that neither sends nor changes anything, but for a callback. -/
def Quiet (p : Method Unit) : Prop :=
  ∀ w, p.run w = (.returned (), w) ∨ ∃ callback next,
    p.run w = (.waiting (.postSend callback) next, w) ∧ ∀ r u, (next r).run u = (.returned (), u)

theorem quiet_sent (method : String) (r : Result Unit) :
    Quiet (Session.sent method r >>= fun _ => pure ()) := by
  intro w
  cases r with
  | error f => exact Or.inl rfl
  | ok _ =>
    have hsent := Session.run_sent method w
    cases hps : w.session.postSend method with
    | none =>
      rw [hps] at hsent
      apply Or.inl
      rw [run_bind, hsent]
      rfl
    | some callback =>
      rw [hps] at hsent
      exact Or.inr ⟨callback, _, run_discard hsent, fun r u => rfl⟩

/-- A request is given to the sender once its handler is entered. -/
theorem run_sendRequest (text : JsonText) {type : RequestType} {params : LspValue}
    {members : List Member} (he : Session.encodeParams env type.params params = .success members) {sender : Callback}
    (hs : w.session.sender = some sender) :
    ∃ next, ((Operation.sendRequest type params).program text env).run w =
        (.waiting (.sender sender (text.write
            (Session.requestMessage w.session.nextRequestId type.method members))) next,
          w.issue type params
            (Session.requestMessage w.session.nextRequestId type.method members)) ∧
      ∀ r, Quiet (next r) := by
  let message := Session.requestMessage w.session.nextRequestId type.method members
  have hsender : (w.issue type params message).session.sender = some sender := hs
  have hrun : ∃ next, (Session.sendRequest text env type params).run w =
      (.waiting (.sender sender (text.write message)) next, w.issue type params message) ∧
        ∀ r u, ∃ o, (next r).run u = (.returned o, u) := by
    simp only [Session.sendRequest, Session.allocateId, run_modifyGet_bind, he, Session.check,
      run_pure_bind, Session.makePromise, run_modify_bind]
    change ∃ next, (Session.sendJson (text.write message) >>= _).run (w.issue type params message) =
      _ ∧ _
    rw [run_bind, Session.run_sendJson hsender]
    refine ⟨_, rfl, fun r u => ?_⟩
    cases r with
    | error f => exact ⟨.error f, rfl⟩
    | ok _ => exact ⟨.ok w.promises.length, rfl⟩
  obtain ⟨next, hrun, hnext⟩ := hrun
  refine ⟨_, run_discard hrun, fun r u => Or.inl ?_⟩
  obtain ⟨o, ho⟩ := hnext r u
  rw [run_bind, ho]
  rfl

theorem run_sendNotification (text : JsonText) {type : NotificationType} {params : LspValue}
    {members : List Member} (he : Session.encodeParams env type.params params = .success members) {sender : Callback}
    (hs : w.session.sender = some sender) :
    ∃ next, ((Operation.sendNotification type params).program text env).run w =
        (.waiting (.sender sender (text.write
          (Session.notificationMessage type.method members))) next, w) ∧ ∀ r, Quiet (next r) := by
  have hrun : (Session.sendNotification text env type params).run w = (.waiting (.sender sender
      (text.write (Session.notificationMessage type.method members))) pure, w) := by
    simp only [Session.sendNotification, he, Session.check, run_pure_bind]
    exact Session.run_sendJson hs _
  exact ⟨_, run_discard hrun, fun r u => Or.inl rfl⟩

/-- What a request handler's reply is followed by. -/
def serving (text : JsonText) (env : Declarations) (id : Int64) (type : RequestType) (reply : Reply) :
    Method Unit :=
  Session.answer text env type.method id type reply >>= fun _ => pure ()

/-- A request that is delivered reaches the handler of its type. -/
theorem run_deliver_request {json : String} {object : Value} {id : Int64} {type : RequestType}
    {params : LspValue} (h : IsRequest text json object type.method id)
    (hd : Session.decodeParams env type.params object = .ok (given type.params params))
    (hh : Network.HasRequestHandler w type) :
    ∃ handler, List.lookup type.method w.session.requestHandlers = some handler ∧
      (Session.receive text env json).run w = (.waiting (.request handler.callback
        (given type.params params)) (Session.answer text env type.method id type), w) := by
  obtain ⟨handler, hl, rfl⟩ := hh
  exact ⟨handler, hl, Session.run_receive_request h hl hd⟩

theorem run_deliver_notification {json : String} {object : Value} {type : NotificationType}
    {params : LspValue} (h : IsNotification text json object type.method)
    (hd : Session.decodeParams env type.params object = .ok (given type.params params))
    (hh : Network.HasNotificationHandler w type) :
    ∃ handler, List.lookup type.method w.session.notificationHandlers = some handler ∧
      (Session.receive text env json).run w =
        (.waiting (.notification handler.callback (given type.params params)) pure, w) := by
  obtain ⟨handler, hl, rfl⟩ := hh
  exact ⟨handler, hl, Session.run_receive_notification h hl hd⟩

/-- A response that is delivered sets the promise of its request. -/
theorem run_deliver_response {json : String} {object : Value} {id : Int64} {type : RequestType}
    {params : LspValue} {promise : ℕ} {message : Value} {reply : Reply}
    (h : IsResponse text json object id)
    (hr : Session.readResponse env ⟨promise, type.success, type.failure⟩ object = .ok reply)
    (hc : w.Consistent env) (hi : .issued id promise type params message ∈ w.history)
    (hp : promise ∉ w.invokedPromises) :
    (Session.receive text env json).run w = (.returned (.ok ()),
      (w.takeHandler id ⟨promise, type.success, type.failure⟩ object).setValue promise reply) := by
  have hl := hc.kept id promise type params message hi hp
  rw [Session.run_receive_pending h hl (hc.unset hl), hr]

end Runs

/-- The text of a packet is read as what it was sent for. -/
def Packet.Legible (text : JsonText) (env : Declarations) (p : Packet) : Prop :=
  match p.task with
  | .request id type params => ∃ object, IsRequest text p.text object type.method id ∧
      Session.decodeParams env type.params object = .ok (given type.params params)
  | .notification type params => ∃ object, IsNotification text p.text object type.method ∧
      Session.decodeParams env type.params object = .ok (given type.params params)
  | .response id type _ reply => ∃ object, IsResponse text p.text object id ∧
      ∀ promise, Session.readResponse env ⟨promise, type.success, type.failure⟩ object = .ok reply
  | _ => False

def Task.HasHandler (w : World) : Task → Prop
  | .request _ type _ => Network.HasRequestHandler w type
  | .notification type _ => Network.HasNotificationHandler w type
  | _ => True

/-- An activity waits for the reply of a request handler, or it has nothing more to send. -/
def Activity.Shaped (text : JsonText) (env : Declarations) (a : Activity) : Prop :=
  match a.task with
  | .serve id type params => ∃ callback,
      a.frame = ⟨.request callback (given type.params params), serving text env id type⟩
  | _ => (∀ callback params, a.frame.call ≠ .request callback params) ∧
      ∀ r, Quiet (a.frame.next r)

theorem Activity.shaped_iff {a : Activity} (h : a.token = none) : a.Shaped text env ↔
    (∀ callback params, a.frame.call ≠ .request callback params) ∧
      ∀ r, Quiet (a.frame.next r) := by
  obtain ⟨side, task, frame⟩ := a
  cases task with
  | serve id type params => cases h
  | _ => exact Iff.rfl

/-- A callback is the last thing that a method calls. -/
theorem quiet_returned {α : Type} {next : α → Method Unit}
    (h : ∀ r u, (next r).run u = (.returned (), u)) (r : α) : Quiet (next r) :=
  fun u => Or.inl (h r u)

namespace Network

/-- What holds in every network that can be reached. -/
structure Inv (text : JsonText) (env : Declarations) (n : Network) : Prop where
  aborted : n.aborted = none
  consistent : ∀ side, (n.world side).Consistent env
  sender : ∀ side, (n.world side).session.sender.isSome
  legible : ∀ p ∈ n.wire, p.Legible text env
  handlers : ∀ p ∈ n.wire, p.task.HasHandler (n.world p.receiver)
  shaped : ∀ a ∈ n.activities, a.Shaped text env
  ledger : Ledger n.world n.handled n.tokens

/-- One session runs, which may send and deliver packets and begin and end activities. -/
theorem Inv.of_update {n m : Network} (h : n.Inv text env) {side : Side} {w : World}
    (hworld : m.world = Function.update n.world side w) (hc : w.Consistent env)
    (hs : w.session.sender.isSome)
    (ht : ∀ task, Task.HasHandler (n.world side) task → Task.HasHandler w task)
    (hwire : ∀ p ∈ m.wire, p ∈ n.wire ∨
      p.Legible text env ∧ p.task.HasHandler (m.world p.receiver))
    (hactivities : ∀ a ∈ m.activities, a ∈ n.activities ∨ a.Shaped text env)
    (haborted : m.aborted = none) (hl : Ledger m.world m.handled m.tokens) : m.Inv text env where
  aborted := haborted
  consistent s := by
    rw [hworld]
    by_cases hside : s = side
    · subst hside
      simpa using hc
    · simpa [hside] using h.consistent s
  sender s := by
    rw [hworld]
    by_cases hside : s = side
    · subst hside
      simpa using hs
    · simpa [hside] using h.sender s
  legible p hp := by
    rcases hwire p hp with hp | hp
    · exact h.legible p hp
    · exact hp.1
  handlers p hp := by
    rcases hwire p hp with hp | hp
    · rw [hworld]
      by_cases hside : p.receiver = side
      · subst hside
        simpa using ht p.task (h.handlers p hp)
      · simpa [hside] using h.handlers p hp
    · exact hp.2
  shaped a ha := by
    rcases hactivities a ha with ha | ha
    · exact h.shaped a ha
    · exact ha
  ledger := hl

theorem Inv.of_same {n m : Network} (h : n.Inv text env) (hworld : m.world = n.world)
    (hwire : ∀ p ∈ m.wire, p ∈ n.wire ∨
      p.Legible text env ∧ p.task.HasHandler (n.world p.receiver))
    (hactivities : ∀ a ∈ m.activities, a ∈ n.activities ∨ a.Shaped text env)
    (haborted : m.aborted = none) (hl : Ledger n.world m.handled m.tokens) : m.Inv text env where
  aborted := haborted
  consistent s := hworld ▸ h.consistent s
  sender s := hworld ▸ h.sender s
  legible p hp := (hwire p hp).elim (h.legible p) fun hp => hp.1
  handlers p hp := by
    rw [hworld]
    exact (hwire p hp).elim (h.handlers p) fun hp => hp.2
  shaped a ha := (hactivities a ha).elim (h.shaped a) id
  ledger := hworld ▸ hl

theorem Inv.configure {n : Network} (h : n.Inv text env) {side : Side} {session : Session}
    (hn : session.nextRequestId = (n.world side).session.nextRequestId)
    (hr : session.responseHandlers = (n.world side).session.responseHandlers)
    (hs : session.sender.isSome)
    (ht : ∀ task, Task.HasHandler (n.world side) task →
      Task.HasHandler { n.world side with session := session } task) :
    Inv text env { n with
      world := Function.update n.world side { n.world side with session := session } } := by
  refine h.of_update rfl ((h.consistent side).configure hn hr) hs ht (fun p hp => Or.inl hp)
    (fun a ha => Or.inl ha) h.aborted (h.ledger.of_history fun s => ?_)
  by_cases hside : s = side
  · subst hside
    simp
  · simp [hside]

private theorem forall_mem_new {α : Type} {xs ys : List α} {x : α} {Q : α → Prop} (hx : Q x)
    (hxs : ∀ y ∈ xs, y ∈ ys) : ∀ y ∈ x :: xs, y ∈ ys ∨ Q y := by
  intro y hy
  rcases List.mem_cons.mp hy with rfl | hy
  · exact Or.inr hx
  · exact Or.inl (hxs y hy)

private theorem mem_of_mem_remove {α : Type} {xs ps qs : List α} {x y : α} (hn : xs = ps ++ x :: qs)
    (hy : y ∈ ps ++ qs) : y ∈ xs := by
  rw [hn]
  exact ((List.sublist_cons_self x qs).append_left ps).subset hy

private theorem HasRequestHandler.assign {w : World} {type : RequestType}
    (h : HasRequestHandler w type) {method : String} {handler : RequestHandler}
    (hsame : ∀ old, List.lookup method w.session.requestHandlers = some old →
      handler.type = old.type) :
    HasRequestHandler { w with session := { w.session with
      requestHandlers := OrderedEntries.assign method handler w.session.requestHandlers } }
        type := by
  obtain ⟨old, hl, rfl⟩ := h
  simp only [HasRequestHandler, OrderedEntries.lookup_assign]
  split
  · rename_i hmethod
    exact ⟨handler, rfl, hsame old (hmethod ▸ hl)⟩
  · exact ⟨old, hl, rfl⟩

section Operations

variable {n : Network} (h : n.Inv text env) {side : Side}
include h

/-- A request is sent. Its id is not one of the requests that are under way. -/
theorem Inv.sendRequest {type : RequestType} {params : LspValue}
    (hh : HasRequestHandler (n.world side.peer) type)
    (hs : ParamsSurvive text env type.params params
      (Session.requestMessage (n.world side).session.nextRequestId type.method))
    (hn : (n.world side).allocatedIds.length + 1 < 2 ^ 63 - 1) :
    Inv text env (n.settle side (.request (n.world side).session.nextRequestId type params)
      (((Operation.sendRequest type params).program text env).run (n.world side))) := by
  obtain ⟨members, object, he, hreq, hd⟩ := hs.isRequest
  obtain ⟨sender, hsender⟩ := Option.isSome_iff_exists.mp (h.sender side)
  obtain ⟨next, hrun, hnext⟩ := run_sendRequest text he hsender
  have hc := h.consistent side
  have hpeer : side.peer ≠ side := by cases side <;> simp [Side.peer]
  rw [hrun]
  refine h.of_update rfl (hc.issue hn (Session.getI64_requestMessage he)) (h.sender side) ?_ ?_ ?_
    h.aborted ?_
  · intro task ht
    cases task <;> exact ht
  · refine forall_mem_new ⟨⟨object, hreq, hd⟩, ?_⟩ fun p hp => hp
    simpa [settle, hpeer, Task.HasHandler] using hh
  · exact forall_mem_new ⟨by simp, hnext⟩ fun a ha => ha
  · have hissue := h.ledger.issue hc type params
      (Session.requestMessage (n.world side).session.nextRequestId type.method members)
    simpa [settle, tokens, packets, Packet.token, Activity.token, List.filterMap_cons] using hissue

theorem Inv.sendNotification {type : NotificationType} {params : LspValue}
    (hh : HasNotificationHandler (n.world side.peer) type)
    (hs : ParamsSurvive text env type.params params (Session.notificationMessage type.method)) :
    Inv text env (n.settle side (.notification type params)
      (((Operation.sendNotification type params).program text env).run (n.world side))) := by
  obtain ⟨members, object, he, hnot, hd⟩ := hs.isNotification
  obtain ⟨sender, hsender⟩ := Option.isSome_iff_exists.mp (h.sender side)
  obtain ⟨next, hrun, hnext⟩ := run_sendNotification text he hsender
  rw [hrun]
  refine h.of_same (Function.update_eq_self ..) ?_ ?_ h.aborted ?_
  · exact forall_mem_new ⟨⟨object, hnot, hd⟩, hh⟩ fun p hp => hp
  · exact forall_mem_new ⟨by simp, hnext⟩ fun a ha => ha
  · simpa [settle, tokens, packets, Packet.token, Activity.token, List.filterMap_cons] using h.ledger

theorem Inv.operate {op : Operation} (hop : n.Allows text env side op) :
    Inv text env (n.settle side (.ofOperation (n.world side) op)
      ((op.program text env).run (n.world side))) := by
  cases op with
  | receive json => exact hop.elim
  | sendRequest type params => exact h.sendRequest hop.1 hop.2.1 hop.2.2
  | sendNotification type params => exact h.sendNotification hop.1 hop.2
  | setSender sender => exact h.configure rfl rfl hop fun task ht => by cases task <;> exact ht
  | registerRequest type callback =>
    refine h.configure rfl rfl (h.sender side) fun task ht => ?_
    cases task with
    | request id type' params => exact ht.assign fun handler hl => (hop handler hl).symm
    | _ => exact ht
  | registerNotification type callback =>
    refine h.configure rfl rfl (h.sender side) fun task ht => ?_
    cases task with
    | notification type' params =>
      obtain ⟨handler, hl, rfl⟩ := ht
      simp only [Task.HasHandler, HasNotificationHandler, OrderedEntries.lookup_assign]
      split
      · rename_i hmethod
        exact ⟨_, rfl, (hop handler (hmethod ▸ hl)).symm⟩
      · exact ⟨handler, hl, rfl⟩
    | _ => exact ht
  | onPostSend method callback =>
    simp only [Operation.program, Session.onPostSend, Program.run_modify]
    cases hl : List.lookup method (n.world side).session.requestHandlers with
    | none =>
      exact h.of_same (Function.update_eq_self ..) (fun p hp => Or.inl hp) (fun a ha => Or.inl ha)
        h.aborted h.ledger
    | some handler =>
      refine h.configure rfl rfl (h.sender side) fun task ht => ?_
      cases task with
      | request id type params =>
        refine ht.assign fun old hold => ?_
        cases hl.symm.trans hold
        rfl
      | _ => exact ht

end Operations

section Deliveries

variable {n : Network} (h : n.Inv text env) {ps qs : List Packet} {p : Packet}
  (hn : n.wire = ps ++ p :: qs)
include hn

theorem tokens_of_packet {t : Token} (ht : p.token = some t) :
    n.tokens.Perm (t :: tokens { n with wire := ps ++ qs }) := by
  simp only [tokens, hn, List.filterMap_append, List.filterMap_cons, ht, List.append_assoc,
    List.cons_append]
  exact List.perm_middle

theorem tokens_of_other (ht : p.token = none) :
    n.tokens = tokens { n with wire := ps ++ qs } := by
  simp [tokens, hn, ht]

include h

/-- A request that is delivered is with its handler. -/
theorem Inv.deliver_request {id : Int64} {type : RequestType} {params : LspValue}
    (hp : p.task = .request id type params) :
    Inv text env (settle { n with wire := ps ++ qs } p.receiver p.task.received
      (((Operation.receive p.text).program text env).run (n.world p.receiver))) := by
  have hmem : p ∈ n.wire := by simp [hn]
  obtain ⟨object, hr, hd⟩ : ∃ object, IsRequest text p.text object type.method id ∧
      Session.decodeParams env type.params object = .ok (given type.params params) := by
    simpa [Packet.Legible, hp] using h.legible p hmem
  have hh : HasRequestHandler (n.world p.receiver) type := by
    simpa [Task.HasHandler, hp] using h.handlers p hmem
  obtain ⟨handler, -, hrun⟩ := run_deliver_request hr hd hh
  have hrun := run_discard hrun
  rw [show ((Operation.receive p.text).program text env).run (n.world p.receiver) = _ from hrun, hp]
  refine h.of_same (Function.update_eq_self ..) ?_ ?_ h.aborted ?_
  · exact fun q hq => Or.inl (mem_of_mem_remove hn hq)
  · exact forall_mem_new ⟨handler.callback, rfl⟩ fun a ha => ha
  · have ht : p.token = some ⟨p.receiver.peer, id, type, params, none⟩ := by
      simp [Packet.token, hp]
    refine h.ledger.perm ((tokens_of_packet hn ht).trans ?_)
    simp only [tokens, settle, packets, List.nil_append, List.filterMap_cons, Activity.token,
      Task.received]
    exact List.perm_middle.symm

theorem Inv.deliver_notification {type : NotificationType} {params : LspValue}
    (hp : p.task = .notification type params) :
    Inv text env (settle { n with wire := ps ++ qs } p.receiver p.task.received
      (((Operation.receive p.text).program text env).run (n.world p.receiver))) := by
  have hmem : p ∈ n.wire := by simp [hn]
  obtain ⟨object, hr, hd⟩ : ∃ object, IsNotification text p.text object type.method ∧
      Session.decodeParams env type.params object = .ok (given type.params params) := by
    simpa [Packet.Legible, hp] using h.legible p hmem
  have hh : HasNotificationHandler (n.world p.receiver) type := by
    simpa [Task.HasHandler, hp] using h.handlers p hmem
  obtain ⟨handler, -, hrun⟩ := run_deliver_notification hr hd hh
  have hrun := run_discard hrun
  rw [show ((Operation.receive p.text).program text env).run (n.world p.receiver) = _ from hrun, hp]
  refine h.of_same (Function.update_eq_self ..) ?_ ?_ h.aborted ?_
  · exact fun q hq => Or.inl (mem_of_mem_remove hn hq)
  · exact forall_mem_new ⟨by simp, fun r u => Or.inl rfl⟩ fun a ha => ha
  · have ht : p.token = none := by simp [Packet.token, hp]
    have hl := h.ledger
    rw [tokens_of_other hn ht] at hl
    exact hl

/-- A response that is delivered ends its request. -/
theorem Inv.deliver_response {id : Int64} {type : RequestType} {params : LspValue} {reply : Reply}
    (hp : p.task = .response id type params reply) :
    Inv text env (settle { n with wire := ps ++ qs } p.receiver p.task.received
      (((Operation.receive p.text).program text env).run (n.world p.receiver))) := by
  have hmem : p ∈ n.wire := by simp [hn]
  obtain ⟨object, hr, hd⟩ : ∃ object, IsResponse text p.text object id ∧ ∀ promise,
      Session.readResponse env ⟨promise, type.success, type.failure⟩ object = .ok reply := by
    simpa [Packet.Legible, hp] using h.legible p hmem
  have ht : p.token = some ⟨p.receiver, id, type, params, some reply⟩ := by
    simp [Packet.token, hp]
  have hledger := h.ledger.perm (tokens_of_packet hn ht)
  obtain ⟨promise, message, hi, hinv⟩ := hledger.awaited _ (List.mem_cons_self ..)
  have hc := h.consistent p.receiver
  have hl := hc.kept id promise type params message hi hinv
  have hrun : ((Operation.receive p.text).program text env).run (n.world p.receiver) =
      (.returned (), ((n.world p.receiver).takeHandler id
        ⟨promise, type.success, type.failure⟩ object).setValue promise reply) := by
    simp only [Operation.program, Program.run_bind, run_deliver_response hr (hd promise) hc hi hinv]
    rfl
  rw [hrun]
  refine h.of_update rfl ((hc.takeHandler hr.id hl).setValue (List.mem_cons_self ..) (hc.unset hl))
    (h.sender p.receiver) ?_ ?_ ?_ h.aborted ?_
  · intro task htask
    cases task <;> exact htask
  · exact fun q hq => Or.inl (mem_of_mem_remove hn hq)
  · exact fun a ha => Or.inl ha
  · exact hledger.settle rfl hc hi _ rfl object

theorem Inv.deliver :
    Inv text env (settle { n with wire := ps ++ qs } p.receiver p.task.received
      (((Operation.receive p.text).program text env).run (n.world p.receiver))) := by
  have hmem : p ∈ n.wire := by simp [hn]
  have hlegible := h.legible p hmem
  cases hp : p.task with
  | request id type params => exact hp ▸ h.deliver_request hn hp
  | notification type params => exact hp ▸ h.deliver_notification hn hp
  | response id type params reply => exact hp ▸ h.deliver_response hn hp
  | serve => simp [Packet.Legible, hp] at hlegible
  | other => simp [Packet.Legible, hp] at hlegible

end Deliveries

section Replies

variable {n : Network} (h : n.Inv text env) {as bs : List Activity}
include h

theorem Inv.reply {side : Side} {id : Int64} {type : RequestType} {params : LspValue}
    {callback : Callback} {arguments : Option LspValue} {next : Reply → Method Unit} {reply : Reply}
    (hn : n.activities =
      as ++ ⟨side, .serve id type params, ⟨.request callback arguments, next⟩⟩ :: bs)
    (hs : ReplySurvives text env id type reply) :
    Inv text env (settle { n with
        activities := as ++ bs, handled := ⟨side.peer, id, arguments, reply⟩ :: n.handled }
      side (.response id type params reply) ((next reply).run (n.world side))) := by
  obtain ⟨_, hframe⟩ := h.shaped _ (by rw [hn]; exact List.mem_append_right _ (List.mem_cons_self ..))
  cases hframe
  obtain ⟨member, object, he, hr, hd⟩ := hs.isResponse
  obtain ⟨sender, hsender⟩ := Option.isSome_iff_exists.mp (h.sender side)
  have hrun := Session.run_answer text type.method id (n.world side) he
  rw [hsender] at hrun
  have hrun := run_discard hrun
  rw [show (serving text env id type reply).run (n.world side) = _ from hrun]
  have hledger : Ledger n.world n.handled
      (⟨side.peer, id, type, params, none⟩ :: tokens { n with activities := as ++ bs }) := by
    apply h.ledger.perm
    simp only [tokens, hn, List.filterMap_append, List.filterMap_cons, Activity.token,
      ← List.append_assoc]
    exact List.perm_middle
  refine h.of_same (Function.update_eq_self ..) ?_ ?_ h.aborted ?_
  · exact forall_mem_new ⟨⟨object, hr, hd⟩, trivial⟩ fun p hp => hp
  · exact forall_mem_new ⟨by simp, quiet_sent type.method⟩ fun a ha => mem_of_mem_remove hn ha
  · have hhandle := hledger.handle rfl reply
    simpa [settle, tokens, packets, Packet.token, Activity.token, List.filterMap_cons] using hhandle

/-- Another call returns. Nothing is sent after it. -/
theorem Inv.resume {a : Activity} (hn : n.activities = as ++ a :: bs) (r : a.frame.call.Answer)
    (hr : Reports a.frame.call r) :
    Inv text env (settle { n with activities := as ++ bs } a.side a.task
      ((a.frame.next r).run (n.world a.side))) := by
  have hmem : a ∈ n.activities := by simp [hn]
  have htoken : a.token = none := by
    obtain ⟨side, task, frame⟩ := a
    cases task with
    | serve id type params =>
      obtain ⟨callback, hframe⟩ := h.shaped _ hmem
      cases hframe
      exact hr.elim
    | _ => rfl
  obtain ⟨-, hquiet⟩ := (Activity.shaped_iff htoken).mp (h.shaped a hmem)
  have htokens : tokens { n with activities := as ++ bs } = n.tokens := by
    simp [tokens, hn, List.filterMap_cons_none htoken]
  have hl := h.ledger
  rw [← htokens] at hl
  rcases hquiet r (n.world a.side) with hrun | ⟨callback, next, hrun, hnext⟩
  · rw [hrun]
    refine h.of_same (Function.update_eq_self ..) (fun p hp => Or.inl hp) ?_ h.aborted hl
    exact fun b hb => Or.inl (mem_of_mem_remove hn hb)
  · have hnew : Activity.token ⟨a.side, a.task, ⟨.postSend callback, next⟩⟩ = none := htoken
    rw [hrun]
    refine h.of_same (Function.update_eq_self ..) (fun p hp => Or.inl hp) ?_ h.aborted ?_
    · exact forall_mem_new ((Activity.shaped_iff hnew).mpr ⟨by simp, quiet_returned hnext⟩)
        fun b hb => mem_of_mem_remove hn hb
    · simpa [settle, tokens, packets, List.filterMap_cons_none hnew] using hl

end Replies

section Runs

theorem Inv.initial (sender : Side → Callback) : Inv text env (initial sender) where
  aborted := rfl
  consistent side := (World.consistent_init env).configure rfl rfl
  sender side := rfl
  legible := by simp [Network.initial]
  handlers := by simp [Network.initial]
  shaped := by simp [Network.initial]
  ledger := {
    nodup := List.nodup_nil
    awaited := by simp [Network.initial, tokens]
    unanswered := by simp [Network.initial, tokens]
    answered := by simp [Network.initial, tokens]
    handled_nodup := List.nodup_nil
    handled_issued := by simp [Network.initial]
    settled := by simp [Network.initial] }

theorem Inv.step {n m : Network} (h : n.Inv text env) (hs : Step text env n m) :
    m.Inv text env := by
  cases hs with
  | operate side op ha hop => exact h.operate hop
  | deliver ps qs ha hp => exact h.deliver hp
  | reply as bs reply ha hactivity hsurvives => exact h.reply hactivity hsurvives
  | resume as bs r ha hactivity hr => exact h.resume hactivity r hr

theorem Reachable.inv {sender : Side → Callback} {n : Network}
    (h : Reachable text env sender n) : n.Inv text env := by
  induction h with
  | refl => exact Inv.initial sender
  | tail _ hs ih => exact ih.step hs

end Runs

end Network

end Langsvr
