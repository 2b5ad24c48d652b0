import Langsvr.MethodCalls
import Langsvr.NetworkInvariant

/-!
# What the steps of two sessions do

From a network that can be reached, an operation sets up a session or sends one message,
and every other step ends a packet or an activity. What may follow such a step is told once
here, and the invariants of whole runs are read off it.
-/

namespace Langsvr

open Json (Value)
open Lsp (LspValue Declarations)
open Session (Operation)
open Program (CallsAtMost)

variable {text : JsonText} {env : Declarations}

namespace Network

/-- A step with which no operation begins: a message is delivered, a request handler returns,
or another call returns. -/
inductive Advance (text : JsonText) (env : Declarations) : Network → Network → Prop
  | deliver {n : Network} (ps qs : List Packet) {p : Packet} (ha : n.aborted = none)
      (hp : n.wire = ps ++ p :: qs) :
      Advance text env n (settle { n with wire := ps ++ qs } p.receiver p.task.received
        (((Operation.receive p.text).program text env).run (n.world p.receiver)))
  | reply {n : Network} (as bs : List Activity) {side : Side} {id : Int64} {type : RequestType}
      {params : LspValue} {callback : Callback} {given : Option LspValue}
      {next : Reply → Method Unit} (reply : Reply) (ha : n.aborted = none)
      (hactivity : n.activities =
        as ++ ⟨side, .serve id type params, ⟨.request callback given, next⟩⟩ :: bs)
      (hsurvives : ReplySurvives text env id type reply) :
      Advance text env n (settle { n with
          activities := as ++ bs, handled := ⟨side.peer, id, given, reply⟩ :: n.handled }
        side (.response id type params reply) ((next reply).run (n.world side)))
  | resume {n : Network} (as bs : List Activity) {a : Activity} (r : a.frame.call.Answer)
      (ha : n.aborted = none) (hactivity : n.activities = as ++ a :: bs)
      (hr : Reports a.frame.call r) :
      Advance text env n (settle { n with activities := as ++ bs } a.side a.task
        ((a.frame.next r).run (n.world a.side)))

inductive Operate (text : JsonText) (env : Declarations) (op : Operation) :
    Network → Network → Prop
  | intro {n : Network} (side : Side) (ha : n.aborted = none) (hop : n.Allows text env side op) :
      Operate text env op n
        (n.settle side (.ofOperation (n.world side) op) ((op.program text env).run (n.world side)))

theorem Advance.step {n m : Network} (h : Advance text env n m) : Step text env n m := by
  cases h with
  | deliver ps qs ha hp => exact .deliver ps qs ha hp
  | reply as bs reply ha hactivity hsurvives => exact .reply as bs reply ha hactivity hsurvives
  | resume as bs r ha hactivity hr => exact .resume as bs r ha hactivity hr

theorem Operate.step {op : Operation} {n m : Network} (h : Operate text env op n m) :
    Step text env n m := by
  cases h with
  | intro side ha hop => exact .operate side op ha hop

/-- Every step is an operation or goes on with what has begun. -/
theorem step_iff {n m : Network} :
    Step text env n m ↔ (∃ op, Operate text env op n m) ∨ Advance text env n m := by
  constructor
  · intro h
    cases h with
    | operate side op ha hop => exact Or.inl ⟨op, .intro side ha hop⟩
    | deliver ps qs ha hp => exact Or.inr (.deliver ps qs ha hp)
    | reply as bs reply ha hactivity hsurvives =>
      exact Or.inr (.reply as bs reply ha hactivity hsurvives)
    | resume as bs r ha hactivity hr => exact Or.inr (.resume as bs r ha hactivity hr)
  · rintro (⟨op, h⟩ | h)
    · exact h.step
    · exact h.step

inductive Operated (n : Network) : Operation → Network → Prop
  | configured {op : Operation} (side : Side) {w : World}
      (hh : w.history = (n.world side).history) (hp : w.promises = (n.world side).promises) :
      Operated n op { n with world := Function.update n.world side w }
  | requested (side : Side) (type : RequestType) (params : LspValue) (message : Value)
      (sender : Callback) (msg : String) {next : Result Unit → Method Unit}
      (hnext : ∀ r, CallsAtMost 0 (next r)) :
      Operated n (.sendRequest type params) { n with
        world := Function.update n.world side ((n.world side).issue type params message)
        wire := ⟨side.peer, .request (n.world side).session.nextRequestId type params, msg⟩ ::
          n.wire
        activities := ⟨side, .request (n.world side).session.nextRequestId type params,
          ⟨.sender sender msg, next⟩⟩ :: n.activities }
  | notified (side : Side) (type : NotificationType) (params : LspValue) (sender : Callback)
      (msg : String) {next : Result Unit → Method Unit} (hnext : ∀ r, CallsAtMost 0 (next r)) :
      Operated n (.sendNotification type params) { n with
        wire := ⟨side.peer, .notification type params, msg⟩ :: n.wire
        activities := ⟨side, .notification type params, ⟨.sender sender msg, next⟩⟩ ::
          n.activities }

/-- What the other steps do. -/
inductive Advanced (n : Network) : Network → Prop
  | served (ps qs : List Packet) {receiver : Side} {id : Int64} {type : RequestType}
      {params : LspValue} {msg : String}
      (hwire : n.wire = ps ++ ⟨receiver, .request id type params, msg⟩ :: qs) (callback : Callback)
      (next : Reply → Method Unit) :
      Advanced n { n with
        wire := ps ++ qs
        activities := ⟨receiver, .serve id type params,
          ⟨.request callback (given type.params params), next⟩⟩ :: n.activities }
  | noticed (ps qs : List Packet) {receiver : Side} {type : NotificationType} {params : LspValue}
      {msg : String} (hwire : n.wire = ps ++ ⟨receiver, .notification type params, msg⟩ :: qs)
      (callback : Callback) {next : Result Unit → Method Unit}
      (hnext : ∀ r, CallsAtMost 0 (next r)) :
      Advanced n { n with
        wire := ps ++ qs
        activities := ⟨receiver, .other,
          ⟨.notification callback (given type.params params), next⟩⟩ :: n.activities }
  | settled (ps qs : List Packet) {receiver : Side} {id : Int64} {type : RequestType}
      {params : LspValue} {reply : Reply} {msg : String}
      (hwire : n.wire = ps ++ ⟨receiver, .response id type params reply, msg⟩ :: qs)
      {promise : ℕ} {message : Value}
      (hissued : .issued id promise type params message ∈ (n.world receiver).history)
      (handler : ResponseHandler) (hpromise : handler.promise = promise) (response : Value) :
      Advanced n { n with
        world := Function.update n.world receiver
          (((n.world receiver).takeHandler id handler response).setValue promise reply)
        wire := ps ++ qs }
  | replied (as bs : List Activity) {side : Side} {id : Int64} {type : RequestType}
      {params : LspValue} {frame : Program.Frame World Crash Call Call.Answer Unit}
      (hactivity : n.activities = as ++ ⟨side, .serve id type params, frame⟩ :: bs)
      (reply : Reply) (sender : Callback) (msg : String) {next : Result Unit → Method Unit}
      (hnext : ∀ r, CallsAtMost 1 (next r)) :
      Advanced n { n with
        wire := ⟨side.peer, .response id type params reply, msg⟩ :: n.wire
        activities := ⟨side, .response id type params reply, ⟨.sender sender msg, next⟩⟩ ::
          (as ++ bs)
        handled := ⟨side.peer, id, given type.params params, reply⟩ :: n.handled }
  | returned (as bs : List Activity) {a : Activity} (hactivity : n.activities = as ++ a :: bs)
      (htoken : a.token = none) :
      Advanced n { n with activities := as ++ bs }
  | posted (as bs : List Activity) {a : Activity} (hactivity : n.activities = as ++ a :: bs)
      (htoken : a.token = none) (r : a.frame.call.Answer) {callback : Callback}
      {next : Unit → Method Unit} (hrun : (a.frame.next r).run (n.world a.side) =
        (.waiting (.postSend callback) next, n.world a.side)) :
      Advanced n { n with
        activities := ⟨a.side, a.task, ⟨.postSend callback, next⟩⟩ :: (as ++ bs) }

/-- A method that waits for a call and has not changed its session. -/
theorem settle_waiting {n : Network} {side : Side} {w : World} (hw : n.world side = w) (task : Task)
    (c : Call) (next : c.Answer → Method Unit) :
    n.settle side task (.waiting c next, w) = { n with
      wire := packets side task c ++ n.wire
      activities := ⟨side, task, ⟨c, next⟩⟩ :: n.activities } := by
  subst hw
  simp [settle]

section Cases

variable {n : Network} (h : n.Inv text env)
include h

theorem Inv.operated {op : Operation} {m : Network} (ho : Operate text env op n m) :
    Operated n op m := by
  cases ho with
  | intro side ha hop =>
    cases op with
    | receive json => exact hop.elim
    | sendRequest type params =>
      obtain ⟨-, hs, -⟩ := hop
      obtain ⟨members, object, he, -, -⟩ := hs.isRequest
      obtain ⟨sender, hsender⟩ := Option.isSome_iff_exists.mp (h.sender side)
      obtain ⟨next, hrun, -⟩ := run_sendRequest text he hsender
      have hcalls : CallsAtMost 1 ((Operation.sendRequest type params).program text env) :=
        (Session.sendRequest_calls text env type params).bind (l := 0) fun _ => .pure _
      obtain ⟨l, hl, hnext⟩ := hcalls.of_run hrun
      obtain rfl : l = 0 := by omega
      rw [hrun]
      exact .requested side type params _ sender _ hnext
    | sendNotification type params =>
      obtain ⟨-, hs⟩ := hop
      obtain ⟨members, object, he, -, -⟩ := hs.isNotification
      obtain ⟨sender, hsender⟩ := Option.isSome_iff_exists.mp (h.sender side)
      obtain ⟨next, hrun, -⟩ := run_sendNotification text he hsender
      have hcalls : CallsAtMost 1 ((Operation.sendNotification type params).program text env) :=
        (Session.sendNotification_calls text env type params).bind (l := 0) fun _ => .pure _
      obtain ⟨l, hl, hnext⟩ := hcalls.of_run hrun
      obtain rfl : l = 0 := by omega
      rw [hrun, settle_waiting rfl]
      exact .notified side type params sender _ hnext
    | setSender sender => exact .configured side rfl rfl
    | registerRequest type callback => exact .configured side rfl rfl
    | registerNotification type callback => exact .configured side rfl rfl
    | onPostSend method callback =>
      simp only [Operation.program, Session.onPostSend, Program.run_modify]
      cases List.lookup method (n.world side).session.requestHandlers with
      | none => exact .configured side rfl rfl
      | some handler => exact .configured side rfl rfl

private theorem Inv.advanced_deliver {ps qs : List Packet} {p : Packet}
    (hn : n.wire = ps ++ p :: qs) :
    Advanced n (settle { n with wire := ps ++ qs } p.receiver p.task.received
      (((Operation.receive p.text).program text env).run (n.world p.receiver))) := by
  obtain ⟨receiver, task, json⟩ := p
  have hmem : (⟨receiver, task, json⟩ : Packet) ∈ n.wire := by simp [hn]
  have hlegible := h.legible _ hmem
  have hhandler := h.handlers _ hmem
  cases task with
  | request id type params =>
    obtain ⟨object, hr, hd⟩ := hlegible
    obtain ⟨handler, -, hrun⟩ := run_deliver_request hr hd hhandler
    simp only [Operation.program, Program.run_bind, hrun]
    rw [settle_waiting rfl]
    exact .served ps qs hn handler.callback _
  | notification type params =>
    obtain ⟨object, hr, hd⟩ := hlegible
    obtain ⟨handler, -, hrun⟩ := run_deliver_notification hr hd hhandler
    simp only [Operation.program, Program.run_bind, hrun]
    rw [settle_waiting rfl]
    exact .noticed ps qs hn handler.callback fun r => .pure _
  | response id type params reply =>
    obtain ⟨object, hr, hd⟩ := hlegible
    have htoken : ⟨receiver, id, type, params, some reply⟩ ∈ n.tokens :=
      List.mem_append_left _ (List.mem_filterMap.mpr ⟨_, hmem, rfl⟩)
    obtain ⟨promise, message, hi, hinv⟩ := h.ledger.awaited _ htoken
    simp only [Operation.program, Program.run_bind,
      run_deliver_response hr (hd promise) (h.consistent receiver) hi hinv]
    exact .settled ps qs hn hi _ rfl object
  | serve => exact hlegible.elim
  | other => exact hlegible.elim

private theorem Inv.advanced_reply {as bs : List Activity} {side : Side} {id : Int64}
    {type : RequestType} {params : LspValue} {callback : Callback} {arguments : Option LspValue}
    {next : Reply → Method Unit} {reply : Reply} (hn : n.activities =
      as ++ ⟨side, .serve id type params, ⟨.request callback arguments, next⟩⟩ :: bs)
    (hs : ReplySurvives text env id type reply) :
    Advanced n (settle { n with
        activities := as ++ bs, handled := ⟨side.peer, id, arguments, reply⟩ :: n.handled }
      side (.response id type params reply) ((next reply).run (n.world side))) := by
  have hmem :
      ⟨side, .serve id type params, ⟨.request callback arguments, next⟩⟩ ∈ n.activities := by
    rw [hn]
    exact List.mem_append_right _ (List.mem_cons_self ..)
  obtain ⟨_, hframe⟩ := h.shaped _ hmem
  cases hframe
  obtain ⟨member, object, he, -, -⟩ := hs.isResponse
  obtain ⟨sender, hsender⟩ := Option.isSome_iff_exists.mp (h.sender side)
  have hcalls : CallsAtMost 2 (serving text env id type reply) :=
    (Session.answer_calls text env type.method id type reply).bind (l := 0) fun _ => .pure _
  have hanswer := Session.run_answer text type.method id (n.world side) he
  rw [hsender] at hanswer
  have hrun : (serving text env id type reply).run (n.world side) =
      (.waiting (.sender sender (text.write (Session.responseMessage id member)))
        (fun r => Session.sent type.method r >>= fun _ => pure ()), n.world side) := by
    simp only [serving, Program.run_bind, hanswer]
  obtain ⟨l, hl, hnext⟩ := hcalls.of_run hrun
  obtain rfl : l = 1 := by omega
  rw [hrun, settle_waiting rfl]
  exact .replied as bs hn reply sender _ hnext

private theorem Inv.advanced_resume {as bs : List Activity} {a : Activity}
    (hn : n.activities = as ++ a :: bs) (r : a.frame.call.Answer) (hr : Reports a.frame.call r) :
    Advanced n (settle { n with activities := as ++ bs } a.side a.task
      ((a.frame.next r).run (n.world a.side))) := by
  have hshaped := h.shaped a (by simp [hn])
  have htoken : a.token = none := by
    obtain ⟨side, task, frame⟩ := a
    cases task with
    | serve id type params =>
      obtain ⟨callback, hframe⟩ := hshaped
      cases hframe
      exact hr.elim
    | _ => rfl
  obtain ⟨-, hquiet⟩ := (Activity.shaped_iff htoken).mp hshaped
  rcases hquiet r (n.world a.side) with hrun | ⟨callback, next, hrun, -⟩
  · rw [hrun]
    simpa [settle] using Advanced.returned as bs hn htoken
  · rw [hrun, settle_waiting rfl]
    exact .posted as bs hn htoken r hrun

theorem Inv.advanced {m : Network} (ha : Advance text env n m) : Advanced n m := by
  cases ha with
  | deliver ps qs ha hp => exact h.advanced_deliver hp
  | reply as bs reply ha hactivity hsurvives => exact h.advanced_reply hactivity hsurvives
  | resume as bs r ha hactivity hr => exact h.advanced_resume hactivity r hr

end Cases

end Network

end Langsvr
