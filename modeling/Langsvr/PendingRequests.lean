import Langsvr.ReceiveBranches
import Langsvr.RequestHistories

/-!
# Pending requests

What holds of the table of pending requests over the runs of a session, with any calls
nested in one another. A response that is not awaited changes nothing. A request that
cannot be sent keeps its handler, so a response for an id that was never sent is refused
in the runs whose requests are all sent.
-/

namespace Langsvr

open Json (Value Member)
open Lsp (LspValue Declarations)

namespace World

structure PendingTable (w : World) : Prop where
  keys : ∀ id ∈ OrderedEntries.keys w.session.responseHandlers,
    1 ≤ id.toInt ∧ id.toInt < w.session.nextRequestId.toInt
  next : w.session.nextRequestId ∉ OrderedEntries.keys w.session.responseHandlers
  /-- No handler was dropped: it is in the table until it is invoked. -/
  kept : ∀ id promise type params message,
    .issued id promise type params message ∈ w.history → promise ∉ w.invokedPromises →
      List.lookup id w.session.responseHandlers =
        some ⟨promise, type.success, type.failure⟩
  ids : w.allocatedIds.Nodup
  promises : w.issuedPromises.Nodup
  /-- A handler is invoked by a response with the id of the message of its request. -/
  invoked : ∀ promise response, .invoked promise response ∈ w.history →
    ∃ id type params message, .issued id promise type params message ∈ w.history ∧
      message.getI64 "id" = .ok id ∧ response.getI64 "id" = .ok id
  invoked_once : w.invokedPromises.Nodup
  set_once : w.settledPromises.Nodup

theorem Consistent.pendingTable {env : Declarations} {w : World} (h : w.Consistent env) :
    w.PendingTable where
  keys := by
    intro id hid
    obtain ⟨handler, hl⟩ :=
      Option.isSome_iff_exists.mp ((OrderedEntries.lookup_isSome_iff id _).mpr hid)
    obtain ⟨type, params, message, hi, -⟩ := h.pending id handler hl
    exact h.issued_bounds hi
  next := (OrderedEntries.lookup_eq_none_iff _ _).mp h.lookup_next
  kept := h.kept
  ids := h.allocated_nodup
  promises := h.issued_nodup
  invoked := by
    intro promise response hp
    obtain ⟨id, type, params, message, hi, hid⟩ := h.invoked promise response hp
    exact ⟨id, type, params, message, hi, h.issued _ _ _ _ _ hi, hid⟩
  invoked_once := h.invoked_nodup
  set_once := h.settled_nodup

/-- The handler of a request with this id has been invoked. -/
def Answered (w : World) (id : Int64) : Prop :=
  ∃ promise type params message response,
    .issued id promise type params message ∈ w.history ∧ .invoked promise response ∈ w.history

/-- The id is not the one of a request that waits for its response: no handler was ever
entered for it, or the handler has been invoked. -/
def NotAwaited (w : World) (id : Int64) : Prop :=
  (∀ promise type params message, .issued id promise type params message ∉ w.history) ∨
    w.Answered id

theorem Consistent.lookup_notAwaited {env : Declarations} {w : World} (h : w.Consistent env)
    {id : Int64} (hid : w.NotAwaited id) :
    List.lookup id w.session.responseHandlers = none := by
  cases hl : List.lookup id w.session.responseHandlers with
  | none => rfl
  | some handler =>
    obtain ⟨type, params, message, hi, -, -, hnot, -⟩ := h.pending id handler hl
    rcases hid with hid | ⟨promise, type', params', message', response, hi', hr⟩
    · exact absurd hi (hid _ _ _ _)
    · cases h.issued_unique hi hi'
      exact absurd (mem_invokedPromises hr) hnot

end World

namespace Session

variable {text : JsonText} {env : Declarations}

/-- The runs of a session: user code starts any operation at any time, also while others
wait for a call to return. -/
def Started (text : JsonText) (env : Declarations) (_ : World) (p : Method Unit) : Prop :=
  ∃ op : Operation, p = op.program text env

theorem Started.guarantees {w : World} {p : Method Unit} (h : Started text env w p) :
    p.Guarantees (World.Step text env fun _ _ => True) w := by
  obtain ⟨op, rfl⟩ := h
  exact op.guarantees trivial

theorem runs_of_reachable {s : World} {c : Program.Pool World Crash Call Call.Answer Unit}
    (h : Program.Pool.Reachable (Started text env) s c) :
    Program.Runs (World.Step text env fun _ _ => True) s c.aborted c.state :=
  h.runs fun _ _ => Started.guarantees

theorem consistent_of_reachable {c : Program.Pool World Crash Call Call.Answer Unit}
    (h : Program.Pool.Reachable (Started text env) {} c)
    (hn : c.state.allocatedIds.length < 2 ^ 63 - 1) :
    c.state.Consistent env ∧ c.aborted ≠ some .promiseAlreadySatisfied := by
  exact World.consistent_of_runs (runs_of_reachable h) hn

/-- What holds of a session in which the responses for certain ids are not awaited. -/
structure InOrder (text : JsonText) (env : Declarations)
    (c : Program.Pool World Crash Call Call.Answer Unit) (unawaited : Int64 → Prop) : Prop where
  table : c.state.PendingTable
  /-- A response that is not awaited fails and changes nothing. -/
  refuses : ∀ json object id, IsResponse text json object id → unawaited id →
    ∃ f, (receive text env json).run c.state = (.returned (.error f), c.state)
  /-- No promise has been set twice. -/
  once : c.aborted ≠ some .promiseAlreadySatisfied

theorem inOrder_of_reachable {c : Program.Pool World Crash Call Call.Answer Unit}
    (h : Program.Pool.Reachable (Started text env) {} c)
    (hn : c.state.allocatedIds.length < 2 ^ 63 - 1) : InOrder text env c c.state.NotAwaited := by
  obtain ⟨hc, ha⟩ := consistent_of_reachable h hn
  exact ⟨hc.pendingTable, fun json object id hr hid =>
    ⟨_, run_receive_unknown hr (hc.lookup_notAwaited hid)⟩, ha⟩

section Sent

/-- A text that `SendRequest` gives to a sender. -/
def RequestText (text : JsonText) (msg : String) : Prop :=
  ∃ id method members, msg = text.write (requestMessage id method members)

/-- A request with this id was given to a sender, which has not reported a failure. -/
def WasSent (text : JsonText) (id : Int64)
    (log : List (Program.Observation Call Call.Answer)) : Prop :=
  ∃ sender msg, (∃ method members, msg = text.write (requestMessage id method members)) ∧
    .called (.sender sender msg) ∈ log ∧
      ∀ f, .replied (.sender sender msg) (.error f : Result Unit) ∉ log

/-- Requests are sent while there is a sender, unless their params do not encode. -/
def Sendable (env : Declarations) (w : World) (op : Operation) : Prop :=
  ∀ type params members, op = .sendRequest type params →
    encodeParams env type.params params = .success members → w.session.sender.isSome

def StartedSendable (text : JsonText) (env : Declarations) (w : World) (p : Method Unit) : Prop :=
  ∃ op : Operation, p = op.program text env ∧ Sendable env w op

/-- A sender that is called for a request reports success. -/
def Delivers (text : JsonText) : (c : Call) → c.Answer → Prop
  | .sender _ msg, r => RequestText text msg → r = (.ok () : Result Unit)
  | _, _ => True

theorem reachable_of_sendable {s : World} {log : List (Program.Observation Call Call.Answer)}
    {c : Program.Pool World Crash Call Call.Answer Unit}
    (h : Program.Pool.Run (StartedSendable text env) (Delivers text) s log c) :
    Program.Pool.Reachable (Started text env) s c := by
  refine Relation.ReflTransGen.mono (fun c d hs => ?_) _ _ h.reachable
  cases hs with
  | start hp =>
    obtain ⟨op, hp, -⟩ := hp
    exact .start ⟨op, hp⟩
  | resume fs gs r => exact .resume fs gs r

/-- What was seen in a run whose requests are all sent. -/
structure AllSent (text : JsonText) (log : List (Program.Observation Call Call.Answer))
    (w : World) : Prop where
  called : ∀ id promise type params message, .issued id promise type params message ∈ w.history →
    ∃ sender members,
      .called (.sender sender (text.write (requestMessage id type.method members))) ∈ log
  delivered : ∀ sender msg f, RequestText text msg →
    .replied (.sender sender msg) (.error f : Result Unit) ∉ log

namespace AllSent

variable {log : List (Program.Observation Call Call.Answer)} {w u : World}

theorem wasSent (h : AllSent text log w) {id : Int64} {promise : ℕ} {type : RequestType}
    {params : LspValue} {message : Value}
    (hi : .issued id promise type params message ∈ w.history) : WasSent text id log := by
  obtain ⟨sender, members, hc⟩ := h.called _ _ _ _ _ hi
  exact ⟨sender, _, ⟨type.method, members, rfl⟩, hc,
    fun f => h.delivered sender _ f ⟨id, type.method, members, rfl⟩⟩

/-- No request is made. -/
theorem extend (h : AllSent text log w) (es : List (Program.Observation Call Call.Answer))
    (hi : ∀ id promise type params message, .issued id promise type params message ∈ u.history →
      .issued id promise type params message ∈ w.history)
    (hr : ∀ c r, .replied c r ∉ es) : AllSent text (es ++ log) u where
  called id promise type params message hu := by
    obtain ⟨sender, members, hc⟩ := h.called _ _ _ _ _ (hi _ _ _ _ _ hu)
    exact ⟨sender, members, List.mem_append_right _ hc⟩
  delivered sender msg f ht hm :=
    (List.mem_append.mp hm).elim (hr _ _) (h.delivered sender msg f ht)

private theorem not_replied (e : Program.Ending Crash Call) (c : Call) (r : c.Answer) :
    .replied c r ∉ (e.observed : List (Program.Observation Call Call.Answer)) := by
  cases e <;> simp [Program.Ending.observed]

theorem step (h : AllSent text log w) {e : Program.Ending Crash Call}
    (hs : World.Step text env (Sendable env) w e u) : AllSent text (e.observed ++ log) u := by
  cases hs with
  | configure => exact h.extend _ (fun _ _ _ _ _ hi => hi) (not_replied _)
  | allocate => exact h.extend _ (fun _ _ _ _ _ hi => by cases hi; assumption) (not_replied _)
  | unsent ha he hn =>
    have hsome := ha _ _ _ rfl he
    simp [hn] at hsome
  | @sent type params members sender ha he hn =>
    constructor
    · intro id promise type' params' message hi
      cases hi with
      | head => exact ⟨sender, members, List.mem_cons_self ..⟩
      | tail _ hi =>
        cases hi with
        | tail _ hi =>
          obtain ⟨sender', members', hc⟩ := h.called _ _ _ _ _ hi
          exact ⟨sender', members', .tail _ hc⟩
    · intro sender' msg f ht hm
      cases hm with
      | tail _ hm => exact h.delivered sender' msg f ht hm
  | settle =>
    refine h.extend _ (fun _ _ _ _ _ hi => ?_) (not_replied _)
    cases hi with
    | tail _ hi =>
      cases hi
      assumption
  | drop => exact h.extend _ (fun _ _ _ _ _ hi => by cases hi; assumption) (not_replied _)
  | overset => exact h.extend _ (fun _ _ _ _ _ hi => by cases hi; assumption) (not_replied _)

theorem reply (h : AllSent text log w) {c : Call} {r : c.Answer} (hr : Delivers text c r) :
    AllSent text (.replied c r :: log) w where
  called id promise type params message hi := by
    obtain ⟨sender, members, hc⟩ := h.called _ _ _ _ _ hi
    exact ⟨sender, members, .tail _ hc⟩
  delivered sender msg f ht hm := by
    cases hm with
    | head => cases hr ht
    | tail _ hm => exact h.delivered sender msg f ht hm

theorem of_run {c : Program.Pool World Crash Call Call.Answer Unit}
    (h : Program.Pool.Run (StartedSendable text env) (Delivers text) {} log c) :
    AllSent text log c.state := by
  refine h.invariant (G := World.Step text env (Sendable env)) ?_ ?_ ?_ ?_
  · intro w p hp
    obtain ⟨op, rfl, ha⟩ := hp
    exact op.guarantees ha
  · exact ⟨fun _ _ _ _ _ hi => (by cases hi), fun _ _ _ _ hm => (by cases hm)⟩
  · exact fun _ _ _ _ hi hs => hi.step hs
  · exact fun _ _ _ _ hi hr => hi.reply hr

end AllSent

end Sent

/-- In every run of a session that takes fewer than `2 ^ 63 - 1` ids, the table of pending
requests is in order, a response that is not awaited is refused, and no promise is set
twice. In a run in which every request that is encoded finds a sender that reports success,
a response is refused if its id was never sent or has been answered. -/
theorem pending_requests {c : Program.Pool World Crash Call Call.Answer Unit}
    (hn : c.state.allocatedIds.length < 2 ^ 63 - 1) :
    (Program.Pool.Reachable (Started text env) {} c →
      InOrder text env c c.state.NotAwaited) ∧
      ∀ log, Program.Pool.Run (StartedSendable text env) (Delivers text) {} log c →
        InOrder text env c fun id => ¬ WasSent text id log ∨ c.state.Answered id := by
  refine ⟨fun h => inOrder_of_reachable h hn, fun log h => ?_⟩
  have hr := inOrder_of_reachable (reachable_of_sendable h) hn
  refine ⟨hr.table, fun json object id hj hid => hr.refuses json object id hj ?_, hr.once⟩
  refine hid.imp_left fun hsent promise type params message hi => ?_
  exact hsent ((AllSent.of_run h).wasSent hi)

section Shutdown

def shutdown : RequestType := ⟨"shutdown", none, .null, none⟩

def shutdownRequest : String := "\x7b\"id\":1,\"jsonrpc\":\"2.0\",\"method\":\"shutdown\"\x7d"

def shutdownResponse : String := "\x7b\"id\":1,\"jsonrpc\":\"2.0\",\"result\":null\x7d"

def shutdownError : String := "\x7b\"error\":\x7b\x7d,\"id\":1\x7d"

def shutdownNamed : String := "\x7b\"id\":\"a\",\"method\":\"shutdown\"\x7d"

/-- What the library does with the messages of `shutdown` that have the id 1. -/
def shutdownText : JsonText where
  write
    | .objectValue [("id", _), ("jsonrpc", _), ("method", _)] => shutdownRequest
    | _ => shutdownResponse
  parse json :=
    if json = shutdownRequest then
      .ok (.objectValue [("id", .intValue 1), ("jsonrpc", .stringValue "2.0"),
        ("method", .stringValue "shutdown")])
    else if json = shutdownResponse then
      .ok (.objectValue [("id", .intValue 1), ("jsonrpc", .stringValue "2.0"),
        ("result", .nullValue)])
    else if json = shutdownError then
      .ok (.objectValue [("error", .objectValue []), ("id", .intValue 1)])
    else if json = shutdownNamed then
      .ok (.objectValue [("id", .stringValue "a"), ("method", .stringValue "shutdown")])
    else .error ⟨"Line 1, Column 1"⟩

/-- A request is sent and answered. A second response and one for an id that was not sent
are refused. -/
theorem pending_requests_shutdown : ∃ (c : Program.Pool World Crash Call Call.Answer Unit)
    (log : List (Program.Observation Call Call.Answer)),
      c.state.promises = [some (.success .null)] ∧ log.length = 2 ∧
        InOrder shutdownText [] c c.state.NotAwaited ∧
          InOrder shutdownText [] c fun id =>
            ¬ WasSent shutdownText id log ∨ c.state.Answered id := by
  have hsendable : ∀ (w : World) (json : String), Sendable [] w (.receive json) :=
    fun _ _ _ _ _ h => (by cases h)
  have hset : Program.Pool.Run (StartedSendable shutdownText []) (Delivers shutdownText) {} _ _ :=
    .start .refl ⟨.setSender (some 0), rfl, fun _ _ _ h => (by cases h)⟩
  have hsend : Program.Pool.Run (StartedSendable shutdownText []) (Delivers shutdownText) {} _ _ :=
    .start hset ⟨.sendRequest shutdown .null, rfl, fun _ _ _ _ _ => rfl⟩
  have hsent : Program.Pool.Run (StartedSendable shutdownText []) (Delivers shutdownText) {} _ _ :=
    .resume [] [] (.ok () : Result Unit) hsend fun _ => rfl
  have hrun : Program.Pool.Run (StartedSendable shutdownText []) (Delivers shutdownText) {} _ _ :=
    .start hsent ⟨.receive shutdownResponse, rfl, hsendable _ _⟩
  exact ⟨_, _, rfl, rfl, (pending_requests (by decide)).1 (reachable_of_sendable hrun),
    (pending_requests (by decide)).2 _ hrun⟩

/-- A request that could not be sent keeps its handler, so a response for its id, which was
never sent, is accepted: without a sender, and with one that fails. -/
theorem unsent_id_accepted : ∃ (c d : Program.Pool World Crash Call Call.Answer Unit)
    (log log' : List (Program.Observation Call Call.Answer)) (u v : World),
      IsResponse shutdownText shutdownResponse (.objectValue [("id", .intValue 1),
        ("jsonrpc", .stringValue "2.0"), ("result", .nullValue)]) 1 ∧
      Program.Pool.Run (Started shutdownText []) (fun _ _ => True) {} log c ∧
        ¬ WasSent shutdownText 1 log ∧ OrderedEntries.keys c.state.session.responseHandlers = [1] ∧
        (receive shutdownText [] shutdownResponse).run c.state = (.returned (.ok ()), u) ∧
      Program.Pool.Run (Started shutdownText []) (fun _ _ => True) {} log' d ∧
        ¬ WasSent shutdownText 1 log' ∧ OrderedEntries.keys d.state.session.responseHandlers = [1] ∧
        (receive shutdownText [] shutdownResponse).run d.state = (.returned (.ok ()), v) := by
  have hunset : Program.Pool.Run (Started shutdownText []) (fun _ _ => True) {} _ _ :=
    .start .refl ⟨.sendRequest shutdown .null, rfl⟩
  have hset : Program.Pool.Run (Started shutdownText []) (fun _ _ => True) {} _ _ :=
    .start .refl ⟨.setSender (some 0), rfl⟩
  have hrequest : Program.Pool.Run (Started shutdownText []) (fun _ _ => True) {} _ _ :=
    .start hset ⟨.sendRequest shutdown .null, rfl⟩
  have hfailed : Program.Pool.Run (Started shutdownText []) (fun _ _ => True) {} _ _ :=
    .resume [] [] (.error ⟨"EOF"⟩ : Result Unit) hrequest trivial
  refine ⟨_, _, _, _, _, _, ⟨rfl, fun _ hm => (by cases hm), rfl⟩, hunset, ?_, rfl, rfl, hfailed,
    ?_, rfl, rfl⟩
  · rintro ⟨sender, msg, -, hc, -⟩
    cases hc
  · rintro ⟨sender, msg, -, hc, hr⟩
    cases hc with
    | tail _ hc =>
      cases hc with
      | head => exact hr _ (.head _)
      | tail _ hc => cases hc

end Shutdown

end Session

end Langsvr
