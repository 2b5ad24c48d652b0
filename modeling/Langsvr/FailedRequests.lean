import Langsvr.RequestExecutions
import Langsvr.TableHistories

/-!
# Requests that fail

`SendRequest` that returns a failure. If the params do not encode, the table of pending
requests is left alone. If the message cannot be sent, the handler stays in the table,
unless the sender has received a response for it.
-/

namespace Langsvr.Session

open Json (Value)
open Lsp (LspValue Declarations)
open Program (Execution)

variable {text : JsonText} {env : Declarations}

/-- The request for the next id of a state has left no trace: the table is what it was,
and a response for the id is rejected as unknown, unless another request waits for it. -/
def NoTrace (text : JsonText) (env : Declarations) (s t : World) : Prop :=
  t.session.responseHandlers = s.session.responseHandlers ∧
    (List.lookup s.session.nextRequestId s.session.responseHandlers = none →
      ∀ json object, IsResponse text json object s.session.nextRequestId →
        (receive text env json).run t = (.returned (.error
          ⟨"received response for unknown request with ID " ++
            toString s.session.nextRequestId.toInt⟩), t))

theorem noTrace_iff {s t : World} :
    NoTrace text env s t ↔ t.session.responseHandlers = s.session.responseHandlers := by
  constructor
  · exact And.left
  · intro h
    refine ⟨h, fun hl json object hr => ?_⟩
    rw [← h] at hl
    exact run_receive_unknown hr hl

/-- A handler that is entered changes the table, unless the id is in it. -/
theorem issue_responseHandlers_eq_iff {s : World} {type : RequestType} {params : LspValue}
    {message : Value} :
    (s.issue type params message).session.responseHandlers = s.session.responseHandlers ↔
      ∃ handler, List.lookup s.session.nextRequestId s.session.responseHandlers =
        some handler := by
  cases hl : List.lookup s.session.nextRequestId s.session.responseHandlers with
  | some handler =>
    simp only [World.issue, World.emplaceHandler, World.makePromise, World.allocateId, hl]
    exact iff_of_true trivial ⟨handler, rfl⟩
  | none =>
    simp only [World.issue, World.emplaceHandler, World.makePromise, World.allocateId, hl]
    refine iff_of_false (fun h => ?_) (by simp)
    have hself := OrderedEntries.lookup_assign s.session.nextRequestId s.session.nextRequestId
      ⟨s.promises.length, type.success, type.failure⟩ s.session.responseHandlers
    rw [h, hl] at hself
    simp at hself

/-- What user code does to a session while a call lasts: it starts any operations, with any
calls nested in them. -/
def Uses (text : JsonText) (env : Declarations) (s u : World) : Prop :=
  ∃ c, Program.Pool.Reachable (Started text env) s c ∧ c.aborted = none ∧ c.state = u

theorem Uses.extends {s u : World} (h : Uses text env s u) :
    ∃ events, s.Extends events u := by
  obtain ⟨c, hc, -, rfl⟩ := h
  exact World.Extends.of_runs (runs_of_reachable hc)

theorem proper_of_reachable {c : Program.Pool World Crash Call Call.Answer Unit}
    (h : Program.Pool.Reachable (Started text env) {} c) : c.state.Proper := by
  obtain ⟨events, he⟩ := World.Extends.of_runs (runs_of_reachable h)
  exact he.proper

/-- While the sender of a request was called, a response for the new id was accepted, a
response was accepted for every other id for which a handler was entered, and none for a
request that was pending before. -/
structure Retracts (s : World) (events : List Event) : Prop where
  answered : s.session.nextRequestId ∉ OrderedEntries.keys s.session.responseHandlers →
    ∃ r ∈ events, r.Takes s.session.nextRequestId
  undone : s.Undone events

theorem undone_issue_iff {s : World} {events : List Event} {promise : ℕ} {type : RequestType}
    {params : LspValue} {message : Value} :
    s.Undone (events ++ [.issued s.session.nextRequestId promise type params message,
      .allocated s.session.nextRequestId]) ↔ Retracts s events := by
  constructor
  · intro h
    refine ⟨fun hid => h.answered _ hid events _ [.allocated _] rfl rfl, ?_, ?_⟩
    · intro id hid later e earlier heq he
      exact h.answered id hid later e _ (by rw [heq, List.append_assoc, List.cons_append]) he
    · exact fun id hid e he => h.pending id hid e (List.mem_append_left _ he)
  · intro h
    constructor
    · intro id hid later e earlier heq he
      rcases List.append_eq_append_iff.mp heq with ⟨rest, rfl, hrest⟩ | ⟨rest, rfl, hrest⟩
      · -- only the request itself is entered after what the sender did
        rcases rest with _ | ⟨x, _ | ⟨y, rest⟩⟩
        · cases hrest
          obtain rfl : s.session.nextRequestId = id := he
          obtain ⟨r, hr, ht⟩ := h.answered hid
          exact ⟨r, by simpa using hr, ht⟩
        · cases hrest
          exact he.elim
        · simp at hrest
      · cases rest with
        | nil =>
          cases hrest
          obtain rfl : s.session.nextRequestId = id := he
          obtain ⟨r, hr, ht⟩ := h.answered hid
          exact ⟨r, by simpa using hr, ht⟩
        | cons x rest =>
          cases hrest
          exact h.undone.answered id hid later e rest rfl he
    · intro id hid e he
      rcases List.mem_append.mp he with he | he
      · exact h.undone.pending id hid e he
      · simp only [List.mem_cons, List.not_mem_nil, or_false] at he
        rcases he with rfl | rfl
        · exact fun ht => ht
        · exact fun ht => ht

/-- In every state of a session, a `SendRequest` that fails leaves no trace if and only if
the params have not been encoded, or no sender is set and the id was in the table already,
or the sender has received a response for the new id and has left nothing else behind. A
sender that leaves the table alone leaves the new handler in it. -/
theorem failed_request_no_trace_iff {c : Program.Pool World Crash Call Call.Answer Unit}
    (hc : Program.Pool.Reachable (Started text env) {} c) {type : RequestType}
    {params : LspValue} {t : World} {vs : List CallVisit} {f : Failure}
    (h : Execution (Uses text env) (sendRequest text env type params) c.state vs
      (.ok (.error f)) t) :
    (NoTrace text env c.state t ↔
      (∃ e, encodeParams env type.params params = .failure e) ∨
      (c.state.session.sender = none ∧ c.state.session.nextRequestId ∈
        OrderedEntries.keys c.state.session.responseHandlers) ∨
      ∃ v ∈ vs, ∃ events, v.after.history = events ++ v.before.history ∧
        Retracts c.state events) ∧
    ((∀ v ∈ vs, v.after.session.responseHandlers = v.before.session.responseHandlers) →
      (NoTrace text env c.state t ↔
        (∃ e, encodeParams env type.params params = .failure e) ∨
          c.state.session.nextRequestId ∈
            OrderedEntries.keys c.state.session.responseHandlers)) := by
  have hproper := proper_of_reachable hc
  have hkeys : ∀ id, (∃ handler, List.lookup id c.state.session.responseHandlers = some handler) ↔
      id ∈ OrderedEntries.keys c.state.session.responseHandlers := fun id => by
    rw [← Option.isSome_iff_exists, OrderedEntries.lookup_isSome_iff]
  rw [noTrace_iff]
  have ha := requestAttempt_of_execution h
  generalize ho : (Except.ok (Except.error f) : Except Crash (Result ℕ)) = o at ha
  cases ha with
  | asserted => cases ho
  | unencoded he =>
    exact ⟨iff_of_true rfl (Or.inl ⟨_, he⟩), fun _ => iff_of_true rfl (Or.inl ⟨_, he⟩)⟩
  | unsent he hn => simp [issue_responseHandlers_eq_iff, he, hn, hkeys]
  | @sent members sender r _ he hs hu =>
    constructor
    · obtain ⟨events, hx⟩ := hu.extends
      rw [((World.Extends.issue c.state type params _).trans hx).responseHandlers_eq_iff hproper,
        undone_issue_iff]
      simp only [he, hs, reduceCtorEq, exists_false, false_and, false_or, List.mem_singleton,
        exists_eq_left]
      constructor
      · intro hr
        exact ⟨events, hx.history, hr⟩
      · intro hr
        obtain ⟨events', hhistory, hr⟩ := hr
        rwa [List.append_cancel_right (hx.history.symm.trans hhistory)]
    · intro hquiet
      rw [hquiet _ (List.mem_singleton.mpr rfl), issue_responseHandlers_eq_iff, hkeys]
      simp [he]

def shutdownClient : World := { session := { sender := some 0 } }

/-- A request for `shutdown` whose sender receives the response and fails then. -/
theorem failed_shutdown_no_trace : ∃ (c : Program.Pool World Crash Call Call.Answer Unit)
    (t : World) (vs : List CallVisit),
      Program.Pool.Reachable (Started shutdownText []) {} c ∧
        Execution (Uses shutdownText []) (sendRequest shutdownText [] shutdown .null) c.state vs
          (.ok (.error ⟨"EOF"⟩)) t ∧
        NoTrace shutdownText [] c.state t := by
  have hset : Program.Pool.Step (Started shutdownText []) { state := {} }
      { state := shutdownClient } :=
    .start (p := (Operation.setSender (some 0)).program shutdownText []) ⟨_, rfl⟩
  have hc : Program.Pool.Reachable (Started shutdownText []) {} { state := shutdownClient } :=
    .tail .refl hset
  have hreceive : Uses shutdownText [] (shutdownClient.issue shutdown .null
      (requestMessage shutdownClient.session.nextRequestId "shutdown" [])) _ :=
    ⟨_, .tail .refl (.start ⟨.receive shutdownResponse, rfl⟩), rfl, rfl⟩
  have hx : Execution (Uses shutdownText []) (sendRequest shutdownText [] shutdown .null)
      shutdownClient _ (.ok (.error ⟨"EOF"⟩)) _ :=
    .update (.update (.update (.update (.call (r := (.error ⟨"EOF"⟩ : Result Unit)) hreceive
      (.ret _ _)))))
  refine ⟨_, _, _, hc, hx, (failed_request_no_trace_iff hc hx).1.mpr (Or.inr (Or.inr ?_))⟩
  refine ⟨_, List.mem_singleton.mpr rfl, [.settled 0 (.success .null), .invoked 0 _], rfl, ?_⟩
  refine ⟨fun _ => ⟨_, .tail _ (.head _), rfl⟩, ?_, fun id hid => (by cases hid)⟩
  intro id _ later e earlier heq he
  have hmem : e ∈ later ++ e :: earlier := List.mem_append_right _ (List.mem_cons_self ..)
  rw [← heq] at hmem
  simp only [List.mem_cons, List.not_mem_nil, or_false] at hmem
  rcases hmem with rfl | rfl
  · exact he.elim
  · exact he.elim

/-- Without a sender, and with a sender that fails at once, the handler of a request for
`shutdown` stays in the table, and a response for the id is accepted. -/
theorem failed_shutdown_kept : ∃ (t u : World) (vs : List CallVisit) (v : World),
    Execution (· = ·) (sendRequest shutdownText [] shutdown .null) {} []
        (.ok (.error ⟨"no sender set"⟩)) t ∧
      t.session.responseHandlers = [(1, ⟨0, .null, none⟩)] ∧
      (receive shutdownText [] shutdownResponse).run t = (.returned (.ok ()), v) ∧
      Execution (· = ·) (sendRequest shutdownText [] shutdown .null)
        { session := { sender := some 0 } } vs (.ok (.error ⟨"EOF"⟩)) u ∧
      u.session.responseHandlers = [(1, ⟨0, .null, none⟩)] :=
  ⟨_, _, _, _, .update (.update (.update (.update (.ret _ _)))), rfl, rfl,
    .update (.update (.update (.update (.call (r := (.error ⟨"EOF"⟩ : Result Unit)) rfl
      (.ret _ _))))), rfl⟩

end Langsvr.Session
