import Langsvr.DecodingRules
import Langsvr.PendingRequests

/-!
# Requests that are lost

A handler is taken out of the table before it reads the response. If it cannot read it,
the promise is never set. The responses that a handler can read are those that leave no
request lost.
-/

namespace Langsvr.Session

open Json (Value)
open Lsp (LspValue Declarations Accepts decodeNew)

variable {text : JsonText} {env : Declarations}

/-- The response has a result that decodes, or it has none and has an error that decodes,
for a request with error data. -/
def Resolves (env : Declarations) (handler : ResponseHandler) (response : Value) : Prop :=
  (∃ result, response.get "result" = .ok result ∧ Accepts env handler.success result) ∨
    (∀ result, response.get "result" ≠ .ok result) ∧
      ∃ type error, handler.failure = some type ∧ response.get "error" = .ok error ∧
        Accepts env type error

theorem readResponse_isOk_iff {handler : ResponseHandler} {response : Value} :
    (∃ value, readResponse env handler response = .ok value) ↔ Resolves env handler response := by
  unfold readResponse Resolves
  cases hr : response.get "result" with
  | ok result =>
    simp only [Except.bind_eq_ok]
    constructor
    · intro h
      obtain ⟨value, x, hx, -⟩ := h
      exact Or.inl ⟨result, rfl, x, hx⟩
    · rintro (⟨_, hresult, x, hx⟩ | ⟨hnone, -⟩)
      · cases hresult
        exact ⟨.success x, x, hx, rfl⟩
      · exact absurd rfl (hnone result)
  | error f =>
    cases ht : handler.failure with
    | none => simp
    | some type =>
      simp only [Except.bind_eq_ok]
      constructor
      · intro h
        obtain ⟨value, error, he, x, hx, -⟩ := h
        exact Or.inr ⟨by simp, type, error, rfl, he, x, hx⟩
      · rintro (⟨_, hresult, -⟩ | ⟨-, _, error, htype, he, x, hx⟩)
        · cases hresult
        · cases htype
          exact ⟨.failure x, error, he, x, hx, rfl⟩

/-- A pending request whose response is received has its promise set or keeps its handler,
if and only if the response resolves it. -/
theorem resolved_or_kept_iff {json : String} {object : Value} {id : Int64} {w : World}
    {handler : ResponseHandler} (h : IsResponse text json object id) (hc : w.Consistent env)
    (hl : List.lookup id w.session.responseHandlers = some handler) :
    ∃ r u, (receive text env json).run w = (.returned r, u) ∧
      (((∃ value, u.promises[handler.promise]? = some (some value)) ∨
        List.lookup id u.session.responseHandlers = some handler) ↔
          Resolves env handler object) := by
  have hp := hc.unset hl
  have hgone : List.lookup id (w.takeHandler id handler object).session.responseHandlers =
      none := OrderedEntries.lookup_remove_self id _
  rw [run_receive_pending h hl hp, ← readResponse_isOk_iff]
  cases readResponse env handler object with
  | error f =>
    refine ⟨_, _, rfl, ?_⟩
    have hunset : (w.takeHandler id handler object).promises[handler.promise]? = some none := hp
    simp [hunset, hgone]
  | ok value =>
    refine ⟨_, _, rfl, iff_of_true (Or.inl ⟨value, ?_⟩) ⟨value, rfl⟩⟩
    exact List.getElem?_set_self (List.getElem?_eq_some_iff.mp hp).1

section Runs

/-- The operations that user code starts, where each response that comes for a pending
request resolves it. -/
def StartedResolving (text : JsonText) (env : Declarations) (w : World) (p : Method Unit) : Prop :=
  ∃ op : Operation, p = op.program text env ∧ ∀ json object id handler, op = .receive json →
    IsResponse text json object id →
      List.lookup id w.session.responseHandlers = some handler →
        Resolves env handler object

/-- Every request that was made has its promise set or keeps its handler. -/
def NoneLost (w : World) : Prop :=
  ∀ id promise type params message, .issued id promise type params message ∈ w.history →
    (∃ value, w.promises[promise]? = some (some value)) ∨
      List.lookup id w.session.responseHandlers =
        some ⟨promise, type.success, type.failure⟩

private def Resolving (text : JsonText) (env : Declarations) (w : World) (op : Operation) : Prop :=
  ∀ json object id handler, op = .receive json → IsResponse text json object id →
    List.lookup id w.session.responseHandlers = some handler →
      Resolves env handler object

private theorem invoked_settled {w : World} {e : Option Crash}
    (h : Program.Runs (World.Step text env (Resolving text env)) {} e w)
    (hn : w.allocatedIds.length < 2 ^ 63 - 1) :
    ∀ promise ∈ w.invokedPromises, promise ∈ w.settledPromises := by
  refine (World.invariant_of_runs h hn (I := fun w => ∀ promise ∈ w.invokedPromises,
    promise ∈ w.settledPromises) (by simp [World.invokedPromises]) ?_).1.2
  intro w e u hc hs hstep hu
  cases hstep with
  | settle _ hr hl hv hp =>
    intro promise hpromise
    rcases List.mem_cons.mp hpromise with rfl | hpromise
    · exact List.mem_cons_self ..
    · exact List.mem_cons_of_mem _ (hs promise hpromise)
  | drop ha hr hl hv =>
    -- a response that resolves the request is read
    obtain ⟨value, hvalue⟩ := readResponse_isOk_iff.mpr (ha _ _ _ _ rfl hr hl)
    cases hvalue.symm.trans hv
  | overset _ _ hl hp => exact absurd (hc.unset hl) hp
  | _ => exact hs

/-- No request is lost in a run whose responses all resolve the requests that they are
for, and at every state of any run a response leaves its request with a promise that is
set or with its handler if and only if it resolves it. -/
theorem no_request_lost {c : Program.Pool World Crash Call Call.Answer Unit}
    (hn : c.state.allocatedIds.length < 2 ^ 63 - 1) :
    (Program.Pool.Reachable (StartedResolving text env) {} c → NoneLost c.state) ∧
      (Program.Pool.Reachable (Started text env) {} c → ∀ json object id handler,
        IsResponse text json object id →
          List.lookup id c.state.session.responseHandlers = some handler →
            ∃ r u, (receive text env json).run c.state = (.returned r, u) ∧
              (((∃ value, u.promises[handler.promise]? = some (some value)) ∨
                List.lookup id u.session.responseHandlers = some handler) ↔
                  Resolves env handler object)) := by
  constructor
  · intro h
    have hruns : Program.Runs (World.Step text env (Resolving text env)) {} c.aborted c.state := by
      apply h.runs
      intro w p hp
      obtain ⟨op, rfl, hop⟩ := hp
      exact op.guarantees hop
    have hc := (World.consistent_of_runs hruns hn).1
    intro id promise type params message hi
    by_cases hinv : promise ∈ c.state.invokedPromises
    · obtain ⟨value, hset⟩ := World.exists_settled (invoked_settled hruns hn promise hinv)
      exact Or.inl ⟨value, (hc.settled promise value).mp hset⟩
    · exact Or.inr (hc.kept id promise type params message hi hinv)
  · intro h json object id handler hr hl
    exact resolved_or_kept_iff hr (consistent_of_reachable h hn).1 hl

/-- The promise of a request for `shutdown` is set by the response. -/
theorem no_request_lost_shutdown : ∃ c : Program.Pool World Crash Call Call.Answer Unit,
    c.state.promises = [some (.success .null)] ∧ NoneLost c.state := by
  have hresolves : ∀ json object id handler,
      Operation.receive shutdownResponse = .receive json →
        IsResponse shutdownText json object id →
          List.lookup id [((1 : Int64), (⟨0, .null, none⟩ : ResponseHandler))] =
            some handler → Resolves [] handler object := by
    intro json object id handler hjson hr hl
    cases hjson
    have hparse := hr.parse
    have hmem := OrderedEntries.mem_of_lookup hl
    cases hparse
    cases List.mem_singleton.mp hmem
    exact Or.inl ⟨.nullValue, rfl, .null, rfl⟩
  have hreach : Program.Pool.Reachable (StartedResolving shutdownText []) {} _ :=
    .tail (.tail (.tail (.tail .refl
      (.start ⟨.setSender (some 0), rfl, fun _ _ _ _ h => (by cases h)⟩))
      (.start ⟨.sendRequest shutdown .null, rfl, fun _ _ _ _ h => (by cases h)⟩))
      (.resume [] [] (.ok () : Result Unit)))
      (.start ⟨.receive shutdownResponse, rfl, hresolves⟩)
  exact ⟨_, rfl, (no_request_lost (by decide)).1 hreach⟩

/-- A response to `shutdown` with an error but no result takes the handler out of the table
and leaves the promise unset. -/
theorem shutdown_lost : ∃ (c : Program.Pool World Crash Call Call.Answer Unit) (u : World),
    Program.Pool.Reachable (Started shutdownText []) {} c ∧
      List.lookup 1 c.state.session.responseHandlers = some ⟨0, .null, none⟩ ∧
      IsResponse shutdownText shutdownError
        (.objectValue [("error", .objectValue []), ("id", .intValue 1)]) 1 ∧
      (receive shutdownText [] shutdownError).run c.state =
        (.returned (.error ⟨"response missing 'result'"⟩), u) ∧
      u.promises[0]? = some none ∧ List.lookup 1 u.session.responseHandlers = none :=
  ⟨_, _, .tail (.tail (.tail .refl
      (.start ⟨.setSender (some 0), rfl⟩))
      (.start ⟨.sendRequest shutdown .null, rfl⟩))
      (.resume [] [] (.ok () : Result Unit)),
    rfl, ⟨rfl, fun _ hm => (by cases hm), rfl⟩, rfl, rfl, rfl⟩

end Runs

end Langsvr.Session
