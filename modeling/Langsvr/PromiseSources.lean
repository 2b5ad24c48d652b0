import Langsvr.PendingRequests

/-!
# Where promises get their values from

In every run of a session, a promise is set to what is read from a response to its request, and
the response was parsed from a text that the session received.
-/

namespace Langsvr

open Json (Value Member)
open Lsp (LspValue Declarations)

variable {env : Declarations} {text : JsonText}

namespace World

/-- The promises that are set hold what was read from the responses to their requests. -/
def SetFromResponses (env : Declarations) (w : World) : Prop :=
  ∀ promise value, .settled promise value ∈ w.history → ∃ id type params message response,
    .issued id promise type params message ∈ w.history ∧
      .invoked promise response ∈ w.history ∧
        Session.readResponse env ⟨promise, type.success, type.failure⟩ response = .ok value

variable {w u : World}

theorem SetFromResponses.extend (h : w.SetFromResponses env)
    (hall : ∀ e ∈ w.history, e ∈ u.history)
    (hset : ∀ promise value, .settled promise value ∈ u.history →
      .settled promise value ∈ w.history) : u.SetFromResponses env := by
  intro promise value hv
  obtain ⟨id, type, params, message, response, hi, hr, hread⟩ := h promise value (hset _ _ hv)
  exact ⟨id, type, params, message, response, hall _ hi, hall _ hr, hread⟩

theorem SetFromResponses.issue (h : w.SetFromResponses env) (type : RequestType)
    (params : LspValue) (message : Value) : (w.issue type params message).SetFromResponses env := by
  refine h.extend (fun e he => .tail _ (.tail _ he)) fun promise value hv => ?_
  cases hv with
  | tail _ hv =>
    cases hv with
    | tail _ hv => exact hv

theorem Step.setFromResponses {allow : World → Session.Operation → Prop}
    {e : Program.Ending Crash Call} (hs : Step text env allow w e u) (hw : w.Consistent env)
    (h : w.SetFromResponses env) : u.SetFromResponses env := by
  cases hs with
  | configure => exact h
  | allocate =>
    refine h.extend (fun e he => .tail _ he) fun promise value hv => ?_
    cases hv with
    | tail _ hv => exact hv
  | unsent => exact h.issue _ _ _
  | sent => exact h.issue _ _ _
  | @settle json id handler response value _ hr hl hv hp =>
    obtain ⟨type, params, message, hi, hsuccess, hfailure, -⟩ := hw.pending id handler hl
    intro promise value' hv'
    cases hv' with
    | head =>
      refine ⟨id, type, params, message, response, .tail _ (.tail _ hi), .tail _ (.head _), ?_⟩
      rw [← hsuccess, ← hfailure]
      exact hv
    | tail _ hv' =>
      cases hv' with
      | tail _ hv' =>
        obtain ⟨id, type, params, message, response, hi, hr, hread⟩ := h promise value' hv'
        exact ⟨id, type, params, message, response, .tail _ (.tail _ hi), .tail _ (.tail _ hr),
          hread⟩
  | drop =>
    refine h.extend (fun e he => .tail _ he) fun promise value hv => ?_
    cases hv with
    | tail _ hv => exact hv
  | overset =>
    refine h.extend (fun e he => .tail _ he) fun promise value hv => ?_
    cases hv with
    | tail _ hv => exact hv

def TakesParsed (text : JsonText) (w : World) : Prop :=
  ∀ promise response, .invoked promise response ∈ w.history →
    ∃ json, text.parse json = .ok response

theorem TakesParsed.takeHandler (h : w.TakesParsed text) {json : String} {response : Value}
    (hj : text.parse json = .ok response) (id : Int64) (handler : ResponseHandler) :
    (w.takeHandler id handler response).TakesParsed text := by
  intro promise response' hr
  cases hr with
  | head => exact ⟨json, hj⟩
  | tail _ hr => exact h promise response' hr

theorem TakesParsed.step {allow : World → Session.Operation → Prop}
    {e : Program.Ending Crash Call} (h : w.TakesParsed text) (hs : Step text env allow w e u) :
    u.TakesParsed text := by
  cases hs with
  | configure => exact h
  | allocate => exact fun promise response hr => h promise response (by cases hr; assumption)
  | unsent | sent =>
    intro promise response hr
    cases hr with
    | tail _ hr =>
      cases hr with
      | tail _ hr => exact h promise response hr
  | settle _ hr =>
    intro promise response hi
    cases hi with
    | tail _ hi => exact h.takeHandler hr.parse _ _ promise response hi
  | drop _ hr => exact h.takeHandler hr.parse _ _
  | overset _ hr => exact h.takeHandler hr.parse _ _

end World

namespace Session

section Runs

variable {c : Program.Pool World Crash Call Call.Answer Unit}

theorem setFromResponses_of_reachable (h : Program.Pool.Reachable (Started text env) {} c)
    (hn : c.state.allocatedIds.length < 2 ^ 63 - 1) : c.state.SetFromResponses env :=
  (World.invariant_of_runs (runs_of_reachable h) hn (fun promise value hv => by cases hv)
    fun _ _ _ hc hset hs _ => hs.setFromResponses hc hset).1.2

theorem parsed_of_reachable (h : Program.Pool.Reachable (Started text env) {} c) {promise : ℕ}
    {response : Value} (hr : .invoked promise response ∈ c.state.history) :
    ∃ json, text.parse json = .ok response := by
  refine (runs_of_reachable h).invariant (I := fun _ w => w.TakesParsed text) ?_ ?_
    promise response hr
  · intro promise response hr
    cases hr
  · exact fun _ _ _ hw hs => hw.step hs

end Runs

end Session

end Langsvr
