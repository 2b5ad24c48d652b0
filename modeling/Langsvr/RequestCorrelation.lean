import Langsvr.NetworkInvariant
import Mathlib.Data.List.Nodup

/-!
# The correlation of requests and responses

In two sessions that send what the other one reads, every message is read as what it was
sent for, whatever the order in which the messages are delivered. The id in a response
leads to the promise of the request that it answers, although both sides use the same ids.
-/

namespace Langsvr

open Json (Value)
open Lsp (Declarations)

variable {text : JsonText} {env : Declarations}

/-- If it is delivered now, the message goes to the handler for which it was sent, or it
sets the promise of the request that it answers. -/
def Packet.Accepted (text : JsonText) (env : Declarations) (w : World) (p : Packet) : Prop :=
  match p.task with
  | .request _ type params => ∃ handler next,
      List.lookup type.method w.session.requestHandlers = some handler ∧
        (Session.receive text env p.text).run w =
          (.waiting (.request handler.callback (given type.params params)) next, w)
  | .notification type params => ∃ handler next,
      List.lookup type.method w.session.notificationHandlers = some handler ∧
        (Session.receive text env p.text).run w =
          (.waiting (.notification handler.callback (given type.params params)) next, w)
  | .response id type params reply => ∃ promise message u,
      .issued id promise type params message ∈ w.history ∧
        (Session.receive text env p.text).run w = (.returned (.ok ()), u) ∧
          u.promises[promise]? = some (some reply)
  | _ => False

namespace Network

theorem Inv.accepted {n : Network} (h : n.Inv text env) {p : Packet} (hp : p ∈ n.wire) :
    p.Accepted text env (n.world p.receiver) := by
  obtain ⟨receiver, task, json⟩ := p
  have hl := h.legible _ hp
  have hh := h.handlers _ hp
  cases task with
  | request id type params =>
    obtain ⟨object, hr, hd⟩ := hl
    obtain ⟨handler, hreg, hrun⟩ := run_deliver_request hr hd hh
    exact ⟨handler, _, hreg, hrun⟩
  | notification type params =>
    obtain ⟨object, hr, hd⟩ := hl
    obtain ⟨handler, hreg, hrun⟩ := run_deliver_notification hr hd hh
    exact ⟨handler, _, hreg, hrun⟩
  | response id type params reply =>
    obtain ⟨object, hr, hd⟩ := hl
    have ht : ⟨receiver, id, type, params, some reply⟩ ∈ n.tokens :=
      List.mem_append_left _ (List.mem_filterMap.mpr ⟨_, hp, rfl⟩)
    obtain ⟨promise, message, hi, hinv⟩ := h.ledger.awaited _ ht
    have hc := h.consistent receiver
    have hnone := hc.unset (hc.kept id promise type params message hi hinv)
    refine ⟨promise, message, _, hi, run_deliver_response hr (hd promise) hc hi hinv, ?_⟩
    exact List.getElem?_set_self (List.getElem?_eq_some_iff.mp hnone).1
  | serve => exact hl.elim
  | other => exact hl.elim

/-- In two sessions that send what the other one reads, whenever the promise of a request is
set, it holds what the one run of the handler of the peer returned for the params of that
request. It is set once, and every message in flight is accepted. -/
theorem requests_correlated {sender : Side → Callback} {n : Network}
    (h : Reachable text env sender n) :
    (∀ side id promise type params message value,
      .issued id promise type params message ∈ (n.world side).history →
        (n.world side).promises[promise]? = some (some value) →
          ⟨side, id, given type.params params, value⟩ ∈ n.handled ∧
            ∀ k ∈ n.handled, k.issuer = side → k.id = id →
              k = ⟨side, id, given type.params params, value⟩) ∧
      (∀ side, (n.world side).settledPromises.Nodup) ∧ n.aborted = none ∧
        ∀ p ∈ n.wire, p.Accepted text env (n.world p.receiver) := by
  have hn := h.inv
  refine ⟨?_, fun side => (hn.consistent side).settled_nodup, hn.aborted, fun p => hn.accepted⟩
  intro side id promise type params message value hi hv
  have hc := hn.consistent side
  obtain ⟨id', type', params', message', hi', hk⟩ :=
    hn.ledger.settled side promise value ((hc.settled promise value).mpr hv)
  cases hc.issued_unique_promise hi hi'
  refine ⟨hk, fun k hmem hside hid => ?_⟩
  exact List.inj_on_of_nodup_map hn.ledger.handled_nodup hmem hk (Prod.ext hside hid)

section Shutdown

open Session (shutdown shutdownText)

theorem shutdown_params_survive : ParamsSurvive shutdownText [] none .null
    (Session.requestMessage 1 "shutdown") := by
  refine ⟨[], .objectValue [("id", .intValue 1), ("jsonrpc", .stringValue "2.0"),
    ("method", .stringValue "shutdown")], rfl, ⟨rfl, .object rfl fun p hp => ?_⟩, by simp⟩
  rcases List.mem_cons.mp hp with rfl | hp
  · exact .number rfl rfl
  rcases List.mem_cons.mp hp with rfl | hp
  · exact .string _
  · obtain rfl := List.mem_singleton.mp hp
    exact .string _

theorem shutdown_reply_survives :
    ReplySurvives shutdownText [] 1 shutdown (.success .null) := by
  refine ⟨("result", .nullValue), .objectValue [("id", .intValue 1),
    ("jsonrpc", .stringValue "2.0"), ("result", .nullValue)], rfl,
    ⟨rfl, .object rfl fun p hp => ?_⟩, fun v hv => ?_⟩
  · rcases List.mem_cons.mp hp with rfl | hp
    · exact .number rfl rfl
    rcases List.mem_cons.mp hp with rfl | hp
    · exact .string _
    · obtain rfl := List.mem_singleton.mp hp
      exact .null
  · cases hv
    rfl

/-- The client sends a request for `shutdown`, which the server answers before the sender of
the client has returned. -/
theorem requests_correlated_shutdown : ∃ n : Network,
    (n.world .client).promises = [some (.success .null)] ∧
      ⟨.client, 1, none, .success .null⟩ ∈ n.handled := by
  have hreach : Reachable shutdownText [] (fun _ => 0) _ :=
    .tail (.tail (.tail (.tail (.tail .refl
      (.operate .server (.registerRequest shutdown 1) rfl (fun _ h => by cases h)))
      (.operate .client (.sendRequest shutdown .null) rfl
        ⟨⟨_, rfl, rfl⟩, shutdown_params_survive, by decide⟩))
      (.deliver [] [] rfl rfl))
      (.reply [] _ (.success .null) rfl rfl shutdown_reply_survives))
      (.deliver [] [] rfl rfl)
  have h := requests_correlated hreach
  exact ⟨_, rfl, (h.1 .client 1 0 shutdown .null _ (.success .null)
    (.tail _ (.tail _ (.head _))) rfl).1⟩

end Shutdown

end Network

end Langsvr
