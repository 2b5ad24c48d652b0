import Langsvr.Dispatch

/-!
# Answers to requests

A request is answered if its id reads as an integer, a handler is registered for its
method, its params decode and the reply of the handler encodes. In every other case
nothing is sent.
-/

namespace Langsvr.Session

open Json (Value Member)
open Lsp (LspValue Declarations)

variable {text : JsonText} {env : Declarations} {json : String} {s t : World}
  {vs : List CallVisit} {o : Except Crash (Result Unit)}

/-- Exactly one message is sent. It has the id of the request, and the reply of the handler,
or an error if the request cannot reach one. -/
def Answered (text : JsonText) (env : Declarations) (s : World) (object : Value)
    (vs : List CallVisit) : Prop :=
  ∃ sender answer, (vs.filter (·.call.isSender)).map (·.call) = [.sender sender (text.write answer)] ∧
    (∃ i j, object.get "id" = .ok i ∧ answer.get "id" = .ok j ∧ i.Same j) ∧
      ∀ method, object.getString "method" = .ok method →
        match List.lookup method s.session.requestHandlers with
        | none => answer.has "error"
        | some handler =>
          match decodeParams env handler.type.params object with
          | .error _ => answer.has "error"
          | .ok params => ∃ reply after member,
            ⟨.request handler.callback params, s, reply, after⟩ ∈ vs ∧
              encodeReply env handler.type reply = .success member ∧
                (member.1 = "result" ∨ member.1 = "error") ∧ answer.get member.1 = .ok member.2

/-- The request reaches a handler, and what the handler returns encodes. -/
def Answerable (text : JsonText) (env : Declarations) (json : String) (s : World) (object : Value)
    (vs : List CallVisit) : Prop :=
  ∃ method id handler params, Serves text env json s object method id handler params ∧
    ∀ reply after, ⟨.request handler.callback params, s, reply, after⟩ ∈ vs →
      ∃ member, encodeReply env handler.type reply = .success member

theorem Receipt.reply_unique (h : Receipt text env json s vs o t) {callback callback' : Callback}
    {params params' : Option LspValue} {reply reply' : Reply} {u u' : World}
    (hv : ⟨.request callback params, s, reply, u⟩ ∈ vs)
    (hv' : ⟨.request callback' params', s, reply', u'⟩ ∈ vs) : reply' = reply := by
  have hone : vs.countP (·.call.isHandler) ≤ 1 := le_of_add_le_left h.one_handler
  have hvisit := (ListRelations.filter_eq_singleton hone hv rfl).symm.trans
    (ListRelations.filter_eq_singleton hone hv' rfl)
  cases hvisit
  rfl

/-- While there is a sender, a request is answered if and only if it reaches a handler and
what the handler returns encodes. -/
theorem answered_iff {rely : World → World → Prop}
    (h : Program.Execution rely (receive text env json) s vs o t) {object : Value}
    (hp : text.parse json = .ok object) (hsender : ∀ v ∈ vs, v.after.session.sender.isSome) :
    Answered text env s object vs ↔ Answerable text env json s object vs := by
  have hr := receipt_of_execution h
  constructor
  · intro h
    obtain ⟨sender, answer, hone, -, -⟩ := h
    have hsent : ∃ v ∈ vs, v.call.isSender := by
      cases hf : vs.filter (·.call.isSender) with
      | nil => simp [hf] at hone
      | cons v ws =>
        have hv : v ∈ vs.filter (·.call.isSender) := by simp [hf]
        exact ⟨v, List.mem_filter.mp hv⟩
    obtain ⟨object', method, id, handler, params, reply, after, member, hs, hv, he, -⟩ :=
      hr.emits_iff.mp hsent
    cases hp.symm.trans hs.request.parse
    refine ⟨method, id, handler, params, hs, fun reply' after' hv' => ⟨member, ?_⟩⟩
    rw [hr.reply_unique hv hv']
    exact he
  · intro h
    obtain ⟨method, id, handler, params, hs, henc⟩ := h
    obtain ⟨reply, after, hv⟩ := hr.served hs
    obtain ⟨member, he⟩ := henc reply after hv
    obtain ⟨w, hw, hcall⟩ := hr.emits_of_encoded hs hv he (hsender _ hv)
    have hfilter := ListRelations.filter_eq_singleton hr.one_message hw hcall
    cases hr.visited hw with
    | @sender _ _ id _ _ reply' _ member' sender _ _ hs' hv' he' =>
      cases hp.symm.trans hs'.request.parse
      have hname := encodeReply_name he'
      obtain ⟨hid, hmember⟩ := get_responseMessage id hname
      refine ⟨sender, responseMessage id member', by rw [hfilter]; rfl, ?_, fun m hm => ?_⟩
      · obtain ⟨i, hi, h64⟩ := Json.Value.getI64_eq_ok.mp hs'.request.id
        exact ⟨i, _, hi, hid, .of_i64 h64⟩
      · cases hm.symm.trans hs'.request.method
        rw [hs'.registered]
        simp only [hs'.decoded]
        exact ⟨_, _, _, hv', he', hname, hmember⟩
    | _ => cases hcall

/-- The request for `shutdown` is answered. -/
theorem answered_iff_shutdown :
    Answered shutdownText [] shutdownServer (.objectValue [("id", .intValue 1),
        ("jsonrpc", .stringValue "2.0"), ("method", .stringValue "shutdown")]) shutdownCalls ↔
      Answerable shutdownText [] shutdownRequest shutdownServer (.objectValue
        [("id", .intValue 1), ("jsonrpc", .stringValue "2.0"),
          ("method", .stringValue "shutdown")]) shutdownCalls :=
  answered_iff shutdownCalls_execution rfl (by simp [shutdownCalls, shutdownServer])

/-- A request whose id is a string is never answered. -/
theorem named_request_unanswered : ∃ object, shutdownText.parse shutdownNamed = .ok object ∧
    object.getString "method" = .ok "shutdown" ∧ object.getString "id" = .ok "a" ∧
      ∃ vs o t, Program.Execution Eq (receive shutdownText [] shutdownNamed) shutdownServer vs o t ∧
        (∀ v ∈ vs, v.after.session.sender.isSome) ∧
          ¬ Answered shutdownText [] shutdownServer object vs := by
  refine ⟨_, rfl, rfl, rfl, [], _, _, .ret _ _, by simp, ?_⟩
  intro h
  obtain ⟨sender, answer, hone, -, -⟩ := h
  cases hone

end Langsvr.Session
