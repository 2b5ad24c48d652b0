import Langsvr.EncodingRules
import Langsvr.ProtocolExcerpt
import Langsvr.ReceiveExecutions
import Langsvr.RequestSteps

/-!
# Executions of `SendRequest` and `SendNotification`

Every execution of the two methods with its call to the sender, whatever the sender does
to the session. The handler of a request is entered before the sender is called, and no
exit takes it out. The assertion of `Result::Validate` fires if and only if the params
hold a `OneOf` without a value.
-/

namespace Langsvr.Session

open Json (Value Member)
open Lsp (LspType LspValue Declarations HasType encode encode_ne_failure encode_eq_success_iff)

variable {text : JsonText} {env : Declarations}

section Attempts

open Program

/-- The ways in which `SendRequest` ends, with its call. -/
inductive RequestAttempt (rely : World → World → Prop) (text : JsonText) (env : Declarations)
    (type : RequestType) (params : LspValue) (s : World) :
    List CallVisit → Except Crash (Result ℕ) → World → Prop
  | unencoded {f : Failure} (he : encodeParams env type.params params = .failure f) :
      RequestAttempt rely text env type params s [] (.ok (.error f)) s.allocateId
  | asserted (hs : ∀ members, encodeParams env type.params params ≠ .success members)
      (hf : ∀ f, encodeParams env type.params params ≠ .failure f) :
      RequestAttempt rely text env type params s [] (.error .resultUnset) s.allocateId
  | unsent {members : List Member} (he : encodeParams env type.params params = .success members)
      (hn : s.session.sender = none) :
      RequestAttempt rely text env type params s [] (.ok (.error ⟨"no sender set"⟩))
        (s.issue type params (requestMessage s.session.nextRequestId type.method members))
  | sent {members : List Member} {sender : Callback} {r : Result Unit} {t : World}
      (he : encodeParams env type.params params = .success members)
      (hs : s.session.sender = some sender)
      (hu : rely (s.issue type params
        (requestMessage s.session.nextRequestId type.method members)) t) :
      RequestAttempt rely text env type params s
        [⟨.sender sender (text.write (requestMessage s.session.nextRequestId type.method members)),
          s.issue type params (requestMessage s.session.nextRequestId type.method members), r, t⟩]
        (.ok (r.map fun _ => s.promises.length)) t

inductive NotificationAttempt (text : JsonText) (env : Declarations) (type : NotificationType)
    (params : LspValue) (s : World) :
    List CallVisit → Except Crash (Result Unit) → World → Prop
  | unencoded {f : Failure} (he : encodeParams env type.params params = .failure f) :
      NotificationAttempt text env type params s [] (.ok (.error f)) s
  | asserted (hs : ∀ members, encodeParams env type.params params ≠ .success members)
      (hf : ∀ f, encodeParams env type.params params ≠ .failure f) :
      NotificationAttempt text env type params s [] (.error .resultUnset) s
  | unsent {members : List Member} (he : encodeParams env type.params params = .success members)
      (hn : s.session.sender = none) :
      NotificationAttempt text env type params s [] (.ok (.error ⟨"no sender set"⟩)) s
  | sent {members : List Member} {sender : Callback} {r : Result Unit} {t : World}
      (he : encodeParams env type.params params = .success members)
      (hs : s.session.sender = some sender) :
      NotificationAttempt text env type params s
        [⟨.sender sender (text.write (notificationMessage type.method members)), s, r, t⟩]
        (.ok r) t

variable {rely : World → World → Prop} {s t : World} {vs : List CallVisit} {params : LspValue}

theorem run_sendJson_unset {msg : String} (hn : s.session.sender = none) :
    (sendJson msg).run s = (.returned (.error ⟨"no sender set"⟩), s) := by
  simp only [sendJson, run_get_bind, hn, run_pure]

theorem run_check_asserted {α : Type} {r : Outcome α} (hs : ∀ a, r ≠ .success a)
    (hf : ∀ f, r ≠ .failure f) : (check r).run s = (.aborted .resultUnset, s) := by
  cases r with
  | success a => exact absurd rfl (hs a)
  | failure f => exact absurd rfl (hf f)
  | unset => rfl
  | asserted => rfl

section SendRequest

variable {type : RequestType} {o : Except Crash (Result ℕ)}

theorem run_sendRequest_unencoded {f : Failure}
    (he : encodeParams env type.params params = .failure f) :
    (sendRequest text env type params).run s = (.returned (.error f), s.allocateId) := by
  simp only [sendRequest, allocateId, run_modifyGet_bind, he, check, run_pure_bind, run_pure]

theorem run_sendRequest_asserted (hs : ∀ members, encodeParams env type.params params ≠ .success members)
    (hf : ∀ f, encodeParams env type.params params ≠ .failure f) :
    (sendRequest text env type params).run s = (.aborted .resultUnset, s.allocateId) := by
  simp only [sendRequest, allocateId, run_modifyGet_bind]
  rw [run_bind, run_check_asserted hs hf]

/-- What `SendRequest` runs after the handler has been entered. -/
theorem run_sendRequest_encoded {members : List Member}
    (he : encodeParams env type.params params = .success members) :
    (sendRequest text env type params).run s =
      (do
        match ← sendJson (text.write
          (requestMessage s.session.nextRequestId type.method members)) with
        | .error f => return .error f
        | .ok _ => return .ok s.promises.length : Method (Result ℕ)).run
        (s.issue type params (requestMessage s.session.nextRequestId type.method members)) := by
  simp only [sendRequest, allocateId, run_modifyGet_bind, he, check, run_pure_bind, makePromise,
    run_modify_bind]
  rfl

theorem requestAttempt_of_execution
    (h : Execution rely (sendRequest text env type params) s vs o t) :
    RequestAttempt rely text env type params s vs o t := by
  by_cases hs : ∃ members, encodeParams env type.params params = .success members
  · obtain ⟨members, he⟩ := hs
    have hrun : (sendRequest text env type params).run s = _ := run_sendRequest_encoded he
    rw [run_bind] at hrun
    cases hsender : s.session.sender with
    | none =>
      rw [run_sendJson_unset (by exact hsender)] at hrun
      obtain ⟨rfl, rfl, rfl⟩ := returned_of_run h hrun
      exact .unsent he hsender
    | some sender =>
      rw [run_sendJson (by exact hsender) _] at hrun
      obtain ⟨r, v, ws, hu, rfl, hv⟩ := waiting_of_run h hrun
      cases r with
      | error f =>
        obtain ⟨rfl, rfl, rfl⟩ := returned_of_run (a := .error f) hv rfl
        exact .sent he hsender hu
      | ok u =>
        obtain ⟨rfl, rfl, rfl⟩ := returned_of_run (a := .ok s.promises.length) hv rfl
        exact .sent he hsender hu
  · by_cases hf : ∃ f, encodeParams env type.params params = .failure f
    · obtain ⟨f, he⟩ := hf
      obtain ⟨rfl, rfl, rfl⟩ := returned_of_run h (run_sendRequest_unencoded he)
      exact .unencoded he
    · have hs' := fun members hm => hs ⟨members, hm⟩
      have hf' := fun f he => hf ⟨f, he⟩
      obtain ⟨rfl, rfl, rfl⟩ := aborted_of_run h (run_sendRequest_asserted hs' hf')
      exact .asserted hs' hf'

end SendRequest

section SendNotification

variable {type : NotificationType} {o : Except Crash (Result Unit)}

theorem run_sendNotification_asserted
    (hs : ∀ members, encodeParams env type.params params ≠ .success members)
    (hf : ∀ f, encodeParams env type.params params ≠ .failure f) :
    (sendNotification text env type params).run s = (.aborted .resultUnset, s) := by
  unfold sendNotification
  rw [run_bind, run_check_asserted hs hf]

theorem notificationAttempt_of_execution
    (h : Execution rely (sendNotification text env type params) s vs o t) :
    NotificationAttempt text env type params s vs o t := by
  cases he : encodeParams env type.params params with
  | success members =>
    have hrun : (sendNotification text env type params).run s =
        (sendJson (text.write (notificationMessage type.method members))).run s := by
      simp only [sendNotification, he, check, run_pure_bind]
    cases hsender : s.session.sender with
    | none =>
      rw [run_sendJson_unset hsender] at hrun
      obtain ⟨rfl, rfl, rfl⟩ := returned_of_run h hrun
      exact .unsent he hsender
    | some sender =>
      rw [run_sendJson hsender] at hrun
      obtain ⟨r, v, ws, -, rfl, hv⟩ := waiting_of_run h hrun
      obtain ⟨rfl, rfl, rfl⟩ := returned_of_run (a := r) hv rfl
      exact .sent he hsender
  | failure f =>
    have hrun : (sendNotification text env type params).run s = (.returned (.error f), s) := by
      simp only [sendNotification, he, check, run_pure_bind, run_pure]
    obtain ⟨rfl, rfl, rfl⟩ := returned_of_run h hrun
    exact .unencoded he
  | unset | asserted =>
    have hs : ∀ members, encodeParams env type.params params ≠ .success members := by simp [he]
    have hf : ∀ f, encodeParams env type.params params ≠ .failure f := by simp [he]
    obtain ⟨rfl, rfl, rfl⟩ := aborted_of_run h (run_sendNotification_asserted hs hf)
    exact .asserted hs hf

end SendNotification

end Attempts

section Assertions

open Program

def ParamsSet (type : Option LspType) (params : LspValue) : Prop :=
  ∀ t, type = some t → params.AllSet

theorem encodeParams_eq_success_iff {type : Option LspType} {params : LspValue}
    (h : ∀ t, type = some t → HasType env t params) :
    (∃ members, encodeParams env type params = .success members) ↔ ParamsSet type params := by
  cases type with
  | none => exact iff_of_true ⟨[], rfl⟩ fun t ht => by cases ht
  | some t =>
    have hencode := encode_eq_success_iff (h t rfl)
    simp only [encodeParams, Outcome.andThen_eq_success, Outcome.success.injEq]
    constructor
    · intro he u hu
      obtain ⟨_, j, hj, -⟩ := he
      exact hencode.mp ⟨j, hj⟩
    · intro hs
      obtain ⟨j, hj⟩ := hencode.mpr (hs t rfl)
      exact ⟨_, j, hj, rfl⟩

theorem encodeParams_ne_failure {type : Option LspType} {params : LspValue}
    (h : ∀ t, type = some t → HasType env t params) (f : Failure) :
    encodeParams env type params ≠ .failure f := by
  cases type with
  | none => simp [encodeParams]
  | some t => simp [encodeParams, Outcome.andThen_eq_failure, encode_ne_failure (h t rfl)]

/-- `Encode` returns a Result that holds a success or a failure, and no execution of
`SendRequest` or `SendNotification` ends in the assertion of `Result::Validate`, if and
only if every `OneOf` in the value, or in the params, holds a value. -/
theorem encode_valid_iff_allSet (env : Declarations) :
    (∀ t x, HasType env t x →
      (((∃ v, encode env t x = .success v) ∨ ∃ f, encode env t x = .failure f) ↔ x.AllSet)) ∧
    (∀ text (type : RequestType) params rely s,
      (∀ t, type.params = some t → HasType env t params) →
        ((∀ vs o t, Execution rely (sendRequest text env type params) s vs o t →
          o ≠ .error .resultUnset) ↔ ParamsSet type.params params)) ∧
    ∀ text (type : NotificationType) params rely s,
      (∀ t, type.params = some t → HasType env t params) →
        ((∀ vs o t, Execution rely (sendNotification text env type params) s vs o t →
          o ≠ .error .resultUnset) ↔ ParamsSet type.params params) := by
  refine ⟨fun t x h => ?_, fun text type params rely s h => ?_, fun text type params rely s h => ?_⟩
  · have hf : ¬ ∃ f, encode env t x = .failure f := by
      intro hf
      obtain ⟨f, hf⟩ := hf
      exact encode_ne_failure h f hf
    rw [or_iff_left hf]
    exact encode_eq_success_iff h
  · rw [← encodeParams_eq_success_iff h]
    constructor
    · intro hne
      by_contra hs
      have hrun : (sendRequest text env type params).run s = _ :=
        run_sendRequest_asserted (fun m hm => hs ⟨m, hm⟩) (encodeParams_ne_failure h)
      exact hne [] _ _ (execution_of_aborted hrun) rfl
    · intro hs vs o t hx
      obtain ⟨members, hm⟩ := hs
      cases requestAttempt_of_execution hx with
      | asserted hs' hf => exact absurd hm (hs' members)
      | unencoded he => simp
      | unsent he hn => simp
      | sent he hs => simp
  · rw [← encodeParams_eq_success_iff h]
    constructor
    · intro hne
      by_contra hs
      have hrun : (sendNotification text env type params).run s = _ :=
        run_sendNotification_asserted (fun m hm => hs ⟨m, hm⟩) (encodeParams_ne_failure h)
      exact hne [] _ _ (execution_of_aborted hrun) rfl
    · intro hs vs o t hx
      obtain ⟨members, hm⟩ := hs
      cases notificationAttempt_of_execution hx with
      | asserted hs' hf => exact absurd hm (hs' members)
      | unencoded he => simp
      | unsent he hn => simp
      | sent he hs => simp

def progressDeclarations : Declarations := [⟨"ProgressParams", Lsp.progressParams⟩]

def progress : NotificationType := ⟨"$/progress", some (.reference "ProgressParams")⟩

/-- A default-constructed `ProgressParams` holds no token. Its encoding fires the assertion,
and so does sending it. A `OneOf` without a value is encoded as an unset Result. -/
theorem encode_default_progressParams :
    encode progressDeclarations (.oneOf [.integer, .string]) .oneOfEmpty = .unset ∧
      encode progressDeclarations (.reference "ProgressParams")
        (progressDeclarations.default (.reference "ProgressParams")) = .asserted ∧
      (sendNotification ⟨fun _ => "", fun _ => .ok .nullValue⟩ progressDeclarations progress
        (progressDeclarations.default (.reference "ProgressParams"))).run {} =
          (.aborted .resultUnset, {}) :=
  ⟨rfl, rfl, rfl⟩

def progressOf (value : LspValue) : LspValue := .struct [.oneOf 0 (.integer 1), value] []

private theorem progressOf_hasType {value : LspValue}
    (hvalue : HasType progressDeclarations .lspAny value) :
    HasType progressDeclarations (.reference "ProgressParams") (progressOf value) := by
  refine .reference ?_ fun m t y hm => ?_
  · simp [progressDeclarations, Declarations.find, Lsp.progressParams, progressOf,
      Lsp.Structure.Shaped, Lsp.Structure.MembersShaped, Lsp.Structure.MemberShaped,
      Lsp.Structure.BasesShaped]
  · have hslots : (progressDeclarations.find "ProgressParams").slots (progressOf value) =
      [("token", .value (.oneOf [.integer, .string]) (.oneOf 0 (.integer 1))),
        ("value", .value .lspAny value)] := rfl
    simp only [hslots, List.mem_cons, Prod.mk.injEq, Lsp.Slot.value.injEq, List.not_mem_nil,
      or_false] at hm
    rcases hm with ⟨-, rfl, rfl⟩ | ⟨-, rfl, rfl⟩
    · exact .oneOf (t := .integer) rfl (.integer 1)
    · exact hvalue

/-- The progress is encoded, and sent without the assertion, if its value is set. -/
theorem encode_valid_iff_allSet_progress :
    ((∃ v, encode progressDeclarations (.reference "ProgressParams")
        (progressOf (.oneOf 7 .null)) = .success v) ∧
      ∀ text rely s vs o t, Execution rely (sendNotification text progressDeclarations progress
        (progressOf (.oneOf 7 .null))) s vs o t → o ≠ .error .resultUnset) ∧
    ¬ ((∃ v, encode progressDeclarations (.reference "ProgressParams")
        (progressOf .oneOfEmpty) = .success v) ∨
      ∃ f, encode progressDeclarations (.reference "ProgressParams")
        (progressOf .oneOfEmpty) = .failure f) := by
  have hset : (progressOf (.oneOf 7 .null)).AllSet := by
    simp [progressOf, LspValue.AllSet, LspValue.AllSetList]
  have hunset : ¬ (progressOf .oneOfEmpty).AllSet := by
    simp [progressOf, LspValue.AllSet, LspValue.AllSetList]
  have hnull := progressOf_hasType (.lspAny (k := 7) (t := .null) rfl .null)
  obtain ⟨hencode, -, hsend⟩ := encode_valid_iff_allSet progressDeclarations
  refine ⟨⟨⟨_, rfl⟩, fun text rely s => ?_⟩, fun h => hunset ?_⟩
  · refine (hsend text progress _ rely s fun t ht => ?_).mpr fun t _ => hset
    cases ht
    exact hnull
  · exact (hencode _ _ (progressOf_hasType .lspAnyEmpty)).mp h

end Assertions

end Langsvr.Session
