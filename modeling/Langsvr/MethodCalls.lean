import Langsvr.CallBounds
import Langsvr.ReceiveBranches

/-!
# The calls of the methods of a session

How often a method of a session calls the user when it sends: at most once for a request
or a notification, and at most twice for a response, with what is to be done after sending.
-/

namespace Langsvr

open Json (Value)
open Lsp (LspValue Declarations)
open Program (CallsAtMost)

namespace Session

variable (text : JsonText) (env : Declarations)

theorem check_calls {α : Type} (o : Outcome α) : CallsAtMost 0 (check o) := by
  cases o with
  | success a => exact .pure _
  | failure f => exact .pure _
  | unset => exact .abort _
  | asserted => exact .abort _

theorem sendJson_calls (msg : String) : CallsAtMost 1 (sendJson msg) := by
  apply CallsAtMost.get.after
  intro world
  cases world.session.sender with
  | none => exact .pure _
  | some sender => exact .request _

/-- A request is sent with one call, which is the last thing that `SendRequest` does. -/
theorem sendRequest_calls (type : RequestType) (params : LspValue) :
    CallsAtMost 1 (sendRequest text env type params) := by
  apply (CallsAtMost.modifyGet _).after
  intro id
  apply (check_calls _).after
  intro r
  cases r with
  | error f => exact .pure _
  | ok members =>
    apply (CallsAtMost.modifyGet _).after
    intro promise
    apply (CallsAtMost.modify _).after
    intro _
    refine (sendJson_calls _).bind (l := 0) fun r => ?_
    cases r <;> exact .pure _

theorem sendNotification_calls (type : NotificationType) (params : LspValue) :
    CallsAtMost 1 (sendNotification text env type params) := by
  apply (check_calls _).after
  intro r
  cases r with
  | error f => exact .pure _
  | ok members => exact sendJson_calls _

theorem sendResponse_calls (method : String) (id : Int64) (r : Result Json.Member) :
    CallsAtMost 2 (sendResponse text method id r) := by
  cases r with
  | error f => exact .pure _
  | ok member =>
    refine (sendJson_calls _).bind (l := 1) fun r => ?_
    cases r with
    | error f => exact .pure _
    | ok _ =>
      apply CallsAtMost.get.after
      intro world
      cases world.session.postSend method with
      | none => exact .pure _
      | some callback => exact (CallsAtMost.request _).bind (l := 0) fun _ => .pure _

theorem answer_calls (method : String) (id : Int64) (type : RequestType) (reply : Reply) :
    CallsAtMost 2 (answer text env method id type reply) :=
  (check_calls _).after (sendResponse_calls text method id)

end Session

end Langsvr
