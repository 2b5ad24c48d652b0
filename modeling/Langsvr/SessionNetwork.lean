import Langsvr.DecodingRules
import Langsvr.PendingRequests
import Mathlib.Logic.Function.Basic

/-!
# Two sessions and the messages between them

What a session gives to its sender is in flight from then on, also before the sender has
returned. A message in flight is delivered at any time and at most once. What a message is
about is recorded with it, and with what is done for it. Neither session reads that record.
-/

namespace Langsvr

open Json (Value Member)
open Lsp (LspValue Declarations decodeNew)
open Session (Operation)

inductive Side where
  | client | server
  deriving DecidableEq

def Side.peer : Side → Side
  | .client => .server
  | .server => .client

@[simp] theorem Side.peer_peer (side : Side) : side.peer.peer = side := by
  cases side <;> rfl

/-- What a message is about, or what is done for it. -/
inductive Task where
  | request (id : Int64) (type : RequestType) (params : LspValue)
  | notification (type : NotificationType) (params : LspValue)
  /-- The request is with its handler. -/
  | serve (id : Int64) (type : RequestType) (params : LspValue)
  | response (id : Int64) (type : RequestType) (params : LspValue) (reply : Reply)
  | other

/-- What the receiver of a message does for it. -/
def Task.received : Task → Task
  | .request id type params => .serve id type params
  | _ => .other

def Task.ofOperation (w : World) : Operation → Task
  | .sendRequest type params => .request w.session.nextRequestId type params
  | .sendNotification type params => .notification type params
  | _ => .other

structure Packet where
  receiver : Side
  task : Task
  text : String

/-- A method of a session that waits for user code. -/
structure Activity where
  side : Side
  task : Task
  frame : Program.Frame World Crash Call Call.Answer Unit

/-- A request handler has returned a reply to a request of the issuer. -/
structure Handling where
  issuer : Side
  id : Int64
  params : Option LspValue
  reply : Reply

structure Network where
  world : Side → World
  wire : List Packet := []
  activities : List Activity := []
  handled : List Handling := []
  aborted : Option Crash := none

namespace Network

/-- The packet for a call of the sender. -/
def packets (side : Side) (task : Task) : Call → List Packet
  | .sender _ msg => [⟨side.peer, task, msg⟩]
  | _ => []

/-- The network after a method of one side has run to where it stops. -/
def settle (n : Network) (side : Side) (task : Task) :
    Program.Stop World Crash Call Call.Answer Unit × World → Network
  | (.returned _, w) => { n with world := Function.update n.world side w }
  | (.aborted e, w) => { n with world := Function.update n.world side w, aborted := some e }
  | (.waiting c next, w) => { n with
      world := Function.update n.world side w
      wire := packets side task c ++ n.wire
      activities := ⟨side, task, ⟨c, next⟩⟩ :: n.activities }

section Survival

variable (text : JsonText) (env : Declarations)

structure ReadsBack (message object : Value) : Prop where
  parse : text.parse (text.write message) = .ok object
  same : message.Same object

def ParamsSurvive (type : Option Lsp.LspType) (params : LspValue)
    (message : List Member → Value) : Prop :=
  ∃ members object, Session.encodeParams env type params = .success members ∧
    ReadsBack text (message members) object ∧
      ∀ t v, type = some t → object.get "params" = .ok v → decodeNew env t v = .ok params

def ReplySurvives (id : Int64) (type : RequestType) (reply : Reply) : Prop :=
  ∃ member object, Session.encodeReply env type reply = .success member ∧
    ReadsBack text (Session.responseMessage id member) object ∧
      match reply with
      | .success x => ∀ v, object.get "result" = .ok v → decodeNew env type.success v = .ok x
      | .failure x => ∀ t v, type.failure = some t → object.get "error" = .ok v →
          decodeNew env t v = .ok x

end Survival

/-- The side has a handler of this type for its method. -/
def HasRequestHandler (w : World) (type : RequestType) : Prop :=
  ∃ handler, List.lookup type.method w.session.requestHandlers = some handler ∧
    handler.type = type

def HasNotificationHandler (w : World) (type : NotificationType) : Prop :=
  ∃ handler, List.lookup type.method w.session.notificationHandlers = some handler ∧
    handler.type = type

/-- What the two sides do: they send what the other has a handler for and what survives,
they do not use up their ids, they keep a sender, and they register one type for each
method. -/
def Allows (text : JsonText) (env : Declarations) (n : Network) (side : Side) : Operation → Prop
  | .receive _ => False
  | .sendRequest type params => HasRequestHandler (n.world side.peer) type ∧
      ParamsSurvive text env type.params params
        (Session.requestMessage (n.world side).session.nextRequestId type.method) ∧
      (n.world side).allocatedIds.length + 1 < 2 ^ 63 - 1
  | .sendNotification type params => HasNotificationHandler (n.world side.peer) type ∧
      ParamsSurvive text env type.params params (Session.notificationMessage type.method)
  | .setSender sender => sender.isSome
  | .registerRequest type _ => ∀ handler,
      List.lookup type.method (n.world side).session.requestHandlers = some handler →
        handler.type = type
  | .registerNotification type _ => ∀ handler,
      List.lookup type.method (n.world side).session.notificationHandlers =
        some handler → handler.type = type
  | .onPostSend _ _ => True

/-- Senders report success. The replies of request handlers have a step of their own. -/
def Reports : (c : Call) → c.Answer → Prop
  | .sender _ _, r => r = (.ok () : Result Unit)
  | .request _ _, _ => False
  | .notification _ _, _ => True
  | .postSend _, _ => True

/-- A session is used, a message is delivered, a request handler returns, or another call
returns. -/
inductive Step (text : JsonText) (env : Declarations) : Network → Network → Prop
  | operate {n : Network} (side : Side) (op : Operation) (ha : n.aborted = none)
      (hop : n.Allows text env side op) :
      Step text env n
        (n.settle side (.ofOperation (n.world side) op) ((op.program text env).run (n.world side)))
  | deliver {n : Network} (ps qs : List Packet) {p : Packet} (ha : n.aborted = none)
      (hp : n.wire = ps ++ p :: qs) :
      Step text env n (settle { n with wire := ps ++ qs } p.receiver p.task.received
        (((Operation.receive p.text).program text env).run (n.world p.receiver)))
  | reply {n : Network} (as bs : List Activity) {side : Side} {id : Int64} {type : RequestType}
      {params : LspValue} {callback : Callback} {given : Option LspValue}
      {next : Reply → Method Unit} (reply : Reply) (ha : n.aborted = none)
      (hactivity : n.activities =
        as ++ ⟨side, .serve id type params, ⟨.request callback given, next⟩⟩ :: bs)
      (hsurvives : ReplySurvives text env id type reply) :
      Step text env n (settle { n with
          activities := as ++ bs, handled := ⟨side.peer, id, given, reply⟩ :: n.handled }
        side (.response id type params reply) ((next reply).run (n.world side)))
  | resume {n : Network} (as bs : List Activity) {a : Activity} (r : a.frame.call.Answer)
      (ha : n.aborted = none) (hactivity : n.activities = as ++ a :: bs)
      (hr : Reports a.frame.call r) :
      Step text env n (settle { n with activities := as ++ bs } a.side a.task
        ((a.frame.next r).run (n.world a.side)))

def initial (sender : Side → Callback) : Network where
  world side := { session := { sender := some (sender side) } }

def Reachable (text : JsonText) (env : Declarations) (sender : Side → Callback)
    (n : Network) : Prop :=
  Relation.ReflTransGen (Step text env) (initial sender) n

end Network

end Langsvr
