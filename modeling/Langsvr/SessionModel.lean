import Langsvr.Decoding
import Langsvr.Encoding
import Langsvr.ReentrantPrograms

/-!
# Sessions

The class `Session`: its state and its methods. The methods call the sender and the
registered handlers, which may call the methods again, so each method is a program over
the state. A function object is a number that identifies it. The texts of JSON values are
made and read by an external library, which is a parameter.
-/

namespace Langsvr

open Json (Value Member)
open Lsp (LspType LspValue Declarations)

/-- `Value::Json` and `Builder::Parse`. -/
structure JsonText where
  write : Value → String
  parse : String → Result Value

/-- A request of the protocol: its method, its params, the type of its result, and the
type of its error data, if there is one. -/
structure RequestType where
  method : String
  params : Option LspType
  success : LspType
  failure : Option LspType

structure NotificationType where
  method : String
  params : Option LspType

/-- What a request handler returns, and what a promise is set to. -/
inductive Reply where
  | success (value : LspValue)
  | failure (value : LspValue)

/-- A function object of the user. -/
abbrev Callback := ℕ

inductive Call where
  | sender (sender : Callback) (msg : String)
  | request (callback : Callback) (params : Option LspValue)
  | notification (callback : Callback) (params : Option LspValue)
  | postSend (callback : Callback)

def Call.Answer : Call → Type
  | .sender _ _ | .notification _ _ => Result Unit
  | .request _ _ => Reply
  | .postSend _ => Unit

/-- An entry of `request_handlers_`. The function is made from the type of the message and
the callback. -/
structure RequestHandler where
  type : RequestType
  callback : Callback
  postSend : Option Callback

structure NotificationHandler where
  type : NotificationType
  callback : Callback

/-- An entry of `response_handlers_`. The function is made from the captured promise and
the types of the request. -/
structure ResponseHandler where
  promise : ℕ
  success : LspType
  failure : Option LspType

instance int64LinearOrder : LinearOrder Int64 where
  le_refl := Int64.le_refl
  le_trans _ _ _ := Int64.le_trans
  le_antisymm _ _ := Int64.le_antisymm
  le_total := Int64.le_total
  lt_iff_le_not_ge a b := by
    rw [Int64.not_le]
    exact ⟨fun h => ⟨Int64.le_of_lt h, h⟩, fun h => h.2⟩
  toDecidableLE := inferInstance
  toDecidableEq := inferInstance

structure Session where
  sender : Option Callback := none
  requestHandlers : List (String × RequestHandler) := []
  notificationHandlers : List (String × NotificationHandler) := []
  responseHandlers : List (Int64 × ResponseHandler) := []
  nextRequestId : Int64 := 1

def Session.postSend (session : Session) (method : String) : Option Callback :=
  (List.lookup method session.requestHandlers).bind RequestHandler.postSend

/-- What has happened to the requests of a session. No method reads it. -/
inductive Event where
  /-- `SendRequest` has taken an id. -/
  | allocated (id : Int64)
  /-- A handler has been entered for the message of a request, which is about to be sent. -/
  | issued (id : Int64) (promise : ℕ) (type : RequestType) (params : LspValue) (message : Value)
  /-- The handler has been taken out for a response, and is about to run. -/
  | invoked (promise : ℕ) (response : Value)
  /-- `set_value` has been called on the promise. -/
  | settled (promise : ℕ) (value : Reply)

/-- A session with the promises that it has made and its history, the newest event
first. -/
structure World where
  session : Session := {}
  promises : List (Option Reply) := []
  history : List Event := []

namespace World

variable (w : World)

/-- `next_request_id_++`. -/
def allocateId : World := { w with
  session := { w.session with nextRequestId := w.session.nextRequestId + 1 }
  history := .allocated w.session.nextRequestId :: w.history }

/-- `std::make_shared<std::promise>`. -/
def makePromise : World := { w with promises := w.promises ++ [none] }

/-- `response_handlers_.emplace`, which keeps an entry that is already there. -/
def emplaceHandler (id : Int64) (promise : ℕ) (type : RequestType) (params : LspValue)
    (message : Value) : World := { w with
  session := { w.session with
    responseHandlers :=
      match List.lookup id w.session.responseHandlers with
      | none => OrderedEntries.assign id ⟨promise, type.success, type.failure⟩
          w.session.responseHandlers
      | some _ => w.session.responseHandlers }
  history := .issued id promise type params message :: w.history }

def takeHandler (id : Int64) (handler : ResponseHandler) (response : Value) : World := { w with
  session := { w.session with
    responseHandlers := OrderedEntries.remove id w.session.responseHandlers }
  history := .invoked handler.promise response :: w.history }

def setValue (promise : ℕ) (value : Reply) : World := { w with
  promises := w.promises.set promise (some value)
  history := .settled promise value :: w.history }

end World

/-- What ends the process: the assertion of `Result::Validate`, or the exception of a
second `set_value`. -/
inductive Crash where
  | resultUnset
  | promiseAlreadySatisfied
  deriving DecidableEq

abbrev Method (α : Type) := Program World Crash Call Call.Answer α

namespace Session

variable (text : JsonText) (env : Declarations)

/-- A Result that is returned early if it is a failure. -/
def check {α : Type} : Outcome α → Method (Result α)
  | .success a => return .ok a
  | .failure f => return .error f
  | .unset | .asserted => .abort .resultUnset

def sendJson (msg : String) : Method (Result Unit) := do
  let world ← Program.get
  match world.session.sender with
  | none => return .error ⟨"no sender set"⟩
  | some sender => Program.request (Call.sender sender msg)

section Requests

def allocateId : Method Int64 :=
  Program.modifyGet fun world => (world.session.nextRequestId, world.allocateId)

def makePromise : Method ℕ :=
  Program.modifyGet fun world => (world.promises.length, world.makePromise)

/-- A second `set_value` on a promise throws. -/
def setValue (promise : ℕ) (value : Reply) : Method Unit := do
  let world ← Program.get
  match world.promises[promise]? with
  | some none => Program.modify fun world => world.setValue promise value
  | _ => .abort .promiseAlreadySatisfied

/-- The member for the params of a message, if its type has any. -/
def encodeParams (type : Option LspType) (params : LspValue) : Outcome (List Member) :=
  match type with
  | none => .success []
  | some t => (Lsp.encode env t params).andThen fun v => .success [("params", v)]

def requestMessage (id : Int64) (method : String) (params : List Member) : Value :=
  Json.Builder.object ([("jsonrpc", .stringValue "2.0"), ("id", .intValue id),
    ("method", .stringValue method)] ++ params)

/-- The result is the promise of which the future is returned. -/
def sendRequest (type : RequestType) (params : LspValue) : Method (Result ℕ) := do
  let id ← allocateId
  match ← check (encodeParams env type.params params) with
  | .error f => return .error f
  | .ok members =>
    let message := requestMessage id type.method members
    let promise ← makePromise
    Program.modify fun world => world.emplaceHandler id promise type params message
    match ← sendJson (text.write message) with
    | .error f => return .error f
    | .ok _ => return .ok promise

end Requests

def notificationMessage (method : String) (params : List Member) : Value :=
  Json.Builder.object ([("jsonrpc", .stringValue "2.0"), ("method", .stringValue method)] ++ params)

def sendNotification (type : NotificationType) (params : LspValue) : Method (Result Unit) := do
  match ← check (encodeParams env type.params params) with
  | .error f => return .error f
  | .ok members => sendJson (text.write (notificationMessage type.method members))

section Receive

def decodeParams (type : Option LspType) (object : Value) : Result (Option LspValue) :=
  match type with
  | none => .ok none
  | some t => do
    let params ← object.get "params"
    let request ← Lsp.decode env t params (env.default t)
    return some request

/-- The member for the reply of a request handler. A handler of a request without error
data cannot return a failure. -/
def encodeReply (type : RequestType) : Reply → Outcome Member
  | .success x => (Lsp.encode env type.success x).andThen fun v => .success ("result", v)
  | .failure x =>
    match type.failure with
    | some t => (Lsp.encode env t x).andThen fun v => .success ("error", v)
    | none => .unset

/-- The function of a request handler. -/
def callRequestHandler (handler : RequestHandler) (object : Value) : Method (Result Member) := do
  match decodeParams env handler.type.params object with
  | .error f => return .error f
  | .ok params =>
    let reply ← Program.request (Call.request handler.callback params)
    check (encodeReply env handler.type reply)

/-- The function of a notification handler. -/
def callNotificationHandler (handler : NotificationHandler) (object : Value) :
    Method (Result Unit) := do
  match decodeParams env handler.type.params object with
  | .error f => return .error f
  | .ok params => Program.request (Call.notification handler.callback params)

/-- The value that a response handler sets, or the failure that it returns. -/
def readResponse (handler : ResponseHandler) (response : Value) : Result Reply :=
  match response.get "result" with
  | .ok result => do
    let x ← Lsp.decode env handler.success result (env.default handler.success)
    return .success x
  | .error _ =>
    match handler.failure with
    | none => .error ⟨"response missing 'result'"⟩
    | some t => do
      let error ← response.get "error"
      let x ← Lsp.decode env t error (env.default t)
      return .failure x

def callResponseHandler (handler : ResponseHandler) (response : Value) : Method (Result Unit) := do
  match readResponse env handler response with
  | .error f => return .error f
  | .ok value => do
    setValue handler.promise value
    return .ok ()

def takeHandler (id : Int64) (response : Value) : Method (Option ResponseHandler) :=
  Program.modifyGet fun world =>
    match List.lookup id world.session.responseHandlers with
    | none => (none, world)
    | some handler => (some handler, world.takeHandler id handler response)

def receiveResponse (object : Value) : Method (Result Unit) := do
  match object.getI64 "id" with
  | .error f => return .error f
  | .ok id =>
    match ← takeHandler id object with
    | none =>
      return .error ⟨"received response for unknown request with ID " ++ toString id.toInt⟩
    | some handler => callResponseHandler env handler object

def responseMessage (id : Int64) (member : Member) : Value :=
  Json.Builder.object [("id", .intValue id), ("jsonrpc", .stringValue "2.0"), member]

/-- The rest of the request branch, once the handler has returned a member. -/
def sendResponse (method : String) (id : Int64) : Result Member → Method (Result Unit)
  | .error f => return .error f
  | .ok member => do
    match ← sendJson (text.write (responseMessage id member)) with
    | .error f => return .error f
    | .ok _ =>
      -- the reference to the entry sees what its `post_send` is now
      let world ← Program.get
      match world.session.postSend method with
      | none => return .ok ()
      | some callback => do
        let _ ← Program.request (Call.postSend callback)
        return .ok ()

def receiveRequest (method : String) (object : Value) : Method (Result Unit) := do
  match object.getI64 "id" with
  | .error f => return .error f
  | .ok id =>
    let world ← Program.get
    match List.lookup method world.session.requestHandlers with
    | none => return .error ⟨"no handler registered for request method '" ++ method ++ "'"⟩
    | some handler => sendResponse text method id (← callRequestHandler env handler object)

def receiveNotification (method : String) (object : Value) : Method (Result Unit) := do
  let world ← Program.get
  match List.lookup method world.session.notificationHandlers with
  | none => return .error ⟨"no handler registered for request method '" ++ method ++ "'"⟩
  | some handler => callNotificationHandler env handler object

def receive (json : String) : Method (Result Unit) := do
  match text.parse json with
  | .error f => return .error f
  | .ok object =>
    match object.getString "method" with
    | .error _ => receiveResponse env object
    | .ok method =>
      if object.has "id" then receiveRequest text env method object
      else receiveNotification env method object

end Receive

section Registration

def setSender (sender : Option Callback) : Method Unit :=
  Program.modify fun world => { world with session := { world.session with sender := sender } }

/-- `Register` for a request. An entry that is already there keeps its `post_send`. -/
def registerRequest (type : RequestType) (callback : Callback) : Method Unit :=
  Program.modify fun world =>
    let handler := ⟨type, callback, world.session.postSend type.method⟩
    { world with session := { world.session with
        requestHandlers :=
          OrderedEntries.assign type.method handler world.session.requestHandlers } }

def registerNotification (type : NotificationType) (callback : Callback) : Method Unit :=
  Program.modify fun world => { world with session := { world.session with
    notificationHandlers :=
      OrderedEntries.assign type.method ⟨type, callback⟩ world.session.notificationHandlers } }

/-- `OnPostSend` on the handler that `Register` has returned for a method. -/
def onPostSend (method : String) (callback : Option Callback) : Method Unit :=
  Program.modify fun world =>
    match List.lookup method world.session.requestHandlers with
    | none => world
    | some handler => { world with session := { world.session with
        requestHandlers := OrderedEntries.assign method { handler with postSend := callback }
          world.session.requestHandlers } }

end Registration

/-- The calls that user code can make on a session. -/
inductive Operation where
  | receive (json : String)
  | sendRequest (type : RequestType) (params : LspValue)
  | sendNotification (type : NotificationType) (params : LspValue)
  | setSender (sender : Option Callback)
  | registerRequest (type : RequestType) (callback : Callback)
  | registerNotification (type : NotificationType) (callback : Callback)
  | onPostSend (method : String) (callback : Option Callback)

/-- The program of an operation. Its result is of no further use to a run. -/
def Operation.program : Operation → Method Unit
  | .receive json => do let _ ← Session.receive text env json
  | .sendRequest type params => do let _ ← Session.sendRequest text env type params
  | .sendNotification type params => do let _ ← Session.sendNotification text env type params
  | .setSender sender => Session.setSender sender
  | .registerRequest type callback => Session.registerRequest type callback
  | .registerNotification type callback => Session.registerNotification type callback
  | .onPostSend method callback => Session.onPostSend method callback

end Session

end Langsvr
