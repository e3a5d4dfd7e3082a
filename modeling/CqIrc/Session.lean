import CqIrc.Lexer
import CqIrc.Machine.Runs
import CqIrc.Stream.Delimited

/-! `irc-client.cpp`: a session and its part of the service. An operation is started,
completes at some later time by queueing its handler, and one thread runs the queued
handlers in order. Inside a handler the statements behind a started operation are
steps of their own, so that the completion may come between them. A socket is `reset`
when the peer has torn the connection down; it is open then, and not connected. -/

namespace CqIrc

inductive ErrorCode where
  | success
  | eof
  | operationAborted
  | badDescriptor
  | other
  deriving DecidableEq, Repr

inductive Socket where
  | closed
  | opened
  | connected
  | reset
  deriving DecidableEq, Repr

inductive Operation where
  | resolve
  | connect
  | read
  deriving DecidableEq, Repr

inductive Task where
  | onResolve (error : ErrorCode)
  | onConnect (error : ErrorCode)
  | onRead (error : ErrorCode) (msgSize : Nat)
  | threadParse (buf : Bytes)
  deriving DecidableEq, Repr

/-- Where the thread stands: in `on_connect` or `on_read` before it starts the next read,
or in `on_read` behind that and before it posts the parse. -/
inductive Frame where
  | idle
  | onConnect
  | onRead (buf : Bytes)
  | posting (buf : Bytes)
  deriving DecidableEq, Repr

inductive Incoming where
  | data (chunk : Bytes)
  | eof
  | error
  deriving DecidableEq, Repr

inductive Event where
  | signalConnect
  | signalDisconnect
  | parse (buf : Bytes)
  | shutdownThrew
  deriving DecidableEq, Repr

inductive SessionFault where
  | useAfterFree
  | uninitialisedCallbacks
  | nullCall
  | badArrayLength
  deriving DecidableEq, Repr

/-- `table` is what the application passes to `cq_irc_session_connect`, `callbacks` the
struct of the session, which is uninitialised at first; `destroys` tells whether
`signal_disconnect` calls `cq_irc_session_destroy`, and `wire` is what the peer still sends. -/
structure Session where
  table : Callbacks
  destroys : Bool
  alive : Bool
  callbacks : Option Callbacks
  socket : Socket
  input : Bytes
  op : Option Operation
  queue : List Task
  frame : Frame
  wire : List Incoming
  events : List Event
  fault : Option SessionFault
  deriving DecidableEq, Repr

def bufSize (msgSize : Nat) : Int := (BitVec.ofNat 32 (msgSize + 2)).toInt

/-- The zero-filled array after `buffer_copy`; `none` if its length is negative. -/
def readBuffer (input : Bytes) (msgSize : Nat) : Option Bytes :=
  let size := bufSize msgSize
  if size < 0 then none
  else
    let text := input.take (min msgSize size.toNat)
    some (text ++ List.replicate (size.toNat - text.length) nul)

def delimiter : Bytes := [cr, lf]

namespace Session

def signal (s : Session) (f : Signal) (e : Event) : Session :=
  match s.callbacks with
  | none => { s with fault := some .uninitialisedCallbacks }
  | some cb =>
    { s with events := s.events ++ [e], fault := if cb.has f then none else some .nullCall }

def aborted : Operation → Task
  | .resolve => .onResolve .operationAborted
  | .connect => .onConnect .operationAborted
  | .read => .onRead .operationAborted 0

def abort (s : Session) : Session :=
  match s.op with
  | none => s
  | some op => { s with op := none, queue := s.queue ++ [aborted op] }

def destroy (s : Session) : Session := { s.abort with alive := false, socket := .closed }

/-- Whether `shutdown` returns. While a connect is pending it is up to the system, and to
whether the peer has already refused: `pending` tells. -/
def shuts (s : Session) (pending : Bool) : Bool :=
  match s.socket with
  | .connected => true
  | .opened => pending && decide (s.op = some .connect)
  | .closed | .reset => false

def disconnect (s : Session) (pending : Bool) : Session :=
  if s.shuts pending then { s.abort with socket := .closed }
  else { s with events := s.events ++ [.shutdownThrew] }

/-- The application disconnects when the next chunk of the read is already queued. There is
no delimiter in it, so its handler reads on, from the closed socket. -/
def disconnectBehind (s : Session) : Option Session :=
  match s.wire with
  | .data chunk :: wire =>
    if Stream.cut delimiter [] (s.input ++ chunk) = none then
      some { s with
        input := s.input ++ chunk, wire := wire, socket := .closed, op := none,
        queue := s.queue ++ [.onRead .badDescriptor 0] }
    else none
  | _ => none

def signalDisconnect (s : Session) : Session :=
  let s := s.signal .disconnect .signalDisconnect
  if s.destroys = true ∧ s.fault = none then s.destroy else s

def asyncReadUntil (s : Session) : Session :=
  if s.socket = .closed then { s with queue := s.queue ++ [.onRead .badDescriptor 0] }
  else { s with op := some .read }

def readMessage (s : Session) (msgSize : Nat) : Session :=
  match readBuffer s.input msgSize with
  | none => { s with fault := some .badArrayLength }
  | some buf => { s with input := s.input.drop msgSize, frame := .onRead buf }

def onRead (s : Session) (msgSize : Nat) : ErrorCode → Session
  | .eof => s.signalDisconnect
  | .operationAborted => if s.socket = .closed then s.signalDisconnect else s.readMessage msgSize
  | .success => s.readMessage msgSize
  | .badDescriptor | .other => s

def onConnect (s : Session) : ErrorCode → Session
  | .success => { s.signal .connect .signalConnect with frame := .onConnect }
  | _ => s

/-- The code that `async_connect` hands to its handler: when its completion is run, it looks
at the socket first. -/
def connectOp (s : Session) (error : ErrorCode) : ErrorCode :=
  if s.socket = .closed then .operationAborted else error

def onResolve (s : Session) : ErrorCode → Session
  | .success => { s with socket := .opened, op := some .connect }
  | _ => s

def threadParse (s : Session) (buf : Bytes) : Session :=
  match s.callbacks with
  | none => { s with fault := some .uninitialisedCallbacks }
  | some _ => { s with events := s.events ++ [.parse buf] }

def runTask (s : Session) : Task → Session
  | .onResolve error => s.onResolve error
  | .onConnect error => s.onConnect (s.connectOp error)
  | .onRead error msgSize => s.onRead msgSize error
  | .threadParse buf => s.threadParse buf

/-- What can happen next: a statement of the application, a completion, a reset that no read
has come to yet, or the next statement of the thread in `cq_irc_service_attach`. -/
inductive Act where
  | copyCallbacks
  | resolved (ok : Bool)
  | connected (ok : Bool)
  | reset
  | receive
  | complete
  | dispatch
  | proceed
  | disconnect (pending : Bool)
  | disconnectBehind
  deriving DecidableEq, Repr

def Act.disconnects : Act → Bool
  | disconnect _ | disconnectBehind => true
  | _ => false

def receive (s : Session) : Option Session :=
  match s.wire with
  | [] => none
  | .data chunk :: wire => some { s with input := s.input ++ chunk, wire := wire }
  | .eof :: wire =>
    some { s with op := none, queue := s.queue ++ [.onRead .eof 0], wire := wire }
  | .error :: wire =>
    some { s with
      op := none, queue := s.queue ++ [.onRead .other 0], wire := wire, socket := .reset }

def proceed (s : Session) : Option Session :=
  match s.frame with
  | .idle => none
  | .onConnect => some { s.asyncReadUntil with frame := .idle }
  | .onRead buf => some { s.asyncReadUntil with frame := .posting buf }
  | .posting buf => some { s with queue := s.queue ++ [.threadParse buf], frame := .idle }

def dispatch (s : Session) : Option Session :=
  match s.frame, s.queue with
  | .idle, task :: queue =>
    let s := { s with queue := queue }
    some (if s.alive then s.runTask task else { s with fault := some .useAfterFree })
  | _, _ => none

def code (ok : Bool) : ErrorCode := if ok then .success else .other

def act (s : Session) : Act → Option Session
  | .copyCallbacks =>
    if s.callbacks = none then some { s with callbacks := some s.table } else none
  | .resolved ok =>
    if s.op = some .resolve then
      some { s with op := none, queue := s.queue ++ [.onResolve (code ok)] }
    else none
  | .connected ok =>
    if s.op = some .connect then
      some { s with
        op := none, queue := s.queue ++ [.onConnect (code ok)],
        socket := if ok then .connected else s.socket }
    else none
  | .reset =>
    if s.socket = .connected ∧ .error ∈ s.wire then some { s with socket := .reset } else none
  | .receive =>
    if s.op = some .read ∧ Stream.cut delimiter [] s.input = none then s.receive else none
  | .complete =>
    if s.op = some .read then
      (Stream.cut delimiter [] s.input).map fun x =>
        { s with op := none, queue := s.queue ++ [.onRead .success x.1.length] }
    else none
  | .dispatch => s.dispatch
  | .proceed => s.proceed
  | .disconnect pending =>
    if s.alive = true ∧ s.callbacks ≠ none then some (s.disconnect pending) else none
  | .disconnectBehind =>
    if (s.alive = true ∧ s.callbacks ≠ none) ∧ s.socket = .connected ∧ s.op = some .read ∧
        Stream.cut delimiter [] s.input = none then
      s.disconnectBehind
    else none

def step (a : Act) (s : Session) : Option Session := if s.fault = none then s.act a else none

/-- `cq_irc_session_connect` has just called `async_resolve`. -/
def fresh (table : Callbacks) (destroys : Bool) (wire : List Incoming) : Session :=
  ⟨table, destroys, true, none, .closed, [], some .resolve, [], .idle, wire, [], none⟩

end Session
end CqIrc
