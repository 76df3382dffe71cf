import ContextStore.Daemon.Framing
import ContextStore.Foundation.Totals
import ContextStore.Foundation.Transitions

/-! # Frame intake

What a connection holds of its input is counted three times over: in the counters of the three
places a byte can be in (the unfinished frame, the queued frames, the frame being handled), in the
connection's own total, and in the total of the daemon. A handler of an event reads and writes the
state of one connection and the daemon's total, which together are a `Desk`. -/

namespace ContextStore.Intake

open Framing

/-- `positiveLimit(…)` of the constructor -/
structure Limits where
  maxFrameBytes : Nat
  maxConnectionBufferedFrameBytes : Nat
  maxBufferedFrameBytes : Nat
  maxQueuedInputBytes : Nat

def Limits.pauseQueuedInputBytes (limits : Limits) : Nat := max 1 (limits.maxQueuedInputBytes / 2)

def Limits.resumeQueuedInputBytes (limits : Limits) : Nat := limits.pauseQueuedInputBytes / 2

structure CodedError where
  code : String
  message : String

/-- The frame a terminated connection ends with. -/
inductive Rejection where
  | handshakeRejected (error : CodedError)
  | errorResponse (error : CodedError)

/-- `releaseBufferedFrameBytes` throws when more is given back than was taken. -/
inductive RangeError where
  | underflow

/-- `received`, `dispatched` and `completed` are not in the source: they record what the
connection was given, the lines handed to `handleLine` and how many of them it is done with. -/
structure ConnectionState where
  framer : LineFramer
  handshaken : Bool := false
  pendingLines : List Buffer := []
  queuedBytes : Int := 0
  pendingFrameBytes : Int := 0
  activeFrameBytes : Int := 0
  partialFrameBytes : Int := 0
  bufferedFrameBytes : Int := 0
  processing : Bool := false
  pausedForQueue : Bool := false
  paused : Bool := false
  closing : Bool := false
  closed : Bool := false
  destroyed : Bool := false
  terminal : Option Rejection := none
  received : List UInt8 := []
  dispatched : List Buffer := []
  completed : Nat := 0

/-- What the handlers of one connection read and write: its state and the daemon's counter. -/
structure Desk where
  state : ConnectionState
  bufferedFrameBytes : Int

-- `isHandshake`: whether `parseRequestLine` and `assertHandshakeRequest` accept a line
variable (limits : Limits) (isHandshake : Buffer → Bool)

/-! ## The counters -/

def reserveBufferedFrameBytes (desk : Desk) (bytes : Nat) : Option Desk :=
  if limits.maxConnectionBufferedFrameBytes - desk.state.bufferedFrameBytes < bytes ∨
      limits.maxBufferedFrameBytes - desk.bufferedFrameBytes < bytes then none
  else some {
    state := { desk.state with bufferedFrameBytes := desk.state.bufferedFrameBytes + bytes }
    bufferedFrameBytes := desk.bufferedFrameBytes + bytes }

def releaseBufferedFrameBytes (desk : Desk) (bytes : Int) : Except RangeError Desk :=
  if bytes = 0 then .ok desk
  else if bytes < 0 ∨ desk.state.bufferedFrameBytes < bytes ∨ desk.bufferedFrameBytes < bytes then
    .error .underflow
  else .ok {
    state := { desk.state with bufferedFrameBytes := desk.state.bufferedFrameBytes - bytes }
    bufferedFrameBytes := desk.bufferedFrameBytes - bytes }

def ConnectionState.withoutInput (state : ConnectionState) : ConnectionState :=
  { state with
    framer := state.framer.discard.2
    partialFrameBytes := 0
    pendingLines := []
    pendingFrameBytes := 0
    queuedBytes := 0 }

def discardBufferedInput (desk : Desk) : Except RangeError Desk := do
  let discardedBytes := desk.state.bufferedFrameBytes - desk.state.activeFrameBytes
  let desk ← releaseBufferedFrameBytes desk (if discardedBytes > 0 then discardedBytes else 0)
  return { desk with state := desk.state.withoutInput }

/-! ## Ending a connection -/

/-- `state.closing = true; #discardBufferedInput(state); socket.pause()` -/
def shut (desk : Desk) : Except RangeError Desk := do
  let desk ← discardBufferedInput { desk with state := { desk.state with closing := true } }
  return { desk with state := { desk.state with paused := true } }

/-- The frame is written once the active work has ended. -/
def terminateConnection (desk : Desk) (frame : Rejection) : Except RangeError Desk :=
  if desk.state.closing then .ok desk
  else shut { desk with state := { desk.state with terminal := some frame } }

/-- An error before the handshake is a rejection of it. -/
def rejection (state : ConnectionState) (error : CodedError) : Rejection :=
  if state.handshaken then .errorResponse error else .handshakeRejected error

def bufferLimitReached : CodedError where
  code := "STORE_BUSY"
  message := "Daemon buffered protocol-frame byte limit reached."

def queueLimitReached : CodedError where
  code := "STORE_BUSY"
  message := "Connection input queue exceeded its byte limit."

def handshakeTimedOut : CodedError where
  code := "CONNECTION_CLOSED"
  message := "Daemon handshake timed out."

def codedContractError (error : ContractError) : CodedError where
  code := error.code
  message := error.message

/-! ## One line after the other -/

def lineBytes (lines : List Buffer) : Int := (lines.map fun line => (line.length : Int)).sum

def queuedLineBytes (lines : List Buffer) : Int :=
  (lines.map fun line => (line.length : Int) + 1).sum

/-- What `#handleLine` does before its first `await`: a first line that is no handshake shuts the
connection. -/
def handleLine (desk : Desk) (line : Buffer) : Except RangeError Desk :=
  if desk.state.handshaken then .ok desk
  else if isHandshake line then
    .ok { desk with state := { desk.state with handshaken := true } }
  else shut desk

/-- Take the line out of the queue and make it the active one. -/
def ConnectionState.dispatch (state : ConnectionState) (line : Buffer) (rest : List Buffer) :
    ConnectionState :=
  { state with
    pendingLines := rest
    queuedBytes := state.queuedBytes - (line.length + 1)
    pendingFrameBytes := state.pendingFrameBytes - line.length
    activeFrameBytes := line.length
    processing := true
    dispatched := state.dispatched ++ [line] }

def startNextLine (draining : Bool) (desk : Desk) : Except RangeError Desk :=
  if desk.state.processing ∨ desk.state.closing ∨ draining then .ok desk
  else match desk.state.pendingLines with
    | [] => .ok desk
    | line :: rest =>
      handleLine isHandshake { desk with state := desk.state.dispatch line rest } line

def ConnectionState.resumed (state : ConnectionState) (draining : Bool) : ConnectionState :=
  if state.pausedForQueue ∧ state.queuedBytes ≤ limits.resumeQueuedInputBytes ∧
      state.closing = false ∧ draining = false ∧ state.destroyed = false then
    { state with pausedForQueue := false, paused := false }
  else state

/-- `complete` of `#startNextLine`, once the work on the active line has settled. -/
def complete (draining : Bool) (desk : Desk) : Except RangeError Desk := do
  let desk ← releaseBufferedFrameBytes desk desk.state.activeFrameBytes
  let done : ConnectionState := { desk.state with
    activeFrameBytes := 0
    processing := false
    completed := desk.state.completed + 1 }
  startNextLine isHandshake draining { desk with state := done.resumed limits draining }

/-! ## Data -/

def ConnectionState.enqueue (state : ConnectionState) (lines : List Buffer) : ConnectionState :=
  { state with
    partialFrameBytes := state.framer.bufferedBytes
    pendingLines := state.pendingLines ++ lines
    queuedBytes := state.queuedBytes + queuedLineBytes lines
    pendingFrameBytes := state.pendingFrameBytes + lineBytes lines }

/-- The first pending line can start immediately unless one is active. -/
def ConnectionState.dispatchableBytes (state : ConnectionState) : Int :=
  if state.processing then 0
  else match state.pendingLines with
    | [] => 0
    | line :: _ => line.length + 1

def ConnectionState.pausedWhenFull (state : ConnectionState) : ConnectionState :=
  if limits.pauseQueuedInputBytes ≤ state.queuedBytes ∧ state.pausedForQueue = false then
    { state with pausedForQueue := true, paused := true }
  else state

/-- The lines of a chunk are queued, and the first starts if none is active. -/
def takeLines (draining : Bool) (desk : Desk) (lines : List Buffer) : Except RangeError Desk := do
  let desk ← releaseBufferedFrameBytes desk lines.length
  let desk : Desk := { desk with state := desk.state.enqueue lines }
  if limits.maxQueuedInputBytes < desk.state.queuedBytes - desk.state.dispatchableBytes then
    terminateConnection desk (.errorResponse queueLimitReached)
  else do
    let desk ← startNextLine isHandshake draining desk
    return { desk with state := desk.state.pausedWhenFull limits }

/-- The chunk is counted as soon as it arrives; the newlines in it are given back. -/
def pushChunk (draining : Bool) (desk : Desk) (chunk : List UInt8) : Except RangeError Desk :=
  let pushed : ConnectionState :=
    { desk.state with
      framer := (desk.state.framer.push chunk).2
      received := desk.state.received ++ chunk }
  match (desk.state.framer.push chunk).1 with
  | .error error => do
    let discarded ← discardBufferedInput { desk with state := pushed }
    terminateConnection discarded (rejection desk.state (codedContractError error))
  | .ok lines => takeLines limits isHandshake draining { desk with state := pushed } lines

def data (draining : Bool) (desk : Desk) (chunk : List UInt8) : Except RangeError Desk :=
  if draining ∨ desk.state.closing then .ok desk
  else match reserveBufferedFrameBytes limits desk chunk.length with
    | none => terminateConnection desk (rejection desk.state bufferLimitReached)
    | some desk => pushChunk limits isHandshake draining desk chunk

/-! ## The other events -/

def handshakeTimer (desk : Desk) : Except RangeError Desk :=
  if desk.state.handshaken ∨ desk.state.closing then .ok desk
  else terminateConnection desk (.handshakeRejected handshakeTimedOut)

/-- `socket.on("close", …)` -/
def close (desk : Desk) : Except RangeError Desk :=
  discardBufferedInput { desk with state := { desk.state with
    closing := true
    closed := true
    destroyed := true } }

/-- The daemon as far as the intake goes. A connection is its place in the list; it stays there
after its close, as its active line is still being handled then. -/
structure Server where
  connections : List ConnectionState := []
  bufferedFrameBytes : Int := 0
  draining : Bool := false

inductive Event where
  | accept
  | data (connection : Nat) (chunk : List UInt8)
  | handshakeTimer (connection : Nat)
  | handshakeFailed (connection : Nat)
  | complete (connection : Nat)
  | error (connection : Nat)
  | close (connection : Nat)
  | shutdown

/-- Run a handler on a connection; `none` when the event cannot occur there. -/
def Server.at (server : Server) (connection : Nat)
    (handler : Desk → Option (Except RangeError Desk)) : Option (Except RangeError Server) := do
  let state ← server.connections[connection]?
  let outcome ← handler { state, bufferedFrameBytes := server.bufferedFrameBytes }
  return outcome.map fun desk =>
    { server with
      connections := server.connections.set connection desk.state
      bufferedFrameBytes := desk.bufferedFrameBytes }

def accepted : ConnectionState where
  framer := { maxFrameBytes := limits.maxFrameBytes }

def handle (server : Server) : Event → Option (Except RangeError Server)
  | .accept => some (.ok { server with connections := server.connections ++ [accepted limits] })
  | .data connection chunk =>
    server.at connection fun desk => some (data limits isHandshake server.draining desk chunk)
  | .handshakeTimer connection => server.at connection fun desk => some (handshakeTimer desk)
  -- the catch of the handshake, when what follows the first `await` of it throws
  | .handshakeFailed connection =>
    server.at connection fun desk =>
      if desk.state.processing ∧ desk.state.completed = 0 then some (shut desk) else none
  | .complete connection =>
    server.at connection fun desk =>
      if desk.state.processing then some (complete limits isHandshake server.draining desk)
      else none
  | .error connection =>
    server.at connection fun desk =>
      some (.ok { desk with state := { desk.state with destroyed := true } })
  | .close connection =>
    server.at connection fun desk => if desk.state.closed then none else some (close desk)
  | .shutdown =>
    some (.ok { server with
      draining := true
      connections := server.connections.map fun state => { state with paused := true } })

/-- The daemon from its start on, as long as no handler throws. -/
def machine : Concurrent.Machine Server Event where
  initial server := server = {}
  step server event :=
    (handle limits isHandshake server event).bind fun outcome => outcome.toOption

end ContextStore.Intake
