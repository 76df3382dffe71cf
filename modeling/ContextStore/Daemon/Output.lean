import ContextStore.Foundation.Totals
import ContextStore.Foundation.Transitions

/-! # Output reservations

A frame is written under a reservation of buffer space, taken for the longest frame there can be
and cut down to the encoded bytes. Space is limited for each connection and for the daemon; what
finds none waits in a queue that every release goes through. A request takes its reservation before
it is dispatched and keeps it, whatever happens to the connection, until its response is written. -/

namespace ContextStore.Output

structure Limits where
  maxFrameBytes : Nat
  maxConnectionBufferedOutputBytes : Nat
  maxBufferedOutputBytes : Nat

def Limits.maxEncodedFrameBytes (limits : Limits) : Nat := limits.maxFrameBytes + 1

/-- `outputBytes` is the entry of the map `outputBytesBySocket`. -/
structure Socket where
  destroyed : Bool := false
  writable : Bool := true
  closed : Bool := false
  outputBytes : Option Int := none

def Socket.live (socket : Socket) : Bool := !socket.destroyed && socket.writable

/-- `releases` is not in the source: it counts how often the bytes were given back. -/
structure Reservation where
  socket : Nat
  bytes : Int
  released : Bool := false
  retainOnClose : Bool
  releases : Nat := 0

structure Waiter where
  socket : Nat
  task : Nat
  retainOnClose : Bool

/-- A task is a run of `#handleLine` from its reservation on, or of `#writeFrame` without one. -/
inductive Stage where
  | waiting
  | holding (reservation : Nat)
  | done

structure Task where
  socket : Nat
  request : Bool
  stage : Stage

/-- A frame handed to the socket. `listening`: its handlers of the socket's events are installed.
`pending` is not in the source: nothing has come back from the socket about this frame. -/
structure Write where
  reservation : Nat
  socket : Nat
  listening : Bool
  pending : Bool := true

/-- A frame that listens hears of it and takes its handlers off again. -/
def Write.settled (write : Write) (socket : Nat) : Write :=
  if write.socket = socket ∧ write.listening = true then
    { write with pending := false, listening := false }
  else write

structure Daemon where
  sockets : Nat → Socket := fun _ => {}
  reservations : List Reservation := []
  outputReservations : List Nat := []
  bufferedOutputBytes : Int := 0
  outputWaiters : List Waiter := []
  tasks : Nat → Option Task := fun _ => none
  started : Nat := 0
  writes : List Write := []
  thrown : Bool := false

variable (limits : Limits)

namespace Daemon

def outputBytes (daemon : Daemon) (socket : Nat) : Int :=
  ((daemon.sockets socket).outputBytes).getD 0

def setOutputBytes (daemon : Daemon) (socket : Nat) (bytes : Option Int) : Daemon :=
  { daemon with
    sockets := Function.update daemon.sockets socket
      { daemon.sockets socket with outputBytes := bytes } }

/-! ## Reserving -/

/-- The socket takes output and both limits leave room for the bytes. -/
def Fits (daemon : Daemon) (socket : Nat) (bytes : Int) : Prop :=
  (daemon.sockets socket).live = true ∧
    bytes ≤ limits.maxConnectionBufferedOutputBytes - daemon.outputBytes socket ∧
    bytes ≤ limits.maxBufferedOutputBytes - daemon.bufferedOutputBytes

instance (daemon : Daemon) (socket : Nat) (bytes : Int) :
    Decidable (Fits limits daemon socket bytes) :=
  inferInstanceAs (Decidable (_ ∧ _ ∧ _))

def tryReserveOutputBytes (daemon : Daemon) (socket : Nat) (bytes : Int) (retainOnClose : Bool) :
    Option (Daemon × Nat) :=
  if Fits limits daemon socket bytes then
    some ({ daemon.setOutputBytes socket (some (daemon.outputBytes socket + bytes)) with
      reservations := daemon.reservations ++ [{ socket, bytes, retainOnClose }]
      outputReservations := daemon.outputReservations ++ [daemon.reservations.length]
      bufferedOutputBytes := daemon.bufferedOutputBytes + bytes }, daemon.reservations.length)
  else none

/-- Settle the promise that the task waits for. -/
def resolve (daemon : Daemon) (task : Nat) (stage : Stage) : Daemon :=
  { daemon with
    tasks := Function.update daemon.tasks task
      ((daemon.tasks task).map fun task => { task with stage }) }

/-- Reserve for the task and let it go on; `none` when there is no room. -/
def grant (daemon : Daemon) (waiter : Waiter) : Option Daemon :=
  (tryReserveOutputBytes limits daemon waiter.socket limits.maxEncodedFrameBytes
    waiter.retainOnClose).map fun reserved =>
      reserved.1.resolve waiter.task (.holding reserved.2)

def acquireOutputReservation (daemon : Daemon) (waiter : Waiter) : Daemon :=
  match grant limits daemon waiter with
  | some granted => granted
  | none =>
    if (daemon.sockets waiter.socket).live then
      { daemon with outputWaiters := daemon.outputWaiters ++ [waiter] }
    else daemon.resolve waiter.task .done

/-- The loop over the waiters: each is dropped with its socket, served, or kept. -/
def wakeFrom : List Waiter → Daemon → Daemon
  | [], daemon => daemon
  | waiter :: rest, daemon =>
    if (daemon.sockets waiter.socket).live then
      match grant limits daemon waiter with
      | some granted => wakeFrom rest granted
      | none => wakeFrom rest { daemon with outputWaiters := daemon.outputWaiters ++ [waiter] }
    else wakeFrom rest (daemon.resolve waiter.task .done)

def wakeOutputWaiters (daemon : Daemon) : Daemon :=
  wakeFrom limits daemon.outputWaiters { daemon with outputWaiters := [] }

/-! ## Releasing -/

/-- `connectionBytes > 0 ? set : delete` -/
def entry (connectionBytes : Int) : Option Int :=
  if connectionBytes > 0 then some connectionBytes else none

def giveBack (daemon : Daemon) (id : Nat) (reservation : Reservation) : Daemon :=
  { daemon.setOutputBytes reservation.socket
      (entry (daemon.outputBytes reservation.socket - reservation.bytes)) with
    reservations := daemon.reservations.set id
      { reservation with released := true, releases := reservation.releases + 1 }
    outputReservations := daemon.outputReservations.erase id
    bufferedOutputBytes := daemon.bufferedOutputBytes - reservation.bytes }

def releaseOutputReservation (daemon : Daemon) (id : Nat) (wake : Bool) : Daemon :=
  match daemon.reservations[id]? with
  | none => daemon
  | some reservation =>
    if reservation.released then daemon
    else if (daemon.giveBack id reservation).bufferedOutputBytes < 0 then
      { daemon.giveBack id reservation with thrown := true }
    else if wake then wakeOutputWaiters limits (daemon.giveBack id reservation)
    else daemon.giveBack id reservation

def shrink (daemon : Daemon) (id : Nat) (reservation : Reservation) (bytes : Int) : Daemon :=
  { daemon.setOutputBytes reservation.socket
      (some (daemon.outputBytes reservation.socket - (reservation.bytes - bytes))) with
    reservations := daemon.reservations.set id { reservation with bytes }
    bufferedOutputBytes := daemon.bufferedOutputBytes - (reservation.bytes - bytes) }

/-- `none` is the `RangeError`. -/
def resizeOutputReservation (daemon : Daemon) (id : Nat) (reservation : Reservation)
    (bytes : Int) : Option Daemon :=
  if reservation.released then some daemon
  else if bytes ≤ 0 ∨ reservation.bytes < bytes then none
  else if reservation.bytes - bytes = 0 then some daemon
  else some (wakeOutputWaiters limits (daemon.shrink id reservation bytes))

def dropWaiters (daemon : Daemon) (socket : Nat) : Daemon :=
  (daemon.outputWaiters.filter (·.socket = socket)).foldl
    (fun daemon waiter => daemon.resolve waiter.task .done)
    { daemon with outputWaiters := daemon.outputWaiters.filter (·.socket ≠ socket) }

/-- Whether the reservation goes with its socket. -/
def goesWith (daemon : Daemon) (socket id : Nat) : Bool :=
  (daemon.reservations[id]?).any fun reservation =>
    reservation.socket = socket && !reservation.retainOnClose

def releaseSocketOutput (daemon : Daemon) (socket : Nat) : Daemon :=
  let released := (daemon.outputReservations.filter (daemon.goesWith socket)).foldl
    (fun daemon id => releaseOutputReservation limits daemon id false) daemon
  wakeOutputWaiters limits (released.dropWaiters socket)

/-! ## Writing -/

/-- What `socket.write` does: it takes the frame, it wants the writer to wait, or it throws. -/
inductive WriteResult where
  | immediate
  | queued
  | throws

def start (daemon : Daemon) (socket : Nat) (request : Bool) : Daemon :=
  acquireOutputReservation limits
    { daemon with
      tasks := Function.update daemon.tasks daemon.started
        (some { socket, request, stage := .waiting })
      started := daemon.started + 1 }
    { socket, task := daemon.started, retainOnClose := request }

/-- The frame could not be encoded. The answer to a request is then an error frame. -/
def writeFailed (daemon : Daemon) (task : Task) (id : Nat) : Daemon :=
  let released := releaseOutputReservation limits daemon id true
  if task.request then start limits released task.socket false else released

def handOver (daemon : Daemon) (write : Write) : Daemon :=
  { daemon with writes := daemon.writes ++ [write] }

/-- `socket.write(bytes, …)` under the resized reservation. -/
def writeBytes (daemon : Daemon) (socket id : Nat) (result : WriteResult) : Daemon :=
  if (daemon.sockets socket).live then
    match result with
    | .immediate => daemon.handOver { reservation := id, socket, listening := false }
    | .queued => daemon.handOver { reservation := id, socket, listening := true }
    | .throws => releaseOutputReservation limits daemon id true
  else releaseOutputReservation limits daemon id true

/-- `#writeFrame` from the reservation on; `encoded` is the length of the frame, if there is one. -/
def writeFrame (daemon : Daemon) (task : Task) (id : Nat) (reservation : Reservation)
    (encoded : Option Nat) (result : WriteResult) : Daemon :=
  if reservation.released ∨ reservation.socket ≠ task.socket then daemon
  else
    let kept : Reservation := { reservation with retainOnClose := false }
    let daemon : Daemon := { daemon with reservations := daemon.reservations.set id kept }
    if (daemon.sockets task.socket).live then
      match encoded with
      | none => writeFailed limits daemon task id
      | some bytes =>
        if limits.maxEncodedFrameBytes < bytes then writeFailed limits daemon task id
        else match resizeOutputReservation limits daemon id kept bytes with
          | none => writeFailed limits daemon task id
          | some resized => writeBytes limits resized task.socket id result
    else releaseOutputReservation limits daemon id true

/-! ## What comes back from the socket -/

/-- The flush callback of `socket.write`. -/
def flush (daemon : Daemon) (index : Nat) (write : Write) (failed : Bool) : Daemon :=
  releaseOutputReservation limits
    { daemon with
      writes := daemon.writes.set index
        { write with pending := false, listening := write.listening && !failed } }
    write.reservation true

/-- The reservations of the frames that listen on the socket. -/
def listening (daemon : Daemon) (socket : Nat) : List Nat :=
  (daemon.writes.filter fun write => write.socket = socket && write.listening).map
    Write.reservation

/-- `drain`, `error` and `close` reach the frames that listen for them. -/
def settle (daemon : Daemon) (socket : Nat) : Daemon :=
  (daemon.listening socket).foldl
    (fun daemon id => releaseOutputReservation limits daemon id true)
    { daemon with writes := daemon.writes.map fun write => write.settled socket }

def setSocket (daemon : Daemon) (socket : Nat) (f : Socket → Socket) : Daemon :=
  { daemon with
    sockets := Function.update daemon.sockets socket (f (daemon.sockets socket)) }

def close (daemon : Daemon) (socket : Nat) : Daemon :=
  settle limits
    (releaseSocketOutput limits
      (daemon.setSocket socket fun s => { s with destroyed := true, closed := true }) socket)
    socket

inductive Event where
  | start (socket : Nat) (request : Bool)
  | write (task : Nat) (encoded : Option Nat) (result : WriteResult)
  | flush (write : Nat) (failed : Bool)
  | drain (socket : Nat)
  | error (socket : Nat)
  | destroy (socket : Nat)
  | finish (socket : Nat)
  | close (socket : Nat)

/-- A task goes on once it has its reservation: a request when it has been executed. -/
def writeTask (daemon : Daemon) (task : Nat) (encoded : Option Nat) (result : WriteResult) :
    Option Daemon := do
  let running ← daemon.tasks task
  match running.stage with
  | .holding id => do
    let reservation ← daemon.reservations[id]?
    return writeFrame limits (daemon.resolve task .done) running id reservation encoded result
  | _ => none

def handle (daemon : Daemon) : Event → Option Daemon
  | .start socket request => some (start limits daemon socket request)
  | .write task encoded result => writeTask limits daemon task encoded result
  | .flush index failed => (daemon.writes[index]?).map fun write =>
    flush limits daemon index write failed
  | .drain socket => some (settle limits daemon socket)
  | .error socket => some (settle limits daemon socket)
  | .destroy socket => some (daemon.setSocket socket fun s => { s with destroyed := true })
  | .finish socket => some (daemon.setSocket socket fun s => { s with writable := false })
  | .close socket =>
    if (daemon.sockets socket).closed then none else some (close limits daemon socket)

end Daemon

/-- The daemon from its start on, as long as nothing is thrown. -/
def machine : Concurrent.Machine Daemon Daemon.Event where
  initial daemon := daemon = {}
  step daemon event := if daemon.thrown then none else daemon.handle limits event

end ContextStore.Output
