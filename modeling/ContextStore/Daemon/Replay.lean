import ContextStore.Foundation.Totals
import ContextStore.Foundation.Transitions
import ContextStore.Foundation.Unicode

/-! # The replay cache

A request is dispatched under its project and request id, and its promise stays in a map of bounded
size, so that the same line sent again gets the same answer. Only settled entries are evicted. -/

namespace ContextStore.Replay

open Unicode Totals

structure Limits where
  maxReplayOutcomes : Nat
  maxReplayOutcomeBytes : Nat
  maxActiveRequests : Nat
  maxActiveRequestBytes : Nat

/-- What the envelope of a request line says. -/
structure Request where
  requestId : Text
  operation : Text

/-- `project`, `requestId` and `line` are not in the source: they say whose entry it is.
`promise` is the identity of the promise that the entry holds. -/
structure Entry where
  operation : Text
  fingerprint : List UInt8
  promise : Nat
  settled : Bool := false
  byteLength : Int := 0
  project : Text
  requestId : Text
  line : List UInt8

def Entry.pair (entry : Entry) : Text × Text := (entry.project, entry.requestId)

def Entry.settle (entry : Entry) (promise : Nat) (byteLength : Nat) : Entry :=
  if entry.promise = promise then { entry with settled := true, byteLength } else entry

/-- The promise of a dispatched request, with the bytes its completion gives back. -/
structure Outcome (Response : Type) where
  requestBytes : Int
  response : Option Response := none

/-- What `#executeRequest` returns: a promise or an error response at once. -/
inductive Answer where
  | promise (id : Nat)
  | error (code : String) (message : Text)

/-- `requestOutcomes` is a map that iterates in the order of insertion. `dispatched` and `evicted`
are not in the source: they record the project and request id of every such event. -/
structure Daemon (Response : Type) where
  requestOutcomes : List (Text × Entry) := []
  replayOutcomeBytes : Int := 0
  activeRequests : Int := 0
  activeRequestBytes : Int := 0
  outcomes : List (Outcome Response) := []
  dispatched : List (Text × Text) := []
  evicted : List (Text × Text) := []

variable {Response : Type} (limits : Limits)
-- `readRequest`: `parseRequestLine` and `assertRequestFrame` of an accepted line
variable (readRequest : List UInt8 → Request) (sha256 : List UInt8 → List UInt8)

namespace Daemon

def replayKey (project requestId : Text) : Text := project ++ [0] ++ requestId

/-! ## Eviction -/

/-- The loop over the map: `kept` are the entries it has passed. -/
def trimLoop (targetEntries : Nat) : List (Text × Entry) → List (Text × Entry) → Int →
    List (Text × Entry) × Int × List (Text × Text)
  | kept, [], bytes => (kept, bytes, [])
  | kept, (key, entry) :: rest, bytes =>
    if entry.settled = false then trimLoop targetEntries (kept ++ [(key, entry)]) rest bytes
    else if (kept ++ rest).length ≤ targetEntries ∧
        bytes - entry.byteLength ≤ limits.maxReplayOutcomeBytes then
      (kept ++ rest, bytes - entry.byteLength, [entry.pair])
    else
      let trimmed := trimLoop targetEntries kept rest (bytes - entry.byteLength)
      (trimmed.1, trimmed.2.1, entry.pair :: trimmed.2.2)

def trimRequestOutcomes (daemon : Daemon Response) (reserveEntries : Nat) : Daemon Response :=
  let targetEntries := limits.maxReplayOutcomes - reserveEntries
  if daemon.requestOutcomes.length ≤ targetEntries ∧
      daemon.replayOutcomeBytes ≤ limits.maxReplayOutcomeBytes then daemon
  else
    let trimmed := trimLoop limits targetEntries [] daemon.requestOutcomes daemon.replayOutcomeBytes
    { daemon with
      requestOutcomes := trimmed.1
      replayOutcomeBytes := max 0 trimmed.2.1
      evicted := daemon.evicted ++ trimmed.2.2 }

/-! ## A request -/

def reused (request : Request) : Answer :=
  .error "CONFLICT"
    (text "Request ID " ++ request.requestId ++ text " was reused with different content.")

def concurrencyLimit : Answer :=
  .error "STORE_BUSY" (text "Daemon request concurrency limit reached.")

def activeLimit : Answer :=
  .error "STORE_BUSY" (text "Daemon active request byte or concurrency limit reached.")

/-- Count the request as active, dispatch it and enter its promise. -/
def dispatch (daemon : Daemon Response) (project : Text) (line : List UInt8)
    (request : Request) : Daemon Response :=
  { daemon with
    activeRequests := daemon.activeRequests + 1
    activeRequestBytes := daemon.activeRequestBytes + (line.length + 1)
    outcomes := daemon.outcomes ++ [{ requestBytes := line.length + 1 }]
    requestOutcomes := daemon.requestOutcomes ++ [(replayKey project request.requestId, {
      operation := request.operation
      fingerprint := sha256 line
      promise := daemon.outcomes.length
      project
      requestId := request.requestId
      line })]
    dispatched := daemon.dispatched ++ [(project, request.requestId)] }

def executeRequest (daemon : Daemon Response) (project : Text) (line : List UInt8) :
    Daemon Response × Answer :=
  let request := readRequest line
  match daemon.requestOutcomes.lookup (replayKey project request.requestId) with
  | some previous =>
    if previous.operation ≠ request.operation ∨ previous.fingerprint ≠ sha256 line then
      (daemon, reused request)
    else (daemon, .promise previous.promise)
  | none =>
    let trimmed := trimRequestOutcomes limits daemon 1
    if limits.maxReplayOutcomes ≤ trimmed.requestOutcomes.length then
      (trimmed, concurrencyLimit)
    else if limits.maxActiveRequests ≤ trimmed.activeRequests ∨
        limits.maxActiveRequestBytes - trimmed.activeRequestBytes < line.length + 1 then
      (trimmed, activeLimit)
    else (dispatch sha256 trimmed project line request, .promise trimmed.outcomes.length)

/-! ## Completion -/

/-- `max 0`: the counters are kept from drifting below zero. -/
def settleActiveRequest (daemon : Daemon Response) (requestBytes : Int) : Daemon Response :=
  { daemon with
    activeRequests := max 0 (daemon.activeRequests - 1)
    activeRequestBytes := max 0 (daemon.activeRequestBytes - requestBytes) }

/-- The handler of the request has returned; `byteLength` is the size of its encoded response. -/
def settle (daemon : Daemon Response) (promise : Nat) (outcome : Outcome Response)
    (response : Response) (byteLength : Nat) : Daemon Response :=
  let daemon := settleActiveRequest daemon outcome.requestBytes
  trimRequestOutcomes limits
    { daemon with
      outcomes := daemon.outcomes.set promise { outcome with response := some response }
      requestOutcomes := daemon.requestOutcomes.map fun item =>
        (item.1, item.2.settle promise byteLength)
      replayOutcomeBytes := daemon.replayOutcomeBytes + byteLength } 0

inductive Event (Response : Type) where
  | execute (project : Text) (line : List UInt8)
  | settle (promise : Nat) (response : Response) (byteLength : Nat)

def handle (daemon : Daemon Response) : Event Response → Option (Daemon Response)
  | .execute project line => some (executeRequest limits readRequest sha256 daemon project line).1
  | .settle promise response byteLength => do
    let outcome ← daemon.outcomes[promise]?
    -- a promise settles once
    if outcome.response.isNone then
      some (settle limits daemon promise outcome response byteLength)
    else none

end Daemon

def machine : Concurrent.Machine (Daemon Response) (Daemon.Event Response) where
  initial daemon := daemon = {}
  step daemon event := daemon.handle limits readRequest sha256 event

end ContextStore.Replay
