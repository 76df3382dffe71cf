import ContextStore.Foundation.Json
import ContextStore.Foundation.KeyValue

/-! # Relevance feedback

Each served search is logged as an event with the results it showed; a later recall of a shown
locator joins back to that event through an index by locator fingerprint. A ring of `maxEvents`
events is kept for each project, and a counter of resolved recalls for each document version. -/

namespace ContextStore.Feedback

open Unicode

/-- A served search result. `locator` is `none` where it is not a string, a score where it is not
a number. -/
structure SearchResult (Score : Type) where
  documentId : Text
  version : Nat
  retrievalMode : Text
  calibratedScore : Option Score
  score : Option Score
  rawScore : Option Score
  locator : Option Text

structure ShownEntry (Digest Score : Type) where
  rank : Nat
  documentId : Text
  version : Nat
  retrievalMode : Text
  score : Option Score
  rawScore : Option Score
  locatorFingerprint : Digest

structure Recall (Digest : Type) where
  locatorFingerprint : Digest
  recalledAt : Int
  status : Option Text

structure Event (Digest Score : Type) where
  seq : Nat
  project : Text
  query : Text
  queryKey : Text
  mode : Option Text
  status : Option Text
  createdAt : Int
  shownCount : Nat
  shown : List (ShownEntry Digest Score)
  recalls : List (Recall Digest)
  sessionIds : List Text

structure LocatorIndex where
  seq : Nat
  rank : Nat

/-- `keyFor.counter` and `feedbackKeys` -/
inductive Key (Digest : Type) where
  | counter (name : Text)
  | event (project : Text) (seq : Nat)
  | locator (project : Text) (fingerprint : Digest)
deriving DecidableEq

abbrev Key.Record (Digest Score : Type) : Key Digest → Type
  | .counter _ => Nat
  | .event _ _ => Event Digest Score
  | .locator _ _ => LocatorIndex

/-- The stored records. `log` is not in the source: it has every event, evicted or not, as it was
last written. -/
structure FeedbackStore (Digest Score : Type) [DecidableEq Digest] where
  records : KeyValue.Store (Key.Record Digest Score)
  log : List (Event Digest Score)

def counterName (project : Text) : Text := text "relevance-feedback:v1:" ++ project

def recallCounterName (project documentId : Text) (version : Nat) : Text :=
  text "relevance-feedback-recall:v1:" ++ project ++ text ":" ++ documentId ++ text ":" ++
    Json.decimal version

/-! ## What is logged -/

def maxQueryStoredChars : Nat := 512

def maxShownPerEvent : Nat := 100

def storedQuery (query : Text) : Text := query.take maxQueryStoredChars

/-- `\s` -/
def isWhitespace (u : UInt16) : Bool :=
  (0x09 ≤ u && u ≤ 0x0d) || u = 0x20 || u = 0xa0 || u = 0x1680 || (0x2000 ≤ u && u ≤ 0x200a) ||
    u = 0x2028 || u = 0x2029 || u = 0x202f || u = 0x205f || u = 0x3000 || u = 0xfeff

def trim (t : Text) : Text := ((t.dropWhile isWhitespace).reverse.dropWhile isWhitespace).reverse

/-- `replace(/\s+/gu, " ")` -/
def collapseWhitespace : Text → Text
  | [] => []
  | u :: rest =>
    if isWhitespace u then
      if rest.head?.any isWhitespace then collapseWhitespace rest
      else 0x20 :: collapseWhitespace rest
    else u :: collapseWhitespace rest

def normalizeSessionIds (sessionIds : List Text) : List Text :=
  (sessionIds.filter (· ≠ [])).eraseDups

section Arguments

-- `sha256` of the UTF-8 bytes, in hexadecimal; `toLocaleLowerCase` depends on the host's locale
variable {Digest Score : Type} (sha256 : Text → Digest) (toLocaleLowerCase : Text → Text)

def normalizeQueryKey (query : Text) : Text :=
  (toLocaleLowerCase (collapseWhitespace (trim query))).take maxQueryStoredChars

/-- `locatorFingerprint(locator)`, where an absent locator reads as the empty string. -/
def locatorFingerprint (locator : Option Text) : Digest := sha256 (locator.getD [])

def shownEntry (rank : Nat) (result : SearchResult Score) : ShownEntry Digest Score where
  rank
  documentId := result.documentId
  version := result.version
  retrievalMode := result.retrievalMode
  score := result.calibratedScore.or result.score
  rawScore := result.rawScore
  locatorFingerprint := locatorFingerprint sha256 result.locator

def shownEntries (results : List (SearchResult Score)) : List (ShownEntry Digest Score) :=
  ((results.take maxShownPerEvent).filter fun result =>
    result.locator.any (· ≠ [])).mapIdx (shownEntry sha256)

end Arguments

def requireProject (project : Text) : Except String Unit :=
  if project = [] then .error "Relevance feedback requires a project boundary." else .ok ()

def requireTimestamp (now : Int) : Except String Unit :=
  if 0 ≤ now ∧ now < 2 ^ 53 then .ok ()
  else .error "Relevance feedback timestamps must be non-negative safe integers."

/-! ## Records -/

namespace FeedbackStore

variable {Digest Score : Type} [DecidableEq Digest] (feedback : FeedbackStore Digest Score)

def counter (name : Text) : Nat := (feedback.records.get (.counter name)).getD 0

/-- The stored event of a sequence number. -/
def event (project : Text) (seq : Nat) : Option (Event Digest Score) :=
  feedback.records.get (.event project seq)

def locator (project : Text) (fingerprint : Digest) : Option LocatorIndex :=
  feedback.records.get (.locator project fingerprint)

/-- `increment`, which returns the counter's new value. -/
def increment (name : Text) : FeedbackStore Digest Score :=
  { feedback with records := feedback.records.put (.counter name) (feedback.counter name + 1) }

def putEvent (project : Text) (seq : Nat) (event : Event Digest Score) :
    FeedbackStore Digest Score where
  records := feedback.records.put (.event project seq) event
  log := if seq ≤ feedback.log.length then feedback.log.set (seq - 1) event
    else feedback.log ++ [event]

def putLocator (project : Text) (fingerprint : Digest) (index : LocatorIndex) :
    FeedbackStore Digest Score :=
  { feedback with records := feedback.records.put (.locator project fingerprint) index }

def removeLocator (project : Text) (fingerprint : Digest) : FeedbackStore Digest Score :=
  { feedback with records := feedback.records.remove (.locator project fingerprint) }

def removeEvent (project : Text) (seq : Nat) : FeedbackStore Digest Score :=
  { feedback with records := feedback.records.remove (.event project seq) }

variable {feedback} {name name' project : Text} {seq seq' : Nat} {fingerprint fingerprint' : Digest}
variable {written : Event Digest Score} {index : LocatorIndex}

@[simp]
theorem counter_increment_self :
    (feedback.increment name).counter name = feedback.counter name + 1 := by
  simp [counter, increment]

theorem counter_increment_of_ne (h : name' ≠ name) :
    (feedback.increment name).counter name' = feedback.counter name' := by
  simp [counter, increment, h]

@[simp]
theorem event_increment : (feedback.increment name).event project seq = feedback.event project seq :=
  KeyValue.Store.get_put_of_ne (by simp) _ _

@[simp]
theorem locator_increment :
    (feedback.increment name).locator project fingerprint = feedback.locator project fingerprint :=
  KeyValue.Store.get_put_of_ne (by simp) _ _

@[simp]
theorem log_increment : (feedback.increment name).log = feedback.log := rfl

@[simp]
theorem counter_putEvent :
    (feedback.putEvent project seq written).counter name = feedback.counter name := by
  simp [counter, putEvent]

@[simp]
theorem event_putEvent_self :
    (feedback.putEvent project seq written).event project seq = some written := by
  simp [event, putEvent]

theorem event_putEvent_of_ne (h : seq' ≠ seq) :
    (feedback.putEvent project seq written).event project seq' = feedback.event project seq' :=
  KeyValue.Store.get_put_of_ne (by simp [h]) _ _

@[simp]
theorem locator_putEvent : (feedback.putEvent project seq written).locator project fingerprint =
    feedback.locator project fingerprint :=
  KeyValue.Store.get_put_of_ne (by simp) _ _

@[simp]
theorem counter_putLocator :
    (feedback.putLocator project fingerprint index).counter name = feedback.counter name := by
  simp [counter, putLocator]

@[simp]
theorem event_putLocator : (feedback.putLocator project fingerprint index).event project seq =
    feedback.event project seq :=
  KeyValue.Store.get_put_of_ne (by simp) _ _

@[simp]
theorem locator_putLocator_self :
    (feedback.putLocator project fingerprint index).locator project fingerprint = some index := by
  simp [locator, putLocator]

theorem locator_putLocator_of_ne (h : fingerprint' ≠ fingerprint) :
    (feedback.putLocator project fingerprint index).locator project fingerprint' =
      feedback.locator project fingerprint' :=
  KeyValue.Store.get_put_of_ne (by simp [h]) _ _

@[simp]
theorem log_putLocator : (feedback.putLocator project fingerprint index).log = feedback.log := rfl

@[simp]
theorem counter_removeLocator :
    (feedback.removeLocator project fingerprint).counter name = feedback.counter name := by
  simp [counter, removeLocator]

@[simp]
theorem event_removeLocator :
    (feedback.removeLocator project fingerprint).event project seq = feedback.event project seq :=
  KeyValue.Store.get_remove_of_ne (by simp) _

@[simp]
theorem locator_removeLocator_self :
    (feedback.removeLocator project fingerprint).locator project fingerprint = none := by
  simp [locator, removeLocator]

theorem locator_removeLocator_of_ne (h : fingerprint' ≠ fingerprint) :
    (feedback.removeLocator project fingerprint).locator project fingerprint' =
      feedback.locator project fingerprint' :=
  KeyValue.Store.get_remove_of_ne (by simp [h]) _

@[simp]
theorem log_removeLocator : (feedback.removeLocator project fingerprint).log = feedback.log := rfl

@[simp]
theorem counter_removeEvent :
    (feedback.removeEvent project seq).counter name = feedback.counter name := by
  simp [counter, removeEvent]

@[simp]
theorem event_removeEvent_self : (feedback.removeEvent project seq).event project seq = none := by
  simp [event, removeEvent]

theorem event_removeEvent_of_ne (h : seq' ≠ seq) :
    (feedback.removeEvent project seq).event project seq' = feedback.event project seq' :=
  KeyValue.Store.get_remove_of_ne (by simp [h]) _

@[simp]
theorem locator_removeEvent : (feedback.removeEvent project seq).locator project fingerprint =
    feedback.locator project fingerprint :=
  KeyValue.Store.get_remove_of_ne (by simp) _

@[simp]
theorem log_removeEvent : (feedback.removeEvent project seq).log = feedback.log := rfl

end FeedbackStore

/-! ## `recordShownResults` -/

/-- The options of one call, its project apart. -/
structure ShownResults (Score : Type) where
  query : Text
  mode : Option Text
  status : Option Text
  results : List (SearchResult Score)
  sessionIds : List Text
  now : Int

section Calls

variable {Digest Score : Type} [DecidableEq Digest]
variable (sha256 : Text → Digest) (toLocaleLowerCase : Text → Text)

def loggedEvent (project : Text) (sequence : Nat) (call : ShownResults Score) :
    Event Digest Score where
  seq := sequence
  project
  query := storedQuery call.query
  queryKey := normalizeQueryKey toLocaleLowerCase call.query
  mode := call.mode
  status := call.status
  createdAt := call.now
  shownCount := (shownEntries sha256 call.results).length
  shown := shownEntries sha256 call.results
  recalls := []
  sessionIds := normalizeSessionIds call.sessionIds

/-- The loop that writes the locator index entries of a new event. -/
def indexShown (project : Text) (sequence : Nat) :
    List (ShownEntry Digest Score) → FeedbackStore Digest Score → FeedbackStore Digest Score
  | [], feedback => feedback
  | entry :: rest, feedback =>
    indexShown project sequence rest
      (feedback.putLocator project entry.locatorFingerprint
        { seq := sequence, rank := entry.rank })

/-- The loop that removes the index entries of an evicted event; a digest is never empty. -/
def unindexShown (project : Text) :
    List (ShownEntry Digest Score) → FeedbackStore Digest Score → FeedbackStore Digest Score
  | [], feedback => feedback
  | entry :: rest, feedback =>
    unindexShown project rest (feedback.removeLocator project entry.locatorFingerprint)

def evict (project : Text) (evictSeq : Int) (feedback : FeedbackStore Digest Score) :
    FeedbackStore Digest Score :=
  if 1 ≤ evictSeq then
    match feedback.event project evictSeq.toNat with
    | some stale =>
      (unindexShown project stale.shown feedback).removeEvent project evictSeq.toNat
    | none => feedback
  else feedback

/-- The transaction of `recordShownResults`. -/
def logShown (maxEvents : Int) (project : Text) (call : ShownResults Score)
    (feedback : FeedbackStore Digest Score) : FeedbackStore Digest Score :=
  let sequence := feedback.counter (counterName project) + 1
  let event := loggedEvent sha256 toLocaleLowerCase project sequence call
  evict project (sequence - maxEvents) (indexShown project sequence event.shown
      ((feedback.increment (counterName project)).putEvent project sequence event))

/-- The log, and the sequence number and count that the caller gets. -/
def recordShownResults (maxEvents : Int) (project : Text) (call : ShownResults Score)
    (feedback : FeedbackStore Digest Score) :
    Except String (FeedbackStore Digest Score × Nat × Nat) := do
  requireProject project
  requireTimestamp call.now
  if maxEvents ≤ 0 then .error "maxEvents must be a positive safe integer."
  else .ok (logShown sha256 toLocaleLowerCase maxEvents project call feedback,
    feedback.counter (counterName project) + 1, (shownEntries sha256 call.results).length)

/-! ## `recordRecalledLocator` -/

structure RecalledLocator where
  locator : Option Text
  status : Option Text
  now : Int

/-- What a recall's caller gets. -/
structure Joined where
  joined : Bool
  alreadyRecorded : Bool := false
deriving DecidableEq

def Event.addRecall (event : Event Digest Score) (recorded : Recall Digest) : Event Digest Score :=
  { event with recalls := event.recalls ++ [recorded] }

/-- A resolved recall is tallied against the shown document. -/
def tally (project : Text) (event : Event Digest Score) (fingerprint : Digest)
    (status : Option Text) (feedback : FeedbackStore Digest Score) : FeedbackStore Digest Score :=
  if status = some (text "resolved") then
    match event.shown.find? (·.locatorFingerprint = fingerprint) with
    | some shownEntry =>
      feedback.increment (recallCounterName project shownEntry.documentId shownEntry.version)
    | none => feedback
  else feedback

/-- The transaction of `recordRecalledLocator`. -/
def joinRecall (project : Text) (fingerprint : Digest) (status : Option Text) (now : Int)
    (feedback : FeedbackStore Digest Score) : FeedbackStore Digest Score × Joined :=
  match feedback.locator project fingerprint with
  | none => (feedback, { joined := false })
  | some index =>
    match feedback.event project index.seq with
    | none => (feedback, { joined := false })
    | some event =>
      if event.recalls.any (·.locatorFingerprint = fingerprint) then
        (feedback, { joined := true, alreadyRecorded := true })
      else
        let recorded := { locatorFingerprint := fingerprint, recalledAt := now, status }
        (tally project event fingerprint status
          (feedback.putEvent project index.seq (event.addRecall recorded)), { joined := true })

/-- The index is read once before the transaction, to spare the write lease. -/
def recordRecalledLocator (project : Text) (call : RecalledLocator)
    (feedback : FeedbackStore Digest Score) :
    Except String (FeedbackStore Digest Score × Joined) := do
  requireProject project
  requireTimestamp call.now
  let fingerprint := locatorFingerprint sha256 call.locator
  if feedback.locator project fingerprint = none then .ok (feedback, { joined := false })
  else .ok (joinRecall project fingerprint call.status call.now feedback)

end Calls

end ContextStore.Feedback
