import Mathlib.Algebra.Ring.Nat
import ContextStore.Store.World

/-! # Canonical commits

`RocksStore.commitCanonical`: one request is prepared, fingerprinted and then, in one transaction,
either recognised as a replay of an earlier one, or refused, or written with its outbox entry, its
document ordinal and its idempotency marker. -/

namespace ContextStore

open Concurrent
open Transaction (require forEach)

/-- What a commit takes from the encoding modules: keys and records as bytes, and the digest. -/
structure CommitCodec where
  keyBytes : Key → List UInt8
  recordBytes : (k : Key) → k.Record → List UInt8
  payloadBytes : OutboxPayload → List UInt8
  sha256 : List UInt8 → Digest

/-- A compare-and-set write. -/
structure Transition where
  key : Key
  previous : Option key.Record
  next : key.Record

/-- `derivedView` of a commit: the admitted document and the markers of the versions it retires. -/
structure DerivedViewAdmission where
  project : String
  sessionId : String
  documentId : String
  documentVersion : Nat
  admittedAt : Nat
  retiredDocuments : List Tombstone

structure CanonicalCommit where
  requestId : String
  records : List Entry
  outbox : Option OutboxPayload := none
  guards : List GuardKey := []
  mustBeAbsent : List Key := []
  mustMatch : List Entry := []
  transitions : List Transition := []
  derivedView : Option DerivedViewAdmission := none

/-- `MAX_DOCUMENT_ORDINAL` -/
def maxDocumentOrdinal : Nat := 0xffffffff

variable (codec : CommitCodec)

/-! ## Preparing a request -/

def Transition.entry (transition : Transition) : Entry := ⟨transition.key, transition.next⟩

def ContentEntry.keyBytes : ContentEntry → List UInt8
  | .record entry => codec.keyBytes entry.1
  | .outbox _ => codec.keyBytes (.outbox (.entry 0))
  | .guard key => codec.keyBytes (.guard key)

def ContentEntry.valueBytes : ContentEntry → List UInt8
  | .record entry => codec.recordBytes entry.1 entry.2
  | .outbox payload => codec.payloadBytes payload
  | .guard _ => "conflict-guard".toUTF8.toList

/-- `comparePrepared` -/
def sortEntries (entries : List Entry) : List Entry :=
  entries.insertionSort fun a b => codec.keyBytes a.1 ≤ codec.keyBytes b.1

def sortKeys (keys : List Key) : List Key :=
  keys.dedup.insertionSort fun a b => codec.keyBytes a ≤ codec.keyBytes b

def sortGuards (guards : List GuardKey) : List GuardKey :=
  guards.dedup.insertionSort fun a b => codec.keyBytes (.guard a) ≤ codec.keyBytes (.guard b)

def sortTransitions (transitions : List Transition) : List Transition :=
  transitions.insertionSort fun a b => codec.keyBytes a.key ≤ codec.keyBytes b.key

def sortContent (content : List ContentEntry) : List ContentEntry :=
  content.insertionSort fun a b => a.keyBytes codec ≤ b.keyBytes codec

/-- The four-byte length in front of a hashed field. -/
def hashLength (length : Nat) : Except StoreError (List UInt8) :=
  if length < 2 ^ 32 then
    .ok [UInt8.ofNat (length / 2 ^ 24), UInt8.ofNat (length / 2 ^ 16), UInt8.ofNat (length / 2 ^ 8),
      UInt8.ofNat length]
  else .error (.rangeError "The value of \"value\" is out of range.")

def hashField (bytes : List UInt8) : Except StoreError (List UInt8) :=
  (hashLength bytes.length).map (· ++ bytes)

def fingerprintBytes : List ContentEntry → Except StoreError (List UInt8)
  | [] => .ok []
  | entry :: rest => do
    let key ← hashField (entry.keyBytes codec)
    let value ← hashField (entry.valueBytes codec)
    let others ← fingerprintBytes rest
    return key ++ (value ++ others)

def requestFingerprint (content : List ContentEntry) : Except StoreError Digest :=
  (fingerprintBytes codec content).map codec.sha256

/-- Two different values for one key make the request inconsistent. -/
def checkConsistent : List ContentEntry → Except StoreError Unit
  | left :: right :: rest =>
    if left.keyBytes codec = right.keyBytes codec ∧ left.valueBytes codec ≠ right.valueBytes codec
    then .error (.immutableRecordConflict (keyOf right))
    else checkConsistent (right :: rest)
  | _ => .ok ()
where
  keyOf : ContentEntry → Key
    | .record entry => entry.1
    | .outbox _ => .outbox (.entry 0)
    | .guard key => .guard key

/-- The identifiers of `derivedView` are not empty and its versions are positive. -/
def documentViewAdmission (view : DerivedViewAdmission) : Except StoreError Unit :=
  if view.project = "" ∨ view.sessionId = "" ∨ view.documentId = "" ∨ view.documentVersion = 0
      ∨ view.retiredDocuments.any (fun marker =>
        marker.documentId = "" ∨ marker.documentVersion = 0) then
    .error (.typeError "derivedView must name a document version.")
  else .ok ()

def findRecord (records : List Entry) (k : Key) : Option k.Record :=
  records.findSome? fun entry => if h : entry.1 = k then some (h ▸ entry.2) else none

/-- The admitted document and the retired versions must be among the records. -/
def assertDerivedViewRecords (view : DerivedViewAdmission) (records : List Entry) :
    Except StoreError Unit := do
  let manifest := findRecord records
    (.manifest (.document view.documentId view.documentVersion))
  if ¬ manifest.any (fun (manifest : Manifest) =>
      manifest.project = view.project ∧ manifest.sessionId = view.sessionId ∧
        manifest.documentId = view.documentId ∧ manifest.version = view.documentVersion ∧
        manifest.createdAt = view.admittedAt) then
    throw (.typeError "derivedView must match its canonical document manifest.")
  if ¬ view.retiredDocuments.all (fun marker => findRecord records
      (.manifest (.supersession marker.documentId marker.documentVersion)) = some marker) then
    throw (.typeError "derivedView retirement must match its canonical supersession record.")

def checkDerivedView (derivedView : Option DerivedViewAdmission) (records : List Entry) :
    Except StoreError Unit :=
  match derivedView with
  | none => .ok ()
  | some view => do
    documentViewAdmission view
    assertDerivedViewRecords view records

structure PreparedCommit where
  requestId : String
  records : List Entry
  transitions : List Transition
  guards : List GuardKey
  absentKeys : List Key
  matchingRecords : List Entry
  outboxPayload : OutboxPayload
  derivedView : Option DerivedViewAdmission
  content : List ContentEntry
  fingerprint : Digest

def PreparedCommit.recordKeys (prepared : PreparedCommit) : List Key := prepared.records.map (·.1)

/-- `normalizeOutboxPayload` -/
def CanonicalCommit.outboxPayload (commit : CanonicalCommit) : OutboxPayload :=
  commit.outbox.getD {
    requestId := some commit.requestId
    recordKeys := some ((sortEntries codec commit.records).map (·.1)) }

/-- What the request is fingerprinted by, in the order of the encoded keys. -/
def CanonicalCommit.content (commit : CanonicalCommit) : List ContentEntry :=
  sortContent codec
    ((sortEntries codec commit.records).map .record ++
      ((sortTransitions codec commit.transitions).map fun transition => .record transition.entry) ++
      [.outbox (commit.outboxPayload codec)] ++
      (sortGuards codec commit.guards).map .guard)

def prepareCommit (commit : CanonicalCommit) : Except StoreError PreparedCommit := do
  if commit.requestId = "" then
    throw (.typeError "Canonical commits require a non-empty requestId.")
  if commit.records = [] then
    throw (.typeError "Canonical commits require at least one record.")
  checkDerivedView commit.derivedView (sortEntries codec commit.records)
  checkConsistent codec (commit.content codec)
  let fingerprint ← requestFingerprint codec (commit.content codec)
  return {
    requestId := commit.requestId
    records := sortEntries codec commit.records
    transitions := sortTransitions codec commit.transitions
    guards := sortGuards codec commit.guards
    absentKeys := sortKeys codec commit.mustBeAbsent
    matchingRecords := sortEntries codec commit.mustMatch
    outboxPayload := commit.outboxPayload codec
    derivedView := commit.derivedView
    content := commit.content codec
    fingerprint }

/-! ## Preconditions -/

def requireAbsent (k : Key) : Txn Unit := do
  let current ← Txn.get k
  require (current = none)
    (.coded "SUPERSEDED" "Canonical admission precondition failed because the key already exists.")

def requireMatch (entry : Entry) : Txn Unit := do
  let current ← Txn.get entry.1
  require (current = some entry.2) (.canonicalTransitionConflict entry.1)

def requirePrevious (transition : Transition) : Txn Unit := do
  let current ← Txn.get transition.key
  require (current = transition.previous) (.canonicalTransitionConflict transition.key)

/-- A record that is not there yet is to be inserted; one that is there must be the same. -/
def recordToInsert (entry : Entry) : Txn Bool := do
  let current ← Txn.get entry.1
  require (current = none ∨ current = some entry.2) (.immutableRecordConflict entry.1)
  return decide (current = none)

def recordsToInsert : List Entry → Txn (List Entry)
  | [] => return []
  | entry :: rest => do
    let insert ← recordToInsert entry
    let others ← recordsToInsert rest
    return if insert then entry :: others else others

/-! ## Writing -/

/-- `bumpGuardSync` -/
def bumpGuard (key : GuardKey) : Txn Unit := do
  let current ← Txn.get (.guard key)
  let revision := (current.map (·.revision)).getD 0 + 1
  require (revision ≤ maxSafeInteger) (.rangeError "Conflict guard revision overflowed.")
  Txn.put (.guard key) { revision }

def nextOutboxSequence : Txn Nat := do
  let current ← Txn.get (.counter .outbox)
  let sequence := current.getD 0 + 1
  require (sequence ≤ maxSafeInteger) (.rangeError "Counter outbox overflowed.")
  Txn.put (.counter .outbox) sequence
  return sequence

def createDocumentOrdinal (view : DerivedViewAdmission) (ordinal : Nat) : DocumentOrdinal where
  ordinal
  project := view.project
  sessionId := view.sessionId
  documentId := view.documentId
  documentVersion := view.documentVersion
  admittedAt := view.admittedAt

def createDerivedViewTombstone (assignment : DocumentOrdinal) (marker : Tombstone) :
    DerivedViewTombstone where
  ordinal := assignment.ordinal
  project := assignment.project
  documentId := assignment.documentId
  documentVersion := assignment.documentVersion
  status := marker.status
  reason := marker.reason
  recordedAt := marker.recordedAt

/-- Assign the next ordinal to a document that has none. -/
def allocateOrdinal (view : DerivedViewAdmission) : Txn Nat := do
  let current ← Txn.get (.counter .documentOrdinal)
  let ordinal := current.getD 0 + 1
  require (ordinal ≤ maxDocumentOrdinal)
    (.rangeError "Document ordinal counter exceeded the uint32 range.")
  Txn.put (.counter .documentOrdinal) ordinal
  let assignment := createDocumentOrdinal view ordinal
  Txn.put (.derivedView (.document view.project view.documentId view.documentVersion)) assignment
  let _ ← Txn.putImmutable (.derivedView (.ordinal ordinal)) assignment
  let _ ← Txn.putImmutable (.derivedView (.projectDocument view.project ordinal)) assignment
  let _ ← Txn.putImmutable (.derivedView (.sessionDocument view.project view.sessionId ordinal))
    assignment
  return ordinal

/-- The ordinal of the admitted document, and whether it is new. -/
def assignOrdinal (view : DerivedViewAdmission) : Txn (Nat × Bool) := do
  let existing ← Txn.get
    (.derivedView (.document view.project view.documentId view.documentVersion))
  match existing with
  | some existing => do
    require (createDocumentOrdinal view existing.ordinal = existing) (.schemaCompatibility
        s!"Document ordinal {existing.ordinal} conflicts with its canonical identity.")
    return (existing.ordinal, false)
  | none => do
    let ordinal ← allocateOrdinal view
    return (ordinal, true)

/-- Mark the ordinal of a retired version; `true` when the mark is new. -/
def retireOrdinal (project : String) (retired : Tombstone) : Txn Bool := do
  let target ← Txn.get
    (.derivedView (.document project retired.documentId retired.documentVersion))
  match target with
  | none => Transaction.fail (.schemaCompatibility
      s!"Retired document {retired.documentId}@{retired.documentVersion} has no ordinal.")
  | some target => do
    let status ← Txn.putImmutable (.derivedView (.tombstone target.project target.ordinal))
      (createDerivedViewTombstone target retired)
    return decide (status = .inserted)

/-- Retire the ordinals one by one, and count the new marks. -/
def retireOrdinals (project : String) : List Tombstone → Txn Nat
  | [] => return 0
  | retired :: rest => do
    let inserted ← retireOrdinal project retired
    let count ← retireOrdinals project rest
    return if inserted then count + 1 else count

/-- `advanceDerivedViewManifest`, where only the count of newly tombstoned ordinals matters. -/
def advanceDerivedViewManifest (current : Option DerivedViewManifest) (project : String)
    (admitted : Option Nat) (tombstoned updatedAt : Nat) : Except StoreError DerivedViewManifest :=
  if current.any (fun current => current.project ≠ project ∨ current.activeEpoch = 0
      ∨ current.admittedDocuments < current.tombstonedDocuments
      ∨ current.tombstoneGeneration < current.tombstonedDocuments) then
    .error (.schemaCompatibility s!"Derived-view manifest for {project} is malformed.")
  else .ok {
    project
    activeEpoch := (current.map (·.activeEpoch)).getD 1
    ordinalHighWatermark :=
      max ((current.map (·.ordinalHighWatermark)).getD 0) (admitted.getD 0)
    admittedDocuments :=
      (current.map (·.admittedDocuments)).getD 0 + (if admitted.isSome then 1 else 0)
    tombstonedDocuments := (current.map (·.tombstonedDocuments)).getD 0 + tombstoned
    tombstoneGeneration := (current.map (·.tombstoneGeneration)).getD 0 + tombstoned
    updatedAt := max ((current.map (·.updatedAt)).getD 0) updatedAt }

def advanceDerivedViewOutbox (state : Option UpgradeState) (sequence : Nat) :
    Except StoreError UpgradeState :=
  match state with
  | none => .error (.schemaCompatibility "Derived-view upgrade state is missing or malformed.")
  | some state => .ok {
      state with
      outboxHighWatermark := max state.outboxHighWatermark sequence
      retirementHighWatermark := max state.retirementHighWatermark sequence }

/-- `advanceDerivedViewOutbox` of the stored upgrade state. -/
def advanceUpgradeState (sequence : Nat) : Txn Unit := do
  let upgrade ← Txn.get (.derivedView .upgradeState)
  let advanced ← Transaction.ofExcept (advanceDerivedViewOutbox upgrade sequence)
  Txn.put (.derivedView .upgradeState) advanced

/-- The part of a commit that maintains the derived view; returns the document's ordinal. -/
def advanceDerivedView (view : DerivedViewAdmission) (outboxSequence committedAt : Nat) :
    Txn Nat := do
  let (ordinal, isNew) ← assignOrdinal view
  let tombstoned ← retireOrdinals view.project view.retiredDocuments
  let active ← Txn.get (.derivedView (.active view.project))
  let advanced ← Transaction.ofExcept (advanceDerivedViewManifest active view.project
    (if isNew then some ordinal else none) tombstoned committedAt)
  Txn.put (.derivedView (.active view.project)) advanced
  advanceUpgradeState outboxSequence
  return ordinal

def advanceView (derivedView : Option DerivedViewAdmission) (outboxSequence committedAt : Nat) :
    Txn (Option Nat) :=
  match derivedView with
  | none => return none
  | some view => do
    let ordinal ← advanceDerivedView view outboxSequence committedAt
    return some ordinal

/-! ## The transaction -/

/-- What a replay returns: the result of the commit the marker is of. -/
def IdempotencyMarker.duplicateResult (marker : IdempotencyMarker) (requestId : String)
    (fingerprint : Digest) : CommitResult where
  requestId
  duplicate := true
  fingerprint
  recordKeys := marker.recordKeys
  outboxKey := marker.outboxKey
  outboxSequence := marker.outboxSequence
  documentOrdinal := marker.documentOrdinal

def DerivedViewAdmission.identity (view : DerivedViewAdmission) : DocumentIdentity where
  project := view.project
  documentId := view.documentId
  documentVersion := view.documentVersion

/-- The preconditions of a commit, in the order of the source; returns the records to insert. -/
def checkPreconditions (prepared : PreparedCommit) : Txn (List Entry) := do
  forEach requireAbsent prepared.absentKeys
  forEach requireMatch prepared.matchingRecords
  forEach requirePrevious prepared.transitions
  recordsToInsert prepared.records

def putEntry (entry : Entry) : Txn Unit := Txn.put entry.1 entry.2

/-- Write a request that is not a replay; `events` are appended to the history variable. -/
def writeCommit (prepared : PreparedCommit) (committedAt : Nat) (events : List Event) :
    Txn CommitResult := do
  let inserts ← checkPreconditions prepared
  forEach bumpGuard prepared.guards
  forEach putEntry inserts
  forEach putEntry (prepared.transitions.map (·.entry))
  let outboxSequence ← nextOutboxSequence
  let _ ← Txn.putImmutable (.outbox (.entry outboxSequence))
    { prepared.outboxPayload with sequence := outboxSequence }
  let documentOrdinal ← advanceView prepared.derivedView outboxSequence committedAt
  Txn.put (.idempotency prepared.requestId) {
    requestId := prepared.requestId
    fingerprint := prepared.fingerprint
    recordKeys := prepared.recordKeys
    outboxKey := .outbox (.entry outboxSequence)
    outboxSequence
    committedAt
    documentOrdinal }
  let result : CommitResult := {
    requestId := prepared.requestId
    duplicate := false
    fingerprint := prepared.fingerprint
    recordKeys := prepared.recordKeys
    outboxKey := .outbox (.entry outboxSequence)
    outboxSequence
    documentOrdinal }
  forEach Txn.emit
    (.committed prepared.content (prepared.derivedView.map (·.identity)) result :: events)
  return result

def commitTransaction (prepared : PreparedCommit) (committedAt : Nat) (events : List Event) :
    Txn CommitResult := do
  let marker ← Txn.get (.idempotency prepared.requestId)
  match marker with
  | some marker => do
    require (marker.fingerprint = prepared.fingerprint) (.idempotencyConflict prepared.requestId)
    return marker.duplicateResult prepared.requestId prepared.fingerprint
  | none => writeCommit prepared committedAt events

/-- Atomically commit immutable records, an outbox entry and an idempotency marker. -/
def commitCanonical (commit : CanonicalCommit) (committedAt : Nat) (events : List Event) :
    Prog CommitResult := do
  let prepared ← Program.ofExcept (prepareCommit codec commit)
  Program.transaction (commitTransaction prepared committedAt events)

end ContextStore
