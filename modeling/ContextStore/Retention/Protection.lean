import ContextStore.Documents.Admission
import ContextStore.Outbox.Plan

/-! # Active-context protections

An owner names sessions and document versions that must not expire while its context uses them.
`protectEvidence` creates the owner's protection or replaces it by a later one (a heartbeat),
`releaseProtection` removes it, and `cleanupExpiredProtections` reclaims expired ones within a work
limit. Besides the record under the owner there are three families of index records: by expiry, by
session and by document version. -/

namespace ContextStore

open Concurrent

/-! ## Requests -/

def MAX_SESSION_LINEAGE_IDS : Nat := 65

def MAX_PROTECTED_DOCUMENT_VERSIONS : Nat := 1000

def DEFAULT_RETENTION_WORK_LIMIT : Nat := 256

def MAX_SCAN_LIMIT : Nat := 100000

structure ProtectionRequest where
  ownerId : String
  sessionIds : List String
  documentVersions : List DocumentVersionRef
  ttlMs : Nat

/-- `assertStoreRequest("store.protect", request)` -/
def assertProtectionRequest (request : ProtectionRequest) : Except StoreError Unit :=
  if request.ownerId = "" ∨ request.sessionIds.any (· = "")
      ∨ MAX_SESSION_LINEAGE_IDS < request.sessionIds.length
      ∨ request.documentVersions.any (fun target => target.documentId = "" ∨ target.version = 0)
      ∨ MAX_PROTECTED_DOCUMENT_VERSIONS < request.documentVersions.length
      ∨ request.ttlMs = 0 ∨ maxSafeInteger < request.ttlMs then
    .error (.coded "INVALID_REQUEST" "The store.protect request is invalid.")
  else .ok ()

def timestamp (value : Nat) (label : String) : Except StoreError Nat :=
  if maxSafeInteger < value then
    .error (.typeError s!"{label} must be a non-negative safe integer timestamp.")
  else .ok value

theorem timestamp_ok {value value' : Nat} {label : String}
    (h : timestamp value label = .ok value') : value = value' := by
  unfold timestamp at h
  split at h
  · cases h
  · exact Except.ok.inj h

/-- `positiveInteger` with a maximum. -/
def positiveIntegerUpTo (value : Nat) (label : String) (maximum : Nat) : Except StoreError Nat :=
  if value = 0 ∨ maximum < value then
    .error (.typeError
      s!"{label} must be a positive safe integer no greater than {maximum}.")
  else .ok value

/-- A project is optional, but not empty. -/
def optionalProject (project : Option String) : Except StoreError Unit :=
  match project with
  | none => .ok ()
  | some project => identifier project "project"

/-- The protection a request asks for, with every session and target named once. -/
def normalizeProtectionRequest (request : ProtectionRequest) (now : Nat)
    (project : Option String) : Except StoreError Protection := do
  assertProtectionRequest request
  let issuedAt ← timestamp now "now"
  if maxSafeInteger < issuedAt + request.ttlMs then
    throw (.rangeError "Protection expiry overflows a safe integer.")
  optionalProject project
  return {
    ownerId := request.ownerId
    project
    issuedAt
    expiresAt := issuedAt + request.ttlMs
    sessionIds := request.sessionIds.eraseDups
    documentVersions := request.documentVersions.eraseDups }

/-! ## Targets -/

/-- What the compact ledger says about a version that is to be protected. -/
inductive TargetHistory where
  | absent
  | invalid
  | live (project : String)

def liveProtectionHistory (history : Option DocumentHistory) (target : DocumentVersionRef) :
    TargetHistory :=
  match history with
  | none => .absent
  | some history =>
    if history.documentId ≠ target.documentId ∨ history.project = ""
        ∨ history.highestAdmittedVersion ≠ target.version
        ∨ history.retiredThrough ≠ target.version - 1 then .invalid
    else .live history.project

def invalidProtectionTarget (target : DocumentVersionRef) : StoreError :=
  .coded "UNAUTHORIZED"
    ("Cannot protect missing, unauthorized, expired, or superseded document "
      ++ s!"{target.documentId}@{target.version}.")

/-- The authorization field of a validated target, for the recheck in the transaction. -/
structure ValidatedTarget where
  target : DocumentVersionRef
  ledgerBacked : Bool
  project : String

/-- Check one target outside the transaction. Without a ledger the manifest itself is read. -/
def validateTarget (project : Option String) (target : DocumentVersionRef) :
    Prog ValidatedTarget := do
  let stored ← Program.read fun w => w.store.has
    (.manifest (.document target.documentId target.version))
  let history ← Prog.get (.manifest (.documentHistory target.documentId))
  let manifest ← Prog.get (.manifest (.document target.documentId target.version))
  let validated : Option ValidatedTarget := match liveProtectionHistory history target with
    | .absent => manifest.map fun (manifest : Manifest) =>
      { target, ledgerBacked := false, project := manifest.project }
    | .invalid => none
    | .live owner => some { target, ledgerBacked := true, project := owner }
  match validated with
  | none => Program.fail (invalidProtectionTarget target)
  | some validated => do
    Program.require (stored ∧ (project = none ∨ project = some validated.project))
      (invalidProtectionTarget target)
    return validated

def validateTargets (project : Option String) : List DocumentVersionRef →
    Prog (List ValidatedTarget)
  | [] => return []
  | target :: rest => do
    let validated ← validateTarget project target
    let others ← validateTargets project rest
    return validated :: others

/-- Check one target again inside the transaction. -/
def recheckTarget (project : Option String) (validated : ValidatedTarget) : Txn Unit := do
  let target := validated.target
  let supersession ← Txn.get (.manifest (.supersession target.documentId target.version))
  let history ← Txn.get (.manifest (.documentHistory target.documentId))
  let historyIsCurrent : Prop := match liveProtectionHistory history target with
    | .absent => validated.ledgerBacked = false
    | .invalid => False
    | .live owner => owner = validated.project
  let _ : Decidable historyIsCurrent := by
    unfold historyIsCurrent
    split <;> exact inferInstance
  Transaction.require (supersession = none ∧ historyIsCurrent
    ∧ (project = none ∨ project = some validated.project)) (invalidProtectionTarget target)

/-! ## Create, heartbeat, release -/

namespace Protection

def reference (protection : Protection) : ProtectionReference where
  ownerId := protection.ownerId
  expiresAt := protection.expiresAt

def guards (protection : Protection) : List GuardKey :=
  protection.sessionIds.map .session ++
    protection.documentVersions.map fun target => .document target.documentId target.version

def sessionKey (protection : Protection) (sessionId : String) : Key :=
  .retention (.protectionSession sessionId protection.ownerId protection.project)

def documentKey (protection : Protection) (target : DocumentVersionRef) : Key :=
  .retention (.protectionDocument target.documentId target.version protection.ownerId)

def expiryKey (protection : Protection) : Key :=
  .retention (.protectionExpiry protection.expiresAt protection.ownerId)

end Protection

def removeProtectionReferences (protection : Protection) : Txn Unit := do
  Transaction.forEach (fun sessionId => Txn.remove (protection.sessionKey sessionId))
    protection.sessionIds
  Transaction.forEach (fun target => Txn.remove (protection.documentKey target))
    protection.documentVersions
  Txn.remove protection.expiryKey

def removePreviousReferences (previous : Option Protection) : Txn Unit :=
  match previous with
  | none => return ()
  | some previous => removeProtectionReferences previous

def putProtection (protection : Protection) : Txn Unit := do
  Txn.put (.retention (.protection protection.ownerId)) protection
  Txn.put (.retention (.protectionExpiry protection.expiresAt protection.ownerId))
    protection.reference
  Transaction.forEach (fun sessionId => Txn.put
      (.retention (.protectionSession sessionId protection.ownerId protection.project))
      protection.reference)
    protection.sessionIds
  Transaction.forEach (fun (target : DocumentVersionRef) => Txn.put
      (.retention (.protectionDocument target.documentId target.version protection.ownerId))
      protection.reference)
    protection.documentVersions

structure ProtectionResult where
  ownerId : String
  expiresAt : Nat
  protectedSessions : Nat
  protectedDocuments : Nat

def protectTransaction (protection : Protection) (validated : List ValidatedTarget) :
    Txn ProtectionResult := do
  Transaction.forEach bumpGuard protection.guards
  Transaction.forEach (recheckTarget protection.project) validated
  let previous ← Txn.get (.retention (.protection protection.ownerId))
  removePreviousReferences previous
  putProtection protection
  return {
    ownerId := protection.ownerId
    expiresAt := protection.expiresAt
    protectedSessions := protection.sessionIds.length
    protectedDocuments := protection.documentVersions.length }

/-- Create or heartbeat one owner-scoped active-context protection set. -/
def protectEvidence (request : ProtectionRequest) (project : Option String) (now : Nat) :
    Prog ProtectionResult := do
  let protection ← Program.ofExcept (normalizeProtectionRequest request now project)
  let validated ← validateTargets protection.project protection.documentVersions
  Program.transaction (protectTransaction protection validated)

/-- The transaction of `releaseProtection`; returns how many references are released. -/
def releaseProtectionTransaction (ownerId : String) : Txn Nat := do
  let protection ← Txn.get (.retention (.protection ownerId))
  match protection with
  | none => return 0
  | some (protection : Protection) => do
    removeProtectionReferences protection
    Txn.remove (.retention (.protection ownerId))
    return protection.sessionIds.length + protection.documentVersions.length

def releaseProtection (ownerId : String) : Prog Nat := do
  Program.require (ownerId ≠ "")
    (.coded "INVALID_REQUEST" "The store.release-protection request is invalid.")
  Program.transaction (releaseProtectionTransaction ownerId)

/-! ## Bounded cleanup -/

/-- `protectionCleanupProgress` -/
def Protection.progress (protection : Protection) : ProtectionProgress :=
  protection.cleanupProgress.getD { sessionOffset := 0, documentOffset := 0 }

structure BatchResult where
  work : Nat
  released : Bool
  complete : Bool

/-- One loop of the batch: remove the keys of `items` in order while the budget lasts; returns how
    many were removed. -/
def removeWithin {β : Type} (key : β → Key) : List β → Nat → Txn Nat
  | [], _ => return 0
  | _ :: _, 0 => return 0
  | item :: rest, budget + 1 => do
    Txn.remove (key item)
    let count ← removeWithin key rest budget
    return count + 1

/-- Remove references of an expired protection from the recorded progress on; the protection itself
    goes with its last reference. -/
def reclaimReferences (current : Protection) (expiresAt : Nat) (ownerId : String)
    (workLimit : Nat) : Txn BatchResult := do
  let progress := current.progress
  let sessions ← removeWithin current.sessionKey
    (current.sessionIds.drop progress.sessionOffset) workLimit
  let documents ← removeWithin current.documentKey
    (current.documentVersions.drop progress.documentOffset) (workLimit - sessions)
  let sessionOffset := progress.sessionOffset + sessions
  let documentOffset := progress.documentOffset + documents
  if current.sessionIds.length ≤ sessionOffset
      ∧ current.documentVersions.length ≤ documentOffset then do
    Txn.remove (.retention (.protectionExpiry expiresAt ownerId))
    Txn.remove (.retention (.protection ownerId))
    return { work := sessions + documents, released := true, complete := true }
  else do
    Txn.put (.retention (.protection ownerId))
      { current with cleanupProgress := some { sessionOffset, documentOffset } }
    return { work := sessions + documents, released := false, complete := false }

/-- An expiry entry whose owner has no protection, or a later one, is removed alone. -/
def removeStaleEntry (expiresAt : Nat) (ownerId : String) : Txn BatchResult := do
  Txn.remove (.retention (.protectionExpiry expiresAt ownerId))
  return { work := 1, released := false, complete := true }

def cleanupBatchTransaction (expiresAt : Nat) (ownerId : String) (now workLimit : Nat) :
    Txn BatchResult := do
  let current ← Txn.get (.retention (.protection ownerId))
  match current with
  | none => removeStaleEntry expiresAt ownerId
  | some (current : Protection) =>
    if current.expiresAt ≠ expiresAt then removeStaleEntry expiresAt ownerId
    else if now < current.expiresAt then
      return { work := 0, released := false, complete := true }
    else reclaimReferences current expiresAt ownerId workLimit

/-- `cleanupExpiredProtectionBatch` -/
def cleanupExpiredProtectionBatch (expiresAt : Nat) (ownerId : String) (now workLimit : Nat) :
    Prog BatchResult :=
  Program.transaction (cleanupBatchTransaction expiresAt ownerId now workLimit)

structure ProtectionSweep where
  scanned : Nat := 0
  released : Nat := 0
  work : Nat := 0
  partialOwner : Bool := false

/-- The loop over the due entries: it ends at the first entry that is not due, when the work limit
    is used up, and after an owner that could not be finished. -/
def sweepProtections (now workLimit : Nat) (sweep : ProtectionSweep) :
    List (Nat × String) → Prog ProtectionSweep
  | [] => return sweep
  | (expiresAt, ownerId) :: rest =>
    if now < expiresAt then return sweep
    else if workLimit ≤ sweep.work then return { sweep with partialOwner := true }
    else do
      let cleaned ← cleanupExpiredProtectionBatch expiresAt ownerId now
        (workLimit - sweep.work)
      let sweep : ProtectionSweep := {
        sweep with
        scanned := sweep.scanned + 1
        released := sweep.released + if cleaned.released then 1 else 0
        work := sweep.work + cleaned.work }
      if cleaned.complete then sweepProtections now workLimit sweep rest
      else return { sweep with partialOwner := true }

structure CleanupReport where
  scanned : Nat
  released : Nat
  work : Nat := 0
  more : Bool

/-- The first `limit` entries under `protectionExpiryPrefix`. -/
def dueProtections (limit : Nat) (w : World) : List (Nat × String) :=
  (w.store.scan (fun k _ => match k with
    | .retention (.protectionExpiry expiresAt ownerId) => some (expiresAt, ownerId)
    | _ => none)
    (fun a b => a.1 < b.1 ∨ (a.1 = b.1 ∧ fieldLe a.2 b.2))).take limit

/-- Reclaim expired owner heartbeats and all of their secondary references. -/
def cleanupExpiredProtections (now limit workLimit : Nat) : Prog CleanupReport := do
  let now ← Program.ofExcept (timestamp now "now")
  let limit ← Program.ofExcept (positiveIntegerUpTo limit "limit" MAX_SCAN_LIMIT)
  let workLimit ← Program.ofExcept (positiveIntegerUpTo workLimit "workLimit" MAX_SCAN_LIMIT)
  let due ← Program.read (dueProtections limit)
  let sweep ← sweepProtections now workLimit {} due
  return {
    scanned := sweep.scanned
    released := sweep.released
    work := sweep.work
    more := sweep.partialOwner
      || (decide (due.length = limit) && due.getLast?.any fun last => decide (last.1 ≤ now)) }

end ContextStore
