import ContextStore.Retention.Protection

/-! # Retrieval leases

A lease keeps one exact document version from expiring while a locator to it is out. It is never
changed: `createRetrievalLease` writes it with its three index records, `releaseLease` removes the
four, and `cleanupExpiredLeases` releases those that have expired. -/

namespace ContextStore

open Concurrent

def DEFAULT_RETRIEVAL_LEASE_MS : Nat := 5 * 60 * 1000

def MAX_RETRIEVAL_LEASE_MS : Nat := 60 * 60 * 1000

structure LeaseRequest where
  leaseId : Option Uuid := none
  ownerId : String := "retrieval"
  documentId : String
  documentVersion : Nat
  ttlMs : Nat := DEFAULT_RETRIEVAL_LEASE_MS

def Lease.reference (lease : Lease) : LeaseReference where
  leaseId := lease.leaseId
  expiresAt := lease.expiresAt

/-- The lease a request asks for, under the identifier it is given. -/
def leaseRecord (request : LeaseRequest) (leaseId : Uuid) (now : Nat) :
    Except StoreError Lease := do
  let issuedAt ← timestamp now "now"
  let duration ← positiveIntegerUpTo request.ttlMs "ttlMs" MAX_RETRIEVAL_LEASE_MS
  if maxSafeInteger < issuedAt + duration then
    throw (.rangeError "Lease expiry overflows a safe integer.")
  identifier request.ownerId "ownerId"
  identifier request.documentId "documentId"
  let documentVersion ← positiveIntegerUpTo request.documentVersion "documentVersion"
    maxSafeInteger
  return {
    leaseId
    ownerId := request.ownerId
    documentId := request.documentId
    documentVersion
    issuedAt
    expiresAt := issuedAt + duration }

def putLease (lease : Lease) : Txn Unit := do
  let _ ← Txn.putImmutable (.lease (.byId lease.leaseId)) lease
  let _ ← Txn.putImmutable (.lease (.byExpiry lease.expiresAt lease.leaseId)) lease.reference
  let _ ← Txn.putImmutable (.lease (.byDocumentExpiry lease.documentId lease.documentVersion
    lease.expiresAt lease.leaseId)) lease.reference
  let _ ← Txn.putImmutable (.lease (.byDocument lease.documentId lease.documentVersion
    lease.leaseId)) lease.reference
  Txn.emit (.leased lease.leaseId)

/-- Returns whether the lease was there before with the same claims. -/
def leaseTransaction (lease : Lease) : Txn (Lease × Bool) := do
  bumpGuard (.document lease.documentId lease.documentVersion)
  let existing ← Txn.get (.lease (.byId lease.leaseId))
  match existing with
  | some (existing : Lease) => do
    Transaction.require (existing = lease)
      (.plain s!"Retrieval lease {lease.leaseId.serial} already exists with different claims.")
    return (existing, true)
  | none => do
    let supersession ← Txn.get
      (.manifest (.supersession lease.documentId lease.documentVersion))
    Transaction.require (supersession = none)
      (.leaseTargetUnavailable lease.documentId lease.documentVersion)
    putLease lease
    return (lease, false)

/-- `leaseId = randomUUID()`: drawn unless the caller passes one. -/
def chooseLeaseId (leaseId : Option Uuid) : Prog Uuid :=
  match leaseId with
  | some leaseId => return leaseId
  | none => Program.transaction Txn.randomUUID

/-- Create one durable, crash-expiring lease for an exact immutable version. -/
def createRetrievalLease (request : LeaseRequest) (now : Nat) : Prog (Lease × Bool) := do
  let leaseId ← chooseLeaseId request.leaseId
  let lease ← Program.ofExcept (leaseRecord request leaseId now)
  Program.transaction (leaseTransaction lease)

/-- `validateRecord` and the removal of a lease and all of its secondary references; `false` when
    there is none. -/
def releaseLeaseFromView (leaseId : Uuid) : Txn Bool := do
  let lease ← Txn.get (.lease (.byId leaseId))
  match lease with
  | none => return false
  | some (lease : Lease) => do
    Transaction.require (lease.leaseId = leaseId)
      (.plain s!"Retrieval lease {leaseId.serial} is malformed.")
    Txn.remove (.lease (.byId leaseId))
    Txn.remove (.lease (.byExpiry lease.expiresAt leaseId))
    Txn.remove (.lease (.byDocument lease.documentId lease.documentVersion leaseId))
    Txn.remove (.lease (.byDocumentExpiry lease.documentId lease.documentVersion lease.expiresAt
      leaseId))
    return true

def releaseLease (leaseId : Uuid) : Prog Bool :=
  Program.transaction (releaseLeaseFromView leaseId)

/-- The first `limit` entries under `byExpiryPrefix`. -/
def dueLeases (limit : Nat) (w : World) : List LeaseReference :=
  ((w.store.scan (fun k v => match k, v with
    | .lease (.byExpiry expiresAt leaseId), payload => some (expiresAt, leaseId, payload)
    | _, _ => none)
    (fun (a b : Nat × Uuid × LeaseReference) =>
      a.1 < b.1 ∨ (a.1 = b.1 ∧ a.2.1.serial ≤ b.2.1.serial))).take limit).map (·.2.2)

structure LeaseSweep where
  scanned : Nat := 0
  released : Nat := 0

/-- One due entry: the lease is released, or the entry, which has outlived it, is removed. -/
def cleanupExpiredLease (entry : LeaseReference) : Prog Bool := do
  let released ← releaseLease entry.leaseId
  if released then return true
  else do
    Program.modify (·.remove (.lease (.byExpiry entry.expiresAt entry.leaseId)))
    return false

def sweepLeases (now : Nat) (sweep : LeaseSweep) : List LeaseReference → Prog LeaseSweep
  | [] => return sweep
  | entry :: rest =>
    if now < entry.expiresAt then return sweep
    else do
      let released ← cleanupExpiredLease entry
      sweepLeases now {
        scanned := sweep.scanned + 1
        released := sweep.released + if released then 1 else 0 } rest

/-- Bounded cleanup for naturally expired retrieval leases. -/
def cleanupExpiredLeases (now limit : Nat) : Prog CleanupReport := do
  let now ← Program.ofExcept (timestamp now "now")
  let limit ← Program.ofExcept (positiveIntegerUpTo limit "limit" 100000)
  let due ← Program.read (dueLeases limit)
  let sweep ← sweepLeases now {} due
  return {
    scanned := sweep.scanned
    released := sweep.released
    more := decide (due.length = limit)
      && due.getLast?.any fun last => decide (last.expiresAt ≤ now) }

end ContextStore
