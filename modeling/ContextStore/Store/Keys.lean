import Mathlib.Data.List.AList

/-! # Keys

Every key family of the store, grouped by the module of the source that declares it. A key of the
source is a binary tuple with length-delimited fields, so two tuples are equal exactly when their
fields are; here a tuple is a constructor applied to its fields. Handlers of the index write keys
that no module declares: such a key is carried as the base64url text of its encoding, the form in
which index plans hold it. -/

namespace ContextStore

/-- A value of `randomUUID`: the supply never returns one twice. -/
structure Uuid where
  serial : Nat
deriving DecidableEq

/-- A hexadecimal digest. -/
abbrev Digest : Type := String

/-- `keyFor.counter` -/
inductive CounterKey where
  | outbox
  | documentOrdinal
  | indexGeneration
  | recall (project documentId : String) (version : Nat)
deriving DecidableEq

/-- `outboxKeys` -/
inductive OutboxKey where
  | entry (sequence : Nat)
  | state (sequence : Nat)
  | stage (generation : Nat)
  | stageTablet (generation ordinal : Nat)
  | stageApplied (generation ordinal : Nat)
  | stageReady (generation : Nat)
  | generation (generation : Nat)
  | cursor
  | publishedGeneration
  | preparationMetrics
deriving DecidableEq

/-- The two shared payload kinds a document can own besides its text. -/
inductive AuxiliaryKind where
  | turn
  | toolResult
deriving DecidableEq

/-- `manifestKeys`, with the supersession keyspace that the admission and retention modules
    spell out in place. -/
inductive ManifestKey where
  | chunk (chunkId : String)
  | chunkReference (chunkId documentId : String) (version ordinal : Nat)
  | document (documentId : String) (version : Nat)
  | documentHistory (documentId : String)
  | documentAdmissionReference (documentId : String) (version : Nat) (requestId : String)
  | sourceMessage (project sessionId sourceKey : String)
  | sourceMessageReference (project sessionId sourceKey documentId : String) (version : Nat)
  | sessionDocumentReference (project sessionId documentId : String) (version : Nat)
  | subjectLive (project subjectKey : String)
  | window (documentId : String) (version ordinal : Nat)
  | auxiliary (kind : AuxiliaryKind) (manifestId : String) (version : Nat)
  | auxiliaryReference (kind : AuxiliaryKind) (manifestId : String) (version : Nat)
      (documentId : String) (documentVersion : Nat)
  | supersession (documentId : String) (version : Nat)
deriving DecidableEq

/-- `retentionKeys`. An expiry key written at admission carries no generation. -/
inductive RetentionKey where
  | pin (pinId : String)
  | pinDocument (documentId : String) (version : Nat) (pinId : String)
  | protection (ownerId : String)
  | protectionExpiry (expiresAt : Nat) (ownerId : String)
  | protectionDocument (documentId : String) (version : Nat) (ownerId : String)
  | protectionSession (sessionId ownerId : String) (project : Option String)
  | expiryCurrent (documentId : String) (version : Nat)
  | expiry (expiresAt : Nat) (retentionClass documentId : String) (version : Nat)
      (generation : Option Nat)
  | cleanup (documentId : String) (version : Nat)
  | cleanupManifest (documentId : String) (version : Nat)
  | auditExpiry (expiresAt : Nat) (documentId : String) (version : Nat)
  | access (documentId : String) (version bucket : Nat)
deriving DecidableEq

/-- `leaseKeys` -/
inductive LeaseKey where
  | byId (leaseId : Uuid)
  | byExpiry (expiresAt : Nat) (leaseId : Uuid)
  | byDocument (documentId : String) (documentVersion : Nat) (leaseId : Uuid)
  | byDocumentExpiry (documentId : String) (documentVersion expiresAt : Nat) (leaseId : Uuid)
deriving DecidableEq

/-- `guardKeys` -/
inductive GuardKey where
  | document (documentId : String) (version : Nat)
  | session (sessionId : String)
  | chunk (chunkId : String)
  | sourceMessage (project sessionId sourceKey : String)
  | auxiliaryManifest (kind : AuxiliaryKind) (manifestId : String) (version : Nat)
deriving DecidableEq

/-- `derivedViewKeys` -/
inductive DerivedViewKey where
  | upgradeState
  | active (project : String)
  | document (project documentId : String) (version : Nat)
  | ordinal (ordinal : Nat)
  | projectDocument (project : String) (ordinal : Nat)
  | sessionDocument (project sessionId : String) (ordinal : Nat)
  | tombstone (project : String) (ordinal : Nat)
deriving DecidableEq

/-- `migrationKeys` -/
inductive MigrationKey where
  | status
  | checkpoint (sourceDatabaseId : String)
  | authority (sourceDatabaseId : String)
  | backendAuthority
  | source (sourceDatabaseId : String) (orderingKey : Nat)
  | failure (sourceDatabaseId : String) (orderingKey : Nat)
  | comparison (sourceDatabaseId : String) (runId : Uuid) (index : Nat)
  | comparisonRun (sourceDatabaseId : String) (runId : Uuid)
  | comparisonHistory (sourceDatabaseId : String)
deriving DecidableEq

inductive Key where
  | counter (key : CounterKey)
  | idempotency (requestId : String)
  | outbox (key : OutboxKey)
  | manifest (key : ManifestKey)
  | retention (key : RetentionKey)
  | lease (key : LeaseKey)
  | guard (key : GuardKey)
  | derivedView (key : DerivedViewKey)
  | migration (key : MigrationKey)
  /-- A key of an unprotected keyspace, written by index handlers. -/
  | derived (text : String)
deriving DecidableEq

/-- The order of two string fields of encoded keys: the length prefix comes first. -/
def fieldLe (a b : String) : Prop :=
  a.utf8ByteSize < b.utf8ByteSize ∨ (a.utf8ByteSize = b.utf8ByteSize ∧ a ≤ b)

instance : DecidableRel fieldLe := fun a b => by
  unfold fieldLe
  exact inferInstance

end ContextStore
