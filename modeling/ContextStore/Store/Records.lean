import ContextStore.Store.Keys

/-! # Records

What the store keeps under each key family. A record of the source is a JSON object in a versioned
envelope; here it is a structure with the object's fields, and a field the object may lack is an
`Option`. Texts are their UTF-8 bytes, and a JSON value that no modelled function looks into
(`metadata` beyond the named fields, `structuralMessages`) is its stable text. -/

namespace ContextStore

/-! ## Canonical outbox -/

/-- The payload a caller gives for an outbox entry. The first fields are set by the three writers:
    an index entry by an admission, a delete entry by an expiry, and the last two by a commit
    without payload. -/
structure OutboxPayload where
  operation : Option String := none
  documentId : Option String := none
  documentVersion : Option Nat := none
  sourceVersion : Option Nat := none
  admittedAt : Option Nat := none
  requestId : Option String := none
  recordKeys : Option (List Key) := none
deriving DecidableEq

structure OutboxEntry extends OutboxPayload where
  sequence : Nat
deriving DecidableEq

inductive OutboxStatus where
  | pending
  | processing
  | processed
deriving DecidableEq

structure ErrorDetails where
  name : String
  message : String
  code : Option String := none
deriving DecidableEq

structure SkippedHandler where
  id : String
  reason : Option String
  limitKind : Option String
  limit : Option Nat
  observed : Option Nat
deriving DecidableEq

/-- What a worker keeps about one sequence. -/
structure OutboxState where
  stateVersion : Nat
  sequence : Nat
  status : OutboxStatus
  generation : Option Nat := none
  operation : Option String := none
  workerId : Option String := none
  claimToken : Option Uuid := none
  attempt : Nat := 0
  firstClaimedAt : Option Nat := none
  claimedAt : Option Nat := none
  claimedUntil : Option Nat := none
  retryAt : Option Nat := none
  lastError : Option ErrorDetails := none
  processedAt : Option Nat := none
  mutationCount : Option Nat := none
  indexStatus : Option String := none
  skippedHandlers : Option (List SkippedHandler) := none
  stageDigest : Option Digest := none
deriving DecidableEq

inductive StagePhase where
  | prepare
  | publish
  | cleanup
deriving DecidableEq

/-- The two mutation types, with what only a put carries. -/
inductive MutationKind where
  | put (immutable : Bool) (record : String)
  | remove
deriving DecidableEq

/-- One mutation of a plan: `key` and `record` are base64url texts. -/
structure SerializedMutation where
  key : String
  stagePhase : StagePhase
  kind : MutationKind
deriving DecidableEq

structure HandlerMetadata where
  status : Option String := none
  reason : Option String := none
  limitKind : Option String := none
  limit : Option Nat := none
  observed : Option Nat := none
deriving DecidableEq

structure HandlerSummary where
  id : String
  mutationCount : Nat
  metadata : Option HandlerMetadata
deriving DecidableEq

structure TabletContent where
  stageVersion : Nat
  generation : Nat
  outboxSequence : Nat
  ordinal : Nat
  mutationCount : Nat
  prepareCount : Nat
  cleanupCount : Nat
  mutationBytes : Nat
  mutations : List SerializedMutation
deriving DecidableEq

structure Tablet extends TabletContent where
  digest : Digest
deriving DecidableEq

/-- The part of a stage header that only a plan in tablets has. -/
structure TabletsHeader where
  publicationMutations : List SerializedMutation
  publicationMutationCount : Nat
  publicationBytes : Nat
  tabletMaxMutations : Nat
  tabletMaxBytes : Nat
  tabletCount : Nat
  tabletsDigest : Digest
  prepareMutationCount : Nat
  cleanupMutationCount : Nat
deriving DecidableEq

inductive PlanMode where
  | atomic (mutations : List SerializedMutation)
  | tablets (header : TabletsHeader)
deriving DecidableEq

structure PlanContent where
  stageVersion : Nat
  generation : Nat
  outboxSequence : Nat
  operation : String
  documentId : Option String
  documentVersion : Option Nat
  sourceVersion : Option Nat
  handlers : List HandlerSummary
  mutationCount : Nat
  mutationBytes : Nat
  mode : PlanMode
deriving DecidableEq

/-- The durable header of a staged generation. -/
structure StagePlan extends PlanContent where
  digest : Digest
deriving DecidableEq

structure StageApplied where
  generation : Nat
  ordinal : Nat
  tabletDigest : Digest
  stageDigest : Digest
  mutationCount : Nat
deriving DecidableEq

structure StageReady where
  generation : Nat
  outboxSequence : Nat
  stageDigest : Digest
  tabletCount : Nat
  tabletsDigest : Digest
  cleanupOrdinal : Option Nat := none
deriving DecidableEq

/-- The durable record of a published generation. -/
structure Publication where
  generationVersion : Nat
  generation : Nat
  outboxSequence : Nat
  operation : String
  documentId : Option String
  documentVersion : Option Nat
  sourceVersion : Option Nat
  handlers : List HandlerSummary
  indexStatus : String
  skippedHandlers : List SkippedHandler
  partialHandlerCount : Nat
  mutationCount : Nat
  publicationMode : String
  tabletCount : Nat
  stageDigest : Digest
  publishedAt : Nat
deriving DecidableEq

structure OutboxCursor where
  nextSequence : Nat
  advancedAt : Nat
deriving DecidableEq

structure PublishedGeneration where
  generation : Nat
  outboxSequence : Nat
  indexStatus : String
  skippedHandlerCount : Nat
  partialHandlerCount : Nat
  publishedAt : Nat
deriving DecidableEq

structure PreparationMetrics where
  skippedDocuments : Nat
  skippedHandlers : Nat
  lastSkippedDocumentId : Option String
  lastSkippedGeneration : Nat
  updatedAt : Nat
deriving DecidableEq

abbrev OutboxKey.Record : OutboxKey → Type
  | .entry _ => OutboxEntry
  | .state _ => OutboxState
  | .stage _ => StagePlan
  | .stageTablet _ _ => Tablet
  | .stageApplied _ _ => StageApplied
  | .stageReady _ => StageReady
  | .generation _ => Publication
  | .cursor => OutboxCursor
  | .publishedGeneration => PublishedGeneration
  | .preparationMetrics => PreparationMetrics

instance (k : OutboxKey) : DecidableEq k.Record := by
  cases k <;> exact inferInstance

/-! ## Documents -/

structure ChunkPayload where
  chunkId : String
  contentHash : Digest
  byteLength : Nat
  content : List UInt8
deriving DecidableEq

/-- An occurrence of a chunk in a document, without its bytes. -/
structure ChunkOccurrence where
  chunkId : String
  ordinal : Nat
  startByte : Nat
  endByte : Nat
  byteLength : Nat
deriving DecidableEq

structure ChunkReference where
  chunkId : String
  documentId : String
  documentVersion : Nat
  ordinal : Nat
deriving DecidableEq

structure DocumentMetadata where
  turnId : Option String := none
  toolCallId : Option String := none
  parentTurnIds : List String := []
  rest : String := ""
deriving DecidableEq

structure DocumentVersionRef where
  documentId : String
  version : Nat
deriving DecidableEq

structure AuxiliaryIdentity where
  kind : AuxiliaryKind
  manifestId : String
  version : Nat
deriving DecidableEq

structure Manifest where
  manifestId : String
  documentId : String
  version : Nat
  sourceKey : String
  sourceKeyStatus : String
  sessionId : String
  project : String
  kind : String
  createdAt : Nat
  metadata : DocumentMetadata
  sourceMessageKeys : List String
  contentHash : Digest
  byteLength : Nat
  retentionClass : String
  protectedAtAdmission : Bool
  chunks : List ChunkOccurrence
  structuralMessages : String
  subjectKey : Option String := none
  supersedes : Option DocumentVersionRef := none
  expiresAt : Option Nat := none
  auxiliaryManifestReference : Option AuxiliaryIdentity := none
  referenceIndexVersion : Nat := 1
  admissionRequestId : Option String := none
deriving DecidableEq

structure DocumentHistory where
  documentId : String
  project : String
  highestAdmittedVersion : Nat
  retiredThrough : Nat
deriving DecidableEq

structure AdmissionReference where
  documentId : String
  documentVersion : Nat
  requestId : String
deriving DecidableEq

structure SourceMessage where
  eventId : String
  sourceKey : String
  sessionId : String
  project : String
deriving DecidableEq

structure SourceMessageReference where
  eventId : String
  project : String
  sessionId : String
  sourceKey : String
  documentId : String
  documentVersion : Nat
deriving DecidableEq

structure SessionReference where
  project : String
  sessionId : String
  documentId : String
  documentVersion : Nat
deriving DecidableEq

/-- The version a project's subject key currently names. -/
structure SubjectLive where
  project : String
  subjectKey : String
  documentId : String
  documentVersion : Nat
  kind : String
deriving DecidableEq

structure SearchWindow where
  ordinal : Nat
  text : String
deriving DecidableEq

/-- A turn manifest refers to events, a tool-result manifest to chunks. -/
inductive AuxiliaryPayload where
  | turn (turnId : String) (sourceEventIds : List String)
  | toolResult (toolCallId : String) (parentTurnIds chunkIds : List String)
deriving DecidableEq

structure AuxiliaryManifest where
  manifestId : String
  version : Nat
  sessionId : String
  project : String
  payload : AuxiliaryPayload
  createdAt : Nat
deriving DecidableEq

structure AuxiliaryReference where
  kind : AuxiliaryKind
  manifestId : String
  manifestVersion : Nat
  documentId : String
  documentVersion : Nat
deriving DecidableEq

inductive RetirementStatus where
  | superseded
  | expired
deriving DecidableEq

/-- The durable evidence that a version is retired. `explicitly` is set when another document
    replaced it through `supersedes`. -/
structure Tombstone where
  documentId : String
  documentVersion : Nat
  status : RetirementStatus
  replacementDocumentId : Option String := none
  replacementVersion : Option Nat := none
  project : Option String := none
  subjectKey : Option String := none
  explicitly : Bool := false
  reason : String
  recordedAt : Nat
deriving DecidableEq

abbrev ManifestKey.Record : ManifestKey → Type
  | .chunk _ => ChunkPayload
  | .chunkReference _ _ _ _ => ChunkReference
  | .document _ _ => Manifest
  | .documentHistory _ => DocumentHistory
  | .documentAdmissionReference _ _ _ => AdmissionReference
  | .sourceMessage _ _ _ => SourceMessage
  | .sourceMessageReference _ _ _ _ _ => SourceMessageReference
  | .sessionDocumentReference _ _ _ _ => SessionReference
  | .subjectLive _ _ => SubjectLive
  | .window _ _ _ => SearchWindow
  | .auxiliary _ _ _ => AuxiliaryManifest
  | .auxiliaryReference _ _ _ _ _ => AuxiliaryReference
  | .supersession _ _ => Tombstone

instance (k : ManifestKey) : DecidableEq k.Record := by
  cases k <;> exact inferInstance

/-! ## Retention -/

structure Pin where
  pinId : String
  documentId : String
  version : Nat
  reason : String
  recordedAt : Nat
deriving DecidableEq

structure PinReference where
  pinId : String
  recordedAt : Nat
deriving DecidableEq

structure ProtectionProgress where
  sessionOffset : Nat
  documentOffset : Nat
deriving DecidableEq

structure Protection where
  ownerId : String
  project : Option String
  issuedAt : Nat
  expiresAt : Nat
  sessionIds : List String
  documentVersions : List DocumentVersionRef
  cleanupProgress : Option ProtectionProgress := none
deriving DecidableEq

structure ProtectionReference where
  ownerId : String
  expiresAt : Nat
deriving DecidableEq

/-- A queue entry for logical expiry; only a renewal carries a generation. -/
structure Expiry where
  documentId : String
  documentVersion : Nat
  retentionClass : String
  expiresAt : Nat
  generation : Option Nat := none
  renewedAt : Option Nat := none
deriving DecidableEq

/-- `CLEANUP_PHASES`, in order. -/
inductive CleanupPhase where
  | windows
  | derived
  | sourceMessages
  | access
  | kindManifest
  | document
  | sessionReference
  | chunks
  | admissionReferences
  | expiry
deriving DecidableEq

structure CleanupProgress where
  phase : CleanupPhase
  sourceOffset : Nat := 0
  chunkOffset : Nat := 0
deriving DecidableEq

inductive CleanupStatus where
  | tombstoned
  | complete
deriving DecidableEq

/-- How far the removal of a tombstoned version has come. `manifest` and `admissionRequestId` are
    read for older stores and no longer written. -/
structure Cleanup where
  documentId : String
  documentVersion : Nat
  status : CleanupStatus
  tombstonedAt : Option Nat := none
  project : String
  deleteOutboxSequence : Option Nat := none
  cleanupProgress : Option CleanupProgress := none
  deletedKeys : Option Nat := none
  completedAt : Option Nat := none
  auditExpiresAt : Option Nat := none
  manifest : Option Manifest := none
  admissionRequestId : Option String := none
deriving DecidableEq

structure AuditExpiry where
  documentId : String
  documentVersion : Nat
  project : String
  auditExpiresAt : Nat
deriving DecidableEq

structure Access where
  documentId : String
  documentVersion : Nat
  bucket : Nat
  accessedAt : Nat
deriving DecidableEq

abbrev RetentionKey.Record : RetentionKey → Type
  | .pin _ => Pin
  | .pinDocument _ _ _ => PinReference
  | .protection _ => Protection
  | .protectionExpiry _ _ => ProtectionReference
  | .protectionDocument _ _ _ => ProtectionReference
  | .protectionSession _ _ _ => ProtectionReference
  | .expiryCurrent _ _ => Expiry
  | .expiry _ _ _ _ _ => Expiry
  | .cleanup _ _ => Cleanup
  | .cleanupManifest _ _ => Manifest
  | .auditExpiry _ _ _ => AuditExpiry
  | .access _ _ _ => Access

instance (k : RetentionKey) : DecidableEq k.Record := by
  cases k <;> exact inferInstance

structure Lease where
  leaseId : Uuid
  ownerId : String
  documentId : String
  documentVersion : Nat
  issuedAt : Nat
  expiresAt : Nat
deriving DecidableEq

structure LeaseReference where
  leaseId : Uuid
  expiresAt : Nat
deriving DecidableEq

abbrev LeaseKey.Record : LeaseKey → Type
  | .byId _ => Lease
  | .byExpiry _ _ => LeaseReference
  | .byDocument _ _ _ => LeaseReference
  | .byDocumentExpiry _ _ _ _ => LeaseReference

instance (k : LeaseKey) : DecidableEq k.Record := by
  cases k <;> exact inferInstance

/-- A shared revision that concurrent safety decisions all write. -/
structure Guard where
  revision : Nat
deriving DecidableEq

/-! ## Derived view -/

structure DocumentOrdinal where
  ordinal : Nat
  project : String
  sessionId : String
  documentId : String
  documentVersion : Nat
  admittedAt : Nat
deriving DecidableEq

structure DerivedViewTombstone where
  ordinal : Nat
  project : String
  documentId : String
  documentVersion : Nat
  status : RetirementStatus
  reason : String
  recordedAt : Nat
deriving DecidableEq

structure DerivedViewManifest where
  project : String
  activeEpoch : Nat
  ordinalHighWatermark : Nat
  admittedDocuments : Nat
  tombstonedDocuments : Nat
  tombstoneGeneration : Nat
  updatedAt : Nat
deriving DecidableEq

inductive UpgradePhase where
  | documents
  | retiredMarkers
  | retiredHistories
  | retirements
  | complete
deriving DecidableEq

structure UpgradeState where
  phase : UpgradePhase
  after : Option String := none
  indexedDocuments : Nat := 0
  tombstonedDocuments : Nat := 0
  outboxHighWatermark : Nat := 0
  retirementHighWatermark : Nat := 0
deriving DecidableEq

abbrev DerivedViewKey.Record : DerivedViewKey → Type
  | .upgradeState => UpgradeState
  | .active _ => DerivedViewManifest
  | .document _ _ _ => DocumentOrdinal
  | .ordinal _ => DocumentOrdinal
  | .projectDocument _ _ => DocumentOrdinal
  | .sessionDocument _ _ _ => DocumentOrdinal
  | .tombstone _ _ => DerivedViewTombstone

instance (k : DerivedViewKey) : DecidableEq k.Record := by
  cases k <;> exact inferInstance

/-! ## Idempotency and migration -/

/-- The marker under a request id once its commit has taken effect. -/
structure IdempotencyMarker where
  requestId : String
  fingerprint : Digest
  recordKeys : List Key
  outboxKey : Key
  outboxSequence : Nat
  committedAt : Nat
  documentOrdinal : Option Nat := none
deriving DecidableEq

inductive MigrationPhase where
  | notStarted
  | offlineCopy
  | offlineVerification
  | offlineReady
  | blocked
  | rocksdbAuthority
deriving DecidableEq

/-- The file an archive lives in. -/
structure DatabaseIdentity where
  path : String
  device : String
  inode : String
  birthtimeNs : String
deriving DecidableEq

/-- `sourceDescriptor`. The fingerprints of the corpus are undefined until a copy is complete. -/
structure SourceDescriptor where
  sourcePath : String
  sourceDatabaseId : String
  sourceDatabaseIdentity : DatabaseIdentity
  sourceFileFingerprint : String
  sourceFingerprint : Option Digest := none
  sourceCorpusFingerprint : Option Digest := none
  sourceSchemaFingerprint : Digest
  sourceOrderingMode : String
deriving DecidableEq

/-- `authorityWrite`: the admission that sealed the authority of RocksDB over a source. -/
structure AuthorityWrite where
  sourceDatabaseId : String
  sourceFingerprint : Option Digest
  verificationRunId : Option Uuid
  requestId : String
  documentId : String
  sealedAt : Nat
deriving DecidableEq

/-- `verification` of a checkpoint. -/
structure Verification where
  passed : Bool
  sourceFingerprint : Option Digest
  corpusFingerprint : Option Digest
  checked : Nat
  failures : Nat
  comparisonHash : Digest
  runId : Uuid
  verifiedAt : Nat
deriving DecidableEq

/-- `lastBatch` of a checkpoint. -/
structure CopiedBatch where
  afterOrderingKey : Nat
  throughOrderingKey : Nat
  count : Nat
  firstDocumentId : Option String
  lastDocumentId : Option String
  fingerprint : Digest
deriving DecidableEq

structure Checkpoint extends SourceDescriptor where
  lastStableSourceOrderingKey : Nat := 0
  migratedCount : Nat := 0
  failedCount : Nat := 0
  retentionStartedAt : Nat
  offline : Bool := true
  completed : Bool := false
  completedAt : Option Nat := none
  updatedAt : Nat
  lastBatch : Option CopiedBatch := none
  verification : Option Verification := none
  authorityWrite : Option AuthorityWrite := none
  gateFailure : Option String := none
deriving DecidableEq

structure MigrationStatus where
  phase : MigrationPhase
  sourcePath : String
  sourceFingerprint : Option Digest
  migratedCount : Nat
  failedCount : Nat
  comparisonFailures : Nat
  rollbackEligible : Bool
  checkpoint : Checkpoint
deriving DecidableEq

inductive Backend where
  | sqlite
  | rocksdb
deriving DecidableEq

structure BackendAuthority where
  backend : Backend
  sourcePath : String
  selectedAt : Nat
  reason : String
  sourceDatabaseId : Option String := none
  requestId : Option String := none
  documentId : Option String := none
deriving DecidableEq

/-- A structural message as the source database has it; the text is missing when it is no string. -/
structure ArchiveMessage where
  messageKey : String
  messageIndex : Int
  role : String
  createdAt : Int
  text : Option String
  questionScore : Int
  requestScore : Int
  correctionScore : Int
  answerScore : Int
deriving DecidableEq

/-- `archiveDocumentProvenance`, as far as the source message keys go; the rest is its text. -/
structure SourceProvenance where
  available : Bool
  keys : List String
  rest : String := ""
deriving DecidableEq

/-- The exact source provenance kept beside a migrated document. -/
structure SourceRecord where
  sourceDatabaseId : String
  sourceOrderingKey : Nat
  sourceRowId : Nat
  sourceRecordFingerprint : Digest
  documentId : String
  documentVersion : Nat
  sourceKey : String
  sourceKeyStatus : String
  sourceMessageKeys : List String
  textByteLength : Nat
  textHash : Digest
  metadataJson : String
  metadataParse : String
  provenance : SourceProvenance
  structuralMessages : List ArchiveMessage
deriving DecidableEq

/-- A row that could not be migrated. -/
structure MigrationFailure where
  sourceOrderingKey : Nat
  documentId : String
  attempts : Nat
  firstFailedAt : Nat
  lastFailedAt : Nat
  error : ErrorDetails
  resolvedAt : Option Nat := none
deriving DecidableEq

inductive DifferenceType where
  | missingCanonical
  | sourceRecord
  | provenance
  | canonicalDocument
  | textBytes
  | recallEvidence
  | extraCanonical
deriving DecidableEq

/-- What a difference shows of one side. -/
inductive Evidence where
  | null
  | missing (sourceRecord canonicalDocument : Bool)
  | hash (hash : Digest)
  | provenance (metadataJsonHash provenanceHash : Digest)
  | readable (readable : Bool) (error : Option ErrorDetails)
  | text (byteLength : Nat) (hash : Digest)
  | retention (retentionClass : String) (expiresAt : Option Nat)
  | expiry (expiryHash : Option Digest)
deriving DecidableEq

/-- A mismatch between source and destination. -/
structure Difference where
  type : DifferenceType
  documentId : String
  sourceOrderingKey : Option Nat := none
  documentVersion : Option Nat := none
  expected : Evidence
  actual : Evidence
  /-- The rationale and the expiry of the allowance that covers it. -/
  allowance : Option (String × Nat) := none
deriving DecidableEq

structure ComparisonRecord where
  difference : Difference
  runId : Uuid
  detectedAt : Nat
deriving DecidableEq

/-- A run as the comparison history lists it. -/
structure ListedRun where
  runId : Uuid
  detectedAt : Nat
  persistedDifferenceCount : Nat
deriving DecidableEq

structure ComparisonRun extends ListedRun where
  comparisonHash : Digest
  differenceCount : Nat
  failureCount : Nat
  persistedDifferenceBytes : Nat
  detailsTruncated : Bool
deriving DecidableEq

structure ComparisonHistory where
  sourceDatabaseId : String
  runs : List ListedRun
  updatedAt : Nat
deriving DecidableEq

abbrev MigrationKey.Record : MigrationKey → Type
  | .status => MigrationStatus
  | .checkpoint _ => Checkpoint
  | .authority _ => AuthorityWrite
  | .backendAuthority => BackendAuthority
  | .source _ _ => SourceRecord
  | .failure _ _ => MigrationFailure
  | .comparison _ _ _ => ComparisonRecord
  | .comparisonRun _ _ => ComparisonRun
  | .comparisonHistory _ => ComparisonHistory

instance (k : MigrationKey) : DecidableEq k.Record := by
  cases k <;> exact inferInstance

/-! ## All keys -/

/-- The record type of each key; a derived record is the base64url text of its encoding. -/
abbrev Key.Record : Key → Type
  | .counter _ => Nat
  | .idempotency _ => IdempotencyMarker
  | .outbox k => k.Record
  | .manifest k => k.Record
  | .retention k => k.Record
  | .lease k => k.Record
  | .guard _ => Guard
  | .derivedView k => k.Record
  | .migration k => k.Record
  | .derived _ => String

instance (k : Key) : DecidableEq k.Record := by
  cases k <;> exact inferInstance

/-- A key with a record for it. -/
abbrev Entry : Type := (k : Key) × k.Record

/-! ## Commits -/

/-- What a request is identified by: its records and transitions, its outbox payload and its
    guards. -/
inductive ContentEntry where
  | record (entry : Entry)
  | outbox (payload : OutboxPayload)
  | guard (key : GuardKey)
deriving DecidableEq

structure CommitResult where
  requestId : String
  duplicate : Bool
  fingerprint : Digest
  recordKeys : List Key
  outboxKey : Key
  outboxSequence : Nat
  documentOrdinal : Option Nat
deriving DecidableEq

/-- The identity a document ordinal is assigned to. -/
structure DocumentIdentity where
  project : String
  documentId : String
  documentVersion : Nat
deriving DecidableEq

end ContextStore
