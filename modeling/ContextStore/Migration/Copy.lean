import ContextStore.Migration.Verify

/-! # The offline copy

`migration-copy.js`: the rows of a source are admitted one after the other, each in a commit that
is idempotent under its own request id, and a checkpoint says up to which ordering key the rows are
stable. A row that fails is recorded and blocks the migration until a later copy gets past it. -/

namespace ContextStore

open Concurrent

variable (codec : MigrationCodec)

/-! ## Options -/

/-- Where a fault injector is asked whether to interrupt. -/
inductive FaultBoundary where
  | afterDocumentCommit (sourceOrderingKey : Nat) (documentId : String)
  | beforeCheckpoint (checkpoint : Checkpoint)
  | afterCheckpoint (checkpoint : Checkpoint)

def FaultBoundary.name : FaultBoundary → String
  | .afterDocumentCommit _ _ => "after-document-commit"
  | .beforeCheckpoint _ => "before-checkpoint"
  | .afterCheckpoint _ => "after-checkpoint"

/-- `maxBatches` is missing when it is infinite. The last two fields are the errors that the
    database throws instead of a row's commit, or when it is flushed after it. -/
structure CopyOptions where
  sourcePath : String
  batchSize : Option Nat := none
  maxBatches : Option Nat := none
  faultInjector : FaultBoundary → Bool := fun _ => false
  commitFault : SourceRow → Option StoreError := fun _ => none
  flushFault : SourceRow → Option StoreError := fun _ => none

def batchLimit (batchSize : Option Nat) : Except StoreError Nat :=
  match batchSize with
  | none => .ok 100
  | some size =>
    if size = 0 ∨ 100000 < size then
      .error (.rangeError "Migration batchSize must be between 1 and 100000.")
    else .ok size

/-- Every batch that does not end the copy takes a row, so that an unlimited copy never comes to
    the end of as many batches as there are rows and one more. -/
def batchesLimit (maxBatches : Option Nat) (rows : Nat) : Except StoreError Nat :=
  match maxBatches with
  | none => .ok (rows + 1)
  | some batches =>
    if batches = 0 then
      .error (.rangeError "Migration maxBatches must be a positive integer.")
    else .ok batches

def throwIf (error : Option StoreError) : Prog Unit :=
  match error with
  | none => return ()
  | some error => Program.fail error

def CopyOptions.invokeFault (options : CopyOptions) (boundary : FaultBoundary) : Prog Unit :=
  throwIf (if options.faultInjector boundary then some (.migrationInterrupted boundary.name)
    else none)

/-! ## Progress -/

/-- The checkpoint and the status as the copy last wrote them. -/
structure CopyState where
  checkpoint : Checkpoint
  status : MigrationStatus

def initialCheckpoint (info : SourceDescriptor) (startedAt : Nat) : Checkpoint :=
  { info with
    retentionStartedAt := startedAt
    updatedAt := startedAt }

/-- `statusFor` in the phases of a copy, in which no source is looked at. -/
def CopyState.ofCheckpoint (checkpoint : Checkpoint) (phase : MigrationPhase)
    (comparisonFailures : Nat) : CopyState where
  checkpoint
  status := {
    phase
    sourcePath := checkpoint.sourcePath
    sourceFingerprint := checkpoint.sourceFingerprint
    migratedCount := checkpoint.migratedCount
    failedCount := checkpoint.failedCount
    comparisonFailures
    rollbackEligible := false
    checkpoint }

def CopyState.persist (state : CopyState) (clearSqliteAuthority : Bool) (events : List Event) :
    Prog Unit :=
  persistState state.checkpoint state.status clearSqliteAuthority events

/-! ## Rows -/

/-- `MIGRATION_FLUSH_SOURCE_BYTES` -/
def flushSourceBytes : Nat := 1024 * 1024

/-- `migrationSourceBytes`; a message without text has no length. -/
def migrationSourceBytes (row : SourceRow) : Except StoreError Nat :=
  if row.structuralMessages.any (·.text.isNone) then
    .error (.typeError "The \"string\" argument must be of type string.")
  else .ok ((row.text.map (·.length)).getD 0 + row.metadataJson.utf8ByteSize +
    (row.structuralMessages.map fun message =>
      (message.text.map (·.utf8ByteSize)).getD 0).sum)

/-- Admit a row; a large one is flushed to disk at once. -/
def migrateRow (options : CopyOptions) (info : SourceDescriptor) (row : SourceRow)
    (retentionStartedAt committedAt : Nat) : Prog Unit := do
  let migrated ← Program.ofExcept (prepareMigratedDocument codec row info retentionStartedAt)
  throwIf (options.commitFault row)
  let _ ← commitCanonical codec.toCommitCodec (migrated.commit codec) committedAt
    [.migrated info.sourceDatabaseId row.sourceOrderingKey]
  let bytes ← Program.ofExcept (migrationSourceBytes row)
  throwIf (if flushSourceBytes ≤ bytes then options.flushFault row else none)

def failureKey (checkpoint : Checkpoint) (row : SourceRow) : MigrationKey :=
  .failure checkpoint.sourceDatabaseId row.sourceOrderingKey

def unresolved (failure : Option MigrationFailure) : Bool :=
  failure.any (·.resolvedAt.isNone)

/-- The state once the row's failure is recorded. -/
def blockedState (state : CopyState) (previous : Option MigrationFailure) (now : Nat) : CopyState :=
  .ofCheckpoint
    { state.checkpoint with
      failedCount := if unresolved previous then state.checkpoint.failedCount
        else state.checkpoint.failedCount + 1
      updatedAt := now }
    .blocked state.status.comparisonFailures

def recordFailure (checkpoint : Checkpoint) (row : SourceRow) (failure : MigrationFailure)
    (next : CopyState) : Txn Unit := do
  Txn.put (.migration (failureKey checkpoint row)) failure
  writeState next.checkpoint next.status []

/-- Record the failure of a row and reject the copy. `clock` is read three times. -/
def blockOnFailure (state : CopyState) (row : SourceRow) (error : StoreError)
    (clock : Nat → Nat) : Prog Unit := do
  let previous : Option MigrationFailure ← Prog.get (.migration (failureKey state.checkpoint row))
  Program.transaction (recordFailure state.checkpoint row {
      sourceOrderingKey := row.sourceOrderingKey
      documentId := row.id
      attempts := (previous.map (·.attempts)).getD 0 + 1
      firstFailedAt := (previous.map (·.firstFailedAt)).getD (clock 1)
      lastFailedAt := clock 2
      error := serializedError error }
    (blockedState state previous (clock 0)))
  Program.fail (.migrationBlocked
    s!"Migration failed at SQLite ordering key {row.sourceOrderingKey}.")

def resolvedState (state : CopyState) (now : Nat) : CopyState :=
  .ofCheckpoint
    { state.checkpoint with
      failedCount := state.checkpoint.failedCount - 1
      updatedAt := now }
    .offlineCopy state.status.comparisonFailures

def removeFailure (checkpoint : Checkpoint) (row : SourceRow) (next : CopyState) : Txn Unit := do
  Txn.remove (.migration (failureKey checkpoint row))
  writeState next.checkpoint next.status []

/-- A row that has failed before got through: the record of its failure goes. -/
def resolveFailure (state : CopyState) (row : SourceRow) (now : Nat) : Prog CopyState := do
  let previous : Option MigrationFailure ← Prog.get (.migration (failureKey state.checkpoint row))
  if unresolved previous then do
    Program.transaction (removeFailure state.checkpoint row (resolvedState state now))
    return resolvedState state now
  else return state

/-- One row of a batch. Each row has its own looks at the clock. -/
def copyRow (around : Surroundings) (options : CopyOptions) (info : SourceDescriptor)
    (state : CopyState) (row : SourceRow) : Prog CopyState := do
  let clock := fun look => around.clock (8 * row.sourceOrderingKey + look)
  (migrateRow codec options info row state.checkpoint.retentionStartedAt (clock 0)).tryCatch
    fun error => blockOnFailure state row error fun look => clock (look + 1)
  let state ← resolveFailure state row (clock 4)
  options.invokeFault (.afterDocumentCommit row.sourceOrderingKey row.id)
  return state

/-- Rows from behind an ordering key, as many as the batch still takes; returns them too. -/
def copyRows (around : Surroundings) (options : CopyOptions) (source : SqliteSource)
    (info : SourceDescriptor) : Nat → Nat → CopyState → Prog (CopyState × List SourceRow)
  | 0, _, state => return (state, [])
  | limit + 1, throughOrderingKey, state =>
    match (source.readBatch throughOrderingKey 1).head? with
    | none => return (state, [])
    | some row => do
      let state ← copyRow codec around options info state row
      let (state, rows) ← copyRows around options source info limit row.sourceOrderingKey state
      return (state, row :: rows)

/-! ## Batches -/

/-- The state once the rows of a batch are stable. -/
def advancedState (state : CopyState) (row : SourceRow) (rows : List SourceRow) (now : Nat) :
    CopyState :=
  let last := (row :: rows).getLast (List.cons_ne_nil _ _)
  .ofCheckpoint
    { state.checkpoint with
      lastStableSourceOrderingKey := last.sourceOrderingKey
      migratedCount := state.checkpoint.migratedCount + (row :: rows).length
      lastBatch := some {
        afterOrderingKey := state.checkpoint.lastStableSourceOrderingKey
        throughOrderingKey := last.sourceOrderingKey
        count := (row :: rows).length
        firstDocumentId := some row.id
        lastDocumentId := some last.id
        fingerprint := sourceBatchFingerprint codec (row :: rows) }
      updatedAt := now }
    .offlineCopy state.status.comparisonFailures

/-- Advance the checkpoint over a batch. -/
def checkpointBatch (options : CopyOptions) (next : CopyState) : Prog CopyState := do
  options.invokeFault (.beforeCheckpoint next.checkpoint)
  next.persist false []
  options.invokeFault (.afterCheckpoint next.checkpoint)
  return next

/-! ## Completion -/

/-- Sixty-four lower-case hexadecimal digits. -/
def isHexDigest (digest : Digest) : Bool :=
  digest.toList.length = 64 && digest.toList.all fun c => c.isDigit || ('a' ≤ c && c ≤ 'f')

def malformedCorpus : StoreError :=
  .migrationBlocked "Migrated source records cannot form a corpus fingerprint."

def migratedCorpus : Nat → List (Nat × SourceRecord) → Except StoreError (List (Nat × Digest))
  | _, [] => return []
  | lastSourceOrderingKey, record :: rest => do
    if record.1 ≤ lastSourceOrderingKey
        ∨ isHexDigest record.2.sourceRecordFingerprint = false then throw malformedCorpus
    let others ← migratedCorpus record.1 rest
    return (record.1, record.2.sourceRecordFingerprint) :: others

def completedSourceInfo (info : SourceDescriptor) (records : List (Nat × SourceRecord)) :
    Except StoreError SourceDescriptor := do
  let corpus ← migratedCorpus 0 records
  return { info with
    sourceCorpusFingerprint := some (corpusFingerprint codec corpus)
    sourceFingerprint := some (codec.sourceFingerprint info.sourceDatabaseIdentity
      info.sourceOrderingMode info.sourceSchemaFingerprint (corpusFingerprint codec corpus)) }

def completedState (state : CopyState) (info : SourceDescriptor) (clock : Nat → Nat) : CopyState :=
  .ofCheckpoint
    { state.checkpoint with
      toSourceDescriptor := info
      completed := true
      completedAt := some (clock 0)
      updatedAt := clock 1 }
    .offlineVerification state.status.comparisonFailures

def completeOfflineCopy (around : Surroundings) (source : SqliteSource) (info : SourceDescriptor)
    (state : CopyState) : Prog CopyState := do
  Program.ofExcept (assertSnapshotStillCurrent (around.files 2) source)
  let records ← Program.read
    (destinationSourceRecords info.sourceDatabaseId verificationPageSize)
  let completedInfo ← Program.ofExcept (completedSourceInfo codec info records)
  let next := completedState state completedInfo fun look => around.clock (look + 1)
  next.persist false [.copyCompleted]
  return next

/-- Batch after batch, until one is empty or none is left to do. -/
def copyBatches (around : Surroundings) (options : CopyOptions) (source : SqliteSource)
    (info : SourceDescriptor) (limit : Nat) : Nat → CopyState → Prog CopyState
  | 0, state =>
    if (source.readBatch state.checkpoint.lastStableSourceOrderingKey 1).isEmpty then
      completeOfflineCopy codec around source info state
    else return state
  | batches + 1, state => do
    let (state, rows) ← copyRows codec around options source info limit
      state.checkpoint.lastStableSourceOrderingKey state
    match rows with
    | [] => completeOfflineCopy codec around source info state
    | row :: rest => do
      let next ← checkpointBatch options
        (advancedState codec state row rest (around.clock (8 * row.sourceOrderingKey + 5)))
      copyBatches around options source info limit batches next

/-! ## Starting and resuming -/

def acknowledgedWrites (w : World) : Nat := (w.get (.counter .outbox)).getD 0

def hasCanonicalDocument (w : World) : Bool :=
  w.store.any fun k _ => match k with
    | .manifest (.document _ _) => true
    | _ => false

/-- The first copy of a source needs a destination without canonical documents, which tracks no
    other source. -/
def startCopy (status : Option MigrationStatus) (info : SourceDescriptor) (startedAt : Nat) :
    Prog CopyState := do
  Program.require (status.all fun status => status.sourceFingerprint = info.sourceFingerprint)
    (.migrationSourceMismatch "The destination already tracks another SQLite source.")
  let fresh ← Program.read fun w => acknowledgedWrites w = 0 && !hasCanonicalDocument w
  Program.require (fresh = true) (.migrationBlocked ("Offline migration requires a fresh RocksDB " ++
    "destination with no acknowledged canonical documents."))
  let state := CopyState.ofCheckpoint (initialCheckpoint info startedAt) .offlineCopy 0
  state.persist true []
  return state

/-- A later copy of the same source starts from the checkpoint, which is no longer complete. -/
def resumedState (checkpoint : Checkpoint) (status : Option MigrationStatus)
    (info : SourceDescriptor) (now : Nat) : CopyState :=
  .ofCheckpoint
    { checkpoint with
      toSourceDescriptor := info
      authorityWrite := none
      gateFailure := none
      verification := none
      completed := false
      offline := true
      updatedAt := now }
    .offlineCopy ((status.map (·.comparisonFailures)).getD 0)

def resumeCopy (source : SqliteSource) (checkpoint : Checkpoint) (status : Option MigrationStatus)
    (info : SourceDescriptor) (now : Nat) : Prog CopyState := do
  Program.ofExcept (assertSameDatabase checkpoint info)
  let valid ← Program.read (revalidateCheckpoint codec source checkpoint info)
  Program.ofExcept valid
  let state := resumedState checkpoint status info now
  state.persist true []
  return state

def beginCopy (source : SqliteSource) (checkpoint : Option Checkpoint)
    (status : Option MigrationStatus) (info : SourceDescriptor) (now : Nat) : Prog CopyState :=
  match checkpoint with
  | none => startCopy status info now
  | some checkpoint => resumeCopy codec source checkpoint status info now

/-- Who may own the archive when a copy starts. -/
def assertCopyAuthority (authority : Option BackendAuthority) (info : SourceDescriptor) :
    Except StoreError Unit :=
  if authority.any (·.isRocksdb) then
    .error (.migrationBlocked
      "Offline migration cannot start after RocksDB backend authority is durable.")
  else if authority.any (fun authority => authority.sourcePath ≠ info.sourcePath) then
    .error (.migrationSourceMismatch
      "SQLite backend authority belongs to another migration source.")
  else .ok ()

/-- `startMigration`. The body of an exclusive section. -/
def startMigration (around : Surroundings) (options : CopyOptions) : Prog MigrationStatus := do
  let source ← Program.ofExcept (openSource (around.files 0) options.sourcePath)
  let info := source.info codec true
  let authority ← getBackendAuthority
  Program.ofExcept (assertCopyAuthority authority info)
  let limit ← Program.ofExcept (batchLimit options.batchSize)
  let maximumBatches ← Program.ofExcept (batchesLimit options.maxBatches source.rows.length)
  let checkpoint ← Prog.get (.migration (.checkpoint info.sourceDatabaseId))
  let status ← getMigrationStatus codec (around.files 1)
  Program.require (phaseOf status ≠ .rocksdbAuthority) (.migrationBlocked
    "Offline migration cannot restart after a RocksDB authority write was acknowledged.")
  let state ← beginCopy codec source checkpoint status info (around.clock 0)
  let state ← copyBatches codec around options source info limit maximumBatches state
  return state.status

end ContextStore
