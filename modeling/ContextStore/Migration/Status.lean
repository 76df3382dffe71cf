import ContextStore.Migration.Source

/-! # Migration state

`migration-shared.js`: the checkpoint of a source, the status of the migration and the authority
records, and how the phase is read from them. A status that is ready for the cutover is read as
blocked when its SQLite source has changed since. -/

namespace ContextStore

open Concurrent

/-- The file system as a call sees it: the archive it can open at a path, the path behind a
    configured one once links are resolved, and whether there is a file. -/
structure Files where
  openArchive : String → Option SqliteSource
  realPath : String → Option String
  fileExists : String → Bool

/-- What a call looks at besides the store, each at its n-th look. -/
structure Surroundings where
  files : Nat → Files
  clock : Nat → Nat

def backendAuthorityRecord (value : Option BackendAuthority) :
    Except StoreError (Option BackendAuthority) :=
  if value.any (fun (value : BackendAuthority) => value.sourcePath = "") then
    .error (.migrationBlocked "Backend authority record is malformed.")
  else .ok value

/-- `getBackendAuthority` -/
def getBackendAuthority : Prog (Option BackendAuthority) := do
  let stored ← Prog.get (.migration .backendAuthority)
  Program.ofExcept (backendAuthorityRecord stored)

def BackendAuthority.isSqlite (authority : BackendAuthority) : Bool := authority.backend = .sqlite

def BackendAuthority.isRocksdb (authority : BackendAuthority) : Bool := authority.backend = .rocksdb

/-! ## Status -/

variable (codec : MigrationCodec)

/-- Whether SQLite could still take over again: nothing is sealed, the verification passed, and the
    source is what was verified. `currentInfo` is the source as the caller knows it. -/
def rollbackEligible (files : Files) (checkpoint : Checkpoint) (phase : MigrationPhase)
    (authorityWrite : Option AuthorityWrite) (currentInfo : Option SourceDescriptor) : Bool :=
  if phase ≠ .offlineReady ∨ authorityWrite ≠ none then false
  else match checkpoint.verification with
    | none => false
    | some verification =>
      if verification.passed = false
          ∨ verification.sourceFingerprint ≠ checkpoint.sourceFingerprint then false
      else (currentInfo.or ((files.openArchive checkpoint.sourcePath).map
          (·.info codec false))).any fun info =>
        info.sourceFingerprint = verification.sourceFingerprint
          ∧ info.sourceDatabaseIdentity = checkpoint.sourceDatabaseIdentity

/-- The status of a checkpoint. The source is looked at in an offline-ready phase only. -/
def statusFor (files : Files) (checkpoint : Checkpoint) (phase : MigrationPhase)
    (comparisonFailures : Nat) (authorityWrite : Option AuthorityWrite)
    (currentInfo : Option SourceDescriptor) : MigrationStatus where
  phase
  sourcePath := checkpoint.sourcePath
  sourceFingerprint := checkpoint.sourceFingerprint
  migratedCount := checkpoint.migratedCount
  failedCount := checkpoint.failedCount
  comparisonFailures
  rollbackEligible := rollbackEligible codec files checkpoint phase authorityWrite currentInfo
  checkpoint

/-- The stored status, without a seal over its source. -/
def unsealedStatus (files : Files) (status : MigrationStatus) : MigrationStatus :=
  if status.phase = .rocksdbAuthority then
    statusFor codec files
      { status.checkpoint with
        gateFailure := some
          "The persisted RocksDB authority phase has no durable authority seal." }
      .blocked status.comparisonFailures none none
  else
    let eligible := rollbackEligible codec files status.checkpoint status.phase none none
    if status.phase = .offlineReady ∧ eligible = false then
      statusFor codec files
        { status.checkpoint with
          gateFailure := some ("The verified SQLite source changed or became unavailable before " ++
            "RocksDB authority was sealed.") }
        .blocked status.comparisonFailures none none
    else { status with rollbackEligible := eligible }

/-- The status as it is read: no status means that no migration has started. -/
def readMigrationStatus (files : Files) (w : World) : Option MigrationStatus :=
  (w.get (.migration .status)).map fun (status : MigrationStatus) =>
    match w.get (.migration (.authority status.checkpoint.sourceDatabaseId)) with
    | some authorityWrite =>
      statusFor codec files { status.checkpoint with authorityWrite := some authorityWrite }
        .rocksdbAuthority status.comparisonFailures (some authorityWrite) none
    | none => unsealedStatus codec files status

def getMigrationStatus (files : Files) : Prog (Option MigrationStatus) :=
  Program.read (readMigrationStatus codec files)

def phaseOf (status : Option MigrationStatus) : MigrationPhase :=
  (status.map (·.phase)).getD .notStarted

def statusMatchesSource (status : Option MigrationStatus) (sourcePath : String) : Bool :=
  status.any (·.sourcePath = sourcePath)

/-! ## Sources -/

def sourceChanged (field : String) : StoreError :=
  .migrationSourceMismatch s!"Migration source {field} changed."

def assertSameDatabase (checkpoint : Checkpoint) (info : SourceDescriptor) :
    Except StoreError Unit :=
  if checkpoint.sourcePath ≠ info.sourcePath then .error (sourceChanged "sourcePath")
  else if checkpoint.sourceDatabaseId ≠ info.sourceDatabaseId then
    .error (sourceChanged "sourceDatabaseId")
  else if checkpoint.sourceSchemaFingerprint ≠ info.sourceSchemaFingerprint then
    .error (sourceChanged "sourceSchemaFingerprint")
  else if checkpoint.sourceOrderingMode ≠ info.sourceOrderingMode then
    .error (sourceChanged "sourceOrderingMode")
  else if checkpoint.sourceDatabaseIdentity ≠ info.sourceDatabaseIdentity then
    .error (sourceChanged "database identity")
  else .ok ()

/-- `SqliteArchiveSource.open` -/
def openSource (files : Files) (path : String) : Except StoreError SqliteSource :=
  match files.openArchive path with
  | none => .error (.plain s!"SQLite source {path} cannot be opened.")
  | some source => .ok source

/-- The live files still have the digests of the snapshot. -/
def assertSnapshotStillCurrent (files : Files) (source : SqliteSource) : Except StoreError Unit :=
  if (files.openArchive source.databaseIdentity.path).any fun current =>
      current.fileFingerprint = source.fileFingerprint then .ok ()
  else .error (.migrationSourceMismatch
    "The SQLite source corpus changed after the migration snapshot was captured.")

/-! ## Writing the state -/

/-- A claim of SQLite ends when an offline copy takes over. -/
def clearSqliteClaim : Txn Unit := do
  let stored ← Txn.get (.migration .backendAuthority)
  let authority ← Transaction.ofExcept (backendAuthorityRecord stored)
  if authority.any (·.isSqlite) then
    Txn.remove (.migration .backendAuthority)
    Txn.emit .claimCleared
  else return ()

/-- The transaction of `persistState`; `events` are appended to the history variable. -/
def writeState (checkpoint : Checkpoint) (status : MigrationStatus) (events : List Event) :
    Txn Unit := do
  Txn.put (.migration (.checkpoint checkpoint.sourceDatabaseId)) checkpoint
  Txn.put (.migration .status) status
  Transaction.forEach Txn.emit events

def persistState (checkpoint : Checkpoint) (status : MigrationStatus)
    (clearSqliteAuthority : Bool) (events : List Event) : Prog Unit :=
  Program.transaction do
    if clearSqliteAuthority then clearSqliteClaim else pure ()
    writeState checkpoint status events

end ContextStore
