import ContextStore.Migration.Status

/-! # The authority over the archive

`migration-authority.js`: which backend owns the archive, and the gate in front of canonical
admissions. The gate reads one coherent view; what it decides is carried into the admission's
commit as preconditions, so that a decision that is no longer right makes the commit fail. -/

namespace ContextStore

open Concurrent
open Program (require ofExcept)

variable (codec : MigrationCodec)

/-! ## Choosing a backend -/

/-- What activation and claim return. -/
structure BackendSelection where
  backend : Backend
  mode : Option String := none
  phase : MigrationPhase
  sourcePath : String

def configuredSourcePath (files : Files) (path : String) : Except StoreError String :=
  if path = "" then .error (.typeError "SQLite source path must be a non-empty string.")
  else match files.realPath path with
    | some configured => .ok configured
    | none => .error (.migrationBlocked
        s!"SQLite source {path} cannot be resolved for backend authority.")

/-- The migration of the configured source has passed its verification and can still roll back. -/
def verifiedOfflineReady (status : Option MigrationStatus) (sourcePath : String) : Bool :=
  status.any (fun status => status.phase = .offlineReady ∧ status.rollbackEligible
    ∧ status.checkpoint.verification.any (·.passed)) && statusMatchesSource status sourcePath

/-- The transaction of `persistBackendAuthority`: the first claim wins. -/
def claimAuthority (payload : BackendAuthority) : Txn BackendAuthority := do
  let stored ← Txn.get (.migration .backendAuthority)
  let current ← Transaction.ofExcept (backendAuthorityRecord stored)
  match current with
  | some current =>
    if current.backend ≠ payload.backend ∨ current.sourcePath ≠ payload.sourcePath then
      Transaction.fail (.migrationBlocked "Backend authority is already claimed.")
    else return current
  | none => do
    let _ ← Txn.putImmutable (.migration .backendAuthority) payload
    return payload

def persistBackendAuthority (payload : BackendAuthority) : Prog BackendAuthority :=
  Program.transaction (claimAuthority payload)

/-- A permanent authority must fit the source that is configured, unless no such file exists. -/
def reconcileAuthority (existing : BackendAuthority) (status : Option MigrationStatus)
    (configuredSource : String) (sourceExists : Bool) : Except StoreError BackendSelection :=
  let reconciled := existing.reason = "migration-authority" ∧ phaseOf status = .rocksdbAuthority
    ∧ statusMatchesSource status configuredSource ∧ existing.sourcePath = configuredSource
  if sourceExists ∧ ¬ reconciled then
    if existing.reason = "migration-authority" ∧ existing.sourcePath ≠ configuredSource then
      .error (.migrationSourceMismatch
        "RocksDB backend authority is bound to another source than the configured one.")
    else .error (.migrationBlocked
      s!"Permanent RocksDB authority cannot reconcile existing SQLite source {configuredSource}.")
  else .ok {
    backend := .rocksdb
    mode := some "authority"
    phase := phaseOf status
    sourcePath := existing.sourcePath }

/-- A sealed migration without a backend authority: the authority is written again. -/
def activateSealed (status : MigrationStatus) (configuredSource : String) (sourceExists : Bool)
    (now : Nat) : Prog BackendSelection := do
  require (sourceExists = false ∨ status.sourcePath = configuredSource)
    (.migrationSourceMismatch "The RocksDB authority seal belongs to another source.")
  let authority ← persistBackendAuthority {
    backend := .rocksdb
    sourcePath := status.sourcePath
    selectedAt := now
    reason := "migration-authority"
    sourceDatabaseId := some status.checkpoint.sourceDatabaseId }
  return {
    backend := .rocksdb
    mode := some "authority"
    phase := status.phase
    sourcePath := authority.sourcePath }

/-- While the SQLite source exists, only a verified migration lets RocksDB start. -/
def verifiedCutover (status : Option MigrationStatus) (configuredSource : String) :
    Except StoreError BackendSelection :=
  if phaseOf status = .offlineReady ∧ statusMatchesSource status configuredSource = false then
    .error (.migrationSourceMismatch "The verified migration is for another source.")
  else if verifiedOfflineReady status configuredSource = false then
    .error (.migrationBlocked ("No verified migration permits RocksDB activation while SQLite " ++
      s!"source {configuredSource} exists."))
  else .ok {
    backend := .rocksdb
    mode := some "verified-cutover"
    phase := phaseOf status
    sourcePath := configuredSource }

/-- A fresh store claims permanent authority immediately. -/
def activateFresh (status : Option MigrationStatus) (configuredSource : String) (now : Nat) :
    Prog BackendSelection := do
  require (phaseOf status = .notStarted) (.migrationBlocked
    "RocksDB activation cannot treat a destination with a migration as a fresh installation.")
  let authority ← persistBackendAuthority {
    backend := .rocksdb
    sourcePath := configuredSource
    selectedAt := now
    reason := "fresh-install" }
  return {
    backend := .rocksdb
    mode := some "fresh-authority"
    phase := phaseOf status
    sourcePath := authority.sourcePath }

/-- Activation without a backend authority. -/
def activateUnowned (status : Option MigrationStatus) (configuredSource : String)
    (sourceExists : Bool) (now : Nat) : Prog BackendSelection :=
  match status.filter (·.phase = .rocksdbAuthority) with
  | some sealed => activateSealed sealed configuredSource sourceExists now
  | none =>
    if sourceExists then ofExcept (verifiedCutover status configuredSource)
    else activateFresh status configuredSource now

def activateFrom (existingAuthority : Option BackendAuthority) (status : Option MigrationStatus)
    (configuredSource : String) (sourceExists : Bool) (now : Nat) : Prog BackendSelection :=
  match existingAuthority with
  | some existing =>
    ofExcept (reconcileAuthority existing status configuredSource sourceExists)
  | none => activateUnowned status configuredSource sourceExists now

/-- Select RocksDB. The body of an exclusive section. -/
def activateRocksBackend (around : Surroundings) (sourcePath : String) :
    Prog BackendSelection := do
  let configuredSource ← ofExcept (configuredSourcePath (around.files 0) sourcePath)
  let existingAuthority ← getBackendAuthority
  require (existingAuthority.all fun authority => authority.isSqlite = false) (.migrationBlocked
      "RocksDB activation is blocked because SQLite currently owns backend authority.")
  let status ← getMigrationStatus codec (around.files 1)
  activateFrom existingAuthority status configuredSource ((around.files 2).fileExists sourcePath)
    (around.clock 0)

/-- A claim of SQLite when no backend owns the archive yet. -/
def claimUnowned (status : Option MigrationStatus) (configuredSource : String) (now : Nat) :
    Prog BackendSelection := do
  require (phaseOf status = .notStarted ∨ verifiedOfflineReady status configuredSource)
    (.migrationBlocked "SQLite cannot open during an offline migration.")
  require (phaseOf status = .notStarted ∨ statusMatchesSource status configuredSource)
    (.migrationSourceMismatch "The RocksDB migration state belongs to another SQLite source.")
  let authority ← persistBackendAuthority {
    backend := .sqlite
    sourcePath := configuredSource
    selectedAt := now
    reason := if phaseOf status = .offlineReady then "pre-authority-rollback"
      else "sqlite-selection" }
  return { backend := .sqlite, phase := phaseOf status, sourcePath := authority.sourcePath }

def claimSelection (existingAuthority : Option BackendAuthority) (status : Option MigrationStatus)
    (configuredSource : String) (now : Nat) : Prog BackendSelection :=
  match existingAuthority with
  | some existing =>
    if existing.sourcePath ≠ configuredSource then
      Program.fail (.migrationSourceMismatch
        "SQLite backend authority is already bound to another source.")
    else return {
      backend := .sqlite
      phase := phaseOf status
      sourcePath := existing.sourcePath }
  | none => claimUnowned status configuredSource now

/-- Claim the archive for SQLite. The body of an exclusive section; that it returned is what the
    history remembers as an acknowledged claim. -/
def claimSqliteBackend (around : Surroundings) (sourcePath : String) :
    Prog BackendSelection := do
  let configuredSource ← ofExcept (configuredSourcePath (around.files 0) sourcePath)
  let existingAuthority ← getBackendAuthority
  let status ← getMigrationStatus codec (around.files 1)
  require (existingAuthority.all (fun authority => authority.isRocksdb = false)
      ∧ phaseOf status ≠ .rocksdbAuthority)
    (.migrationBlocked "SQLite cannot restart after RocksDB authority has been sealed.")
  let selection ← claimSelection existingAuthority status configuredSource (around.clock 0)
  Program.modify (·.emit .sqliteClaimed)
  return selection

/-! ## The gate of admissions -/

/-- What the gate reads in one snapshot. -/
structure GateState where
  status : Option MigrationStatus
  persistedStatus : Option MigrationStatus
  persistedCheckpoint : Option Checkpoint
  persistedBackendAuthority : Option BackendAuthority

def readGateState (files : Files) (w : World) : Except StoreError GateState := do
  let status := readMigrationStatus codec files w
  let persistedBackendAuthority ← backendAuthorityRecord (w.get (.migration .backendAuthority))
  return {
    status
    persistedStatus := w.get (.migration .status)
    persistedCheckpoint := status.bind fun status =>
      w.get (.migration (.checkpoint status.checkpoint.sourceDatabaseId))
    persistedBackendAuthority }

/-- What the gate adds to an admission's commit. -/
structure AdmissionGate where
  transitions : List Transition := []
  mustMatch : List Entry := []
  mustBeAbsent : List Key := []
  sealsAuthority : Bool := false

def authorityTransition (authority : BackendAuthority) : Transition where
  key := .migration .backendAuthority
  previous := none
  next := authority

def sealTransition (authorityWrite : AuthorityWrite) (sourceDatabaseId : String) : Transition where
  key := .migration (.authority sourceDatabaseId)
  previous := none
  next := authorityWrite

/-- No migration has started: the first admission makes RocksDB the owner, and a later one with the
    same request repeats that transition. -/
def directGate (persisted : Option BackendAuthority) (requestId documentId : String) (now : Nat) :
    AdmissionGate :=
  match persisted.filter (·.isRocksdb) with
  | some authority => {
      transitions :=
        if authority.reason = "direct-canonical-admission" ∧ authority.requestId = some requestId
        then [authorityTransition authority] else [] }
  | none => {
      transitions := [authorityTransition {
        backend := .rocksdb
        sourcePath := "rocksdb://direct-canonical-admission"
        selectedAt := now
        reason := "direct-canonical-admission"
        requestId := some requestId
        documentId := some documentId }]
      mustBeAbsent := [.migration .status, .migration .backendAuthority]
      sealsAuthority := true }

/-- The seal is durable: the admission that wrote it repeats its transitions. -/
def sealedGate (checkpoint : Checkpoint) (persisted : Option BackendAuthority)
    (requestId : String) : AdmissionGate :=
  match checkpoint.authorityWrite.filter (·.requestId = requestId) with
  | some authorityWrite => {
      transitions := sealTransition authorityWrite checkpoint.sourceDatabaseId ::
        (persisted.filter (·.isRocksdb)).toList.map authorityTransition }
  | none => {}

/-- The first admission after a verification seals the authority of RocksDB. -/
def sealingGate (state : GateState) (checkpoint : Checkpoint) (requestId documentId : String)
    (now : Nat) : Except StoreError AdmissionGate :=
  match state.persistedStatus, state.persistedCheckpoint with
  | some persistedStatus, some persistedCheckpoint => .ok {
      mustMatch := [⟨.migration .status, persistedStatus⟩,
        ⟨.migration (.checkpoint checkpoint.sourceDatabaseId), persistedCheckpoint⟩]
      transitions := [
        sealTransition {
            sourceDatabaseId := checkpoint.sourceDatabaseId
            sourceFingerprint := checkpoint.verification.bind (·.sourceFingerprint)
            verificationRunId := checkpoint.verification.map (·.runId)
            requestId
            documentId
            sealedAt := now }
          checkpoint.sourceDatabaseId,
        authorityTransition {
          backend := .rocksdb
          sourcePath := checkpoint.sourcePath
          selectedAt := now
          reason := "migration-authority"
          sourceDatabaseId := some checkpoint.sourceDatabaseId
          requestId := some requestId }]
      sealsAuthority := true }
  | _, _ => .error (.typeError "A mustMatch record has no payload.")

/-- The gate, decided from what was read. -/
def admissionGate (state : GateState) (requestId documentId : String) (now : Nat) :
    Except StoreError AdmissionGate :=
  if state.persistedBackendAuthority.any (·.isSqlite) then
    .error (.migrationBlocked
      "RocksDB admission is blocked while SQLite owns backend authority.")
  else match state.status with
    | none => .ok (directGate state.persistedBackendAuthority requestId documentId now)
    | some status =>
      if status.phase = .rocksdbAuthority then
        .ok (sealedGate status.checkpoint state.persistedBackendAuthority requestId)
      else if status.phase ≠ .offlineReady ∨ status.rollbackEligible = false then
        .error (.migrationBlocked "RocksDB admission is blocked during an offline migration.")
      else sealingGate state status.checkpoint requestId documentId now

def prepareMigrationAdmission (around : Surroundings) (requestId documentId : String) :
    Prog AdmissionGate := do
  require (requestId ≠ "") (.typeError "admission requestId must be a non-empty string.")
  require (documentId ≠ "") (.typeError "admission documentId must be a non-empty string.")
  let state ← Program.read (readGateState codec (around.files 0))
  let state ← ofExcept state
  ofExcept (admissionGate state requestId documentId (around.clock 0))

/-! ## Gated admissions -/

def gatedCommit (prepared : PreparedAdmission) (gate : AdmissionGate) : CanonicalCommit :=
  { prepared.commit with
    mustMatch := prepared.commit.mustMatch ++ gate.mustMatch
    mustBeAbsent := prepared.commit.mustBeAbsent ++ gate.mustBeAbsent
    transitions := prepared.commit.transitions ++ gate.transitions }

/-- One attempt of `commitCanonicalAdmission`; `onError` decides what a rejected commit does. -/
def gatedAttempt (around : Surroundings) (prepared : PreparedAdmission) (committedAt : Nat)
    (onError : AdmissionGate → StoreError → Prog CommitResult) : Prog CommitResult := do
  let gate ← prepareMigrationAdmission codec around prepared.request.idempotencyKey
    prepared.manifest.documentId
  (commitCanonical codec.toCommitCodec (gatedCommit prepared gate) committedAt
    prepared.events).tryCatch (onError gate)

/-- A rejected commit is tried once more when the gate may have been overtaken. -/
def gateMayBeStale (gate : AdmissionGate) (error : StoreError) : Bool :=
  gate.sealsAuthority || (!gate.mustBeAbsent.isEmpty
    && (error.code = some "CONFLICT" || error.code = some "SUPERSEDED"))

/-- `commitCanonicalAdmission`; `around` is given for each attempt. -/
def commitCanonicalAdmission (around : Nat → Surroundings) (prepared : PreparedAdmission)
    (committedAt : Nat) : Prog CommitResult :=
  gatedAttempt codec (around 0) prepared committedAt fun gate error =>
    if gateMayBeStale gate error then
      gatedAttempt codec (around 1) prepared committedAt fun _ error => Program.fail error
    else Program.fail error

end ContextStore
