import ContextStore.Foundation.OrderedScan
import ContextStore.Foundation.Paging
import ContextStore.Migration.Status

/-! # Verification

`migration-verify.js`: the comparison of the destination with the source, row by row and then for
records that no row accounts for, with bounded samples of the mismatches; and the check of what is
already copied when a copy resumes. Both run in an exclusive section, so all their reads of the
destination see one state; the source is a private snapshot. -/

namespace ContextStore

open Concurrent KeyValue Paging

variable (codec : MigrationCodec)

/-! ## Canonical documents -/

/-- What the migration promises of a manifest, without its text. -/
def canonicalStaticDocument (manifest : Manifest) : Document where
  documentId := manifest.documentId
  version := manifest.version
  sourceKey := manifest.sourceKey
  sourceKeyStatus := some manifest.sourceKeyStatus
  sessionId := manifest.sessionId
  project := manifest.project
  kind := manifest.kind
  createdAt := manifest.createdAt
  text := []
  metadata := manifest.metadata
  sourceMessageKeys := some manifest.sourceMessageKeys

def Document.withoutText (document : Document) : Document := { document with text := [] }

/-- `recallEvidenceHasher` applied to the bytes of a text. -/
def recallEvidenceHash (documentId kind : String) (text : List UInt8) : Digest :=
  codec.contentHash
    (("[Archived historical evidence — may be stale about current mutable state; verify live " ++
      "state separately.]\n\n# " ++ documentId ++ " (" ++ kind ++ ")\n\n" ++
      "## Deterministic archived serialization\n").toUTF8.toList ++ text)

structure CanonicalSource where
  byteLength : Nat
  contentHash : Digest
  recallEvidenceHash : Digest

/-- The bytes of an occurrence, checked against the stored chunk and against the layout so far. -/
def canonicalOccurrence (w : World) (cursor index : Nat) (reference : ChunkOccurrence) :
    Except StoreError (List UInt8) :=
  if reference.ordinal ≠ index ∨ reference.startByte ≠ cursor
      ∨ reference.endByte < reference.startByte
      ∨ reference.byteLength ≠ reference.endByte - reference.startByte then
    .error (.plain s!"Canonical source chunk reference {index} is malformed.")
  else match w.get (.manifest (.chunk reference.chunkId)) with
    | none => .error
        (.plain s!"Canonical source chunk {reference.chunkId} is missing or malformed.")
    | some (chunk : ChunkPayload) =>
      if chunk.chunkId ≠ reference.chunkId then .error
        (.plain s!"Canonical source chunk {reference.chunkId} is missing or malformed.")
      else if chunk.byteLength ≠ chunk.content.length
          ∨ chunk.contentHash ≠ codec.contentHash chunk.content
          ∨ reference.chunkId ≠ chunkIdForHash (codec.contentHash chunk.content) then
        .error (.plain
          s!"Canonical source chunk {reference.chunkId} failed integrity validation.")
      else if reference.byteLength ≠ chunk.content.length then .error (.plain
        s!"Canonical source chunk {reference.chunkId} failed occurrence validation.")
      else .ok chunk.content

/-- The bytes of the occurrences from `cursor` on, one after the other. -/
def canonicalBytes (w : World) : Nat → Nat → List ChunkOccurrence → Except StoreError (List UInt8)
  | _, _, [] => return []
  | cursor, index, reference :: rest => do
    let bytes ← canonicalOccurrence codec w cursor index reference
    let others ← canonicalBytes w reference.endByte (index + 1) rest
    return bytes ++ others

/-- Validate every occurrence of a canonical document. -/
def verifyCanonicalSource (w : World) (manifest : Option Manifest) :
    Except StoreError CanonicalSource := do
  match manifest with
  | none => .error (.plain "Canonical document manifest is missing or malformed.")
  | some manifest => do
    if manifest.chunks = [] then
      throw (.plain "Canonical document manifest is missing or malformed.")
    let bytes ← canonicalBytes codec w 0 0 manifest.chunks
    if manifest.byteLength ≠ ((manifest.chunks.getLast?.map (·.endByte)).getD 0)
        ∨ manifest.contentHash ≠ codec.contentHash bytes then
      throw (.plain "Canonical source chunks do not match the document manifest.")
    return {
      byteLength := (manifest.chunks.getLast?.map (·.endByte)).getD 0
      contentHash := codec.contentHash bytes
      recallEvidenceHash := recallEvidenceHash codec manifest.documentId manifest.kind bytes }

/-! ## Reading both sides -/

/-- The rows of the source, read in pages. -/
def SqliteSource.readAll (source : SqliteSource) (pageSize : Nat) : List SourceRow :=
  readPages (·.sourceOrderingKey) (fun after => source.readBatch (after.getD 0) pageSize)
    (·.isEmpty) (source.rows.length + 1) none

/-- The source records of a database with their ordering keys. -/
def sourceRecordsOf (sourceDatabaseId : String) (w : World) : List (Nat × SourceRecord) :=
  w.store.scan (fun k v => match k, v with
    | .migration (.source stored orderingKey), record =>
      if stored = sourceDatabaseId then some (orderingKey, (record : SourceRecord)) else none
    | _, _ => none) fun a b => a.1 ≤ b.1

def destinationSourceRecords (sourceDatabaseId : String) (pageSize : Nat) (w : World) :
    List (Nat × SourceRecord) :=
  readPages (·.1) (pageAfter (·.1) (sourceRecordsOf sourceDatabaseId w) pageSize)
    (fun page => page.length < pageSize) ((sourceRecordsOf sourceDatabaseId w).length + 1) none

/-- The order of the keys of documents: the length of the identifier comes first. -/
def documentOrder (record : String × Nat × Manifest) : List Nat :=
  record.1.utf8ByteSize :: (record.1.toList.map (·.toNat) ++ [record.2.1])

def manifestsOf (w : World) : List (String × Nat × Manifest) :=
  w.store.scan (fun k v => match k, v with
    | .manifest (.document documentId version), manifest =>
      some (documentId, version, (manifest : Manifest))
    | _, _ => none) fun a b => documentOrder a ≤ documentOrder b

def destinationCanonicalRecords (pageSize : Nat) (w : World) : List (String × Nat × Manifest) :=
  readPages documentOrder (pageAfter documentOrder (manifestsOf w) pageSize)
    (fun page => page.length < pageSize) ((manifestsOf w).length + 1) none

/-! ## Differences -/

/-- An accepted kind of difference, for one document or for all, until it expires. -/
structure Allowance where
  type : DifferenceType
  documentId : Option String := none
  rationale : String
  expiresAt : Nat

/-- `NEVER_ALLOW` -/
def DifferenceType.neverAllowed (type : DifferenceType) : Bool :=
  type = .missingCanonical || type = .extraCanonical

def Allowance.covers (allowance : Allowance) (candidate : Difference) (now : Nat) : Bool :=
  allowance.type = candidate.type
    && allowance.documentId.all (· = candidate.documentId)
    && allowance.rationale.trimAscii.toString ≠ ""
    && now < allowance.expiresAt

def matchingAllowance (candidate : Difference) (allowlist : List Allowance) (now : Nat) :
    Option Allowance :=
  if candidate.type.neverAllowed then none
  else allowlist.find? (·.covers candidate now)

/-- `applyDifferenceAllowlist` on one difference. -/
def evaluateDifference (allowlist : List Allowance) (now : Nat) (candidate : Difference) :
    Difference :=
  { candidate with
    allowance := (matchingAllowance candidate allowlist now).map fun allowance =>
      (allowance.rationale, allowance.expiresAt) }

/-- `MigrationDifferenceAccumulator`: everything is hashed and counted, and the first differences
    that fit are kept as samples. -/
structure DifferenceAccumulator where
  hashed : List UInt8 := []
  differenceCount : Nat := 0
  failureCount : Nat := 0
  differenceCounts : DifferenceType → Nat := fun _ => 0
  failureCounts : DifferenceType → Nat := fun _ => 0
  samples : List Difference := []
  sampleBytes : Nat := 0

/-- `MIGRATION_COMPARISON_DETAIL_LIMIT` -/
def comparisonDetailLimit : Nat := 256

/-- `MIGRATION_COMPARISON_DETAIL_BYTES` -/
def comparisonDetailBytes : Nat := 1048576

def incrementCount (counts : DifferenceType → Nat) (type : DifferenceType) : DifferenceType → Nat :=
  fun t => if t = type then counts t + 1 else counts t

namespace DifferenceAccumulator

def push (allowlist : List Allowance) (now : Nat) (acc : DifferenceAccumulator)
    (candidate : Difference) : DifferenceAccumulator :=
  let evaluated := evaluateDifference allowlist now candidate
  let bytes := (codec.differenceText evaluated).length
  let failed := evaluated.allowance = none
  let kept := acc.samples.length < comparisonDetailLimit
    ∧ bytes ≤ comparisonDetailBytes - acc.sampleBytes
  { hashed := acc.hashed ++ codec.differenceText evaluated ++ "\n".toUTF8.toList
    differenceCount := acc.differenceCount + 1
    failureCount := if failed then acc.failureCount + 1 else acc.failureCount
    differenceCounts := incrementCount acc.differenceCounts evaluated.type
    failureCounts :=
      if failed then incrementCount acc.failureCounts evaluated.type else acc.failureCounts
    samples := if kept then acc.samples ++ [evaluated] else acc.samples
    sampleBytes := if kept then acc.sampleBytes + bytes else acc.sampleBytes }

def comparisonHash (acc : DifferenceAccumulator) : Digest :=
  "sha256:" ++ codec.contentHash acc.hashed

end DifferenceAccumulator

/-- Push the differences one after the other. -/
def accumulate (allowlist : List Allowance) (now : Nat) (differences : List Difference) :
    DifferenceAccumulator :=
  differences.foldl (DifferenceAccumulator.push codec allowlist now) {}

/-! ## Comparing a row -/

/-- One difference if the two sides are not the same. -/
def differenceIf (differs : Bool) (difference : Difference) : List Difference :=
  if differs then [difference] else []

def sourceRecordDifferences (row : SourceRow) (expected stored : SourceRecord) : List Difference :=
  let key : Key := .migration (.source expected.sourceDatabaseId expected.sourceOrderingKey)
  differenceIf (stored ≠ expected) {
      type := .sourceRecord
      documentId := row.id
      sourceOrderingKey := some row.sourceOrderingKey
      expected := .hash (codec.recordHash key (expected : SourceRecord))
      actual := .hash (codec.recordHash key (stored : SourceRecord)) } ++
    differenceIf (stored.metadataJson ≠ row.metadataJson ∨ stored.metadataParse ≠ row.metadataParse
        ∨ stored.provenance ≠ row.provenance ∨ stored.sourceRowId ≠ expected.sourceRowId
        ∨ stored.sourceKey ≠ expected.sourceKey
        ∨ stored.sourceKeyStatus ≠ expected.sourceKeyStatus
        ∨ stored.sourceMessageKeys ≠ expected.sourceMessageKeys) {
      type := .provenance
      documentId := row.id
      sourceOrderingKey := some row.sourceOrderingKey
      expected := .provenance (codec.contentHash row.metadataJson.toUTF8.toList)
        (codec.provenanceHash row.provenance)
      actual := .provenance (codec.contentHash stored.metadataJson.toUTF8.toList)
        (codec.provenanceHash stored.provenance) }

/-- A mismatch of the canonical document of a row. -/
def documentDifference (row : SourceRow) (expected actual : Evidence) : Difference where
  type := .canonicalDocument
  documentId := row.id
  sourceOrderingKey := some row.sourceOrderingKey
  expected
  actual

def initialExpiry (row : SourceRow) (retention : Retention) (expiresAt : Nat) : Expiry where
  documentId := row.id
  documentVersion := 1
  retentionClass := retention.retentionClass
  expiresAt

/-- A row with a lifetime has the expiry record of its admission. -/
def expiryDifferences (w : World) (row : SourceRow) (retention : Retention) : List Difference :=
  match retention.expiresAt with
  | none => []
  | some expiresAt =>
    let key := RetentionKey.expiry expiresAt retention.retentionClass row.id 1 none
    let expiry : Option Expiry := w.get (.retention key)
    differenceIf (expiry ≠ some (initialExpiry row retention expiresAt)) (documentDifference row
        (.expiry (some (codec.recordHash (.retention key) (initialExpiry row retention expiresAt))))
        (.expiry (expiry.map fun (found : Expiry) => codec.recordHash (.retention key) found)))

def textDifferences (row : SourceRow) (expected : ExpectedRow) (canonical : CanonicalSource) :
    List Difference :=
  differenceIf (expected.sourceRecord.textByteLength ≠ canonical.byteLength
      ∨ expected.sourceRecord.textHash ≠ canonical.contentHash) {
    type := .textBytes
    documentId := row.id
    sourceOrderingKey := some row.sourceOrderingKey
    expected := .text expected.sourceRecord.textByteLength expected.sourceRecord.textHash
    actual := .text canonical.byteLength canonical.contentHash }

def manifestDifferences (w : World) (row : SourceRow) (expected : ExpectedRow)
    (manifest : Manifest) : List Difference :=
  differenceIf (expected.document.withoutText ≠ canonicalStaticDocument manifest)
      (documentDifference row (.hash (codec.documentHash expected.document.withoutText))
        (.hash (codec.documentHash (canonicalStaticDocument manifest)))) ++
    differenceIf (manifest.retentionClass ≠ expected.retention.retentionClass
        ∨ manifest.expiresAt ≠ expected.retention.expiresAt)
      (documentDifference row
        (.retention expected.retention.retentionClass expected.retention.expiresAt)
        (.retention manifest.retentionClass manifest.expiresAt)) ++
    expiryDifferences codec w row expected.retention ++
    differenceIf (manifest.structuralMessages ≠ codec.structuralText expected.structuralMessages)
      (documentDifference row
        (.hash (codec.contentHash
          (codec.structuralText expected.structuralMessages).toUTF8.toList))
        (.hash (codec.contentHash manifest.structuralMessages.toUTF8.toList)))

/-- `serializedError` -/
def serializedError (error : StoreError) : ErrorDetails where
  name := "Error"
  code := some (error.code.getD "ERR_MIGRATION_DOCUMENT")
  message := ""

/-- What the comparison of a row found, and whether it came as far as the recall evidence. -/
structure RowComparison where
  differences : List Difference
  reachedRecall : Bool

def recallDifferences (row : SourceRow) (text : List UInt8) (canonical : CanonicalSource) :
    List Difference :=
  let expectedHash := recallEvidenceHash codec row.id row.kind text
  differenceIf (expectedHash ≠ canonical.recallEvidenceHash) {
    type := .recallEvidence
    documentId := row.id
    expected := .hash expectedHash
    actual := .hash canonical.recallEvidenceHash }

def compareCanonical (w : World) (row : SourceRow) (expected : ExpectedRow)
    (storedSource : SourceRecord) (manifest : Manifest) (sample : Bool) : RowComparison :=
  let provenance := sourceRecordDifferences codec row expected.sourceRecord storedSource
  match verifyCanonicalSource codec w (some manifest) with
  | .error error => {
      differences := provenance ++ [documentDifference row (.readable true none)
        (.readable false (some (serializedError error)))]
      reachedRecall := false }
  | .ok canonical => {
      differences := provenance ++ textDifferences row expected canonical ++
        manifestDifferences codec w row expected manifest ++
        (if sample then recallDifferences codec row expected.document.text canonical else [])
      reachedRecall := true }

/-- Compare a row with the destination; `sample` asks for the recall evidence too. -/
def compareRow (w : World) (row : SourceRow) (expected : ExpectedRow) (sample : Bool) :
    RowComparison :=
  let storedSource : Option SourceRecord := w.get (.migration
    (.source expected.sourceRecord.sourceDatabaseId expected.sourceRecord.sourceOrderingKey))
  let manifest : Option Manifest := w.get (.manifest (.document row.id 1))
  match storedSource, manifest with
  | some storedSource, some manifest =>
    compareCanonical codec w row expected storedSource manifest sample
  | _, _ => {
      differences := [{
        type := .missingCanonical
        documentId := row.id
        sourceOrderingKey := some row.sourceOrderingKey
        expected := .missing storedSource.isNone manifest.isNone
        actual := .null }]
      reachedRecall := false }

/-- The rows one by one; `sampled` counts the rows whose recall evidence was compared. -/
def compareRows (w : World) (info : SourceDescriptor) (checkpoint : Checkpoint)
    (sampleLimit : Option Nat) : Nat → List SourceRow → Except StoreError (List Difference)
  | _, [] => return []
  | sampled, row :: rest => do
    let expected ← expectedMigratedRow codec row info checkpoint
    let sample := sampleLimit.all fun limit => decide (sampled < limit)
    let outcome := compareRow codec w row expected sample
    let others ← compareRows w info checkpoint sampleLimit
      (if outcome.reachedRecall && sample then sampled + 1 else sampled) rest
    return outcome.differences ++ others

/-! ## Records without a row -/

def extraSourceDifference (source : SqliteSource) (sourceDatabaseId : String)
    (record : Nat × SourceRecord) : List Difference :=
  differenceIf (record.1 = 0 ∨ maxSafeInteger < record.1
      ∨ source.getDocumentIdByOrderingKey record.1 ≠ some record.2.documentId) {
    type := .extraCanonical
    documentId := record.2.documentId
    sourceOrderingKey := some record.1
    expected := .null
    actual := .hash
      (codec.recordHash (.migration (.source sourceDatabaseId record.1)) record.2) }

/-- A canonical document that no row accounts for. -/
def extraDocumentDifference (source : SqliteSource) (record : String × Nat × Manifest) :
    List Difference :=
  differenceIf (record.2.1 ≠ 1 ∨ source.hasDocumentId record.1 = false) {
    type := .extraCanonical
    documentId := record.1
    documentVersion := some record.2.1
    expected := .null
    actual := .hash
      (codec.recordHash (.manifest (.document record.1 record.2.1)) record.2.2) }

/-- `MIGRATION_VERIFICATION_PAGE_SIZE` -/
def verificationPageSize : Nat := 1

/-- Every difference between source and destination, in the order in which they are found. -/
def archiveDifferences (source : SqliteSource) (info : SourceDescriptor) (checkpoint : Checkpoint)
    (sampleLimit : Option Nat) (pageSize : Nat) (w : World) :
    Except StoreError (List Difference) := do
  let rows ← compareRows codec w info checkpoint sampleLimit 0 (source.readAll pageSize)
  return rows ++
    (destinationSourceRecords info.sourceDatabaseId pageSize w).flatMap
      (extraSourceDifference codec source info.sourceDatabaseId) ++
    (destinationCanonicalRecords pageSize w).flatMap (extraDocumentDifference codec source)

/-! ## Resuming a copy -/

/-- A row below the stable ordering key is still what was copied from it. -/
def revalidateRow (w : World) (info : SourceDescriptor) (checkpoint : Checkpoint)
    (row : SourceRow) : Except StoreError Unit := do
  let expected ← expectedMigratedRow codec row info checkpoint
  let storedSource : Option SourceRecord := w.get (.migration
    (.source expected.sourceRecord.sourceDatabaseId expected.sourceRecord.sourceOrderingKey))
  if storedSource.any (fun stored =>
      stored.sourceRecordFingerprint ≠ expected.sourceRecord.sourceRecordFingerprint) then
    throw (.migrationSourceMismatch (s!"A previously completed SQLite migration row changed at " ++
      s!"ordering key {row.sourceOrderingKey}."))
  if storedSource ≠ some expected.sourceRecord then
    throw (.migrationBlocked (s!"Previously migrated destination record changed at SQLite " ++
      s!"ordering key {row.sourceOrderingKey}."))
  let manifest : Option Manifest := w.get (.manifest (.document row.id 1))
  match verifyCanonicalSource codec w manifest with
  | .error _ => throw (canonicalChanged row)
  | .ok canonical =>
    if manifest.map canonicalStaticDocument ≠ some expected.document.withoutText
        ∨ canonical.byteLength ≠ expected.sourceRecord.textByteLength
        ∨ canonical.contentHash ≠ expected.sourceRecord.textHash then
      throw (canonicalChanged row)
    else return ()
where
  canonicalChanged (row : SourceRow) : StoreError :=
    .migrationBlocked (s!"Previously migrated canonical document changed at SQLite ordering key " ++
      s!"{row.sourceOrderingKey}.")

def revalidateRows (w : World) (info : SourceDescriptor) (checkpoint : Checkpoint) :
    List SourceRow → Except StoreError Unit
  | [] => return ()
  | row :: rest => do
    revalidateRow codec w info checkpoint row
    revalidateRows w info checkpoint rest

/-- The rows up to the stable ordering key are as many as were counted, end at that key, and are
    still in the destination. -/
def revalidateCheckpoint (source : SqliteSource) (checkpoint : Checkpoint)
    (info : SourceDescriptor) (w : World) : Except StoreError Unit := do
  let through := checkpoint.lastStableSourceOrderingKey
  if through = 0 then return ()
  else
    let rows := (source.readAll 1).takeWhile (·.sourceOrderingKey ≤ through)
    revalidateRows codec w info checkpoint rows
    if rows.length ≠ checkpoint.migratedCount
        ∨ (rows.getLast?.map (·.sourceOrderingKey)) ≠ some through then
      throw (.migrationSourceMismatch
        "A previously completed SQLite migration range changed.")

/-! ## Recording a comparison -/

/-- `MIGRATION_COMPARISON_RUN_LIMIT` -/
def comparisonRunLimit : Nat := 8

def comparisonHistory (sourceDatabaseId : String) (value : Option ComparisonHistory) :
    Except StoreError (List ListedRun) :=
  match value with
  | none => .ok []
  | some value =>
    if value.sourceDatabaseId ≠ sourceDatabaseId then
      .error (.migrationBlocked "Migration comparison history is malformed.")
    else if value.runs.any fun run => comparisonDetailLimit < run.persistedDifferenceCount then
      .error (.migrationBlocked "Migration comparison history contains an invalid run.")
    else if comparisonRunLimit + 1 < value.runs.length then
      .error (.migrationBlocked "Migration comparison history exceeds its bounded run limit.")
    else .ok value.runs

/-- `boundedComparisonDetails`: the samples that fit once more with run and time. -/
def boundedComparisonDetails (runId : Uuid) (detectedAt : Nat) :
    List Difference → List ComparisonRecord → Nat → List ComparisonRecord × Nat
  | [], records, persistedBytes => (records, persistedBytes)
  | difference :: rest, records, persistedBytes =>
    let record : ComparisonRecord := { difference, runId, detectedAt }
    let bytes := (codec.comparisonText record).length
    if comparisonDetailLimit ≤ records.length then (records, persistedBytes)
    else if comparisonDetailBytes - persistedBytes < bytes then
      boundedComparisonDetails runId detectedAt rest records persistedBytes
    else boundedComparisonDetails runId detectedAt rest
      (records ++ [record]) (persistedBytes + bytes)

def comparisonEntry (sourceDatabaseId : String) (runId : Uuid)
    (record : Nat × ComparisonRecord) : Entry :=
  ⟨.migration (.comparison sourceDatabaseId runId record.1), record.2⟩

/-- The keys of a run that leaves the history. -/
def comparisonKeys (sourceDatabaseId : String) (run : ListedRun) : List Key :=
  (List.range run.persistedDifferenceCount).map
      (fun index => .migration (.comparison sourceDatabaseId run.runId index)) ++
    [.migration (.comparisonRun sourceDatabaseId run.runId)]

/-- The most recent runs and the one a checkpoint refers to stay, the others go. -/
def retainedRuns (candidates : List ListedRun) (pinnedRunId : Option Uuid) : List ListedRun :=
  let recentIds := (candidates.drop (candidates.length - comparisonRunLimit)).map (·.runId)
  candidates.filter fun candidate =>
    candidate.runId ∈ recentIds ∨ some candidate.runId = pinnedRunId

/-- The transaction of `persistComparisonRun`. -/
def writeComparisonRun (sourceDatabaseId : String) (run : ComparisonRun)
    (records : List ComparisonRecord) : Txn Unit := do
  let history ← Txn.get (.migration (.comparisonHistory sourceDatabaseId))
  let previous ← Transaction.ofExcept (comparisonHistory sourceDatabaseId history)
  let checkpoint ← Txn.get (.migration (.checkpoint sourceDatabaseId))
  let candidates := previous ++ [run.toListedRun]
  let retained := retainedRuns candidates
    (checkpoint.bind fun (checkpoint : Checkpoint) => checkpoint.verification.map (·.runId))
  let evicted := candidates.filter fun candidate =>
    candidate.runId ∉ retained.map (·.runId)
  Transaction.forEach putEntry
    ((records.zipIdx.map fun record => (record.2, record.1)).map
      (comparisonEntry sourceDatabaseId run.runId))
  Txn.put (.migration (.comparisonRun sourceDatabaseId run.runId)) run
  Txn.put (.migration (.comparisonHistory sourceDatabaseId)) {
    sourceDatabaseId
    runs := retained
    updatedAt := run.detectedAt }
  Transaction.forEach (fun k => Txn.remove k) (evicted.flatMap (comparisonKeys sourceDatabaseId))

def persistComparisonRun (sourceDatabaseId : String) (comparison : DifferenceAccumulator)
    (detectedAt : Nat) : Prog ComparisonRun := do
  let runId ← Program.transaction Txn.randomUUID
  let details := boundedComparisonDetails codec runId detectedAt comparison.samples [] 0
  let run : ComparisonRun := {
    runId
    detectedAt
    persistedDifferenceCount := details.1.length
    comparisonHash := comparison.comparisonHash codec
    differenceCount := comparison.differenceCount
    failureCount := comparison.failureCount
    persistedDifferenceBytes := details.2
    detailsTruncated := details.1.length < comparison.differenceCount }
  Program.transaction (writeComparisonRun sourceDatabaseId run details.1)
  return run

/-! ## Shadow comparisons -/

structure ShadowResult where
  kind : String
  passed : Bool
  checked : Nat
  failures : Nat
  run : ComparisonRun

def comparedCheckpoint (stored : Option Checkpoint) : Except StoreError Checkpoint :=
  match stored with
  | none => .error (.migrationBlocked "No checkpoint exists for this comparison source.")
  | some checkpoint => .ok checkpoint

/-- `recordShadowDifferences`: the differences that a caller saw between the answers of the two
    backends. Unlike a verification it is not in an exclusive section. -/
def recordShadowDifferences (around : Surroundings) (sourceId kind : String)
    (differences : List Difference) (allowlist : List Allowance) : Prog ShadowResult := do
  Program.require (sourceId ≠ "") (.typeError "sourceId must be a non-empty string.")
  Program.require (kind ≠ "") (.typeError "comparison kind must be a non-empty string.")
  let comparison := accumulate codec allowlist (around.clock 0) differences
  let currentStatus ← getMigrationStatus codec (around.files 0)
  let stored ← Prog.get (.migration (.checkpoint sourceId))
  let checkpoint ← Program.ofExcept (comparedCheckpoint stored)
  let run ← persistComparisonRun codec sourceId comparison (around.clock 1)
  let status := statusFor codec (around.files 1) checkpoint (phaseOf currentStatus)
    ((currentStatus.map (·.comparisonFailures)).getD 0 + comparison.failureCount) none none
  persistState checkpoint status false []
  return {
    kind
    passed := comparison.failureCount = 0
    checked := comparison.differenceCount
    failures := comparison.failureCount
    run }

/-! ## Verifying -/

/-- What the file system answers for the artifact that a caller asks for: whether its path is safe,
    and whether it can be written. -/
structure ArtifactOutcome where
  path : Except StoreError Unit
  write : Except StoreError Unit

structure VerifyOptions where
  sourcePath : Option String := none
  sampleLimit : Option Nat := none
  allowlist : List Allowance := []
  artifact : Option ArtifactOutcome := none

structure VerificationResult where
  passed : Bool
  checked : Nat
  missing : Nat
  extra : Nat
  provenanceDifferences : Nat
  recallDifferences : Nat
  differences : Nat
  failures : Nat
  comparisonHash : Digest
  sampledDifferences : Nat
  samplesTruncated : Bool

/-- The gate of a verification: a completed copy of this very database and these very files. -/
def assertVerifiable (checkpoint : Option Checkpoint) (info : SourceDescriptor) :
    Except StoreError Checkpoint := do
  match checkpoint with
  | none => .error (.migrationBlocked "No checkpoint exists for this SQLite source.")
  | some checkpoint => do
    if checkpoint.completed = false then throw (.migrationBlocked
      "Offline verification cannot run until the SQLite copy is complete.")
    assertSameDatabase checkpoint info
    if checkpoint.sourceFileFingerprint ≠ info.sourceFileFingerprint then
      throw (.migrationSourceMismatch "Migration source files changed after copy.")
    return checkpoint

def verificationResult (comparison : DifferenceAccumulator) (checked : Nat) :
    VerificationResult where
  passed := comparison.failureCount = 0
  checked
  missing := comparison.differenceCounts .missingCanonical
  extra := comparison.failureCounts .extraCanonical
  provenanceDifferences := comparison.failureCounts .provenance
  recallDifferences := comparison.failureCounts .recallEvidence
  differences := comparison.differenceCount
  failures := comparison.failureCount
  comparisonHash := comparison.comparisonHash codec
  sampledDifferences := comparison.samples.length
  samplesTruncated := comparison.samples.length < comparison.differenceCount

/-- The checkpoint with the outcome of a run. -/
def verifiedCheckpoint (checkpoint : Checkpoint) (comparison : DifferenceAccumulator)
    (checked : Nat) (run : ComparisonRun) (now : Nat) : Checkpoint :=
  { checkpoint with
    verification := some {
      passed := comparison.failureCount = 0
      sourceFingerprint := checkpoint.sourceFingerprint
      corpusFingerprint := checkpoint.sourceCorpusFingerprint
      checked
      failures := comparison.failureCount
      comparisonHash := comparison.comparisonHash codec
      runId := run.runId
      verifiedAt := run.detectedAt }
    updatedAt := now }

/-- Write the artifact, if one is asked for, and look at the live source once more. -/
def publishArtifact (files : Files) (source : SqliteSource) (artifact : Option ArtifactOutcome) :
    Except StoreError Unit := do
  match artifact with
  | none => return ()
  | some artifact => do
    artifact.write
    assertSnapshotStillCurrent files source

/-- What follows the comparison: its run is recorded, and the checkpoint and the status say how it
    went. -/
def recordVerification (around : Surroundings) (source : SqliteSource) (info : SourceDescriptor)
    (checkpoint : Checkpoint) (comparison : DifferenceAccumulator)
    (artifact : Option ArtifactOutcome) : Prog VerificationResult := do
  let checked := source.rows.length
  let run ← persistComparisonRun codec info.sourceDatabaseId comparison (around.clock 1)
  let nextCheckpoint := verifiedCheckpoint codec checkpoint comparison checked run (around.clock 2)
  Program.ofExcept (publishArtifact (around.files 3) source artifact)
  let status := statusFor codec (around.files 4) nextCheckpoint
    (if comparison.failureCount = 0 then .offlineReady else .blocked)
    comparison.failureCount none (some info)
  persistState nextCheckpoint status false []
  return verificationResult codec comparison checked

/-- The source to verify: the given path, or the one of the status. -/
def verifiedSourcePath (options : VerifyOptions) (status : Option MigrationStatus) :
    Except StoreError String :=
  match options.sourcePath.or (status.map (·.sourcePath)) with
  | none => .error (.typeError "Migration verification requires sourcePath.")
  | some path =>
    if options.sampleLimit.any fun limit => limit = 0 ∨ 1000000 < limit then
      .error (.rangeError "sampleLimit must be between 1 and 1000000.")
    else .ok path

/-- `verifyMigration`, in pages of `pageSize`. The body of an exclusive section. -/
def verifyMigration (around : Surroundings) (options : VerifyOptions) (pageSize : Nat) :
    Prog VerificationResult := do
  let currentStatus ← getMigrationStatus codec (around.files 0)
  Program.require (phaseOf currentStatus ≠ .rocksdbAuthority) (.migrationBlocked
    "The offline verification gate is sealed after the first RocksDB authority write.")
  let path ← Program.ofExcept (verifiedSourcePath options currentStatus)
  let source ← Program.ofExcept (openSource (around.files 1) path)
  let observedInfo := source.info codec true
  let stored ← Prog.get (.migration (.checkpoint observedInfo.sourceDatabaseId))
  let checkpoint ← Program.ofExcept (assertVerifiable stored observedInfo)
  let info : SourceDescriptor := { observedInfo with
    sourceFingerprint := checkpoint.sourceFingerprint
    sourceCorpusFingerprint := checkpoint.sourceCorpusFingerprint }
  Program.ofExcept ((options.artifact.map (·.path)).getD (.ok ()))
  let differences ← Program.read
    (archiveDifferences codec source info checkpoint options.sampleLimit pageSize)
  let differences ← Program.ofExcept differences
  Program.ofExcept (assertSnapshotStillCurrent (around.files 2) source)
  recordVerification codec around source info checkpoint
    (accumulate codec options.allowlist (around.clock 0) differences) options.artifact

end ContextStore
