import ContextStore.Documents.Admission

/-! # SQLite sources

`SqliteArchiveSource`: a legacy archive as the migration reads it, row by row along its ordering
keys, and the mapping of a row to an admission with the record of its exact provenance. A source is
a private snapshot, so nothing changes it while it is open. -/

namespace ContextStore

open Concurrent

/-! ## Sources -/

/-- A row of `documents` with its structural messages. The text is missing when the column holds
    none. -/
structure SourceRow where
  sourceOrderingKey : Nat
  sourceRowId : Nat
  id : String
  sessionId : String
  project : String
  kind : String
  createdAt : Int
  text : Option (List UInt8)
  metadata : DocumentMetadata := {}
  metadataJson : String
  metadataParse : String
  provenance : SourceProvenance
  structuralMessages : List ArchiveMessage
  sourceRecordFingerprint : Digest

/-- The rows in the order of their ordering keys, which are positive and identify a row. -/
structure SqliteSource where
  databaseIdentity : DatabaseIdentity
  fileFingerprint : String
  schemaFingerprint : Digest
  orderingMode : String
  rows : List SourceRow
  ascending : rows.Pairwise fun a b => a.sourceOrderingKey < b.sourceOrderingKey
  positive : ∀ row ∈ rows, 0 < row.sourceOrderingKey

/-- A structural message as a manifest keeps it. -/
structure StructuralMessage where
  messageKey : String
  messageIndex : Nat
  role : String
  createdAt : Nat
  text : String
  questionScore : Nat
  requestScore : Nat
  correctionScore : Nat
  answerScore : Nat

/-- What the migration takes from the modules for digests, stable JSON texts and derived keys. -/
structure MigrationCodec extends AdmissionCodec where
  databaseId : DatabaseIdentity → Digest
  /-- `sourceFingerprint` from identity, ordering mode, schema and corpus fingerprint. -/
  sourceFingerprint : DatabaseIdentity → String → Digest → Digest → Digest
  structuralText : List StructuralMessage → String
  /-- `derivedKeys.reference` and the record under it, each as base64url text. -/
  reference : String → Nat → Key → String
  referenceRecord : String → Nat → Key → String
  /-- `hash(stableJson(value))` of the values that differences show. -/
  recordHash : (k : Key) → k.Record → Digest
  provenanceHash : SourceProvenance → Digest
  documentHash : Document → Digest
  /-- The stable JSON text of a difference, and of one with its run. -/
  differenceText : Difference → List UInt8
  comparisonText : ComparisonRecord → List UInt8

variable (codec : MigrationCodec)

namespace SqliteSource

variable (source : SqliteSource)

/-- `SQLITE_SOURCE_MAX_RESULT_ROWS` -/
def maxResultRows : Nat := 4

/-- The first rows behind an ordering key. -/
def readBatch (afterOrderingKey limit : Nat) : List SourceRow :=
  (source.rows.filter fun row => afterOrderingKey < row.sourceOrderingKey).take
    (min limit maxResultRows)

def getDocumentIdByOrderingKey (orderingKey : Nat) : Option String :=
  (source.rows.find? (·.sourceOrderingKey = orderingKey)).map (·.id)

def hasDocumentId (documentId : String) : Bool := source.rows.any (·.id = documentId)

/-- What identifies the corpus: the ordering key and the fingerprint of each row. -/
def corpus : List (Nat × Digest) :=
  source.rows.map fun row => (row.sourceOrderingKey, row.sourceRecordFingerprint)

end SqliteSource

/-- The digest of a corpus, one stable JSON line for each row. -/
def corpusFingerprint (corpus : List (Nat × Digest)) : Digest :=
  codec.contentHash
    ((corpus.map fun row => s!"[{row.1},\"{row.2}\"]\n".toUTF8.toList).flatten)

/-- `createSourceBatchFingerprint` over the rows of a batch. -/
def sourceBatchFingerprint (rows : List SourceRow) : Digest :=
  codec.contentHash
    ("[" ++ ",".intercalate (rows.map fun row =>
      "\x7b\"sourceOrderingKey\":" ++ toString row.sourceOrderingKey ++
        ",\"sourceRecordFingerprint\":\"" ++ row.sourceRecordFingerprint ++ "\"\x7d")
      ++ "]").toUTF8.toList

/-- `sourceDescriptor(source.info())`; the corpus is not read when its identity is deferred. -/
def SqliteSource.info (source : SqliteSource) (deferCorpusIdentity : Bool) : SourceDescriptor where
  sourcePath := source.databaseIdentity.path
  sourceDatabaseId := codec.databaseId source.databaseIdentity
  sourceDatabaseIdentity := source.databaseIdentity
  sourceFileFingerprint := source.fileFingerprint
  sourceFingerprint := if deferCorpusIdentity then none else
    some (codec.sourceFingerprint source.databaseIdentity source.orderingMode
      source.schemaFingerprint (corpusFingerprint codec source.corpus))
  sourceCorpusFingerprint := if deferCorpusIdentity then none else
    some (corpusFingerprint codec source.corpus)
  sourceSchemaFingerprint := source.schemaFingerprint
  sourceOrderingMode := source.orderingMode

/-! ## Retention of migrated documents -/

structure Retention where
  retentionClass : String
  expiresAt : Option Nat := none

def dayMs : Nat := 24 * 60 * 60 * 1000

/-- `DEFAULT_RETENTION_CLASS_BY_KIND` -/
def retentionClassOfKind (kind : String) : String :=
  if kind = "tool-result" ∨ kind = "tool-argument" then "ephemeral-payload"
  else if kind = "decision-candidate" ∨ kind = "fact-candidate" then "derived-evidence"
  else if kind = "manual" then "durable-evidence"
  else "conversation-source"

/-- `DEFAULT_RETENTION_LIFETIMES_MS` -/
def retentionLifetimeMs (retentionClass : String) : Option Nat :=
  if retentionClass = "ephemeral-payload" then some (14 * dayMs)
  else if retentionClass = "conversation-source" then some (90 * dayMs)
  else if retentionClass = "derived-evidence" then some (30 * dayMs)
  else none

/-- `retentionForAdmission` under the default policy. -/
def retentionForAdmission (kind : String) (now : Nat) : Except StoreError Retention :=
  let retentionClass := retentionClassOfKind kind
  match retentionLifetimeMs retentionClass with
  | none => .ok { retentionClass }
  | some lifetimeMs =>
    if maxSafeInteger - lifetimeMs < now then
      .error (.rangeError "Retention expiry exceeds the safe timestamp range.")
    else .ok { retentionClass, expiresAt := some (now + lifetimeMs) }

/-! ## Mapping a row -/

def Migration.identifier (value label : String) : Except StoreError String :=
  if value = "" then .error (.typeError s!"{label} must be a non-empty string.") else .ok value

def nonNegativeInteger (value : Int) (label : String) : Except StoreError Nat :=
  if value < 0 ∨ maxSafeInteger < value then
    .error (.typeError s!"{label} must be a non-negative safe integer.")
  else .ok value.toNat

def structuralRoles : List String := ["user", "assistant", "system", "tool", "unknown"]

def structuralMessage (message : ArchiveMessage) : Except StoreError StructuralMessage := do
  let messageKey ← Migration.identifier message.messageKey "structural message key"
  let messageIndex ← nonNegativeInteger message.messageIndex "structural message index"
  let createdAt ← nonNegativeInteger message.createdAt "structural message timestamp"
  let questionScore ← nonNegativeInteger message.questionScore "question score"
  let requestScore ← nonNegativeInteger message.requestScore "request score"
  let correctionScore ← nonNegativeInteger message.correctionScore "correction score"
  let answerScore ← nonNegativeInteger message.answerScore "answer score"
  return {
    messageKey
    messageIndex
    role := if message.role ∈ structuralRoles then message.role else "unknown"
    createdAt
    text := message.text.getD ""
    questionScore
    requestScore
    correctionScore
    answerScore }

def structuralMessagesOf : List ArchiveMessage → Except StoreError (List StructuralMessage)
  | [] => return []
  | message :: rest => do
    let mapped ← structuralMessage message
    let others ← structuralMessagesOf rest
    return mapped :: others

/-- `sourceKey`, `sourceMessageKeys` and `sourceKeyStatus` of a row. -/
structure SourceKeys where
  sourceKey : String
  sourceMessageKeys : List String
  sourceKeyStatus : String

def sourceKeys (row : SourceRow) (databaseId : String) : SourceKeys :=
  match row.provenance.available, row.provenance.keys with
  | true, key :: rest =>
    { sourceKey := key, sourceMessageKeys := key :: rest, sourceKeyStatus := "preserved" }
  | _, _ =>
    { sourceKey := s!"sqlite:{databaseId}:{row.sourceOrderingKey}"
      sourceMessageKeys := []
      sourceKeyStatus := "unavailable" }

structure MappedSource where
  document : Document
  structuralMessages : List StructuralMessage
  sourceRecord : SourceRecord

def mappedDocument (row : SourceRow) (databaseId : String) (text : List UInt8) (createdAt : Nat) :
    Document :=
  let keys := sourceKeys row databaseId
  { documentId := row.id
    version := 1
    sourceKey := keys.sourceKey
    sourceKeyStatus := some keys.sourceKeyStatus
    sessionId := row.sessionId
    project := row.project
    kind := row.kind
    createdAt
    text
    metadata := row.metadata
    sourceMessageKeys := some keys.sourceMessageKeys }

def mappedRecord (row : SourceRow) (databaseId : String) (text : List UInt8) : SourceRecord :=
  let keys := sourceKeys row databaseId
  { sourceDatabaseId := databaseId
    sourceOrderingKey := row.sourceOrderingKey
    sourceRowId := row.sourceRowId
    sourceRecordFingerprint := row.sourceRecordFingerprint
    documentId := row.id
    documentVersion := 1
    sourceKey := keys.sourceKey
    sourceKeyStatus := keys.sourceKeyStatus
    sourceMessageKeys := keys.sourceMessageKeys
    textByteLength := text.length
    textHash := codec.contentHash text
    metadataJson := row.metadataJson
    metadataParse := row.metadataParse
    provenance := row.provenance
    structuralMessages := row.structuralMessages }

/-- The document, the structural messages and the source record a row stands for. -/
def mappedSource (row : SourceRow) (info : SourceDescriptor) : Except StoreError MappedSource := do
  let _ ← Migration.identifier row.id "SQLite document id"
  let _ ← Migration.identifier row.sessionId "SQLite document sessionId"
  let _ ← Migration.identifier row.project "SQLite document project"
  let _ ← Migration.identifier row.kind "SQLite document kind"
  match row.text with
  | none => .error (.typeError s!"SQLite document {row.id} text must be a string.")
  | some text => do
    let createdAt ← nonNegativeInteger row.createdAt s!"SQLite document {row.id} createdAt"
    let structuralMessages ← structuralMessagesOf row.structuralMessages
    return {
      document := mappedDocument row info.sourceDatabaseId text createdAt
      structuralMessages
      sourceRecord := mappedRecord codec row info.sourceDatabaseId text }

/-- A row as the destination should hold it. -/
structure ExpectedRow extends MappedSource where
  retention : Retention

def expectedMigratedRow (row : SourceRow) (info : SourceDescriptor) (checkpoint : Checkpoint) :
    Except StoreError ExpectedRow := do
  let mapped ← mappedSource codec row info
  let retention ← retentionForAdmission mapped.document.kind checkpoint.retentionStartedAt
  return { mapped with retention }

/-! ## The admission of a row -/

def migrationRequestId (databaseId : String) (orderingKey : Nat) : String :=
  s!"migration:{databaseId}:{orderingKey}"

structure MigratedDocument where
  sourceRecord : SourceRecord
  prepared : PreparedAdmission

def sourceKeyOf (record : SourceRecord) : Key :=
  .migration (.source record.sourceDatabaseId record.sourceOrderingKey)

namespace MigratedDocument

variable (migrated : MigratedDocument)

/-- The reverse reference that lets the cleanup of the document find the source record. -/
def referenceTransition : Transition where
  key := .derived (codec.reference migrated.prepared.document.documentId
    migrated.prepared.document.version (sourceKeyOf migrated.sourceRecord))
  previous := none
  next := codec.referenceRecord migrated.prepared.document.documentId
    migrated.prepared.document.version (sourceKeyOf migrated.sourceRecord)

/-- The admission, with the source record and its reference in the same commit. -/
def commit : CanonicalCommit :=
  { migrated.prepared.commit with
    records := migrated.prepared.commit.records ++
      [⟨.migration (.source migrated.sourceRecord.sourceDatabaseId
        migrated.sourceRecord.sourceOrderingKey), migrated.sourceRecord⟩]
    transitions := migrated.prepared.commit.transitions ++ [migrated.referenceTransition codec] }

end MigratedDocument

def prepareMigratedDocument (row : SourceRow) (info : SourceDescriptor)
    (retentionStartedAt : Nat) : Except StoreError MigratedDocument := do
  let mapped ← mappedSource codec row info
  let retention ← retentionForAdmission mapped.document.kind retentionStartedAt
  let prepared ← prepareDocumentAdmission codec.toAdmissionCodec {
    idempotencyKey := migrationRequestId info.sourceDatabaseId row.sourceOrderingKey
    document := mapped.document
    retentionClass := retention.retentionClass
    expiresAt := retention.expiresAt
    structuralMessages := codec.structuralText mapped.structuralMessages } {} {}
  return { sourceRecord := mapped.sourceRecord, prepared }

/-! ## A sample archive -/

/-- A stand-in for the encoding modules on the archives below: digests keep every byte, and a
    database is known by its inode. -/
def sampleMigrationCodec : MigrationCodec where
  keyBytes
    | .guard _ => [1]
    | _ => [0]
  recordBytes := fun _ _ => []
  payloadBytes := fun _ => []
  sha256 := fun bytes => String.ofList (bytes.map Char.ofUInt8)
  contentHash := fun bytes => String.ofList (bytes.map Char.ofUInt8)
  deterministicManifestId := fun documentId _ => documentId
  createSearchWindows := fun _ _ => .ok []
  databaseId := fun identity => identity.inode
  sourceFingerprint := fun identity mode schema corpus =>
    identity.inode ++ mode ++ schema ++ corpus
  structuralText := fun messages => toString (messages.map (·.text))
  reference := fun documentId version _ => s!"{documentId}:{version}"
  referenceRecord := fun documentId version _ => s!"{documentId}:{version}"
  recordHash := fun _ _ => "record"
  provenanceHash := fun _ => "provenance"
  documentHash := fun _ => "document"
  differenceText := fun _ => []
  comparisonText := fun _ => []

/-- An archive without documents. -/
def emptySource (inode : String) : SqliteSource where
  databaseIdentity := { path := "archive.sqlite", device := "1", inode, birthtimeNs := "1" }
  fileFingerprint := inode
  schemaFingerprint := "schema"
  orderingMode := "rowid"
  rows := []
  ascending := List.Pairwise.nil
  positive := fun _ h => by cases h

end ContextStore
