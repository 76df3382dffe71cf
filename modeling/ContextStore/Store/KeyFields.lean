import ContextStore.Store.Records
import Mathlib.Algebra.Ring.Nat

/-! # The fields of encoded keys

The tuple each key family encodes, field by field, its bytes, and which of its fields is the
project. -/

namespace ContextStore

/-- A field of an encoded key; the families here use strings and unsigned integers. -/
inductive Field where
  | string (text : String)
  | number (value : Nat)
deriving DecidableEq

/-- What is taken from the modules for random identifiers and for the keys of index handlers: the
    fields such a key decodes to, and the project it is laid out under. -/
structure KeyCodec where
  uuidText : Uuid → String
  derivedFields : String → List Field
  derivedProject : String → Option String
  derivedProject_mem : ∀ text project, derivedProject text = some project →
    Field.string project ∈ derivedFields text

/-! ## Encoding -/

def bigEndian : Nat → Nat → List UInt8
  | 0, _ => []
  | bytes + 1, value => UInt8.ofNat (value / 256 ^ bytes) :: bigEndian bytes value

/-- A string has a tag, its length in bytes and its UTF-8 bytes; an integer a tag and eight bytes.
    No key is stored with a string of 2^32 bytes or an integer of 2^64. -/
def encodeField : Field → List UInt8
  | .string text => 0x10 :: (bigEndian 4 text.toUTF8.size ++ text.toUTF8.data.toList)
  | .number value => 0x12 :: bigEndian 8 value

/-- The format version, then the fields. -/
def encodeKey (fields : List Field) : List UInt8 := 1 :: fields.flatMap encodeField

namespace KEYSPACE

def CHUNK : String := "chunk"
def CHUNK_REFERENCE : String := "chunk-reference"
def COUNTER : String := "counter"
def DERIVED : String := "derived"
def DOCUMENT : String := "document"
def EVENT : String := "event"
def EVENT_REFERENCE : String := "event-reference"
def EXACT : String := "exact"
def EXPIRY : String := "expiry"
def FEEDBACK : String := "feedback"
def IDEMPOTENCY : String := "idempotency"
def LEASE : String := "lease"
def META : String := "meta"
def OUTBOX : String := "outbox"
def POSTING : String := "posting"
def RELATION : String := "relation"
def SUPERSESSION : String := "supersession"
def WINDOW : String := "window"

/-- `Object.values(KEYSPACE)` -/
def values : List String :=
  [CHUNK, CHUNK_REFERENCE, COUNTER, DERIVED, DOCUMENT, EVENT, EVENT_REFERENCE, EXACT, EXPIRY,
    FEEDBACK, IDEMPOTENCY, LEASE, META, OUTBOX, POSTING, RELATION, SUPERSESSION, WINDOW]

end KEYSPACE

def MANIFEST_KEYSPACE : String := "manifest"

def MIGRATION_KEYSPACE : String := "migration"

variable (codec : KeyCodec)

/-- The source identifies an auxiliary kind by this text. -/
def AuxiliaryKind.text : AuxiliaryKind → String
  | .turn => "turn"
  | .toolResult => "tool-result"

def CounterKey.counterName : CounterKey → String
  | .outbox => "outbox"
  | .documentOrdinal => "document-ordinal"
  | .indexGeneration => "index-generation"
  | .recall project documentId version =>
    s!"relevance-feedback-recall:v1:{project}:{documentId}:{version}"

open KEYSPACE in
def OutboxKey.fields : OutboxKey → List Field
  | .entry sequence => [.string OUTBOX, .number sequence]
  | .state sequence => [.string META, .string "outbox-state", .number sequence]
  | .stage g => [.string META, .string "index-stage", .number g]
  | .stageTablet g ordinal =>
    [.string META, .string "index-stage-tablet", .number g, .number ordinal]
  | .stageApplied g ordinal =>
    [.string META, .string "index-stage-applied", .number g, .number ordinal]
  | .stageReady g => [.string META, .string "index-stage-ready", .number g]
  | .generation g => [.string META, .string "index-generation", .number g]
  | .cursor => [.string META, .string "outbox-cursor"]
  | .publishedGeneration => [.string META, .string "published-index-generation"]
  | .preparationMetrics => [.string META, .string "index-preparation-metrics"]

open KEYSPACE in
def ManifestKey.fields : ManifestKey → List Field
  | .chunk chunkId => [.string CHUNK, .string chunkId]
  | .chunkReference chunkId documentId version ordinal =>
    [.string CHUNK_REFERENCE, .string chunkId, .string documentId, .number version, .number ordinal]
  | .document documentId version => [.string DOCUMENT, .string documentId, .number version]
  | .documentHistory documentId => [.string META, .string "document-history", .string documentId]
  | .documentAdmissionReference documentId version requestId =>
    [.string META, .string "document-admission-reference", .string documentId,
      .number version, .string requestId]
  | .sourceMessage project sessionId sourceKey =>
    [.string EVENT, .string project, .string sessionId, .string sourceKey]
  | .sourceMessageReference project sessionId sourceKey documentId version =>
    [.string EVENT_REFERENCE, .string project, .string sessionId, .string sourceKey,
      .string documentId, .number version]
  | .sessionDocumentReference project sessionId documentId version =>
    [.string META, .string "session-document-reference", .string project, .string sessionId,
      .string documentId, .number version]
  | .subjectLive project subjectKey =>
    [.string META, .string "subject-live", .string project, .string subjectKey]
  | .window documentId version ordinal =>
    [.string WINDOW, .string documentId, .number version, .number ordinal]
  | .auxiliary kind manifestId version =>
    [.string MANIFEST_KEYSPACE, .string kind.text, .string manifestId, .number version]
  | .auxiliaryReference kind manifestId version documentId documentVersion =>
    [.string MANIFEST_KEYSPACE, .string "reference", .string kind.text, .string manifestId,
      .number version, .string documentId, .number documentVersion]
  | .supersession documentId version =>
    [.string SUPERSESSION, .string documentId, .number version]

/-- Retention keys under `[META, "retention"]`; expiry entries have a keyspace of their own. -/
def RetentionKey.fields : RetentionKey → List Field
  | .pin pinId => retention "pin" [.string pinId]
  | .pinDocument documentId version pinId =>
    retention "pin-document" [.string documentId, .number version, .string pinId]
  | .protection ownerId => retention "protection" [.string ownerId]
  | .protectionExpiry expiresAt ownerId =>
    retention "protection-expiry" [.number expiresAt, .string ownerId]
  | .protectionDocument documentId version ownerId =>
    retention "protection-document" [.string documentId, .number version, .string ownerId]
  | .protectionSession sessionId ownerId none =>
    retention "protection-session" [.string sessionId, .string ownerId]
  | .protectionSession sessionId ownerId (some project) =>
    retention "protection-session-project" [.string project, .string sessionId, .string ownerId]
  | .expiryCurrent documentId version =>
    retention "expiry-current" [.string documentId, .number version]
  | .expiry expiresAt retentionClass documentId version generation =>
    [.string KEYSPACE.EXPIRY, .number (expiresAt / 3600000), .string retentionClass,
      .number expiresAt, .string documentId, .number version] ++
      generation.toList.map .number
  | .cleanup documentId version => retention "cleanup" [.string documentId, .number version]
  | .cleanupManifest documentId version =>
    retention "cleanup-manifest" [.string documentId, .number version]
  | .auditExpiry expiresAt documentId version =>
    retention "audit-expiry" [.number expiresAt, .string documentId, .number version]
  | .access documentId version bucket =>
    retention "access" [.string documentId, .number version, .number bucket]
where
  retention (family : String) (rest : List Field) : List Field :=
    .string KEYSPACE.META :: .string "retention" :: .string family :: rest

open KEYSPACE in
def LeaseKey.fields : LeaseKey → List Field
  | .byId leaseId => [.string LEASE, .string "by-id", .string (codec.uuidText leaseId)]
  | .byExpiry expiresAt leaseId =>
    [.string LEASE, .string "by-expiry", .number expiresAt, .string (codec.uuidText leaseId)]
  | .byDocument documentId documentVersion leaseId =>
    [.string LEASE, .string "by-document", .string documentId, .number documentVersion,
      .string (codec.uuidText leaseId)]
  | .byDocumentExpiry documentId documentVersion expiresAt leaseId =>
    [.string LEASE, .string "document-expiry", .string documentId, .number documentVersion,
      .number expiresAt, .string (codec.uuidText leaseId)]

/-- Guards, under `[META, "conflict-guard"]`. -/
def GuardKey.fields : GuardKey → List Field
  | .document documentId version => guard "document" [.string documentId, .number version]
  | .session sessionId => guard "session" [.string sessionId]
  | .chunk chunkId => guard "chunk" [.string chunkId]
  | .sourceMessage project sessionId sourceKey =>
    guard "source-message" [.string project, .string sessionId, .string sourceKey]
  | .auxiliaryManifest kind manifestId version =>
    guard "auxiliary-manifest" [.string kind.text, .string manifestId, .number version]
where
  guard (family : String) (rest : List Field) : List Field :=
    .string KEYSPACE.META :: .string "conflict-guard" :: .string family :: rest

/-- The derived view, under `[META, "derived-view"]`. -/
def DerivedViewKey.fields : DerivedViewKey → List Field
  | .upgradeState => view "upgrade" []
  | .active project => view "active" [.string project]
  | .document project documentId version =>
    view "document" [.string project, .string documentId, .number version]
  | .ordinal n => view "ordinal" [.number n]
  | .projectDocument project n =>
    view "scope" [.string "project", .string project, .number n]
  | .sessionDocument project sessionId n =>
    view "scope" [.string "session", .string project, .string sessionId, .number n]
  | .tombstone project n => view "tombstone" [.string project, .number n]
where
  view (family : String) (rest : List Field) : List Field :=
    .string KEYSPACE.META :: .string "derived-view" :: .string family :: rest

/-- `MIGRATION_SOURCE_BUCKET_SIZE` -/
def MIGRATION_SOURCE_BUCKET_SIZE : Nat := 10000

def MigrationKey.fields : MigrationKey → List Field
  | .status => [.string MIGRATION_KEYSPACE, .string "status"]
  | .checkpoint sourceDatabaseId =>
    [.string MIGRATION_KEYSPACE, .string "checkpoint", .string sourceDatabaseId]
  | .authority sourceDatabaseId =>
    [.string MIGRATION_KEYSPACE, .string "authority", .string sourceDatabaseId]
  | .backendAuthority => [.string MIGRATION_KEYSPACE, .string "backend-authority"]
  | .source sourceDatabaseId orderingKey =>
    [.string MIGRATION_KEYSPACE, .string "source", .string sourceDatabaseId,
      .number ((orderingKey - 1) / MIGRATION_SOURCE_BUCKET_SIZE), .number orderingKey]
  | .failure sourceDatabaseId orderingKey =>
    [.string MIGRATION_KEYSPACE, .string "failure", .string sourceDatabaseId, .number orderingKey]
  | .comparison sourceDatabaseId runId index =>
    [.string MIGRATION_KEYSPACE, .string "comparison", .string sourceDatabaseId,
      .string (codec.uuidText runId), .number index]
  | .comparisonRun sourceDatabaseId runId =>
    [.string MIGRATION_KEYSPACE, .string "comparison-run", .string sourceDatabaseId,
      .string (codec.uuidText runId)]
  | .comparisonHistory sourceDatabaseId =>
    [.string MIGRATION_KEYSPACE, .string "comparison-history", .string sourceDatabaseId]

/-- `decodeKey` of the encoded key. -/
def Key.fields : Key → List Field
  | .counter key => [.string KEYSPACE.META, .string KEYSPACE.COUNTER, .string key.counterName]
  | .idempotency requestId =>
    [.string KEYSPACE.META, .string KEYSPACE.IDEMPOTENCY, .string requestId]
  | .outbox key => key.fields
  | .manifest key => key.fields
  | .retention key => key.fields
  | .lease key => key.fields codec
  | .guard key => key.fields
  | .derivedView key => key.fields
  | .migration key => key.fields codec
  | .derived text => codec.derivedFields text

/-- Where the database sorts a key: it compares encoded keys byte by byte. -/
def Key.sortKey (k : Key) : List Nat := (encodeKey (k.fields codec)).map UInt8.toNat

/-- The first field. -/
def Key.keyspace (k : Key) : Option String :=
  match (k.fields codec).head? with
  | some (.string keyspace) => some keyspace
  | _ => none

/-- What a key holds in its project position, where its family has one. -/
def Key.project : Key → Option String
  | .manifest (.sourceMessage project _ _) => some project
  | .manifest (.sourceMessageReference project _ _ _ _) => some project
  | .manifest (.sessionDocumentReference project _ _ _) => some project
  | .manifest (.subjectLive project _) => some project
  | .retention (.protectionSession _ _ project) => project
  | .guard (.sourceMessage project _ _) => some project
  | .derivedView (.active project) => some project
  | .derivedView (.document project _ _) => some project
  | .derivedView (.projectDocument project _) => some project
  | .derivedView (.sessionDocument project _ _) => some project
  | .derivedView (.tombstone project _) => some project
  | .derived text => codec.derivedProject text
  | _ => none

theorem Key.project_mem_fields {k : Key} {project : String} (h : k.project codec = some project) :
    Field.string project ∈ k.fields codec := by
  unfold Key.project at h
  split at h
  · cases h
    simp [Key.fields, ManifestKey.fields]
  · cases h
    simp [Key.fields, ManifestKey.fields]
  · cases h
    simp [Key.fields, ManifestKey.fields]
  · cases h
    simp [Key.fields, ManifestKey.fields]
  · subst h
    simp [Key.fields, RetentionKey.fields, RetentionKey.fields.retention]
  · cases h
    simp [Key.fields, GuardKey.fields, GuardKey.fields.guard]
  · cases h
    simp [Key.fields, DerivedViewKey.fields, DerivedViewKey.fields.view]
  · cases h
    simp [Key.fields, DerivedViewKey.fields, DerivedViewKey.fields.view]
  · cases h
    simp [Key.fields, DerivedViewKey.fields, DerivedViewKey.fields.view]
  · cases h
    simp [Key.fields, DerivedViewKey.fields, DerivedViewKey.fields.view]
  · cases h
    simp [Key.fields, DerivedViewKey.fields, DerivedViewKey.fields.view]
  · exact codec.derivedProject_mem _ _ h
  · cases h

end ContextStore
