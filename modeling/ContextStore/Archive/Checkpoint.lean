import ContextStore.Documents.Chunks
import ContextStore.Foundation.Json
import ContextStore.Store.Commit

/-! # Exact archive checkpoints

A checkpoint stores source texts outside the prompt: every source is cut into parts, a root
document lists the parts of one source, and a publication document lists the roots. Every document
is named by a hash of what it commits to. `createArchiveCheckpoint` plans everything before its
first write and then writes the parts, the roots and the publication in this order;
`reconstructCheckpointSource` puts one source together again and checks every hash on the way.

The digest, the limits of the store and the rendering of previews and catalogs are parameters;
the form of a digest is only ever checked by `isHexDigest`. -/

namespace ContextStore.Archive

open Unicode

/-! ## Parameters -/

/-- `store-contract.js` -/
structure Limits where
  maxDocumentTextBytes : Nat := 8 * 1024 * 1024
  maxDirectDocumentSourceBytes : Nat := 1024 * 1024
  maxDocumentMetadataBytes : Nat := 1024 * 1024
  maxSourceMessageKeysPerDocument : Nat := 256
  maxSourceMessageKeyBytesPerDocument : Nat := 1024 * 1024
  maxStoreIdentifierLength : Nat := 8192

/-- A part as its root lists it. -/
structure PartReference where
  id : Text
  ordinal : Nat
  startByte : Nat
  endByte : Nat
  byteCount : Nat
  hash : Text

/-- What a root document says; its parts are read in a second step. -/
structure RootManifest (Part : Type) where
  rootId : Text
  publicationId : Text
  sourceIdentity : Text
  /-- Missing in a root of the original layout. -/
  layoutIdentity : Option Text
  sessionId : Text
  project : Text
  sourceKey : Text
  /-- Missing where the source key is the only message key. -/
  sourceMessageKeys : Option (List Text)
  sourceKind : Text
  byteCount : Nat
  hash : Text
  parts : List Part

/-- `root.sourceMessageKeys ?? [root.sourceKey]` -/
def RootManifest.messageKeys {Part : Type} (root : RootManifest Part) : List Text :=
  root.sourceMessageKeys.getD [root.sourceKey]

structure Preview where
  renderedText : Text
  visibleSourceText : Text

/-- `summarizePlannedSource` -/
structure RootSummary where
  rootId : Text
  publicationId : Text
  kind : Text
  topic : Text
  terms : List Text
  byteCount : Nat
  hash : Text
  partCount : Nat
  partIds : List Text
deriving DecidableEq

/-- The digest, the limits, and the rendering of what the model sees. -/
structure Setting where
  /-- The SHA-256 digest in hexadecimal. -/
  sha256 : List UInt8 → Text
  /-- `/^[a-f0-9]{64}$/u` -/
  isHexDigest : Text → Bool
  limits : Limits
  checkpointPreviewDetails : Text → RootManifest PartReference → Nat → Except StoreError Preview
  sourceTopic : Text → Option Text → Text
  normalizeTerms : Text → List Text → List Text
  createCompactionCatalog : List RootSummary → Nat → Except StoreError Text

variable (S : Setting)

/-! ## Checks -/

def wellFormedText (value : Text) (label : String) : Except StoreError Text :=
  if isWellFormed value then .ok value
  else .error (.typeError s!"{label} must not contain unpaired UTF-16 surrogates.")

def identifier (value : Text) (label : String) : Except StoreError Text :=
  if value = [] then .error (.typeError s!"{label} must be a non-empty string.") else .ok value

/-- `buffer.constants.MAX_LENGTH` is the largest safe integer. -/
def bufferFrom (value : Text) : Except StoreError (List UInt8) :=
  if (utf8 value).length ≤ maxSafeInteger then .ok (utf8 value)
  else .error (.rangeError "Cannot create a Buffer of this length.")

/-- `contentHash(text)` -/
def contentHash (value : Text) : Except StoreError Text :=
  (wellFormedText value "text").map fun value => S.sha256 (utf8 value)

def rootIdPrefix : Text := text "checkpoint-root:"

def partIdPrefix : Text := text "checkpoint-part:"

def publicationIdPrefix : Text := text "checkpoint-publication:"

def partPrefix : Text := text "[context-window exact checkpoint part v1]\n"

/-- `ARCHIVE_CHECKPOINT_PART_MAX_BYTES` -/
def partMaxBytes : Nat :=
  min S.limits.maxDocumentTextBytes S.limits.maxDirectDocumentSourceBytes

/-- `ARCHIVE_CHECKPOINT_PART_PAYLOAD_MAX_BYTES` -/
def partPayloadMaxBytes : Nat := partMaxBytes S - (utf8 partPrefix).length

/-! ## Addresses -/

/-- What `hashParts` feeds to the digest: every part after its length. -/
def partBytes : List Text → Except StoreError (List UInt8)
  | [] => .ok []
  | part :: rest => do
    let field ← hashField (utf8 part)
    let others ← partBytes rest
    return field ++ others

def hashParts (parts : List Text) : Except StoreError Text :=
  (partBytes parts).map S.sha256

def sourceIdentityParts (project sessionId sourceKey : Text) (sourceMessageKeys : List Text)
    (kind hash : Text) : List Text :=
  [text "archive-checkpoint-source-v1", project, sessionId, sourceKey, kind, hash] ++
    if sourceMessageKeys = [sourceKey] then []
    else text "source-message-keys-v1" :: sourceMessageKeys

def sourceAddress (project sessionId sourceKey : Text) (sourceMessageKeys : List Text)
    (kind hash : Text) : Except StoreError Text :=
  hashParts S (sourceIdentityParts project sessionId sourceKey sourceMessageKeys kind hash)

def publicationAddress (sourceAddresses : List Text) (layoutIdentities : Option (List Text)) :
    Except StoreError Text :=
  hashParts S (text "archive-checkpoint-publication-v1" :: (sourceAddresses ++
    match layoutIdentities with
    | none => []
    | some identities => text "layout-committed-v1" :: identities))

def rootAddress (sourceIdentity publicationId : Text) (layoutIdentity : Option Text) :
    Except StoreError Text :=
  hashParts S ([text "archive-checkpoint-root-v1", sourceIdentity, publicationId] ++
    match layoutIdentity with
    | none => []
    | some identity => [text "layout-committed-v1", identity])

/-- The coordinates of a part, as its layout's address commits to them. -/
structure PartCoordinates where
  ordinal : Nat
  startByte : Nat
  endByte : Nat
  byteCount : Nat
  hash : Text

def PartReference.coordinates (part : PartReference) : PartCoordinates where
  ordinal := part.ordinal
  startByte := part.startByte
  endByte := part.endByte
  byteCount := part.byteCount
  hash := part.hash

def PartCoordinates.values (part : PartCoordinates) : List Text :=
  [Json.decimal part.ordinal, Json.decimal part.startByte, Json.decimal part.endByte,
    Json.decimal part.byteCount, part.hash]

def layoutAddress (byteCount : Nat) (sourceHash : Text) (parts : List PartCoordinates) :
    Except StoreError Text :=
  hashParts S ([text "archive-checkpoint-layout-v1", Json.decimal byteCount, sourceHash,
    Json.decimal parts.length] ++ parts.flatMap PartCoordinates.values)

def partAddress (project sessionId rootId hash : Text) : Except StoreError Text :=
  hashParts S [text "archive-checkpoint-part-v1", project, sessionId, rootId, hash]

/-! ## Cutting -/

structure PlannedPart extends PartCoordinates where
  text : Text

/-- The loop of `splitExactParts`; every round but the last moves `startByte` forward. -/
def splitParts (bytes : List UInt8) : Nat → Nat → Nat → Except StoreError (List PlannedPart)
  | 0, _, _ => .error .unfinished
  | fuel + 1, startByte, ordinal =>
    let hardEnd := min bytes.length (startByte + partPayloadMaxBytes S)
    let endByte := if hardEnd = bytes.length then hardEnd
      else utf8BoundaryAtOrBefore bytes startByte hardEnd
    if endByte ≤ startByte ∧ 0 < bytes.length then
      .error (.plain "Unable to split checkpoint source at a UTF-8 boundary.")
    else
      let payload := subarray bytes startByte endByte
      let part : PlannedPart :=
        { ordinal, startByte, endByte, byteCount := payload.length, hash := S.sha256 payload,
          text := decode payload }
      if endByte < bytes.length then
        (splitParts bytes fuel endByte (ordinal + 1)).map fun rest => part :: rest
      else .ok [part]

def splitExactParts (value : Text) : Except StoreError (List UInt8 × List PlannedPart) := do
  let source ← wellFormedText value "source.text"
  let bytes ← bufferFrom source
  let parts ← splitParts S bytes (bytes.length + 1) 0 0
  return (bytes, parts)

/-! ## Sources -/

structure CheckpointSource where
  text : Text
  sessionId : Option Text := none
  project : Option Text := none
  sourceKey : Option Text := none
  sourceMessageKeys : Option (List Text) := none
  kind : Option Text := none
  createdAt : Option Nat := none
  topic : Option Text := none
  terms : List Text := []

/-- Keys one after the other, with the bytes of those before. -/
def checkMessageKeys : Nat → Nat → List Text → Except StoreError Unit
  | _, _, [] => .ok ()
  | index, bytes, key :: rest => do
    let key ← identifier key s!"source.sourceMessageKeys[{index}]"
    if S.limits.maxStoreIdentifierLength < key.length then
      .error (.rangeError (s!"source.sourceMessageKeys[{index}] must contain at most "
        ++ s!"{S.limits.maxStoreIdentifierLength} characters."))
    else if S.limits.maxSourceMessageKeyBytesPerDocument < bytes + (utf8 key).length then
      .error (.rangeError ("source.sourceMessageKeys must contain at most "
        ++ s!"{S.limits.maxSourceMessageKeyBytesPerDocument} UTF-8 bytes."))
    else checkMessageKeys (index + 1) (bytes + (utf8 key).length) rest

def normalizeSourceMessageKeys (value : Option (List Text)) (sourceKey : Text) :
    Except StoreError (List Text) := do
  let sourceKey ← identifier sourceKey "source.sourceKey"
  if S.limits.maxStoreIdentifierLength < sourceKey.length then
    .error (.rangeError (s!"source.sourceKey must contain at most "
      ++ s!"{S.limits.maxStoreIdentifierLength} characters."))
  else match value with
    | none => .ok [sourceKey]
    | some keys =>
      if keys = [] ∨ S.limits.maxSourceMessageKeysPerDocument < keys.length then
        .error (.typeError ("source.sourceMessageKeys must contain 1-"
          ++ s!"{S.limits.maxSourceMessageKeysPerDocument} entries."))
      else (checkMessageKeys S 0 0 keys).map fun _ => keys

structure PlannedSource where
  text : Text
  sessionId : Text
  project : Text
  sourceKey : Text
  sourceMessageKeys : List Text
  kind : Text
  createdAt : Nat
  fullHash : Text
  sourceIdentity : Text
  topic : Option Text
  terms : List Text

def timestamp (value : Nat) (label : String) : Except StoreError Nat :=
  if value ≤ maxSafeInteger then .ok value
  else .error (.typeError s!"{label} must be a non-negative safe integer.")

/-- A source without a key is keyed by its content. -/
def plannedSourceKey (sourceKey : Option Text) (fullHash : Text) : Except StoreError Text :=
  match sourceKey with
  | none => .ok (text "checkpoint-source:" ++ fullHash)
  | some key => identifier key "source.sourceKey"

/-- `normalizedSource` and `normalizePlannedSource` -/
def normalizePlannedSource (sessionId project : Text) (createdAt : Nat)
    (source : CheckpointSource) : Except StoreError PlannedSource := do
  let normalizedText ← wellFormedText source.text "source.text"
  let sessionId ← identifier (source.sessionId.getD sessionId) "sessionId"
  let project ← identifier (source.project.getD project) "project"
  let kind ← identifier (source.kind.getD (text "compaction-source")) "source.kind"
  let createdAt ← timestamp (source.createdAt.getD createdAt) "source.createdAt"
  let fullHash ← contentHash S normalizedText
  let sourceKey ← plannedSourceKey source.sourceKey fullHash
  let sourceMessageKeys ← normalizeSourceMessageKeys S source.sourceMessageKeys sourceKey
  let sourceIdentity ← sourceAddress S project sessionId sourceKey sourceMessageKeys kind fullHash
  return {
    text := normalizedText, sessionId, project, sourceKey, sourceMessageKeys, kind, createdAt,
    fullHash, sourceIdentity, topic := source.topic, terms := source.terms }

structure SourceLayout where
  byteCount : Nat
  parts : List PlannedPart
  layoutIdentity : Text

def sourceLayout (source : PlannedSource) : Except StoreError SourceLayout := do
  let split ← splitExactParts S source.text
  let layoutIdentity ← layoutAddress S split.1.length source.fullHash
    (split.2.map (·.toPartCoordinates))
  return { byteCount := split.1.length, parts := split.2, layoutIdentity }

/-! ## Documents -/

def number (n : Nat) : Json := .number n

def strings (items : List Text) : Json := .array (items.map .string)

/-- A field that is left out when there is no value. -/
def optionalField (name : Text) (value : Option Json) : List (Text × Json) :=
  (value.map fun value => (name, value)).toList

def PartReference.fields (part : PartReference) : List (Text × Json) :=
  [(text "id", .string part.id), (text "ordinal", number part.ordinal),
    (text "startByte", number part.startByte), (text "endByte", number part.endByte),
    (text "byteCount", number part.byteCount), (text "hash", .string part.hash)]

def PartReference.toJson (part : PartReference) : Json := .object part.fields

def RootManifest.fields (root : RootManifest PartReference) : List (Text × Json) :=
  [(text "checkpointFormatVersion", number 1), (text "recordType", .string (text "root")),
    (text "rootId", .string root.rootId), (text "publicationId", .string root.publicationId),
    (text "sourceIdentity", .string root.sourceIdentity)] ++
  (optionalField (text "layoutIdentity") (root.layoutIdentity.map .string) ++
  ([(text "sessionId", .string root.sessionId), (text "project", .string root.project),
    (text "sourceKey", .string root.sourceKey)] ++
  (optionalField (text "sourceMessageKeys") (root.sourceMessageKeys.map strings) ++
  [(text "sourceKind", .string root.sourceKind), (text "encoding", .string (text "utf8")),
    (text "byteCount", number root.byteCount), (text "hash", .string root.hash),
    (text "parts", .array (root.parts.map PartReference.toJson))])))

def RootManifest.toJson (root : RootManifest PartReference) : Json := .object root.fields

structure PublicationManifest where
  publicationId : Text
  sourceIdentities : List Text
  layoutIdentities : Option (List Text)
  rootIds : List Text

def PublicationManifest.fields (publication : PublicationManifest) : List (Text × Json) :=
  [(text "checkpointFormatVersion", number 1), (text "recordType", .string (text "publication")),
    (text "publicationId", .string publication.publicationId),
    (text "sourceIdentities", strings publication.sourceIdentities)] ++
  (optionalField (text "layoutIdentities") (publication.layoutIdentities.map strings) ++
  [(text "rootIds", strings publication.rootIds)])

def PublicationManifest.toJson (publication : PublicationManifest) : Json :=
  .object publication.fields

/-- A document as it is handed to the archive. -/
structure CheckpointDocument where
  id : Text
  sessionId : Text
  project : Text
  kind : Text
  text : Text
  createdAt : Nat
  metadata : Json

structure ArchivedDocument where
  text : Option Text
  contentHash : Option Text
  byteLength : Option Nat

/-! ## Planning -/

structure SourcePlan where
  text : Text
  createdAt : Nat
  parts : List PlannedPart
  root : RootManifest PartReference
  rootText : Text
  preview : Text
  topic : Text
  terms : List Text

/-- The references of the parts, each with its address. -/
def partReferences (project sessionId rootId : Text) :
    List PartCoordinates → Except StoreError (List PartReference)
  | [] => .ok []
  | part :: rest => do
    let address ← partAddress S project sessionId rootId part.hash
    let others ← partReferences project sessionId rootId rest
    let reference : PartReference := {
      id := partIdPrefix ++ address, ordinal := part.ordinal, startByte := part.startByte,
      endByte := part.endByte, byteCount := part.byteCount, hash := part.hash }
    return reference :: others

/-- The layout a root commits to; a root of the original layout commits to none. -/
def committedIdentity (layoutCommitted : Bool) (layout : SourceLayout) : Option Text :=
  if layoutCommitted then some layout.layoutIdentity else none

def plannedRoot (rootId publicationId : Text) (layoutIdentity : Option Text)
    (source : PlannedSource) (byteCount : Nat) (parts : List PartReference) :
    RootManifest PartReference where
  rootId
  publicationId
  sourceIdentity := source.sourceIdentity
  layoutIdentity
  sessionId := source.sessionId
  project := source.project
  sourceKey := source.sourceKey
  sourceMessageKeys := if source.sourceMessageKeys = [source.sourceKey] then none
    else some source.sourceMessageKeys
  sourceKind := source.kind
  byteCount
  hash := source.fullHash
  parts

def planSource (publicationId : Text) (previewTokens : Nat) (layoutCommitted : Bool)
    (source : PlannedSource) (layout : SourceLayout) : Except StoreError SourcePlan := do
  let layoutIdentity := committedIdentity layoutCommitted layout
  let address ← rootAddress S source.sourceIdentity publicationId layoutIdentity
  let rootId := rootIdPrefix ++ address
  if layout.parts.any fun part =>
      S.limits.maxDocumentTextBytes < (utf8 (partPrefix ++ part.text)).length then
    .error (.plain "Checkpoint part exceeds the store document limit.")
  else do
    let references ← partReferences S source.project source.sessionId rootId
      (layout.parts.map (·.toPartCoordinates))
    let root := plannedRoot rootId publicationId layoutIdentity source layout.byteCount references
    let rootText := root.toJson.stringify
    if S.limits.maxDirectDocumentSourceBytes < (utf8 rootText).length then
      .error (.rangeError "Checkpoint root manifest exceeds the bounded direct-read limit.")
    else do
      let preview ← S.checkpointPreviewDetails source.text root previewTokens
      return {
        text := source.text, createdAt := source.createdAt, parts := layout.parts, root,
        rootText, preview := preview.renderedText,
        topic := S.sourceTopic preview.visibleSourceText source.topic,
        terms := S.normalizeTerms preview.visibleSourceText source.terms }

/-- The plans of all sources with their layouts, in order. -/
def planSources (publicationId : Text) (previewTokens : Nat) (layoutCommitted : Bool) :
    List (PlannedSource × SourceLayout) → Except StoreError (List SourcePlan)
  | [] => .ok []
  | (source, layout) :: rest => do
    let plan ← planSource S publicationId previewTokens layoutCommitted source layout
    let others ← planSources publicationId previewTokens layoutCommitted rest
    return plan :: others

def summarizePlannedSource (plan : SourcePlan) : RootSummary where
  rootId := plan.root.rootId
  publicationId := plan.root.publicationId
  kind := plan.root.sourceKind
  topic := plan.topic
  terms := plan.terms
  byteCount := plan.root.byteCount
  hash := plan.root.hash
  partCount := plan.root.parts.length
  partIds := plan.root.parts.map (·.id)

structure PublicationPlan where
  publication : PublicationManifest
  text : Text
  metadata : Json

def publicationMetadata (hash : Text) (rootCount : Nat) (sourceMessageKeys : List Text) : Json :=
  .object [(text "checkpointFormatVersion", number 1),
    (text "checkpointRecordType", .string (text "publication")),
    (text "contentHash", .string hash), (text "rootCount", number rootCount),
    (text "sourceMessageKeys", strings sourceMessageKeys)]

/-- Metadata over these keys, if they and it fit into one document. -/
def boundedMetadata (hash : Text) (rootCount : Nat) (keys : List Text) : Except StoreError Json := do
  let _ ← normalizeSourceMessageKeys S (some keys) (keys.headD [])
  let metadata := publicationMetadata hash rootCount keys
  if S.limits.maxDocumentMetadataBytes < (utf8 metadata.stringify).length then
    .error (.rangeError "Checkpoint publication metadata exceeds the store document limit.")
  else .ok metadata

/-- The keys of all roots, or one key of each root where those are too many. -/
def planMetadata (hash : Text) (plans : List SourcePlan) : Except StoreError Json :=
  match boundedMetadata S hash plans.length (plans.flatMap (·.root.messageKeys)).eraseDups with
  | .ok metadata => .ok metadata
  | .error _ => boundedMetadata S hash plans.length (plans.map (·.root.sourceKey)).eraseDups

def planPublication (publicationId : Text) (plans : List SourcePlan) :
    Except StoreError PublicationPlan := do
  let publication : PublicationManifest :=
    { publicationId
      sourceIdentities := plans.map (·.root.sourceIdentity)
      layoutIdentities := plans.mapM (·.root.layoutIdentity)
      rootIds := plans.map (·.root.rootId) }
  let publicationText := publication.toJson.stringify
  if S.limits.maxDirectDocumentSourceBytes < (utf8 publicationText).length then
    .error (.rangeError "Checkpoint publication manifest exceeds the bounded direct-read limit.")
  else do
    let hash ← contentHash S publicationText
    let metadata ← planMetadata S hash plans
    return { publication, text := publicationText, metadata }

def partDocument (plan : SourcePlan) (reference : PartReference) (part : PlannedPart) :
    CheckpointDocument where
  id := reference.id
  sessionId := plan.root.sessionId
  project := plan.root.project
  kind := text "archive-checkpoint-part"
  text := partPrefix ++ part.text
  createdAt := plan.createdAt
  metadata := .object [(text "checkpointFormatVersion", number 1),
    (text "checkpointRecordType", .string (text "part")), (text "encoding", .string (text "utf8")),
    (text "contentHash", .string part.hash), (text "byteCount", number part.byteCount),
    (text "sourceMessageKeys", strings plan.root.messageKeys)]

/-- One document for each reference that was not seen before. -/
def uniqueParts (plan : SourcePlan) :
    List Text → List (PartReference × PlannedPart) → List CheckpointDocument
  | _, [] => []
  | seen, (reference, part) :: rest =>
    if reference.id ∈ seen then uniqueParts plan seen rest
    else partDocument plan reference part :: uniqueParts plan (reference.id :: seen) rest

def partDocuments (plan : SourcePlan) : List CheckpointDocument :=
  uniqueParts plan [] (plan.root.parts.zip plan.parts)

def rootDocument (plan : SourcePlan) : CheckpointDocument where
  id := plan.root.rootId
  sessionId := plan.root.sessionId
  project := plan.root.project
  kind := text "archive-checkpoint-root"
  text := plan.rootText
  createdAt := plan.createdAt
  metadata := .object [(text "checkpointFormatVersion", number 1),
    (text "checkpointRecordType", .string (text "root")),
    (text "contentHash", .string plan.root.hash), (text "byteCount", number plan.root.byteCount),
    (text "partCount", number plan.root.parts.length),
    (text "sourceKind", .string plan.root.sourceKind),
    (text "publicationId", .string plan.root.publicationId),
    (text "sourceMessageKeys", strings plan.root.messageKeys)]

def publicationDocument (sessionId project : Text) (createdAt : Nat) (plan : PublicationPlan) :
    CheckpointDocument where
  id := plan.publication.publicationId
  sessionId
  project
  kind := text "archive-checkpoint-publication"
  text := plan.text
  createdAt
  metadata := plan.metadata

end ContextStore.Archive
