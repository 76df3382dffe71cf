import ContextStore.Archive.Checkpoint

/-! # Reading and writing checkpoints

Reconstruction trusts nothing but the name of the root: the root, its publication and the layout
of its parts are checked against the hashes that name them, and the payloads against the hashes the
root lists. Creation writes a document only where the archive holds none under its name, and takes
the one it finds there for written if its text, or its hash and length, are the expected ones. -/

namespace ContextStore.Archive

open Unicode

variable (S : Setting)

/-- A text inside an error message. -/
def shown (value : Text) : String := String.ofList (codePoints value)

/-- What reading one document of an archive returns; reading may throw. -/
abbrev Reader : Type := Text → Except StoreError (Option ArchivedDocument)

/-- An archive with its state: `put` returns the id it stored the document under, if it confirms
one, and may change the state before it throws. -/
structure Facade (σ : Type) where
  get : σ → Reader
  put : CheckpointDocument → σ → Except StoreError (Option Text) × σ

/-! ## Reading a root -/

def orError {α : Type} (value : Option α) (message : String) : Except StoreError α :=
  match value with
  | some a => .ok a
  | none => .error (.plain message)

def textField (value : Json) (name : Text) : Option Text := (value.get name).bind Json.asString

def hexField (value : Json) (name : Text) : Option Text := (textField value name).filter S.isHexDigest

/-- `Number.isSafeInteger(value) && value >= 0` -/
def countOf (value : Json) : Option Nat :=
  value.asNumber.bind fun n => if 0 ≤ n ∧ n ≤ maxSafeInteger then some n.toNat else none

/-- A field that may be missing: `none` where it is there and not of the expected form. -/
def optionalRead {α : Type} (value : Json) (name : Text) (read : Json → Option α) :
    Option (Option α) :=
  match value.get name with
  | none => some none
  | some field => (read field).map some

def hexText (value : Json) : Option Text := value.asString.filter S.isHexDigest

def textList (value : Json) : Option (List Text) := value.asArray.bind fun items =>
  items.mapM Json.asString

def hexList (value : Json) : Option (List Text) := value.asArray.bind fun items =>
  items.mapM (hexText S)

/-- What the first check of `parseRoot` reads. -/
structure RootHeader where
  publicationId : Text
  sourceIdentity : Text
  layoutIdentity : Option Text
  byteCount : Nat
  hash : Text
  parts : List Json

def readRootHeader (root : Json) (rootId : Text) : Option RootHeader := do
  guard ((root.get (text "checkpointFormatVersion")).bind Json.asNumber = some 1)
  guard (textField root (text "recordType") = some (text "root"))
  guard (textField root (text "rootId") = some rootId)
  let publicationId ← textField root (text "publicationId")
  guard (publicationIdPrefix.isPrefixOf publicationId)
  let sourceIdentity ← hexField S root (text "sourceIdentity")
  let layoutIdentity ← optionalRead root (text "layoutIdentity") (hexText S)
  guard (textField root (text "encoding") = some (text "utf8"))
  let parts ← (root.get (text "parts")).bind Json.asArray
  guard (parts ≠ [])
  let hash ← hexField S root (text "hash")
  let byteCount ← (root.get (text "byteCount")).bind countOf
  return { publicationId, sourceIdentity, layoutIdentity, byteCount, hash, parts }

structure RootSource where
  project : Text
  sessionId : Text
  sourceKey : Text
  sourceKind : Text
  /-- As the root has them, and as they are normalized. -/
  sourceMessageKeys : Option (List Text)
  messageKeys : List Text

def readRootSource (root : Json) : Option RootSource := do
  let field (name : String) : Option Text :=
    (textField root (text name)).filter (· ≠ [])
  let project ← field "project"
  let sessionId ← field "sessionId"
  let sourceKey ← field "sourceKey"
  let sourceKind ← field "sourceKind"
  let sourceMessageKeys ← optionalRead root (text "sourceMessageKeys") textList
  let messageKeys ← (normalizeSourceMessageKeys S sourceMessageKeys sourceKey).toOption
  return { project, sessionId, sourceKey, sourceKind, sourceMessageKeys, messageKeys }

def parseRoot (document : Option ArchivedDocument) (rootId : Text) :
    Except StoreError (RootManifest Json) := do
  let stored ← orError (document.bind (·.text)) "Checkpoint root is missing or not directly readable."
  let root ← orError (Json.parse stored) "Checkpoint root is not valid JSON."
  let header ← orError (readRootHeader S root rootId) "Checkpoint root manifest is malformed."
  let source ← orError (readRootSource S root) "Checkpoint root source identity is malformed."
  let expectedSourceIdentity ← sourceAddress S source.project source.sessionId source.sourceKey
    source.messageKeys source.sourceKind header.hash
  if header.sourceIdentity ≠ expectedSourceIdentity then
    .error (.plain "Checkpoint root source identity is invalid.")
  else do
    let address ← rootAddress S header.sourceIdentity header.publicationId header.layoutIdentity
    if rootIdPrefix ++ address ≠ rootId then
      .error (.plain "Checkpoint root content address is invalid.")
    else return {
      rootId, publicationId := header.publicationId, sourceIdentity := header.sourceIdentity,
      layoutIdentity := header.layoutIdentity, sessionId := source.sessionId,
      project := source.project, sourceKey := source.sourceKey,
      sourceMessageKeys := source.sourceMessageKeys, sourceKind := source.sourceKind,
      byteCount := header.byteCount, hash := header.hash, parts := header.parts }

/-! ## Reading a publication -/

structure PublicationHeader where
  sourceIdentities : List Text
  layoutIdentities : Option (List Text)
  rootIds : List Json

def readPublication (publication : Json) (publicationId : Text) : Option PublicationHeader := do
  guard ((publication.get (text "checkpointFormatVersion")).bind Json.asNumber = some 1)
  guard (textField publication (text "recordType") = some (text "publication"))
  guard (textField publication (text "publicationId") = some publicationId)
  let sourceIdentities ← (publication.get (text "sourceIdentities")).bind (hexList S)
  let layoutIdentities ← optionalRead publication (text "layoutIdentities") (hexList S)
  let rootIds ← (publication.get (text "rootIds")).bind Json.asArray
  guard (sourceIdentities ≠ [])
  guard (sourceIdentities.length = rootIds.length)
  guard (layoutIdentities.all (·.length = rootIds.length))
  return { sourceIdentities, layoutIdentities, rootIds }

/-- The root of every entry has the address of its source and its layout. -/
def checkRootIds (publicationId : Text) (layoutIdentities : Option (List Text)) :
    Nat → List Text → List Json → Except StoreError (List Text)
  | index, sourceIdentity :: sources, rootId :: rootIds => do
    let address ← rootAddress S sourceIdentity publicationId
      (layoutIdentities.bind fun identities => identities[index]?)
    if rootId.asString ≠ some (rootIdPrefix ++ address) then
      .error (.plain "Checkpoint publication contains an invalid root address.")
    else (checkRootIds publicationId layoutIdentities (index + 1) sources rootIds).map fun others =>
      (rootIdPrefix ++ address) :: others
  | _, _, _ => .ok []

def parsePublication (document : Option ArchivedDocument) (publicationId : Text) :
    Except StoreError PublicationManifest := do
  let stored ← orError (document.bind (·.text))
    "Checkpoint publication is missing or not directly readable."
  let value ← orError (Json.parse stored) "Checkpoint publication is not valid JSON."
  let publication ← orError (readPublication S value publicationId)
    "Checkpoint publication manifest is malformed."
  let address ← publicationAddress S publication.sourceIdentities publication.layoutIdentities
  if publicationIdPrefix ++ address ≠ publicationId then
    .error (.plain "Checkpoint publication content address is invalid.")
  else do
    let rootIds ← checkRootIds S publicationId publication.layoutIdentities 0
      publication.sourceIdentities publication.rootIds
    return {
      publicationId, sourceIdentities := publication.sourceIdentities,
      layoutIdentities := publication.layoutIdentities, rootIds }

/-! ## Inspection -/

/-- The part lies behind the one before it and is numbered after it. -/
def readPart (ordinal cursor : Nat) (value : Json) : Option PartReference := do
  let id ← textField value (text "id")
  guard ((value.get (text "ordinal")).bind Json.asNumber = some ordinal)
  guard ((value.get (text "startByte")).bind Json.asNumber = some cursor)
  let endByte ← (value.get (text "endByte")).bind countOf
  guard (cursor ≤ endByte)
  let byteCount ← (value.get (text "byteCount")).bind countOf
  guard (byteCount = endByte - cursor)
  let hash ← hexField S value (text "hash")
  return { id, ordinal, startByte := cursor, endByte, byteCount, hash }

def checkParts (project sessionId rootId : Text) :
    Nat → Nat → List Json → Except StoreError (List PartReference × Nat)
  | _, cursor, [] => .ok ([], cursor)
  | ordinal, cursor, value :: rest => do
    let reference ← orError (readPart S ordinal cursor value)
      "Checkpoint root contains an invalid part layout."
    let address ← partAddress S project sessionId rootId reference.hash
    if reference.id ≠ partIdPrefix ++ address then
      .error (.plain s!"Checkpoint part {shown reference.id} has an invalid content address.")
    else
      let others ← checkParts project sessionId rootId (ordinal + 1) reference.endByte rest
      return (reference :: others.1, others.2)

/-- The publication lists the root with its source and its layout. -/
def covers (publication : PublicationManifest) (root : RootManifest Json) : Bool :=
  match publication.rootIds.idxOf? root.rootId with
  | none => false
  | some index => publication.sourceIdentities[index]? = some root.sourceIdentity &&
      (publication.layoutIdentities.bind fun identities => identities[index]?) = root.layoutIdentity

/-- The identity of the layout that was read, for a root that commits to its layout. -/
def expectedLayoutIdentity (root : RootManifest Json) (parts : List PartReference) :
    Except StoreError (Option Text) :=
  match root.layoutIdentity with
  | none => .ok none
  | some _ => (layoutAddress S root.byteCount root.hash
      (parts.map PartReference.coordinates)).map some

def inspectCheckpointManifest (get : Reader) (rootId : Text) :
    Except StoreError (RootManifest PartReference) := do
  let rootId ← identifier rootId "rootId"
  let document ← get rootId
  let root ← parseRoot S document rootId
  let stored ← get root.publicationId
  let publication ← parsePublication S stored root.publicationId
  if covers publication root = false then
    .error (.plain "Checkpoint root is not covered by its complete publication.")
  else do
    let checked ← checkParts S root.project root.sessionId root.rootId 0 0 root.parts
    if checked.2 ≠ root.byteCount then
      .error (.plain "Checkpoint root part layout does not cover its declared byte count.")
    else do
      let expected ← expectedLayoutIdentity S root checked.1
      if root.layoutIdentity ≠ expected then
        .error (.plain "Checkpoint root part layout identity is invalid.")
      else return { root with parts := checked.1 }

/-! ## Reconstruction -/

/-- The bytes of one part; the source reads a document once for all parts of its address. -/
def readPayload (get : Reader) (reference : PartReference) : Except StoreError (List UInt8) := do
  let document ← get reference.id
  match document.bind (·.text) with
  | none => .error (.plain s!"Checkpoint part {shown reference.id} is missing or malformed.")
  | some stored =>
    if partPrefix.isPrefixOf stored = false then
      .error (.plain s!"Checkpoint part {shown reference.id} is missing or malformed.")
    else
      let payload := utf8 (stored.drop partPrefix.length)
      if payload.length ≠ reference.byteCount ∨ S.sha256 payload ≠ reference.hash then
        .error (.plain s!"Checkpoint part {shown reference.id} failed integrity verification.")
      else .ok payload

def readPayloads (get : Reader) : List PartReference → Except StoreError (List (List UInt8))
  | [] => .ok []
  | reference :: rest => do
    let payload ← readPayload S get reference
    let others ← readPayloads get rest
    return payload :: others

structure Reconstruction where
  root : RootManifest PartReference
  text : Text

def reconstructCheckpointSource (get : Reader) (rootId : Text) :
    Except StoreError Reconstruction := do
  let root ← inspectCheckpointManifest S get rootId
  let payloads ← readPayloads S get root.parts
  let bytes := payloads.flatten
  if bytes.length ≠ root.byteCount ∨ S.sha256 bytes ≠ root.hash then
    .error (.plain "Checkpoint source failed root integrity verification.")
  else return { root, text := decode bytes }

/-! ## Creation -/

/-- Does the archive hold this text? Where the texts differ, its hash and length decide. -/
def documentMatches (existing : Option ArchivedDocument) (expectedText : Text) :
    Except StoreError Bool :=
  match existing with
  | none => .ok false
  | some document =>
    if document.text = some expectedText then .ok true
    else (contentHash S expectedText).map fun hash =>
      document.contentHash = some hash && document.byteLength = some (utf8 expectedText).length

def putIdempotent {σ : Type} (archive : Facade σ) (document : CheckpointDocument) (s : σ) :
    Except StoreError Unit × σ :=
  match archive.get s document.id with
  | .error e => (.error e, s)
  | .ok (some existing) => match documentMatches S (some existing) document.text with
      | .ok true => (.ok (), s)
      | .ok false => (.error (.plain
          s!"Checkpoint content address {shown document.id} resolves to different bytes."), s)
      | .error e => (.error e, s)
  | .ok none => match archive.put document s with
      | (.ok (some storedId), t) =>
        if storedId = document.id then (.ok (), t)
        else (.error (.plain "Archive did not confirm the expected checkpoint document ID."), t)
      | (.ok none, t) =>
        (.error (.plain "Archive did not confirm the expected checkpoint document ID."), t)
      | (.error e, t) => (.error e, t)

/-- Documents one after the other, up to the first that fails. -/
def putAll {σ : Type} (archive : Facade σ) : List CheckpointDocument → σ →
    Except StoreError Unit × σ
  | [], s => (.ok (), s)
  | document :: rest, s => match putIdempotent S archive document s with
      | (.ok (), t) => putAll archive rest t
      | (.error e, t) => (.error e, t)

/-- Every root of these plans is there and reads as its source. -/
def holdsPlans (get : Reader) : List SourcePlan → Except StoreError Bool
  | [] => .ok true
  | plan :: rest => do
    let document ← get plan.root.rootId
    let same ← documentMatches S document plan.rootText
    if same = false then return false
    else match reconstructCheckpointSource S get plan.root.rootId with
      | .error _ => return false
      | .ok reconstructed =>
        if reconstructed.text ≠ plan.text then return false else holdsPlans get rest

def completeExistingCheckpoint (get : Reader) (plans : List SourcePlan)
    (publication : PublicationPlan) : Except StoreError Bool := do
  let document ← get publication.publication.publicationId
  let same ← documentMatches S document publication.text
  if same then holdsPlans S get plans else return false

structure CheckpointRequest where
  sessionId : Text
  project : Text
  sources : List CheckpointSource := []
  previousSummary : Option CheckpointSource := none
  previousSummaryCoveredByTrustedCatalog : Bool := false
  createdAt : Nat
  previewSourceIndex : Nat := 0
  previewTokens : Nat := 800
  catalogTokens : Nat := 1000

/-- The sources of a request: the previous summary, unless a trusted catalog covers it, is one
more source of its own kind. -/
def CheckpointRequest.allSources (request : CheckpointRequest) : List CheckpointSource :=
  request.sources ++ match request.previousSummary with
    | none => []
    | some summary =>
      if request.previousSummaryCoveredByTrustedCatalog then []
      else [{ summary with
        kind := some (text "archive-previous-summary")
        topic := some (summary.topic.getD (text "Previous compaction summary")) }]

structure StoredCheckpoint where
  publicationId : Text
  roots : List RootSummary
  catalog : Text
  preview : Text

inductive CheckpointResult where
  | stored (checkpoint : StoredCheckpoint)
  | failed (code message : String)

def normalizeSources (request : CheckpointRequest) :
    List CheckpointSource → Except StoreError (List (PlannedSource × SourceLayout))
  | [] => .ok []
  | source :: rest => do
    let planned ← normalizePlannedSource S request.sessionId request.project request.createdAt
      source
    let layout ← sourceLayout S planned
    let others ← normalizeSources request rest
    return (planned, layout) :: others

/-- All that a checkpoint of these sources consists of. -/
structure CheckpointPlan where
  plans : List SourcePlan
  publication : PublicationPlan
  stored : StoredCheckpoint

def planCheckpoint (request : CheckpointRequest) (sources : List (PlannedSource × SourceLayout))
    (layoutCommitted : Bool) (publicationId : Text) : Except StoreError CheckpointPlan := do
  let plans ← planSources S publicationId request.previewTokens layoutCommitted sources
  let roots := plans.map summarizePlannedSource
  let publication ← planPublication S publicationId plans
  let catalog ← S.createCompactionCatalog roots request.catalogTokens
  let preview := (plans[request.previewSourceIndex]?.map (·.preview)).getD []
  return { plans, publication, stored := { publicationId, roots, catalog, preview } }

def CheckpointPlan.documents (request : CheckpointRequest) (plan : CheckpointPlan) :
    List CheckpointDocument :=
  plan.plans.flatMap partDocuments ++ plan.plans.map rootDocument ++
    [publicationDocument request.sessionId request.project request.createdAt plan.publication]

/-- What creation decides before its first write. -/
inductive Preparation where
  /-- A complete checkpoint of the original layout is there already. -/
  | reuse (plan : CheckpointPlan)
  | write (plan : CheckpointPlan)

def reusable (get : Reader) (request : CheckpointRequest)
    (sources : List (PlannedSource × SourceLayout)) : Except StoreError (Option CheckpointPlan) := do
  let address ← publicationAddress S (sources.map (·.1.sourceIdentity)) none
  let legacyPublicationId := publicationIdPrefix ++ address
  match ← get legacyPublicationId with
  | none => return none
  | some _ =>
    let legacy ← planCheckpoint S request sources false legacyPublicationId
    let complete ← completeExistingCheckpoint S get legacy.plans legacy.publication
    return if complete then some legacy else none

def prepareCheckpoint (get : Reader) (request : CheckpointRequest) :
    Except StoreError Preparation := do
  let _ ← identifier request.sessionId "sessionId"
  let _ ← identifier request.project "project"
  let _ ← timestamp request.createdAt "createdAt"
  if request.allSources = [] then
    .error (.typeError "At least one exact source is required.")
  else if request.allSources.length ≤ request.previewSourceIndex then
    .error (.rangeError "previewSourceIndex must identify a checkpoint source.")
  else do
    let sources ← normalizeSources S request request.allSources
    match ← reusable S get request sources with
    | some legacy => return .reuse legacy
    | none =>
      let address ← publicationAddress S (sources.map (·.1.sourceIdentity))
        (some (sources.map (·.2.layoutIdentity)))
      let plan ← planCheckpoint S request sources true (publicationIdPrefix ++ address)
      return .write plan

def checkpointFailed : CheckpointResult :=
  .failed "archive-checkpoint-failed" "Exact archive checkpoint could not be confirmed."

def createArchiveCheckpoint {σ : Type} (archive : Facade σ) (request : CheckpointRequest) (s : σ) :
    CheckpointResult × σ :=
  match prepareCheckpoint S (archive.get s) request with
  | .error _ => (checkpointFailed, s)
  | .ok (.reuse plan) => (.stored plan.stored, s)
  | .ok (.write plan) => match putAll S archive (plan.documents request) s with
      | (.ok (), t) => (.stored plan.stored, t)
      | (.error _, t) => (checkpointFailed, t)

end ContextStore.Archive
