import ContextStore.Documents.Chunks
import ContextStore.Store.Commit

/-! # Admissions

`admitDocument`: a `store.put` request is compared with what the store knows of the document's
versions, of the target it explicitly supersedes and of its subject, mapped to canonical records,
and committed. The reads happen one after the other outside the transaction; what they rest on is
turned into preconditions of the commit. -/

namespace ContextStore

open Concurrent
open Program (require ofExcept)

/-! ## Requests -/

structure Document where
  documentId : String
  version : Nat
  sourceKey : String
  sourceKeyStatus : Option String := none
  sessionId : String
  project : String
  kind : String
  createdAt : Nat
  text : List UInt8
  metadata : DocumentMetadata := {}
  sourceMessageKeys : Option (List String) := none
  subjectKey : Option String := none
  supersedes : Option DocumentVersionRef := none
deriving DecidableEq

structure PutRequest where
  idempotencyKey : String
  document : Document
  retentionClass : String
  expiresAt : Option Nat := none
  protect : Bool := false
  structuralMessages : String := "[]"

structure AdmissionOptions where
  chunking : ChunkingOptions := {}

/-- What an admission takes from the modules for digests, identifiers and search windows. -/
structure AdmissionCodec extends CommitCodec where
  contentHash : List UInt8 → Digest
  deterministicManifestId : String → List String → String
  createSearchWindows : Document → List ChunkOccurrence → Except StoreError (List SearchWindow)

variable (codec : AdmissionCodec)

/-- `assertStoreRequest("store.put", request)`, as far as the identifiers go. -/
def assertPutRequest (request : PutRequest) : Except StoreError Unit :=
  let document := request.document
  if request.idempotencyKey = "" ∨ document.documentId = "" ∨ document.version = 0
      ∨ document.sourceKey = "" ∨ document.sessionId = "" ∨ document.project = ""
      ∨ document.kind = "" ∨ document.subjectKey = some ""
      ∨ document.supersedes.any (fun target => target.documentId = "" ∨ target.version = 0) then
    .error (.coded "INVALID_REQUEST" "The store.put request is invalid.")
  else .ok ()

/-! ## Document history -/

def validateDocumentHistory (history : Option DocumentHistory) (documentId project : String) :
    Except StoreError Unit :=
  if history.any (fun history => history.documentId ≠ documentId ∨ history.project ≠ project
      ∨ history.highestAdmittedVersion = 0
      ∨ history.highestAdmittedVersion < history.retiredThrough) then
    .error (.manifestIntegrity
      s!"Document history for {documentId} is malformed or belongs to another project.")
  else .ok ()

def admittedDocumentHistory (document : Document) : DocumentHistory where
  documentId := document.documentId
  project := document.project
  highestAdmittedVersion := document.version
  retiredThrough := document.version - 1

/-- Classify an exact version by the ledger alone. -/
def retiredDocumentStatus (history : Option DocumentHistory) (version : Nat) :
    Option RetirementStatus :=
  match history with
  | none => none
  | some history =>
    if version = 0 ∨ history.retiredThrough < version then none
    else if version < history.highestAdmittedVersion then some .superseded
    else some .expired

/-! ## Records of an admission -/

def sourceMessageKeysOf (document : Document) : Except StoreError (List String) :=
  let status := document.sourceKeyStatus.getD "preserved"
  if status ≠ "preserved" ∧ status ≠ "unavailable" then
    .error (.typeError "sourceKeyStatus must be preserved or unavailable.")
  else if status = "unavailable" then
    if document.sourceMessageKeys.any (· ≠ []) then
      .error (.typeError "Unavailable source provenance cannot contain sourceMessageKeys.")
    else .ok []
  else .ok (document.sourceMessageKeys.getD [document.sourceKey])

def createDocumentManifest (request : PutRequest) (sourceMessageKeys : List String)
    (chunks : List ChunkOccurrence) : Manifest :=
  let document := request.document
  { manifestId := codec.deterministicManifestId "document"
      [document.documentId, toString document.version]
    documentId := document.documentId
    version := document.version
    sourceKey := document.sourceKey
    sourceKeyStatus := document.sourceKeyStatus.getD "preserved"
    sessionId := document.sessionId
    project := document.project
    kind := document.kind
    createdAt := document.createdAt
    metadata := document.metadata
    sourceMessageKeys
    contentHash := codec.contentHash document.text
    byteLength := document.text.length
    retentionClass := request.retentionClass
    protectedAtAdmission := request.protect
    chunks
    structuralMessages := request.structuralMessages
    subjectKey := document.subjectKey
    supersedes := document.supersedes
    expiresAt := request.expiresAt }

def createSourceMessageRecord (document : Document) (sourceKey : String) : SourceMessage where
  eventId := codec.deterministicManifestId "event" [document.project, document.sessionId, sourceKey]
  sourceKey
  sessionId := document.sessionId
  project := document.project

def auxiliaryManifestId (kind : AuxiliaryKind) (project sessionId ownerId : String) : String :=
  match kind with
  | .turn => codec.deterministicManifestId "turn" [project, sessionId, ownerId]
  | .toolResult => codec.deterministicManifestId "tool-result" [project, sessionId, ownerId]

def turnManifestForDocument (document : Document) (sourceMessages : List SourceMessage) :
    Option AuxiliaryManifest :=
  if document.sourceKeyStatus = some "unavailable" ∨ sourceMessages = []
      ∨ document.kind ≠ "turn" then none
  else
    let turnId := document.metadata.turnId.getD document.documentId
    some {
      manifestId := auxiliaryManifestId codec .turn document.project document.sessionId turnId
      version := document.version
      sessionId := document.sessionId
      project := document.project
      payload := .turn turnId ((sourceMessages.map (·.eventId)).eraseDups)
      createdAt := document.createdAt }

def toolManifestForDocument (document : Document) (chunks : List ChunkOccurrence) :
    Option AuxiliaryManifest :=
  if document.kind ≠ "tool-result" then none
  else
    let toolCallId := document.metadata.toolCallId.getD document.documentId
    some {
      manifestId :=
        auxiliaryManifestId codec .toolResult document.project document.sessionId toolCallId
      version := document.version
      sessionId := document.sessionId
      project := document.project
      payload := .toolResult toolCallId document.metadata.parentTurnIds (chunks.map (·.chunkId))
      createdAt := document.createdAt }

/-- The turn or tool payload of a document, if it has one. -/
def auxiliaryManifestForDocument (document : Document) (sourceMessages : List SourceMessage)
    (chunks : List ChunkOccurrence) : Option (AuxiliaryKind × AuxiliaryManifest) :=
  match turnManifestForDocument codec document sourceMessages with
  | some turn => some (.turn, turn)
  | none => (toolManifestForDocument codec document chunks).map (.toolResult, ·)

/-! ## Prepared admissions -/

/-- The state that a validated admission rests on. The last two fields are history variables: the
    manifest a new supersession record retires, and whether the request's marker was seen. -/
structure AdmissionState where
  documentHistory : Option DocumentHistory := none
  supersession : Option Tombstone := none
  semanticSupersession : Option Tombstone := none
  semanticTargetManifest : Option Manifest := none
  subjectLiveTransition : Option Transition := none
  retires : Option Manifest := none
  replayed : Bool := false

structure PreparedAdmission where
  request : PutRequest
  manifest : Manifest
  chunks : List PhysicalChunk
  sourceMessages : List SourceMessage
  auxiliary : Option (AuxiliaryKind × AuxiliaryManifest)
  windows : List SearchWindow
  state : AdmissionState

namespace PreparedAdmission

variable (prepared : PreparedAdmission)

def document : Document := prepared.request.document

def physicalChunks : List ChunkPayload := uniquePhysicalChunks prepared.chunks []

/-- The supersession records the admission writes. -/
def retiredDocuments : List Tombstone :=
  prepared.state.supersession.toList ++ prepared.state.semanticSupersession.toList

def supersessionEntry (marker : Tombstone) : Entry :=
  ⟨.manifest (.supersession marker.documentId marker.documentVersion), marker⟩

def chunkEntry (chunk : ChunkPayload) : Entry := ⟨.manifest (.chunk chunk.chunkId), chunk⟩

def chunkReferenceEntry (document : Document) (chunk : ChunkOccurrence) : Entry :=
  ⟨.manifest (.chunkReference chunk.chunkId document.documentId document.version chunk.ordinal),
    { chunkId := chunk.chunkId
      documentId := document.documentId
      documentVersion := document.version
      ordinal := chunk.ordinal }⟩

def sourceMessageEntry (message : SourceMessage) : Entry :=
  ⟨.manifest (.sourceMessage message.project message.sessionId message.sourceKey), message⟩

def sourceMessageReferenceEntry (document : Document) (message : SourceMessage) : Entry :=
  ⟨.manifest (.sourceMessageReference message.project message.sessionId message.sourceKey
      document.documentId document.version),
    { eventId := message.eventId
      project := message.project
      sessionId := message.sessionId
      sourceKey := message.sourceKey
      documentId := document.documentId
      documentVersion := document.version }⟩

def windowEntry (document : Document) (window : SearchWindow) : Entry :=
  ⟨.manifest (.window document.documentId document.version window.ordinal), window⟩

def auxiliaryEntry (auxiliary : AuxiliaryKind × AuxiliaryManifest) : Entry :=
  ⟨.manifest (.auxiliary auxiliary.1 auxiliary.2.manifestId auxiliary.2.version), auxiliary.2⟩

def auxiliaryReferenceEntry (document : Document) (auxiliary : AuxiliaryKind × AuxiliaryManifest) :
    Entry :=
  ⟨.manifest (.auxiliaryReference auxiliary.1 auxiliary.2.manifestId auxiliary.2.version
      document.documentId document.version),
    { kind := auxiliary.1
      manifestId := auxiliary.2.manifestId
      manifestVersion := auxiliary.2.version
      documentId := document.documentId
      documentVersion := document.version }⟩

/-- An expiry key written at admission carries no generation. -/
def expiryEntry (request : PutRequest) (expiresAt : Nat) : Entry :=
  ⟨.retention (.expiry expiresAt request.retentionClass request.document.documentId
      request.document.version none),
    { documentId := request.document.documentId
      documentVersion := request.document.version
      retentionClass := request.retentionClass
      expiresAt }⟩

/-- The manifest with its admission and session references. -/
def identityEntries : List Entry :=
  let document := prepared.document
  [⟨.manifest (.document document.documentId document.version), prepared.manifest⟩,
    ⟨.manifest (.documentAdmissionReference document.documentId document.version
        prepared.request.idempotencyKey),
      { documentId := document.documentId
        documentVersion := document.version
        requestId := prepared.request.idempotencyKey }⟩,
    ⟨.manifest (.sessionDocumentReference document.project document.sessionId
        document.documentId document.version),
      { project := document.project
        sessionId := document.sessionId
        documentId := document.documentId
        documentVersion := document.version }⟩]

def records : List Entry :=
  prepared.retiredDocuments.map supersessionEntry ++
    prepared.physicalChunks.map chunkEntry ++
    prepared.manifest.chunks.map (chunkReferenceEntry prepared.document) ++
    prepared.sourceMessages.map sourceMessageEntry ++
    prepared.sourceMessages.map (sourceMessageReferenceEntry prepared.document) ++
    prepared.identityEntries ++
    prepared.windows.map (windowEntry prepared.document) ++
    prepared.auxiliary.toList.map auxiliaryEntry ++
    prepared.auxiliary.toList.map (auxiliaryReferenceEntry prepared.document) ++
    prepared.request.expiresAt.toList.map (expiryEntry prepared.request)

def historyTransition : Transition where
  key := .manifest (.documentHistory prepared.document.documentId)
  previous := prepared.state.documentHistory
  next := admittedDocumentHistory prepared.document

def guards : List GuardKey :=
  prepared.physicalChunks.map (fun chunk => .chunk chunk.chunkId) ++
    prepared.sourceMessages.map (fun message =>
      .sourceMessage message.project message.sessionId message.sourceKey) ++
    [.document prepared.document.documentId prepared.document.version,
      .session prepared.document.sessionId] ++
    prepared.auxiliary.toList.map (fun auxiliary =>
      .auxiliaryManifest auxiliary.1 auxiliary.2.manifestId auxiliary.2.version) ++
    prepared.retiredDocuments.map fun marker =>
      .document marker.documentId marker.documentVersion

/-- What is passed to `commitCanonical`. -/
def commit : CanonicalCommit where
  requestId := prepared.request.idempotencyKey
  records := prepared.records
  outbox := some {
    operation := some "index"
    documentId := some prepared.document.documentId
    documentVersion := some prepared.document.version
    sourceVersion := some prepared.document.version
    admittedAt := some prepared.document.createdAt }
  guards := prepared.guards
  mustBeAbsent :=
    .manifest (.supersession prepared.document.documentId prepared.document.version) ::
      prepared.retiredDocuments.map fun marker =>
        .manifest (.supersession marker.documentId marker.documentVersion)
  mustMatch := prepared.state.semanticTargetManifest.toList.map fun target =>
    ⟨.manifest (.document target.documentId target.version), target⟩
  transitions := prepared.historyTransition ::
    (if prepared.document.subjectKey = none then []
      else prepared.state.subjectLiveTransition.toList)
  derivedView := some {
    project := prepared.document.project
    sessionId := prepared.document.sessionId
    documentId := prepared.document.documentId
    documentVersion := prepared.document.version
    admittedAt := prepared.document.createdAt
    retiredDocuments := prepared.retiredDocuments }

end PreparedAdmission

/-- The checks on the supersession records that an admission is to write. -/
def checkSupersessions (document : Document) (state : AdmissionState) : Except StoreError Unit :=
  if state.supersession.any (fun marker => marker.documentId ≠ document.documentId
      ∨ marker.replacementVersion ≠ some document.version
      ∨ document.version ≤ marker.documentVersion ∨ marker.status ≠ .superseded) then
    .error (.typeError
      "Admission supersession must replace an older version of the admitted document.")
  else if state.semanticSupersession.any (fun marker => marker.documentId = document.documentId
      ∨ marker.replacementDocumentId ≠ some document.documentId
      ∨ marker.replacementVersion ≠ some document.version ∨ marker.status ≠ .superseded
      ∨ marker.explicitly = false) then
    .error (.typeError ("Explicit admission supersession must name a different exact target and " ++
      "the admitted replacement."))
  else .ok ()

/-- `prepareValidatedDocumentAdmission` -/
def prepareDocumentAdmission (request : PutRequest) (options : AdmissionOptions)
    (state : AdmissionState) : Except StoreError PreparedAdmission := do
  assertPutRequest request
  let chunks ← splitPhysicalChunks codec.contentHash request.document.text options.chunking
  let windows ← codec.createSearchWindows request.document (createChunkReferences chunks)
  let sourceMessageKeys ← sourceMessageKeysOf request.document
  let manifest := createDocumentManifest codec request sourceMessageKeys
    (createChunkReferences chunks)
  let sourceMessages := sourceMessageKeys.eraseDups.map (createSourceMessageRecord codec
    request.document)
  let auxiliary := auxiliaryManifestForDocument codec request.document sourceMessages
    (createChunkReferences chunks)
  checkSupersessions request.document state
  return {
    request
    manifest := { manifest with
      auxiliaryManifestReference := auxiliary.map fun auxiliary =>
        ⟨auxiliary.1, auxiliary.2.manifestId, auxiliary.2.version⟩ }
    chunks
    sourceMessages
    auxiliary
    windows
    state }

/-! ## The versions of a document -/

/-- The stored manifest of a document with the highest version. -/
def latestManifest (documentId : String) (w : World) : Option Manifest :=
  ((w.store.scan (fun k v => match k, v with
      | .manifest (.document stored version), manifest =>
        if stored = documentId then some (version, (manifest : Manifest)) else none
      | _, _ => none) (fun a b => b.1 ≤ a.1)).map (·.2)).head?

def admissionConflict (document : Document) (status : RetirementStatus) : StoreError :=
  .coded (if status = .expired then "EXPIRED" else "SUPERSEDED")
    s!"Document {document.documentId}@{document.version} is already retired."

/-- The supersession record by which this very version replaced the one before it. -/
def priorSupersession (document : Document) : Prog (Option Tombstone) := do
  if document.version ≤ 1 then return none
  else
    let prior ← Prog.get (.manifest (.supersession document.documentId (document.version - 1)))
    return prior.filter fun (marker : Tombstone) =>
      marker.status = .superseded ∧ marker.replacementVersion = some document.version

def createSupersession (document : Document) (latest : Manifest) (recordedAt : Nat) :
    Tombstone where
  documentId := latest.documentId
  documentVersion := latest.version
  status := .superseded
  replacementVersion := some document.version
  reason := s!"Replaced by immutable document version {document.version}."
  recordedAt

/-- The next version retires the current one, unless it is retired already. -/
def supersedeLatest (document : Document) (documentHistory : Option DocumentHistory)
    (latest : Manifest) (recordedAt : Nat) : Prog AdmissionState := do
  require (document.version = latest.version + 1) (.coded "CONFLICT"
    (s!"Document {document.documentId} version {document.version} does not follow current " ++
      s!"version {latest.version}."))
  let existing ← Prog.get (.manifest (.supersession latest.documentId latest.version))
  return if existing.isSome then { documentHistory }
    else {
      documentHistory
      supersession := some (createSupersession document latest recordedAt)
      retires := some latest }

/-- How the version stands to the stored ones, when there is no stored version it could replace. -/
def supersedePrior (document : Document) (documentHistory : Option DocumentHistory)
    (replayed : Bool) : Prog AdmissionState := do
  let supersession ← priorSupersession document
  return { documentHistory, supersession, replayed }

def supersedeStored (document : Document) (documentHistory : Option DocumentHistory)
    (recordedAt : Nat) : Prog AdmissionState := do
  let latest ← Program.read (latestManifest document.documentId)
  match latest with
  | none => supersedePrior document documentHistory false
  | some latest =>
    if document.version ≤ latest.version then supersedePrior document documentHistory false
    else supersedeLatest document documentHistory latest recordedAt

/-- The checks on a version whose request has not been committed. -/
def admissionOfNewRequest (document : Document) (documentHistory : Option DocumentHistory)
    (recordedAt : Nat) : Prog AdmissionState := do
  match retiredDocumentStatus documentHistory document.version with
  | some status => Program.fail (admissionConflict document status)
  | none => do
    require (documentHistory.all fun history =>
        document.version = history.highestAdmittedVersion
          ∨ document.version = history.highestAdmittedVersion + 1)
      (.coded "CONFLICT" (s!"Document {document.documentId} version {document.version} does " ++
        "not follow the durable version."))
    let targetMarker ← Prog.get
      (.manifest (.supersession document.documentId document.version))
    match targetMarker with
    | some marker =>
      Program.fail (admissionConflict document (Tombstone.status marker))
    | none => supersedeStored document documentHistory recordedAt

def admissionSupersession (request : PutRequest) (recordedAt : Nat) : Prog AdmissionState := do
  let document := request.document
  let documentHistory ← Prog.get (.manifest (.documentHistory document.documentId))
  require (documentHistory.all fun (history : DocumentHistory) =>
      history.project = document.project)
    (.coded "CONFLICT" s!"Document {document.documentId} already belongs to another project.")
  ofExcept (validateDocumentHistory documentHistory document.documentId document.project)
  let committed ← Prog.get (.idempotency request.idempotencyKey)
  if committed.isSome then supersedePrior document documentHistory true
  else admissionOfNewRequest document documentHistory recordedAt

/-! ## Explicit supersession -/

/-- `MAX_EXPLICIT_SUPERSESSION_CHAIN_DEPTH` -/
def maxExplicitSupersessionChainDepth : Nat := 4096

def markerReplaces (marker : Option Tombstone) (document : Document) : Bool :=
  marker.any fun marker => marker.status = .superseded ∧ marker.explicitly
    ∧ marker.replacementDocumentId = some document.documentId
    ∧ marker.replacementVersion = some document.version

/-- Walk the chain of explicit supersessions below `cursor`; the number counts the steps left. -/
def walkChain (document : Document) : Nat → List DocumentVersionRef → Manifest → Prog Unit
  | depth, visited, cursor =>
    match cursor.supersedes, depth with
    | none, _ => return ()
    | some _, 0 => Program.fail (.coded "CONFLICT"
        "Explicit supersession chain exceeds the validation bound.")
    | some predecessor, depth + 1 => do
      require (predecessor.documentId ≠ "" ∧ predecessor.version ≠ 0) (.manifestIntegrity
          "Stored explicit supersession is not a valid exact document target.")
      require (predecessor.documentId ≠ document.documentId)
        (.coded "CONFLICT" "Explicit supersession would create a cycle.")
      require (predecessor ∉ visited)
        (.coded "CONFLICT" "Stored explicit supersession chain contains a cycle.")
      let next ← Prog.get (.manifest (.document predecessor.documentId predecessor.version))
      match next with
      | none => Program.fail (.manifestIntegrity
          "Stored explicit supersession chain has missing or foreign provenance.")
      | some (next : Manifest) => do
        require (next.project = document.project) (.manifestIntegrity
          "Stored explicit supersession chain has missing or foreign provenance.")
        walkChain document depth (visited ++ [predecessor]) next

def createExplicitSupersession (document : Document) (target : Manifest)
    (reference : DocumentVersionRef) : Tombstone where
  documentId := reference.documentId
  documentVersion := reference.version
  status := .superseded
  replacementDocumentId := some document.documentId
  replacementVersion := some document.version
  project := some document.project
  subjectKey := document.subjectKey.or target.subjectKey
  explicitly := true
  reason := (s!"Explicitly replaced by immutable document {document.documentId}@" ++
    s!"{document.version}.")
  recordedAt := document.createdAt

/-- The target of a new edge, read and compared with its replacement. -/
def checkExplicitTarget (document : Document) (reference : DocumentVersionRef)
    (target : Option Manifest) : Except StoreError Manifest :=
  match target with
  | none => .error (.coded "NOT_FOUND" (s!"Explicit supersession target " ++
      s!"{reference.documentId}@{reference.version} does not exist."))
  | some target =>
    if target.project ≠ document.project then
      .error (.coded "CONFLICT" "Explicit supersession cannot cross project boundaries.")
    else if document.createdAt ≤ target.createdAt then
      .error (.coded "CONFLICT" "Explicit supersession target must be older than its replacement.")
    else if target.subjectKey ≠ none ∧ target.subjectKey ≠ document.subjectKey then
      .error (.coded "CONFLICT"
        "A stable subjectKey cannot be changed or omitted by an explicit replacement.")
    else .ok target

/-- A new edge from `document` to the exact version it supersedes. -/
def supersedeTarget (document : Document) (reference : DocumentVersionRef)
    (existingMarker : Option Tombstone) (state : AdmissionState) : Prog AdmissionState := do
  match existingMarker with
  | some marker => Program.fail (.coded
      (if marker.status = .expired then "EXPIRED" else "SUPERSEDED") (s!"Explicit supersession " ++
        s!"target {reference.documentId}@{reference.version} is not live."))
  | none => do
    let stored ← Prog.get (.manifest (.document reference.documentId reference.version))
    let target ← ofExcept (checkExplicitTarget document reference stored)
    walkChain document maxExplicitSupersessionChainDepth [] target
    return { state with
      semanticTargetManifest := some target
      semanticSupersession := some (createExplicitSupersession document target reference) }

/-- A replay finds its own edge. -/
def supersedeTargetAgain (request : PutRequest) (existingMarker : Option Tombstone)
    (state : AdmissionState) : Prog AdmissionState := do
  require (markerReplaces existingMarker request.document) (.coded "CONFLICT"
    (s!"Idempotency record {request.idempotencyKey} does not own the requested semantic " ++
      "supersession."))
  return { state with semanticSupersession := existingMarker, replayed := true }

def admissionExplicitSupersession (request : PutRequest) (state : AdmissionState) :
    Prog AdmissionState := do
  let document := request.document
  match document.supersedes with
  | none => return state
  | some reference => do
    require (reference.documentId ≠ document.documentId) (.coded "CONFLICT"
      ("Explicit supersession must target a different document; same-document versions " ++
        "supersede automatically."))
    let committed ← Prog.get (.idempotency request.idempotencyKey)
    let existingMarker ← Prog.get
      (.manifest (.supersession reference.documentId reference.version))
    if committed.isSome then supersedeTargetAgain request existingMarker state
    else supersedeTarget document reference existingMarker state

/-! ## Subjects -/

/-- A subject that lives at another document must be superseded explicitly. -/
def requireSubjectFree (document : Document) (previous : Option SubjectLive) : Prog Unit := do
  match previous with
  | none => return ()
  | some previous =>
    if previous.documentId = document.documentId then return ()
    else do
      let priorMarker ← Prog.get
        (.manifest (.supersession previous.documentId previous.documentVersion))
      require (priorMarker.isSome
          ∨ document.supersedes = some ⟨previous.documentId, previous.documentVersion⟩)
        (.coded "CONFLICT" ("The subjectKey is live elsewhere; admit with supersedes " ++
          "targeting that live subject."))

def subjectLiveTransition (document : Document) (subjectKey : String)
    (previous : Option SubjectLive) : Transition where
  key := .manifest (.subjectLive document.project subjectKey)
  previous
  next := {
    project := document.project
    subjectKey
    documentId := document.documentId
    documentVersion := document.version
    kind := document.kind : SubjectLive }

def admissionSubjectLive (request : PutRequest) (state : AdmissionState) :
    Prog AdmissionState := do
  let document := request.document
  match document.subjectKey with
  | none => return state
  | some subjectKey => do
    let previous ← Prog.get (.manifest (.subjectLive document.project subjectKey))
    requireSubjectFree document previous
    return { state with
      subjectLiveTransition := some (subjectLiveTransition document subjectKey previous) }

/-! ## Admission -/

/-- A first version is first tried without looking at the document's versions. -/
def documentVersionState (request : PutRequest) (diagnostic : Bool) (recordedAt : Nat) :
    Prog AdmissionState :=
  if request.document.version = 1 ∧ diagnostic = false then return {}
  else admissionSupersession request recordedAt

def documentAdmissionState (request : PutRequest) (diagnostic : Bool) (recordedAt : Nat) :
    Prog AdmissionState := do
  let versionState ← documentVersionState request diagnostic recordedAt
  let explicitState ← admissionExplicitSupersession request versionState
  admissionSubjectLive request explicitState

/-- What the history remembers of an admission. -/
def PreparedAdmission.events (prepared : PreparedAdmission) : List Event :=
  .admitted prepared.manifest prepared.document.text prepared.state.retires
      prepared.state.replayed ::
    prepared.retiredDocuments.map fun marker =>
      .tombstoned marker.documentId marker.documentVersion

structure PutOutcome where
  duplicate : Bool
  documentId : String
  version : Nat
  sourceKey : String
  outboxSequence : Nat

/-- One attempt: gather the state, prepare the records, and hand them to `commit`. -/
def prepareAttempt (request : PutRequest) (options : AdmissionOptions) (diagnostic : Bool)
    (recordedAt : Nat) : Prog PreparedAdmission := do
  let state ← documentAdmissionState request diagnostic recordedAt
  ofExcept (prepareDocumentAdmission codec request options state)

/-- Admit one document. `commit` is the store's `commitCanonical`, and the clock is read for each
    attempt's records and for its commit. -/
def admitDocument (commit : PreparedAdmission → Nat → Prog CommitResult) (request : PutRequest)
    (options : AdmissionOptions) (clock : Nat → Nat) : Prog PutOutcome := do
  ofExcept (assertPutRequest request)
  let prepared ← prepareAttempt codec request options false (clock 0)
  let result ← (commit prepared (clock 1)).tryCatch fun error =>
    if request.document.version ≠ 1
        ∨ (error.code ≠ some "CONFLICT" ∧ error.code ≠ some "SUPERSEDED") then Program.fail error
    else do
      let prepared ← prepareAttempt codec request options true (clock 2)
      commit prepared (clock 3)
  return {
    duplicate := result.duplicate
    documentId := request.document.documentId
    version := request.document.version
    sourceKey := request.document.sourceKey
    outboxSequence := result.outboxSequence }

/-! ## Reading documents -/

structure LiveSubject where
  documentId : String
  version : Nat
  kind : String
  subjectKey : String
  project : String

/-- The live document that holds a subject, if any. -/
def resolveLiveSubject (project subjectKey : String) : Prog (Option LiveSubject) := do
  let live ← Prog.get (.manifest (.subjectLive project subjectKey))
  match live with
  | none => return none
  | some (live : SubjectLive) => do
    let marker ← Prog.get (.manifest (.supersession live.documentId live.documentVersion))
    let manifest ← Prog.get (.manifest (.document live.documentId live.documentVersion))
    return if marker.isSome ∨ ¬ manifest.any (fun (manifest : Manifest) =>
        manifest.project = project) then none
      else some {
        documentId := live.documentId
        version := live.documentVersion
        kind := live.kind
        subjectKey
        project }

def physicalOccurrence (reference : ChunkOccurrence) : Txn (ChunkOccurrence × ChunkPayload) := do
  let chunk ← Txn.get (.manifest (.chunk reference.chunkId))
  match chunk with
  | none => do
    Transaction.fail (.manifestIntegrity s!"Physical chunk {reference.chunkId} is missing.")
  | some (chunk : ChunkPayload) => return (reference, chunk)

def physicalOccurrences : List ChunkOccurrence → Txn (List (ChunkOccurrence × ChunkPayload))
  | [] => return []
  | reference :: rest => do
    let occurrence ← physicalOccurrence reference
    let others ← physicalOccurrences rest
    return occurrence :: others

/-- The text of a document, from its manifest and the stored chunks. -/
def reconstructDocumentText (manifest : Manifest) : Txn (List UInt8) := do
  let occurrences ← physicalOccurrences manifest.chunks
  let text ← Transaction.ofExcept (reconstructPhysicalChunks codec.contentHash occurrences)
  Transaction.require (text.length = manifest.byteLength
      ∧ codec.contentHash text = manifest.contentHash)
    (.manifestIntegrity
      s!"Document {manifest.documentId} reconstruction failed its manifest digest.")
  return text

end ContextStore
