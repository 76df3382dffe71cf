import ContextStore.Session.Artifacts

/-! # The state of a window session

A session keeps the key of the message its window starts at, the index of the turns rotated out and
what it has archived already; everything durable is the host's. `acknowledged` and `emitted` are no
part of the program: they record the chunks whose archive write was confirmed and the rotation
states handed to the host. -/

namespace ContextStore.Session

open Unicode Archive Effects

variable (S : Setting) (A : Analysis)

/-! ## Records -/

/-- A document in the index of rotated turns. -/
structure TocEntry where
  id : Text
  topic : Text
  terms : List Text
  archiveIds : Option (List Text) := none
deriving DecidableEq

/-- The terminal message of a completed turn. -/
structure TurnCheckpoint where
  messageKey : Text
  timestamp : Option Nat

structure Config where
  sessionId : Text
  project : Text
  /-- Sorted, with `sessionId` among them. -/
  sessionIds : List Text
  automaticRetrieval : Option Bool := none
  dedupToolResults : Bool := true
  retainTurns : Option Nat := none
  maxInlineUserTokens : Option Nat := none
  maxToolResultTokens : Option Nat := none
  maxToolArgumentTokens : Option Nat := none
  toolResultBudgetFloorTokens : Option Nat := none

/-- A configured limit counts if it is positive. -/
def positiveOr (value : Option Nat) (fallback : Nat) : Nat := (value.filter (0 < ·)).getD fallback

def Config.maxInlineTokens (config : Config) : Nat := positiveOr config.maxInlineUserTokens 16000

def Config.toolArgumentTokens (config : Config) : Nat :=
  positiveOr config.maxToolArgumentTokens 4000

/-- What `resolveContextLimits` finds for the model of a call. -/
structure ContextLimits where
  rotationTokens : Nat
  rotationTurns : Nat
  inputWindowTokens : Option Nat := none
  piCompactionReserveTokens : Option Nat := none

structure BudgetPolicy where
  maxToolResultTokens : Nat
  budgetTokens : Nat
  floorTokens : Nat

def MIN_TOOL_RESULT_ARCHIVE_REFERENCE_TOKENS : Nat := 32

def resolveToolResultBudget (config : Config) (rotationTokens : Nat) : BudgetPolicy :=
  let maxToolResultTokens := max MIN_TOOL_RESULT_ARCHIVE_REFERENCE_TOKENS
    (positiveOr config.maxToolResultTokens 4000)
  let effectiveFloor := max MIN_TOOL_RESULT_ARCHIVE_REFERENCE_TOKENS
    (positiveOr config.toolResultBudgetFloorTokens 1000)
  let target := if 0 < rotationTokens then rotationTokens else 1
  { maxToolResultTokens
    budgetTokens := max 1 (A.budgetShare target)
    floorTokens := min maxToolResultTokens effectiveFloor }

/-- `refreshArchiveProtection` -/
structure ProtectionRequest where
  sessionIds : List Text
  documentIds : List Text
deriving DecidableEq

/-- The epoch window of one session. -/
structure EpochWindowSession where
  boundaryKey : Option Text := none
  toolResultRebalanceThroughKey : Option Text := none
  rotations : Nat := 0
  forceRotation : Bool := false
  lastRotationReason : Option RotationTrigger := none
  lastRotationMode : Option RotationMode := none
  effectiveRetainTurns : Option Nat := none
  compactionFallbackReason : Option String := none
  toc : List TocEntry := []
  activeArchiveIds : List Text := []
  storedArtifactIds : List Text := []
  archivedTurnEntries : List (Text × List TocEntry) := []
  completedArchiveCheckpoint : Option TurnCheckpoint := none
  compactionArchiveIds : List Text := []
  activeHintMessageKeys : List Text := []
  frozenHintTextByMessageKey : List (Text × Text) := []
  reconstructOnlyHintMessageKeys : List Text := []
  observedActiveUserKeys : List Text := []
  pendingHintRemovalKeys : List Text := []
  hintReconciledBoundaryKey : Option Text := none
  archiveProtectionSignature : Option ProtectionRequest := none

/-- What `rotationState` returns. -/
structure RotationState where
  boundaryKey : Option Text
  toolResultRebalanceThroughKey : Option Text
  rotations : Nat
  reason : Option RotationTrigger
  mode : Option RotationMode
  effectiveRetainTurns : Option Nat
  toc : List TocEntry
  completedArchiveState : Option TurnCheckpoint
  reconstructOnlyMessageKeys : List Text
  archivedAt : Nat

structure ArchivePut where
  id : Option Text := none
  sessionId : Text
  project : Text
  kind : Text
  text : Text
  createdAt : Nat
  metadata : Json

structure PreflightRequest where
  messageKey : Text
  message : Text
  excludeVisibleSourceKeys : List Text
  activeMessageKeys : List Text
  epoch : Nat
  reconstruct : Bool

/-- The archive, the rotation callback and the clock, over the state of the host. Each call may
change that state before it throws; `preflight` and `removeHints` need not be there. -/
structure Host (σ : Type) where
  now : σ → Nat
  get : σ → Reader
  put : ArchivePut → σ → Except StoreError (Option Text) × σ
  setProtectedContext : ProtectionRequest → σ → Except StoreError Unit × σ
  preflight : Option (PreflightRequest → σ → Except StoreError Text × σ) := none
  removeHints : Option (List Text → σ → Except StoreError Unit × σ) := none
  onRotation : RotationState → σ → Except StoreError Unit × σ

structure Machine (σ : Type) where
  session : EpochWindowSession
  host : σ
  acknowledged : List (List Message) := []
  emitted : List RotationState := []

variable {σ : Type}

/-! ## Steps -/

/-- `new Set([...items, item])` in the order of insertion -/
def addKey (items : List Text) (item : Text) : List Text :=
  if item ∈ items then items else items ++ [item]

def addKeys (items more : List Text) : List Text := more.foldl addKey items

def removeKey (items : List Text) (item : Text) : List Text := items.filter (· ≠ item)

abbrev Step (σ α : Type) : Type := Effect StoreError (Machine σ) α

def onSession (f : EpochWindowSession → EpochWindowSession) : Step σ Unit :=
  Effect.modify fun m => { m with session := f m.session }

def getSession : Step σ EpochWindowSession := do
  let m ← Effect.get
  return m.session

def callHost {α : Type} (f : σ → Except StoreError α × σ) : Step σ α where
  run m := ((f m.host).1, { m with host := (f m.host).2 })

def acknowledge (chunk : List Message) : Step σ Unit :=
  Effect.modify fun m => { m with acknowledged := chunk :: m.acknowledged }

variable (config : Config) (host : Host σ)

def now : Step σ Nat := do
  let m ← Effect.get
  return host.now m.host

def MAX_RECONSTRUCT_ONLY_HINT_KEYS : Nat := 1000

def lastItems {α : Type} (count : Nat) (items : List α) : List α :=
  items.drop (items.length - count)

def rotationState (session : EpochWindowSession) (archivedAt : Nat) : RotationState where
  boundaryKey := session.boundaryKey
  toolResultRebalanceThroughKey := session.toolResultRebalanceThroughKey
  rotations := session.rotations
  reason := session.lastRotationReason
  mode := session.lastRotationMode
  effectiveRetainTurns := session.effectiveRetainTurns
  toc := session.toc
  completedArchiveState := session.completedArchiveCheckpoint
  reconstructOnlyMessageKeys :=
    lastItems MAX_RECONSTRUCT_ONLY_HINT_KEYS session.reconstructOnlyHintMessageKeys
  archivedAt

/-- `this.onRotation(this.rotationState())` -/
def reportRotation : Step σ Unit := do
  let session ← getSession
  let archivedAt ← now host
  let state := rotationState session archivedAt
  Effect.modify fun m => { m with emitted := state :: m.emitted }
  callHost (host.onRotation state)

/-! ## Protection -/

def TocEntry.documentIds (entry : TocEntry) : List Text := entry.id :: entry.archiveIds.getD []

def protectionRequest (session : EpochWindowSession) : ProtectionRequest where
  sessionIds := config.sessionIds
  documentIds := (session.activeArchiveIds ++ session.compactionArchiveIds ++
    session.toc.flatMap TocEntry.documentIds).eraseDups.mergeSort unitsLe

def refreshArchiveProtection : Step σ Unit := do
  let session ← getSession
  let request := protectionRequest config session
  if session.archiveProtectionSignature = some request then return ()
  else do
    callHost (host.setProtectedContext request)
    onSession fun session => { session with archiveProtectionSignature := some request }

/-! ## Artifacts -/

def toolResultId (message : Message) (value : Text) : Text :=
  text "tool-" ++
    shortDigest S (config.sessionId ++ [0] ++ message.toolCallId.getD [] ++ [0] ++ value)

def toolArgumentId (part : Json) (value : Text) : Text :=
  text "tool-arg-" ++ shortDigest S (config.sessionId ++ [0] ++ partCallId part ++ [0] ++ value)

/-- `Number(message.timestamp) || Date.now()` -/
def createdAtOf (message : Option Message) : Step σ Nat := do
  let time ← now host
  return ((message.bind (·.timestamp)).filter (· ≠ 0)).getD time

def artifactMetadata (toolCallId : Text) (toolName : Option Json) (message : Message) : Json :=
  .object ([(text "toolCallId", .string toolCallId)] ++ optionalField (text "toolName") toolName ++
    [(text "sourceMessageKey", .string (messageKey S message))])

/-- Artifacts this session stored before are not stored again. -/
def storeArtifact (id kind value : Text) (message : Message) (metadata : Json) :
    Step σ (Option Text) := do
  let session ← getSession
  if id ∈ session.storedArtifactIds then return some id
  else do
    let createdAt ← createdAtOf host (some message)
    let storedId ← callHost (host.put {
      id := some id, sessionId := config.sessionId, project := config.project, kind,
      text := value, createdAt, metadata })
    onSession fun session => match confirmed storedId with
      | none => session
      | some stored => { session with
          storedArtifactIds := addKey session.storedArtifactIds stored
          activeArchiveIds := addKey session.activeArchiveIds stored }
    return storedId

def storeToolResult (message : Message) (value : Text) : Step σ (Option Text) :=
  storeArtifact config host (toolResultId S config message value) (text "tool-result") value message
    (artifactMetadata S (message.toolCallId.getD []) (message.toolName.map Json.string) message)

/-- `part.name ?? part.toolName` -/
def partToolName (part : Json) : Option Json :=
  match part.get (text "name") with
  | none | some .null => part.get (text "toolName")
  | some name => some name

def storeToolArgument (message : Message) (part : Json) (value : Text) : Step σ (Option Text) :=
  storeArtifact config host (toolArgumentId S config part value) (text "tool-argument") value
    message (artifactMetadata S (partCallId part) (partToolName part) message)

def reachableIds (message : Message) : List Text :=
  (if message.isToolResult then [toolResultId S config message (contentToText S message.content)]
    else []) ++
  match message.isAssistant, message.content with
  | true, .array parts => parts.filterMap fun part =>
    if isToolCall part then
      (part.get (toolCallArgumentField part)).map fun value =>
        toolArgumentId S config part (stringifyToolCallArguments value)
    else none
  | _, _ => []

def reconcileStoredArtifactIds (messages : List Message) : Step σ Unit :=
  onSession fun session => { session with
    storedArtifactIds := session.storedArtifactIds.filter
      (· ∈ messages.flatMap (reachableIds S config)) }

/-! ## Checkpoints -/

def ARCHIVE_CHECKPOINT_PREVIEW_TOKENS : Nat := 800

def ARCHIVE_CHECKPOINT_CATALOG_MAX_TOKENS : Nat := 1000

/-- The archive as `createArchiveCheckpoint` uses it. -/
def Host.archive : Facade σ where
  get := host.get
  put document := host.put {
    id := some document.id, sessionId := document.sessionId, project := document.project,
    kind := document.kind, text := document.text, createdAt := document.createdAt,
    metadata := document.metadata }

def Host.checkpointPlanningArchive : Facade σ where
  get := host.get
  put document s := (.ok (some document.id), s)

def createCheckpoint (archive : Facade σ) (request : CheckpointRequest) : Step σ CheckpointResult :=
  callHost fun s =>
    (.ok (createArchiveCheckpoint S archive request s).1,
      (createArchiveCheckpoint S archive request s).2)

def checkpointCreatedAt (messages : List Message) : Step σ Nat := do
  let time ← now host
  return (messages.findSome? fun message => message.timestamp.filter (· ≤ maxSafeInteger)).getD time

def checkpointIds (entries : List RootSummary) : List Text :=
  (entries.flatMap fun entry => entry.publicationId :: entry.rootId :: entry.partIds).eraseDups

def MAX_ARCHIVE_DETAIL_ENTRIES : Nat := 1000

def MAX_ARCHIVE_DETAIL_PART_IDS : Nat := 1000

def MAX_ARCHIVE_DETAIL_TOTAL_PART_IDS : Nat := 4096

def MAX_TOC_CHECKPOINT_IDS_PER_ENTRY : Nat := MAX_ARCHIVE_DETAIL_PART_IDS + 2

/-- A name of this kind: the prefix and a digest. -/
def isCheckpointId (kindPrefix id : Text) : Bool :=
  kindPrefix.isPrefixOf id && S.isHexDigest (id.drop kindPrefix.length)

def isArchiveEntry (entry : RootSummary) : Bool :=
  isCheckpointId S rootIdPrefix entry.rootId &&
    isCheckpointId S publicationIdPrefix entry.publicationId &&
    entry.kind ≠ [] && entry.kind.length ≤ 80 && entry.topic.length ≤ 80 &&
    entry.terms.length ≤ 8 && entry.terms.all (·.length ≤ 60) &&
    entry.byteCount ≤ maxSafeInteger && S.isHexDigest entry.hash &&
    0 < entry.partCount && entry.partCount ≤ maxSafeInteger &&
    entry.partIds.length = entry.partCount &&
    entry.partIds.length ≤ MAX_ARCHIVE_DETAIL_PART_IDS &&
    entry.partIds.all (isCheckpointId S partIdPrefix)

/-- Some entries, all of the right form, with distinct roots and not too many parts. -/
def normalizedArchiveEntries (entries : List RootSummary) : Option (List RootSummary) :=
  if entries ≠ [] ∧ entries.length ≤ MAX_ARCHIVE_DETAIL_ENTRIES ∧
      entries.all (isArchiveEntry S) ∧ (entries.map (·.rootId)).Nodup ∧
      (entries.map (·.partIds.length)).sum ≤ MAX_ARCHIVE_DETAIL_TOTAL_PART_IDS then some entries
  else none

def checkpointResultMatches (planned : StoredCheckpoint) (stored : CheckpointResult) : Bool :=
  match stored with
  | .stored checkpoint => checkpoint.publicationId = planned.publicationId &&
      checkpoint.roots = planned.roots && checkpoint.preview = planned.preview &&
      checkpoint.catalog = planned.catalog
  | .failed _ _ => false

/-! ## Users' messages -/

def isTextContentPart (part : Json) : Bool :=
  match part with
  | .string _ => true
  | other => textField other (text "type") = some (text "text") &&
      (textField other (text "text")).isSome

def structuralPart (part : Json) : Text :=
  match part with
  | .string value => value
  | other => if textField other (text "type") = some (text "text") then
      (textField other (text "text")).getD [] else []

def structuralText (message : Message) : Text :=
  if message.isUser || message.isAssistant then
    match message.content with
    | .string value => value
    | .array parts => join [0x0a] ((parts.map structuralPart).filter (· ≠ []))
    | _ => []
  else []

/-- The user messages among these that say something. -/
def userMessageKeys (messages : List Message) : List Text :=
  ((messages.filter fun message => message.isUser && trim (structuralText message) ≠ []).map
    (messageKey S)).eraseDups

def inlineUserTokens (message : Message) : Nat :=
  max (estimateTokens S [message]) (A.estimateModelVisibleTokens (serializeMessage S message))

def replacePart (replacement : Text) (part : Json) : Json :=
  match part with
  | .string _ => .string replacement
  | other => setField other (text "text") (.string replacement)

/-- The first part with a text gets the replacement, the others go. -/
def replaceParts (replacement : Text) : Bool → List Json → List Json
  | _, [] => []
  | inserted, part :: rest =>
    if isTextContentPart part = false then part :: replaceParts replacement inserted rest
    else if inserted then replaceParts replacement inserted rest
    else replacePart replacement part :: replaceParts replacement true rest

def replaceProviderText (message : Message) (replacement : Text) : Message :=
  { message with content := match message.content with
    | .string _ => .string replacement
    | .array parts =>
      if parts.any isTextContentPart then .array (replaceParts replacement false parts)
      else .array (textPart replacement :: parts)
    | _ => .array [textPart replacement] }

end ContextStore.Session
