import ContextStore.Session.State

/-! # Archiving turns

A turn is archived chunk by chunk, and is known as archived from then on by the keys of its
messages. `archiveTurns` undoes what it did to the session if a write throws;
`archiveCompletedTurns` archives what follows the last completed turn it remembers, and remembers
the last one it was given. -/

namespace ContextStore.Session

open Unicode Archive Effects

variable (S : Setting) (A : Analysis)

/-! ## Completed turns -/

def archivedTurnKey (messages : List Message) : Text := join [0] (messages.map (messageKey S))

def terminalTurnMessage (turn : Turn) : Option Message :=
  turn.messages.reverse.find? fun message =>
    message.isUser || message.isAssistant || message.isToolResult

def isCompletedUserTurn (turn : Turn) : Bool :=
  turn.hasUser && (terminalTurnMessage turn).any fun terminal =>
    terminal.isAssistant && terminal.stopReason ≠ some (text "error") &&
      terminal.stopReason ≠ some (text "aborted") && terminal.stopReason ≠ some (text "toolUse")

def completedArchiveCheckpoint (turn : Turn) : Option TurnCheckpoint :=
  (terminalTurnMessage turn).map fun terminal => {
    messageKey := messageKey S terminal, timestamp := terminal.timestamp }

def completedTurns (messages : List Message) : List Turn :=
  (groupCompleteTurns (removeEmptyAssistantErrors S messages)).filter isCompletedUserTurn

def TOC_TOPIC_CHARS : Nat := 80

def turnTopic (messages : List Message) : Text :=
  let value := trim (((messages.find? Message.isUser).map fun message =>
    contentToText S message.content).getD [])
  let line := trim (value.takeWhile (· ≠ 0x0a))
  if TOC_TOPIC_CHARS < line.length then line.take (TOC_TOPIC_CHARS - 1) ++ text "…" else line

/-! ## Storing a turn -/

variable {σ : Type} (config : Config) (host : Host σ)

def capacityError : StoreError :=
  .plain "Context archive capacity prevented storing a rotated turn."

def sourceKeyMetadata (sourceMessageKeys : List Text) : List (Text × Json) :=
  [(text "sourceMessageKeys", strings sourceMessageKeys),
    (text "sourceFirstKey", .string (sourceMessageKeys.headD [])),
    (text "sourceLastKey", .string (sourceMessageKeys.getLastD [])),
    (text "sourceMessageCount", number sourceMessageKeys.length)]

def turnKind (turn : Turn) : Text := if turn.hasUser then text "turn" else text "preamble"

def checkpointRequest (source : CheckpointSource) (createdAt previewTokens : Nat) :
    CheckpointRequest where
  sessionId := config.sessionId
  project := config.project
  sources := [source]
  createdAt
  previewSourceIndex := 0
  previewTokens
  catalogTokens := ARCHIVE_CHECKPOINT_CATALOG_MAX_TOKENS

/-- The plan of a checkpoint whose ids fit into one entry of the index. -/
def plannedTurn (planned : CheckpointResult) : Option StoredCheckpoint :=
  match planned with
  | .failed _ _ => none
  | .stored checkpoint =>
    (normalizedArchiveEntries S checkpoint.roots).bind fun entries =>
      if entries.length = 1 ∧
          (checkpointIds entries).length ≤ MAX_TOC_CHECKPOINT_IDS_PER_ENTRY then some checkpoint
      else none

/-- The entry of a turn stored as a checkpoint, if it was stored as planned. -/
def storedTurn (planned : StoredCheckpoint) (stored : CheckpointResult) : Option TocEntry :=
  match stored with
  | .failed _ _ => none
  | .stored checkpoint =>
    if checkpointResultMatches planned stored then
      checkpoint.roots.head?.map fun root => {
        id := root.rootId, topic := root.topic, terms := root.terms,
        archiveIds := some (checkpointIds checkpoint.roots) }
    else none

def storeTurnCheckpoint (turn : Turn) (chunk : List Message) : Step σ TocEntry := do
  let value := serializeMessages S chunk
  let sourceMessageKeys := chunk.map (messageKey S)
  let createdAt ← checkpointCreatedAt host chunk
  let request := checkpointRequest config {
    text := value, sourceKey := sourceMessageKeys.head?,
    sourceMessageKeys := some sourceMessageKeys, kind := some (turnKind turn),
    createdAt := some createdAt, topic := some (turnTopic S turn.messages),
    terms := A.extractSalientTerms value } createdAt ARCHIVE_CHECKPOINT_PREVIEW_TOKENS
  let planned ← createCheckpoint S host.checkpointPlanningArchive request
  match plannedTurn S planned with
  | none => Effect.throw capacityError
  | some plan => do
    let stored ← createCheckpoint S host.archive request
    match storedTurn plan stored with
    | none => Effect.throw capacityError
    | some entry => do
      acknowledge chunk
      onSession fun session => { session with
        activeArchiveIds := addKeys session.activeArchiveIds (entry.archiveIds.getD []) }
      refreshArchiveProtection config host
      return entry

def storeTurnDocument (turn : Turn) (chunk : List Message) : Step σ TocEntry := do
  let value := serializeMessages S chunk
  let sourceMessageKeys := chunk.map (messageKey S)
  let createdAt ← createdAtOf host chunk.head?
  let id ← callHost (host.put {
    sessionId := config.sessionId, project := config.project, kind := turnKind turn,
    text := value, createdAt,
    metadata := .object ([(text "startKey", .string (sourceMessageKeys.headD [])),
      (text "messageCount", number sourceMessageKeys.length)] ++
        sourceKeyMetadata sourceMessageKeys) })
  match confirmed id with
  | none => Effect.throw capacityError
  | some id => do
    acknowledge chunk
    return { id, topic := turnTopic S turn.messages, terms := A.extractSalientTerms value }

/-- Candidate records are additional: nobody looks at the ids they are stored under. -/
def storeCandidates (kind : Text) (turnId : Text) (chunk : List Message)
    (candidates : List (Text × List (Text × Json))) : Step σ Unit := do
  let _ ← Effect.mapList (fun candidate => do
    let createdAt ← createdAtOf host chunk.head?
    let _ ← callHost (host.put {
      sessionId := config.sessionId, project := config.project, kind, text := candidate.1,
      createdAt, metadata := .object ([(text "sourceTurnId", .string turnId)] ++
        sourceKeyMetadata (chunk.map (messageKey S)) ++ candidate.2) })
    return ()) candidates
  return ()

def requiresCheckpoint (chunk : List Message) : Bool :=
  chunk.any fun message =>
    message.isUser && config.maxInlineTokens < inlineUserTokens S A message

def storeTurnText (turn : Turn) (chunk : List Message) : Step σ TocEntry :=
  if requiresCheckpoint S A config chunk then storeTurnCheckpoint S A config host turn chunk
  else storeTurnDocument S A config host turn chunk

def archiveChunk (turn : Turn) (chunk : List Message) : Step σ (List TocEntry) :=
  let value := serializeMessages S chunk
  if trim value = [] then return []
  else do
    let entry ← storeTurnText S A config host turn chunk
    storeCandidates S config host (text "decision-candidate") entry.id chunk
      ((A.extractDecisionCandidates value).map fun sentence => (sentence, []))
    storeCandidates S config host (text "fact-candidate") entry.id chunk
      ((A.extractFactCandidates value).map fun fact => (fact.1, [(text "factAnchor", fact.2)]))
    return [entry]

structure StagedTurn where
  turnKey : Text
  entries : List TocEntry
  /-- Archived by this call. -/
  fresh : Bool

def archiveTurn (turn : Turn) : Step σ StagedTurn := do
  let session ← getSession
  let turnKey := archivedTurnKey S turn.messages
  match session.archivedTurnEntries.lookup turnKey with
  | some entries => return { turnKey, entries, fresh := false }
  | none => do
    let entries ← Effect.mapList (archiveChunk S A config host turn)
      (checkpointSourceChunks S turn.messages)
    return { turnKey, entries := entries.flatten, fresh := true }

/-! ## Storing turns -/

def TOC_MAX_ENTRIES : Nat := 64

/-- `map.set(turnKey, entries)` -/
def setEntries (entries : List (Text × List TocEntry)) (staged : StagedTurn) :
    List (Text × List TocEntry) :=
  (staged.turnKey, staged.entries) :: entries.filter (·.1 ≠ staged.turnKey)

def commitTurns (staged : List StagedTurn) : Step σ Unit := do
  refreshArchiveProtection config host
  onSession fun session => { session with
    archivedTurnEntries := (staged.filter (·.fresh)).foldl setEntries
      session.archivedTurnEntries }

def archiveTurns (messages : List Message) (recordToc : Bool) : Step σ Unit := do
  let before ← getSession
  let staged ← Effect.tryCatch
    (Effect.mapList (archiveTurn S A config host) (groupCompleteTurns messages)) fun error => do
      onSession fun session => { session with
        activeArchiveIds := before.activeArchiveIds
        archivedTurnEntries := before.archivedTurnEntries }
      refreshArchiveProtection config host
      Effect.throw error
  let stagedToc := if recordToc then staged.flatMap (·.entries) else []
  onSession fun session => { session with
    toc := lastItems TOC_MAX_ENTRIES (session.toc ++ stagedToc) }
  Effect.tryCatch (commitTurns config host staged) fun error => do
    onSession fun session => { session with
      toc := before.toc
      activeArchiveIds := before.activeArchiveIds
      archivedTurnEntries := before.archivedTurnEntries }
    Effect.tryCatch (refreshArchiveProtection config host) fun _ => return ()
    Effect.throw error

/-! ## The completed turn remembered -/

def setCompletedArchiveCheckpoint (checkpoint : Option TurnCheckpoint) : Step σ Unit :=
  onSession fun session => { session with completedArchiveCheckpoint := checkpoint }

def rememberCheckpoint (checkpoint : TurnCheckpoint) : Step σ Bool := do
  let before ← getSession
  if (before.completedArchiveCheckpoint.map (·.messageKey)) = some checkpoint.messageKey then
    return false
  else do
    setCompletedArchiveCheckpoint (some checkpoint)
    Effect.tryCatch (reportRotation host) fun error => do
      setCompletedArchiveCheckpoint before.completedArchiveCheckpoint
      Effect.throw error
    return true

def persistCompletedArchiveCheckpoint (turn : Turn) : Step σ Bool :=
  match completedArchiveCheckpoint S turn with
  | none => return false
  | some checkpoint => rememberCheckpoint host checkpoint

def persistLast (complete : List Turn) : Step σ Bool :=
  match complete.getLast? with
  | none => return false
  | some last => persistCompletedArchiveCheckpoint S host last

def seedCompletedArchiveCheckpoint (messages : List Message) : Step σ Bool := do
  let session ← getSession
  if session.completedArchiveCheckpoint.isSome then return false
  else persistLast S host (completedTurns S messages)

/-- The turns the remembered one leaves to archive. -/
def archiveCandidates (checkpoint : Option TurnCheckpoint) (complete : List Turn) : List Turn :=
  match checkpoint with
  | none => complete
  | some checkpoint =>
    match complete.findIdx? fun turn =>
        (completedArchiveCheckpoint S turn).any (·.messageKey = checkpoint.messageKey) with
    | some index => complete.drop (index + 1)
    | none => match checkpoint.timestamp with
        | none => complete
        | some timestamp => complete.filter fun turn =>
          ((completedArchiveCheckpoint S turn).bind (·.timestamp)).all (timestamp < ·)

structure ArchivedCount where
  turnCount : Nat
  messageCount : Nat

def pendingTurns (session : EpochWindowSession) (complete : List Turn) : List Turn :=
  (archiveCandidates S session.completedArchiveCheckpoint complete).filter fun turn =>
    (session.archivedTurnEntries.lookup (archivedTurnKey S turn.messages)).isNone

def archivePending (pending : List Turn) : Step σ Unit :=
  if pending = [] then return ()
  else archiveTurns S A config host (pending.flatMap (·.messages)) false

def archiveCompletedTurns (messages : List Message) : Step σ ArchivedCount := do
  let session ← getSession
  let complete := completedTurns S messages
  let pending := pendingTurns S session complete
  archivePending S A config host pending
  let _ ← persistLast S host complete
  return { turnCount := pending.length
           messageCount := (pending.map (·.messages.length)).sum }

/-! ## Restoring -/

/-- What a persisted rotation state still says, field by field; a field of another form is read
as missing. -/
structure RotationData where
  boundaryKey : Option Text := none
  toolResultRebalanceThroughKey : Option Text := none
  rotations : Option Nat := none
  reason : Option RotationTrigger := none
  mode : Option RotationMode := none
  effectiveRetainTurns : Option Nat := none
  toc : Option (List TocEntry) := none
  completedArchiveState : Option TurnCheckpoint := none
  reconstructOnlyMessageKeys : List Text := []

def RotationState.data (state : RotationState) : RotationData where
  boundaryKey := state.boundaryKey
  toolResultRebalanceThroughKey := state.toolResultRebalanceThroughKey
  rotations := some state.rotations
  reason := state.reason
  mode := state.mode
  effectiveRetainTurns := state.effectiveRetainTurns
  toc := some state.toc
  completedArchiveState := state.completedArchiveState
  reconstructOnlyMessageKeys := state.reconstructOnlyMessageKeys

structure CompactionEntry where
  fromHook : Bool
  summary : Text
  /-- The entries under `contextWindowArchive`, if the details have this form. -/
  entries : Option (List RootSummary)

inductive BranchEntry where
  | rotation (data : RotationData)
  | compaction (entry : CompactionEntry)
  | other

def checkpointDescriptor (get : Reader) (rootId : Text) : Option (RootManifest PartReference) :=
  match inspectCheckpointManifest S get rootId with
  | .error _ => none
  | .ok root =>
    if root.layoutIdentity.isSome then some root
    else (reconstructCheckpointSource S get rootId).toOption.map (·.root)

def isCheckpointArchiveId (id : Text) : Bool :=
  isCheckpointId S rootIdPrefix id || isCheckpointId S publicationIdPrefix id ||
    isCheckpointId S partIdPrefix id

def completeIds (root : RootManifest PartReference) : List Text :=
  (root.publicationId :: root.rootId :: root.parts.map (·.id)).eraseDups

/-- The ids of an entry, if they are all the ids of its checkpoint. -/
def verifiedIds (get : Reader) (id : Text) (archiveIds : List Text) : Option (List Text) := do
  guard (archiveIds.length ≤ MAX_TOC_CHECKPOINT_IDS_PER_ENTRY)
  guard (archiveIds.all (isCheckpointArchiveId S))
  guard (archiveIds.Nodup ∧ id ∈ archiveIds)
  guard (isCheckpointId S rootIdPrefix id)
  let root ← checkpointDescriptor S get id
  let ids := completeIds root
  guard (root.parts.length ≤ MAX_ARCHIVE_DETAIL_PART_IDS)
  guard (ids.length ≤ MAX_TOC_CHECKPOINT_IDS_PER_ENTRY)
  guard (ids.length = archiveIds.length ∧ ∀ id ∈ ids, id ∈ archiveIds)
  return ids

def restoredTocEntry (get : Reader) (entry : TocEntry) : Option TocEntry :=
  match entry.archiveIds with
  | none => if isCheckpointId S rootIdPrefix entry.id then none else some entry
  | some archiveIds => (verifiedIds S get entry.id archiveIds).map fun ids =>
    { entry with archiveIds := some ids }

def MAX_RESTORED_KEY_LENGTH : Nat := 2048

def restoredCheckpoint (state : TurnCheckpoint) : Option TurnCheckpoint :=
  if 0 < state.messageKey.length ∧ state.messageKey.length ≤ MAX_RESTORED_KEY_LENGTH then some state
  else none

def restoredHintKeys (keys : List Text) : List Text :=
  (lastItems MAX_RECONSTRUCT_ONLY_HINT_KEYS (keys.filter fun key =>
    (text "user:").isPrefixOf key && key.length ≤ MAX_RESTORED_KEY_LENGTH)).eraseDups

/-- The fields of the session one persisted state sets. -/
def restoreRotation (get : Reader) (session : EpochWindowSession) (data : RotationData) :
    EpochWindowSession :=
  { session with
    boundaryKey := data.boundaryKey
    toolResultRebalanceThroughKey := data.toolResultRebalanceThroughKey
    rotations := data.rotations.getD session.rotations
    lastRotationReason := data.reason
    lastRotationMode := data.mode
    effectiveRetainTurns := data.effectiveRetainTurns.filter (0 < ·)
    toc := (data.toc.map fun toc =>
      lastItems TOC_MAX_ENTRIES (toc.filterMap (restoredTocEntry S get))).getD session.toc
    completedArchiveCheckpoint :=
      (data.completedArchiveState.bind restoredCheckpoint).or session.completedArchiveCheckpoint
    reconstructOnlyHintMessageKeys := restoredHintKeys data.reconstructOnlyMessageKeys }

def restoreEntry (get : Reader) (session : EpochWindowSession) (entry : BranchEntry) :
    EpochWindowSession :=
  match entry with
  | .rotation data => restoreRotation S get session data
  | .compaction _ | .other => session

def CompactionEntry.ofBranch (entry : BranchEntry) : Option CompactionEntry :=
  match entry with
  | .compaction compaction => some compaction
  | .rotation _ | .other => none

/-- A root of the compaction is in the archive as the entry has it. -/
def entryMatchesArchive (get : Reader) (entry : RootSummary) : Bool :=
  match checkpointDescriptor S get entry.rootId with
  | none => false
  | some root => root.publicationId = entry.publicationId && root.sourceKind = entry.kind &&
      root.byteCount = entry.byteCount && root.hash = entry.hash &&
      root.parts.length = entry.partCount && root.parts.map (·.id) = entry.partIds

def latestTrustedArchiveEntries (get : Reader) (entries : List BranchEntry) :
    Option (List RootSummary) := do
  let latest ← (entries.filterMap CompactionEntry.ofBranch).getLast?
  guard latest.fromHook
  let roots ← latest.entries.bind (normalizedArchiveEntries S)
  let catalog ← (S.createCompactionCatalog roots ARCHIVE_CHECKPOINT_CATALOG_MAX_TOKENS).toOption
  guard (catalog = latest.summary)
  guard (roots.all (entryMatchesArchive S get))
  return roots

/-- The fields `restore` does not reset. -/
def resetSession (session : EpochWindowSession) : EpochWindowSession :=
  { archiveProtectionSignature := session.archiveProtectionSignature }

def restoredSession (get : Reader) (entries : List BranchEntry) (session : EpochWindowSession) :
    EpochWindowSession :=
  let restored := entries.foldl (restoreEntry S get) (resetSession session)
  match latestTrustedArchiveEntries S get entries with
  | none => restored
  | some roots => { restored with compactionArchiveIds := checkpointIds roots }

def restore (entries : List BranchEntry) : Step σ Unit := do
  let m ← Effect.get
  onSession (restoredSession S (host.get m.host) entries)
  refreshArchiveProtection config host

end ContextStore.Session
