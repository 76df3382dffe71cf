import ContextStore.Session.Turns

/-! # Processing a context

`process` turns the history of the host into the messages for the provider: what follows the
boundary, with its artifacts replaced, after a marker that lists the turns rotated out. Where the
window has grown too large the older turns are archived and the boundary moves; hints of the archive
are added to the messages of the user, and a hint once added stays as it is. -/

namespace ContextStore.Session

open Unicode Archive Effects

variable (S : Setting) (A : Analysis)

/-! ## The marker -/

def TOC_MARKER_HEADER : Text :=
  text "[Context index — older turns were rotated out of the window. Each line is an archive id, "
    ++ text "the turn topic, and named referents from that turn. If a term below matches something "
    ++ text "you need, run context_window_search on it or context_recall on the id.]"

def tocLine (entry : TocEntry) : Text :=
  text "- " ++ entry.id ++
    (if entry.topic = [] then [] else text " \"" ++ entry.topic ++ text "\"") ++
    (if entry.terms = [] then [] else text " — " ++ join (text ", ") entry.terms)

def renderToc (entries : List TocEntry) : Text :=
  join [0x0a] (TOC_MARKER_HEADER :: entries.map tocLine)

/-- The newest entries that fit, and at least one of them. -/
def fittingToc : List TocEntry → Text
  | [] => renderToc []
  | [entry] => renderToc [entry]
  | entry :: next :: rest =>
    if TOC_TOKEN_BUDGET < tokensOf (renderToc (entry :: next :: rest)).length then
      fittingToc (next :: rest)
    else renderToc (entry :: next :: rest)

def tocMarkerMessage (toc : List TocEntry) : Option Message :=
  if toc = [] then none
  else some { role := text "user", content := .array [textPart (fittingToc toc)] }

def withMarker (marker : Option Message) (active : List Message) : List Message :=
  marker.toList ++ active

/-! ## Hints -/

variable {σ : Type} (config : Config) (host : Host σ)

def appendArchivedHint (message : Message) (hint : Text) : Message :=
  { message with content := match message.content with
    | .string value => .string (value ++ hint)
    | .array parts => .array (parts ++ [textPart hint])
    | _ => .array [textPart hint] }

/-- The message with a hint that says something. -/
def withHint (message : Message) (hint : Text) : Message :=
  if hint = [] then message else appendArchivedHint message hint

/-- The hint of a message is decided from now on. -/
def freezeHint (key hint : Text) : Step σ Unit :=
  onSession fun session => { session with
    frozenHintTextByMessageKey :=
      (key, hint) :: session.frozenHintTextByMessageKey.filter (·.1 ≠ key)
    activeHintMessageKeys := addKey session.activeHintMessageKeys key }

/-- What is the same for all messages of one pass over the hints. -/
structure HintPass where
  visibleSourceKeys : List Text
  activeMessageKeys : List Text
  suppressedMessageKeys : List Text

structure Hinted where
  message : Message
  /-- A decision was attempted that was not recorded before. -/
  changed : Bool := false

def attemptHint (reconstruct : Bool) (key : Text) : Step σ Unit :=
  if reconstruct then return ()
  else onSession fun session => { session with
    reconstructOnlyHintMessageKeys := addKey session.reconstructOnlyHintMessageKeys key }

/-- The answer of the archive; one that fails counts as no hint. -/
def preflightHint (preflight : PreflightRequest → σ → Except StoreError Text × σ)
    (request : PreflightRequest) : Step σ Text :=
  Effect.tryCatch (callHost (preflight request)) fun _ => return []

def requestHint (pass : HintPass) (target : Message) (key : Text) (reconstruct : Bool) :
    Step σ Hinted :=
  match host.preflight with
  | none =>
    if reconstruct = false ∧ config.automaticRetrieval ≠ some true then
      return { message := target }
    else do
      attemptHint reconstruct key
      freezeHint key []
      return { message := target, changed := !reconstruct }
  | some preflight => do
    attemptHint reconstruct key
    let session ← getSession
    let hint ← preflightHint preflight {
      messageKey := key, message := structuralText target,
      excludeVisibleSourceKeys := pass.visibleSourceKeys,
      activeMessageKeys := pass.activeMessageKeys, epoch := session.rotations, reconstruct }
    freezeHint key hint
    return { message := withHint target hint, changed := !reconstruct }

def reuseHint (target : Message) (key hint : Text) : Step σ Hinted := do
  onSession fun session => { session with
    activeHintMessageKeys := addKey session.activeHintMessageKeys key }
  return { message := withHint target hint }

def hintMessage (pass : HintPass) (target : Message) : Step σ Hinted := do
  let session ← getSession
  let key := messageKey S target
  if target.isUser = false ∨ trim (structuralText target) = [] ∨
      key ∈ pass.suppressedMessageKeys then return { message := target }
  else match session.frozenHintTextByMessageKey.lookup key with
    | some hint => reuseHint target key hint
    | none =>
      let reconstruct : Bool := key ∈ session.reconstructOnlyHintMessageKeys
      if reconstruct = false ∧ config.automaticRetrieval = some false then
        return { message := target }
      else requestHint config host pass target key reconstruct

/-- Nothing to add, and nothing added before. -/
def hintsDisabled (session : EpochWindowSession) : Bool :=
  config.automaticRetrieval = some false && session.frozenHintTextByMessageKey.isEmpty &&
    session.reconstructOnlyHintMessageKeys.isEmpty

def withAutomaticArchiveHint (messages : List Message)
    (originalSourceKeys suppressedMessageKeys : List Text) : Step σ (List Message) := do
  let session ← getSession
  if hintsDisabled config session then return messages
  else do
    let pass : HintPass := {
      visibleSourceKeys := (originalSourceKeys ++ messages.map (messageKey S)).eraseDups
      activeMessageKeys := userMessageKeys S messages
      suppressedMessageKeys }
    let hinted ← Effect.mapList (hintMessage S config host pass) messages
    if hinted.any (·.changed) then do
      reportRotation host
      return hinted.map (·.message)
    else return hinted.map (·.message)

/-! ## Hints of messages that are gone -/

def addPending (activeKeys retiredKeys : List Text) (session : EpochWindowSession) :
    EpochWindowSession :=
  let gone := (session.observedActiveUserKeys ++ session.activeHintMessageKeys ++
    session.reconstructOnlyHintMessageKeys).filter (· ∉ activeKeys)
  { session with
    pendingHintRemovalKeys :=
      (addKeys session.pendingHintRemovalKeys (retiredKeys ++ gone)).filter (· ∉ activeKeys) }

def dropHints (removable : List Text) (session : EpochWindowSession) : EpochWindowSession :=
  { session with
    pendingHintRemovalKeys := session.pendingHintRemovalKeys.filter (· ∉ removable)
    activeHintMessageKeys := session.activeHintMessageKeys.filter (· ∉ removable)
    frozenHintTextByMessageKey :=
      session.frozenHintTextByMessageKey.filter fun hint => hint.1 ∉ removable
    reconstructOnlyHintMessageKeys :=
      session.reconstructOnlyHintMessageKeys.filter (· ∉ removable) }

/-- Whether the hints went; they stay pending where the archive fails to remove them. -/
def removeHints (removable : List Text) : Step σ Bool :=
  match host.removeHints with
  | none => return true
  | some remove => Effect.tryCatch (do
      callHost (remove removable)
      return true) fun _ => return false

/-- Whether some of the keys were recorded as decided. -/
def removePending (session : EpochWindowSession) : Step σ Bool :=
  if session.pendingHintRemovalKeys = [] then return false
  else do
    let removed ← removeHints host session.pendingHintRemovalKeys
    if removed then do
      onSession (dropHints session.pendingHintRemovalKeys)
      return session.reconstructOnlyHintMessageKeys.any (· ∈ session.pendingHintRemovalKeys)
    else return false

def settleHints (activeKeys : List Text) (session : EpochWindowSession) : EpochWindowSession :=
  { session with
    hintReconciledBoundaryKey :=
      if session.pendingHintRemovalKeys = [] then session.boundaryKey
      else session.hintReconciledBoundaryKey
    observedActiveUserKeys := activeKeys }

def reconcileHintLifecycle (activeMessages retiredMessages : List Message) : Step σ Unit := do
  let activeKeys := userMessageKeys S activeMessages
  onSession (addPending activeKeys (userMessageKeys S retiredMessages))
  let session ← getSession
  let changed ← removePending host session
  onSession (settleHints activeKeys)
  if changed then reportRotation host else return ()

/-! ## Oversized messages of the user -/

def oversizedError : StoreError :=
  .coded "OVERSIZED_INPUT_ARCHIVE_FAILED" "Oversized user input could not be archived safely."

structure PlannedInput where
  stored : StoredCheckpoint
  providerMessage : Message
  previewTokens : Nat

def normalizedPlan (planned : CheckpointResult) : Option StoredCheckpoint :=
  match planned with
  | .failed _ _ => none
  | .stored checkpoint => (normalizedArchiveEntries S checkpoint.roots).map fun _ => checkpoint

/-- Shorter and shorter previews until the message fits. -/
def planInput (message : Message) (source : CheckpointSource) (createdAt : Nat) :
    Nat → Nat → Step σ (Option PlannedInput)
  | 0, _ | _, 0 => return none
  | fuel + 1, previewTokens => do
    let planned ← createCheckpoint S host.checkpointPlanningArchive
      (checkpointRequest config source createdAt previewTokens)
    match normalizedPlan S planned with
    | none => return none
    | some stored =>
      let providerMessage := replaceProviderText message stored.preview
      let tokens := inlineUserTokens S A providerMessage
      if tokens ≤ config.maxInlineTokens then
        return some { stored, providerMessage, previewTokens }
      else
        planInput message source createdAt fuel
          (previewTokens - max 1 (tokens - config.maxInlineTokens + 4))

structure ExternalizedInput where
  message : Message
  archiveIds : List Text := []
  providerMessageKey : Option Text := none

/-- The message put in place of the one stored, if it was stored as planned. -/
def storedInput (planned : PlannedInput) (stored : CheckpointResult) : Option ExternalizedInput :=
  match stored with
  | .failed _ _ => none
  | .stored checkpoint =>
    if checkpointResultMatches planned.stored stored then some {
      message := planned.providerMessage
      archiveIds := checkpointIds checkpoint.roots
      providerMessageKey := some (messageKey S planned.providerMessage) }
    else none

def externalizeOversizedUser (message : Message) : Step σ ExternalizedInput := do
  let value := serializeMessage S message
  let createdAt ← checkpointCreatedAt host [message]
  let source : CheckpointSource := {
    text := value, sourceKey := some (messageKey S message),
    sourceMessageKeys := some [messageKey S message], kind := some (text "oversized-user"),
    createdAt := some createdAt, topic := some (turnTopic S [message]),
    terms := A.extractSalientTerms value }
  let previewTokens := min ARCHIVE_CHECKPOINT_PREVIEW_TOKENS
    (config.maxInlineTokens - inlineUserTokens S A (replaceProviderText message []))
  match ← planInput S A config host message source createdAt previewTokens previewTokens with
  | none => Effect.throw oversizedError
  | some planned => do
    let stored ← createCheckpoint S host.archive
      (checkpointRequest config source createdAt planned.previewTokens)
    match storedInput S planned stored with
    | none => Effect.throw oversizedError
    | some externalized => return externalized

def externalizeUser (message : Message) : Step σ ExternalizedInput :=
  if message.isUser = false ∨ inlineUserTokens S A message ≤ config.maxInlineTokens then
    return { message }
  else externalizeOversizedUser S A config host message

structure OversizedUsers where
  messages : List Message
  archiveIds : List Text
  providerMessageKeys : List Text

def externalizeOversizedUsers (messages : List Message) : Step σ OversizedUsers := do
  let replaced ← Effect.mapList (externalizeUser S A config host) messages
  return {
    messages := replaced.map (·.message)
    archiveIds := (replaced.flatMap (·.archiveIds)).eraseDups
    providerMessageKeys := replaced.filterMap (·.providerMessageKey) }

/-! ## One call -/

/-- The messages a call works on, as they were and as the provider gets them. -/
structure Prepared where
  source : List Message
  deduplicated : List Message
  externalizedMessageIndexes : List Nat
  active : List Message
  visibleSourceKeys : List Text
  suppressedHintMessageKeys : List Text
  budgetPolicy : BudgetPolicy

structure ActiveWindow where
  active : List Message
  visibleSourceKeys : List Text
  suppressedHintMessageKeys : List Text
  artifactSourceMessages : List Message
  boundaryPrefix : List Message

def addActiveArchiveIds (ids : List Text) : Step σ Unit :=
  onSession fun session => { session with activeArchiveIds := addKeys session.activeArchiveIds ids }

def lastIndexOf (keys : List Text) (key : Text) : Option Nat :=
  (keys.reverse.findIdx? (· = key)).map fun index => keys.length - 1 - index

def resultGate (policy : BudgetPolicy) (floorThroughIndex : Option Nat)
    (protectedMessageIndexes : List Nat) : ResultGate where
  maxTokens := policy.maxToolResultTokens
  budgetTokens := policy.budgetTokens
  floorTokens := policy.floorTokens
  floorThroughIndex
  protectedMessageIndexes

def deduplicateActive (messages : List Message) : Step σ Deduplicated :=
  if config.dedupToolResults then
    deduplicateToolResults S (storeToolResult S config host) messages
  else return { messages, archiveIds := [], externalizedMessageIndexes := [] }

/-- Large results, then large arguments. -/
def externalizeArtifacts (gate : ResultGate) (messages : List Message) : Step σ (List Message) := do
  let externalized ← externalizeLargeToolResults S A gate (storeToolResult S config host) messages
  addActiveArchiveIds externalized.archiveIds
  let externalizedArguments ← externalizeLargeToolArguments A config.toolArgumentTokens
    (storeToolArgument S config host) externalized.messages
  addActiveArchiveIds externalizedArguments.archiveIds
  return externalizedArguments.messages

def prepareContext (limits : ContextLimits) (source : List Message) : Step σ Prepared := do
  let oversized ← externalizeOversizedUsers S A config host source
  onSession fun session => { session with activeArchiveIds := oversized.archiveIds }
  let deduplicated ← deduplicateActive S config host oversized.messages
  addActiveArchiveIds deduplicated.archiveIds
  let session ← getSession
  let budgetPolicy := resolveToolResultBudget A config limits.rotationTokens
  let visibleSourceKeys := source.map (messageKey S)
  let active ← externalizeArtifacts S A config host (resultGate budgetPolicy
    (session.toolResultRebalanceThroughKey.bind (lastIndexOf visibleSourceKeys))
    deduplicated.externalizedMessageIndexes) deduplicated.messages
  refreshArchiveProtection config host
  return {
    source, deduplicated := deduplicated.messages,
    externalizedMessageIndexes := deduplicated.externalizedMessageIndexes, active,
    visibleSourceKeys, suppressedHintMessageKeys := oversized.providerMessageKeys, budgetPolicy }

def rotationRequest (limits : ContextLimits) (session : EpochWindowSession)
    (active : List Message) : RotationRequest where
  force := session.forceRotation
  tokens := estimateTokens S (withMarker (tocMarkerMessage session.toc) active)
  turns := countUserTurns active
  rotationTokens := limits.rotationTokens
  rotationTurns := limits.rotationTurns
  retainTurns := config.retainTurns
  markerTokenReserve := TOC_TOKEN_BUDGET

/-- The boundary moves to the first message retained. -/
def rotateSession (prepared : Prepared) (rotation : Rotation) (session : EpochWindowSession) :
    EpochWindowSession :=
  { session with
    boundaryKey := prepared.source[rotation.start]?.map (messageKey S)
    rotations := session.rotations + 1
    lastRotationReason := some rotation.trigger
    lastRotationMode := some rotation.mode
    effectiveRetainTurns := some rotation.retainedTurns
    compactionFallbackReason := none
    toolResultRebalanceThroughKey := (prepared.visibleSourceKeys.drop rotation.start).getLast? }

def retainedGate (prepared : Prepared) (rotation : Rotation) : ResultGate :=
  resultGate prepared.budgetPolicy
    (some ((prepared.deduplicated.drop rotation.start).length - 1))
    ((prepared.externalizedMessageIndexes.filter (rotation.start ≤ ·)).map (· - rotation.start))

/-- What follows once the boundary has moved. -/
def retainWindow (prepared : Prepared) (rotation : Rotation) : Step σ (List Message) := do
  onSession (rotateSession S prepared rotation)
  let active ← externalizeArtifacts S A config host (retainedGate prepared rotation)
    (prepared.deduplicated.drop rotation.start)
  refreshArchiveProtection config host
  reportRotation host
  return active

def rotateWindow (prepared : Prepared) (rotation : Rotation) (boundaryPrefix : List Message) :
    Step σ ActiveWindow := do
  let rotatedMessages := prepared.source.take rotation.start
  archiveTurns S A config host rotatedMessages true
  let active ← retainWindow S A config host prepared rotation
  return {
    active, visibleSourceKeys := prepared.visibleSourceKeys.drop rotation.start,
    suppressedHintMessageKeys := prepared.suppressedHintMessageKeys,
    artifactSourceMessages := prepared.source.drop rotation.start,
    boundaryPrefix := boundaryPrefix ++ rotatedMessages }

/-- A forced rotation that is impossible is no pressure to compact. -/
def fallbackReason (trigger : RotationTrigger) (reason : String) : Option String :=
  if trigger = .forced then none else some reason

def keepWindow (prepared : Prepared) (reason : Option String) (boundaryPrefix : List Message) :
    Step σ ActiveWindow := do
  onSession fun session => { session with compactionFallbackReason := reason }
  return {
    active := prepared.active, visibleSourceKeys := prepared.visibleSourceKeys,
    suppressedHintMessageKeys := prepared.suppressedHintMessageKeys,
    artifactSourceMessages := prepared.source, boundaryPrefix }

def applyPlan (prepared : Prepared) (plan : RotationPlan) (boundaryPrefix : List Message) :
    Step σ ActiveWindow :=
  match plan with
  | .rotate rotation => rotateWindow S A config host prepared rotation boundaryPrefix
  | .nativeCompaction trigger reason =>
    keepWindow prepared (fallbackReason trigger reason) boundaryPrefix
  | .none => keepWindow prepared none boundaryPrefix

def emitWindow (window : ActiveWindow) : Step σ (List Message) := do
  onSession fun session => { session with forceRotation := false }
  reconcileHintLifecycle S host window.active window.boundaryPrefix
  let active ← withAutomaticArchiveHint S config host window.active window.visibleSourceKeys
    window.suppressedHintMessageKeys
  reconcileStoredArtifactIds S config window.artifactSourceMessages
  let session ← getSession
  return withMarker (tocMarkerMessage session.toc) active

def emptyWindow (boundaryPrefix : List Message) : Step σ (List Message) := do
  reconcileHintLifecycle S host [] boundaryPrefix
  onSession fun session => { session with activeArchiveIds := [] }
  reconcileStoredArtifactIds S config []
  refreshArchiveProtection config host
  return []

def quietWindow (prepared : Prepared) (boundaryPrefix : List Message) : Step σ (List Message) := do
  reconcileHintLifecycle S host prepared.active boundaryPrefix
  reconcileStoredArtifactIds S config prepared.source
  return prepared.active

def processWindow (limits : ContextLimits) (prepared : Prepared) (boundaryPrefix : List Message) :
    Step σ (List Message) := do
  let session ← getSession
  let request := rotationRequest S config limits session prepared.active
  if request.tokens = 0 ∧ request.turns = 0 then quietWindow S config host prepared boundaryPrefix
  else do
    let window ← applyPlan S A config host prepared
      (planEpochRotation S prepared.active request) boundaryPrefix
    emitWindow S config host window

/-- A boundary that is not in the history is given up. -/
def openBoundary (found : Bool) (session : EpochWindowSession) : EpochWindowSession :=
  if found then session
  else { session with boundaryKey := none, toolResultRebalanceThroughKey := none }

/-- What was rotated out before the hints were last looked through. -/
def unreconciledPrefix (session : EpochWindowSession) (sliced : Slice)
    (contextMessages : List Message) : List Message :=
  if sliced.found ∧ session.boundaryKey.isSome ∧
      session.hintReconciledBoundaryKey ≠ session.boundaryKey then
    contextMessages.take sliced.start
  else []

def processSlice (limits : ContextLimits) (source boundaryPrefix : List Message) :
    Step σ (List Message) :=
  if source = [] then emptyWindow S config host boundaryPrefix
  else do
    let prepared ← prepareContext S A config host limits source
    processWindow S A config host limits prepared boundaryPrefix

def process (limits : ContextLimits) (messages : List Message) : Step σ (List Message) :=
  if limits.inputWindowTokens = some 0 ∧ limits.piCompactionReserveTokens.isSome then
    Effect.throw (.plain "Pi's compaction reserve leaves no usable model input budget.")
  else do
    let session ← getSession
    let contextMessages := removeEmptyAssistantErrors S messages
    let sliced := sliceFromBoundary S contextMessages session.boundaryKey
    onSession (openBoundary sliced.found)
    processSlice S A config host limits sliced.messages
      (unreconciledPrefix session sliced contextMessages)

def requestRotation : Step σ Unit :=
  onSession fun session => { session with forceRotation := true }

def resetAfterCompaction : Step σ RotationState := do
  onSession fun session => { session with
    boundaryKey := none, toolResultRebalanceThroughKey := none, forceRotation := false,
    lastRotationReason := none, lastRotationMode := none, effectiveRetainTurns := none,
    compactionFallbackReason := none, toc := [], activeArchiveIds := [],
    hintReconciledBoundaryKey := none }
  refreshArchiveProtection config host
  let session ← getSession
  let archivedAt ← now host
  return rotationState session archivedAt

/-! ## A host to compute with -/

/-- The digest of bytes is their list. -/
def plainSetting : Setting where
  sha256 bytes := bytes.map fun b => UInt16.ofNat b.toNat
  isHexDigest _ := true
  limits := {}
  checkpointPreviewDetails value _ _ := .ok { renderedText := value, visibleSourceText := value }
  sourceTopic _ topic := topic.getD []
  normalizeTerms _ terms := terms
  createCompactionCatalog _ _ := .ok []

def plainAnalysis : Analysis where
  headChars chars := chars * 7 / 10
  tailChars chars := chars * 3 / 10
  estimateModelVisibleTokens value := tokensOf value.length
  extractSalientTerms _ := []
  extractDecisionCandidates _ := []
  extractFactCandidates _ := []
  budgetShare target := target * 3 / 10

def plainConfig : Config where
  sessionId := [0x73]
  project := [0x70]
  sessionIds := [[0x73]]

/-- An archive that takes everything, with a callback and a protection that may refuse. -/
def plainHost (protects reports : Bool) : Host Unit where
  now _ := 1
  get _ _ := .ok none
  put document s := (.ok (some (document.id.getD document.text)), s)
  setProtectedContext _ s := (if protects then .ok () else .error (.plain "refused"), s)
  onRotation _ s := (if reports then .ok () else .error (.plain "refused"), s)

def plainMessage (role content : String) (timestamp : Option Nat) : Message where
  role := text role
  content := .string (text content)
  timestamp

/-- A window of one turn. -/
def plainLimits : ContextLimits where
  rotationTokens := 5000
  rotationTurns := 2

end ContextStore.Session
