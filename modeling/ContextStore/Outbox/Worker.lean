import ContextStore.Outbox.Plan

/-! # The ordered index publication

The calls of an index worker on the outbox: claim the entry at the durable cursor, stage its plan,
apply its tablets, publish it, clean its stage, and recover after a restart. Every transaction of
the source is one indivisible step here, and every read outside a transaction is a step of its
own. Reads that only warm the block cache for the transaction that follows, and whose value is
dropped, are left out. -/

namespace ContextStore

open Concurrent
open Transaction (ofExcept require)
open Program (ofExcept transaction require)

variable (codec : PlanCodec)

/-! ## Reading the ordered state -/

def normalizeState (state : Option OutboxState) (sequence : Nat) : Except StoreError OutboxState :=
  match state with
  | none => .ok { stateVersion := outboxStateVersion, sequence, status := .pending, attempt := 0 }
  | some state =>
    if state.stateVersion ≠ outboxStateVersion ∨ state.sequence ≠ sequence then
      .error (.outboxIntegrity s!"Outbox state {sequence} is malformed.")
    else .ok state

def cursorSequence (cursor : Option OutboxCursor) : Except StoreError Nat :=
  match cursor with
  | none => .ok 1
  | some cursor =>
    if cursor.nextSequence = 0 then
      .error (.outboxIntegrity "The durable outbox cursor is malformed.")
    else .ok cursor.nextSequence

def validateEntryRecord (entry : OutboxEntry) (sequence : Nat) : Except StoreError OutboxEntry :=
  if entry.sequence = sequence then .ok entry
  else .error (.outboxIntegrity
    "An outbox record has inconsistent key and payload sequences.")

/-- Whether a sequence has durably published, from its state and the cursor: the cursor is the
    compact proof once bounded history has removed the state. -/
def sequenceProcessed (state : Option OutboxState) (cursor : Option OutboxCursor)
    (sequence : Nat) : Except StoreError Bool := do
  let state ← normalizeState state sequence
  if state.status = .processed then return true
  let next ← cursorSequence cursor
  return decide (sequence < next)

/-- `isOutboxSequenceProcessed` on a transaction view, where both reads see one state. -/
def isOutboxSequenceProcessed (sequence : Nat) : Txn Bool := do
  let state ← Txn.get (.outbox (.state sequence))
  let cursor ← Txn.get (.outbox .cursor)
  ofExcept (sequenceProcessed state cursor sequence)

/-! ## Claims -/

structure ClaimOptions where
  workerId : String
  now : Nat
  leaseMs : Option Nat := none

inductive ClaimOutcome where
  | idle (nextSequence : Nat)
  | busy (sequence : Nat) (workerId : Option String) (claimedUntil : Option Nat)
  | claimed (claim : Claim) (state : OutboxState)

/-- A generation, once allocated for a sequence, is kept. -/
def allocateGeneration (state : OutboxState) : Txn Nat :=
  match state.generation with
  | some generation => pure generation
  | none => Txn.increment .indexGeneration

def issueClaim (sequence : Nat) (entry : OutboxEntry) (state : OutboxState) (workerId : String)
    (now leaseMs : Nat) : Txn ClaimOutcome := do
  let generation ← allocateGeneration state
  let claimToken ← Txn.randomUUID
  let claimed : OutboxState := {
    stateVersion := outboxStateVersion
    sequence
    status := .processing
    generation := some generation
    operation := some (entry.operation.getD "index")
    workerId := some workerId
    claimToken := some claimToken
    attempt := state.attempt + 1
    firstClaimedAt := some (state.firstClaimedAt.getD now)
    claimedAt := some now
    claimedUntil := some (now + leaseMs)
    lastError := state.lastError }
  Txn.put (.outbox (.state sequence)) claimed
  return .claimed {
    sequence
    generation
    operation := entry.operation.getD "index"
    claimToken
    workerId
    entry } claimed

/-- The part of the claim for an entry that is there. -/
def claimEntry (sequence : Nat) (entry : OutboxEntry) (workerId : String) (now leaseMs : Nat) :
    Txn ClaimOutcome := do
  let stored ← Txn.get (.outbox (.state sequence))
  let state ← ofExcept (normalizeState stored sequence)
  require (state.status ≠ .processed)
    (.outboxIntegrity s!"Processed outbox entry {sequence} remains at the durable cursor.")
  if state.status = .processing ∧ now < state.claimedUntil.getD 0 then
    return .busy sequence state.workerId state.claimedUntil
  else issueClaim sequence entry state workerId now leaseMs

def claimTransaction (workerId : String) (now leaseMs : Nat) : Txn ClaimOutcome := do
  let cursor ← Txn.get (.outbox .cursor)
  let sequence ← ofExcept (cursorSequence cursor)
  let stored ← Txn.get (.outbox (.entry sequence))
  match stored with
  | none => do
    let maximumSequence ← Txn.get (.counter .outbox)
    require (maximumSequence.getD 0 < sequence) (.outboxIntegrity
        s!"Canonical outbox entry {sequence} is missing before the durable tail.")
    return .idle sequence
  | some entry => do
    let entry ← ofExcept (validateEntryRecord entry sequence)
    claimEntry sequence entry workerId now leaseMs

/-- Atomically claim the first unprocessed entry. -/
def claimNextOutbox (options : ClaimOptions) : Prog ClaimOutcome := do
  ofExcept (identifier options.workerId "workerId")
  let leaseMs ← ofExcept
    (positiveInteger (options.leaseMs.getD defaultClaimLeaseMs) "leaseMs")
  transaction (claimTransaction options.workerId options.now leaseMs)

/-- The stored state is in processing under exactly this claim. -/
def OwnedBy (state : OutboxState) (claim : Claim) : Prop :=
  state.status = .processing ∧ state.sequence = claim.sequence ∧
    state.generation = some claim.generation ∧ state.claimToken = some claim.claimToken

instance (state : OutboxState) (claim : Claim) : Decidable (OwnedBy state claim) :=
  inferInstanceAs (Decidable (_ ∧ _))

/-- The state a claim owns; throws when the claim has been lost. -/
def assertClaimOwner (claim : Claim) : Txn OutboxState := do
  let stored ← Txn.get (.outbox (.state claim.sequence))
  match stored with
  | none => Transaction.fail (claimLost claim)
  | some state =>
    if OwnedBy state claim then pure state else Transaction.fail (claimLost claim)
where
  claimLost (claim : Claim) : StoreError :=
    .outboxClaim s!"Outbox claim {claim.sequence} is no longer owned by this worker."

/-- Extend a live claim without changing its identity or generation. -/
def renewOutboxClaim (claim : Claim) (now : Nat) (leaseMs : Option Nat) : Prog OutboxState := do
  ofExcept (validateClaim claim)
  let leaseMs ← ofExcept (positiveInteger (leaseMs.getD defaultClaimLeaseMs) "leaseMs")
  transaction do
    let state ← assertClaimOwner claim
    let renewed := { state with claimedUntil := some (now + leaseMs) }
    Txn.put (.outbox (.state claim.sequence)) renewed
    return renewed

inductive ReleaseOutcome where
  | processed
  | lost
  | released (state : OutboxState)

def releaseTransaction (claim : Claim) (error : Option ErrorDetails) (now : Nat) :
    Txn ReleaseOutcome := do
  let stored ← Txn.get (.outbox (.state claim.sequence))
  if stored.map (·.status) = some .processed then return .processed
  else if stored.bind (·.claimToken) ≠ some claim.claimToken then return .lost
  else do
    let state ← assertClaimOwner claim
    let pending : OutboxState := {
      stateVersion := outboxStateVersion
      sequence := claim.sequence
      status := .pending
      generation := some claim.generation
      operation := state.operation
      attempt := state.attempt
      firstClaimedAt := state.firstClaimedAt
      retryAt := some now
      lastError := error }
    Txn.put (.outbox (.state claim.sequence)) pending
    return .released pending

/-- Release a failed claim for immediate ordered replay. -/
def releaseOutboxClaim (claim : Claim) (error : Option ErrorDetails) (now : Nat) :
    Prog ReleaseOutcome := do
  ofExcept (validateClaim claim)
  transaction (releaseTransaction claim error now)

/-! ## Staging -/

def stageTabletOrdinals (generation : Nat) (w : World) : List Nat :=
  w.store.scan (fun k _ => match k with
    | .outbox (.stageTablet g ordinal) => if g = generation then some ordinal else none
    | _ => none) (· ≤ ·)

/-- The ordinals of the stored applied markers of a generation. -/
def stageAppliedOrdinals (generation : Nat) (w : World) : List Nat :=
  w.store.scan (fun k _ => match k with
    | .outbox (.stageApplied g ordinal) => if g = generation then some ordinal else none
    | _ => none) (· ≤ ·)

/-- Run a write under the claim: the owner check and the write are one transaction. -/
def underClaim {α : Type} (claim : Claim) (write : Txn α) : Prog α :=
  transaction do
    let _ ← assertClaimOwner claim
    write

/-- Remove the records `key` names, page by page, until a page is empty. -/
def clearPages (claim : Claim) (ordinals : World → List Nat) (key : Nat → Key) : Nat → Prog Unit
  | 0 => Program.fail .unfinished
  | pages + 1 => do
    let page ← Program.read fun w => (ordinals w).take 256
    if page = [] then return ()
    else do
      Program.forEach (fun ordinal => underClaim claim (Txn.remove (key ordinal))) page
      clearPages claim ordinals key pages

def clearOrphanStageRecords (claim : Claim) (pages : Nat) : Prog Unit := do
  clearPages claim (stageTabletOrdinals claim.generation)
    (fun ordinal => .outbox (.stageTablet claim.generation ordinal)) pages
  clearPages claim (stageAppliedOrdinals claim.generation)
    (fun ordinal => .outbox (.stageApplied claim.generation ordinal)) pages
  underClaim claim (Txn.remove (.outbox (.stageReady claim.generation)))

structure StageOutcome where
  status : PutStatus
  generation : Nat
  digest : Digest

/-- Stage the tablets of a plan one by one, each in its own transaction. -/
def stageTablets (claim : Claim) (plan : StagePlan) : List (Nat × Tablet) → Prog Unit :=
  Program.forEach fun (ordinal, tablet) => do
    ofExcept (validateTablet codec tablet plan claim.generation claim.sequence ordinal)
    let _ ← underClaim claim
      (Txn.putImmutable (.outbox (.stageTablet claim.generation ordinal)) tablet)
    return ()

def stageTabletRecords (claim : Claim) (plan : GenerationPlan) (pages : Nat) : Prog Unit :=
  match plan.mode with
  | .atomic _ => return ()
  | .tablets header => do
    require (plan.tabletRecords.length = header.tabletCount)
      (.outboxIntegrity s!"Index generation {claim.generation} is missing tablet records.")
    clearOrphanStageRecords claim pages
    stageTablets codec claim plan.toStagePlan
      ((List.range plan.tabletRecords.length).zip plan.tabletRecords)
    require
      (codec.tabletsDigest (plan.tabletRecords.map (·.digest)) = header.tabletsDigest)
      (.outboxIntegrity
        s!"Index generation {claim.generation} tablet digest set does not match.")

/-- Persist a complete handler plan while keeping every final mutation invisible. -/
def stageGeneration (claim : Claim) (plan : GenerationPlan) (pages : Nat) :
    Prog StageOutcome := do
  ofExcept (validateClaim claim)
  ofExcept (validateStage codec plan.toStagePlan claim.generation claim.sequence)
  let existingHeader ← Program.read (·.get (.outbox (.stage claim.generation)))
  match existingHeader with
  | some existing => do
    ofExcept (validateStage codec existing claim.generation claim.sequence)
    require (existing.digest = plan.digest)
      (.outboxIntegrity s!"Index generation {claim.generation} stage already has another plan.")
    return { status := .unchanged, generation := claim.generation, digest := plan.digest }
  | none => do
    stageTabletRecords codec claim plan pages
    let status ← underClaim claim
      (Txn.putImmutable (.outbox (.stage claim.generation)) plan.toStagePlan)
    return { status, generation := claim.generation, digest := plan.digest }

/-! ## Applying tablets -/

def checkStagedGeneration (generation sequence : Nat) (stored : Option StagePlan) :
    Except StoreError StagePlan :=
  match stored with
  | none => .error (.outboxIntegrity s!"Generation {generation} has no staged plan.")
  | some plan => do
    validateStage codec plan generation sequence
    return plan

def readStagedGeneration (generation sequence : Nat) : Prog StagePlan := do
  let stored ← Program.read (·.get (.outbox (.stage generation)))
  ofExcept (checkStagedGeneration codec generation sequence stored)

def readStageTablet (plan : StagePlan) (generation sequence ordinal : Nat) : Prog Tablet := do
  let stored ← Program.read (·.get (.outbox (.stageTablet generation ordinal)))
  match stored with
  | none =>
    Program.fail
      (.outboxIntegrity s!"Index generation {generation} tablet {ordinal} is missing.")
  | some tablet => do
    ofExcept (validateTablet codec tablet plan generation sequence ordinal)
    return tablet

/-- Apply one staged mutation to the derived keyspace. -/
def applySerializedMutation (mutation : SerializedMutation) : Txn Unit := do
  let key ← ofExcept (mutationKey codec mutation.key)
  match mutation.kind with
  | .remove => Txn.remove (.derived key)
  | .put true record => do
    let _ ← Txn.putImmutable (.derived key) record
    return ()
  | .put false record => Txn.put (.derived key) record

/-- Apply, in order, those mutations of a list that belong to a phase. -/
def applyPhase (phase : StagePhase) (mutations : List SerializedMutation) : Txn Unit :=
  Transaction.forEach (applySerializedMutation codec) (mutations.filter (·.stagePhase = phase))

inductive TabletOutcome where
  | applied
  | skipped

def applyTabletTransaction (claim : Claim) (plan : StagePlan) (ordinal : Nat) (tablet : Tablet) :
    Txn TabletOutcome := do
  let _ ← assertClaimOwner claim
  let marker ← Txn.get (.outbox (.stageApplied claim.generation ordinal))
  match marker with
  | some marker => do
    require
      (marker.tabletDigest = tablet.digest ∧ marker.stageDigest = plan.digest)
      (.outboxIntegrity
        s!"Index generation {claim.generation} tablet {ordinal} applied marker conflicts.")
    return .skipped
  | none => do
    applyPhase codec .prepare tablet.mutations
    let _ ← Txn.putImmutable (.outbox (.stageApplied claim.generation ordinal)) {
      generation := claim.generation
      ordinal
      tabletDigest := tablet.digest
      stageDigest := plan.digest
      mutationCount := tablet.prepareCount }
    return .applied

inductive ApplyStatus where
  | atomic
  | ready

structure ApplyOutcome where
  status : ApplyStatus
  appliedTablets : Nat
  skippedTablets : Nat

/-- The digests read so far and what became of their tablets. -/
structure ApplyProgress where
  digests : List Digest
  appliedTablets : Nat
  skippedTablets : Nat

def applyTablet (claim : Claim) (plan : StagePlan) (progress : ApplyProgress) (ordinal : Nat) :
    Prog ApplyProgress := do
  let tablet ← readStageTablet codec plan claim.generation claim.sequence ordinal
  let outcome ← transaction (applyTabletTransaction codec claim plan ordinal tablet)
  match outcome with
  | .applied => return {
      progress with
      digests := progress.digests ++ [tablet.digest]
      appliedTablets := progress.appliedTablets + 1 }
  | .skipped => return {
      progress with
      digests := progress.digests ++ [tablet.digest]
      skippedTablets := progress.skippedTablets + 1 }

/-- Apply bounded pre-publication tablets and durably mark a complete generation ready. -/
def applyGenerationTablets (claim : Claim) : Prog ApplyOutcome := do
  ofExcept (validateClaim claim)
  let plan ← readStagedGeneration codec claim.generation claim.sequence
  match plan.mode with
  | .atomic _ => return { status := .atomic, appliedTablets := 0, skippedTablets := 0 }
  | .tablets header => do
    let ready ← Program.read (·.get (.outbox (.stageReady claim.generation)))
    if ready.map (·.stageDigest) = some plan.digest then
      return { status := .ready, appliedTablets := 0, skippedTablets := header.tabletCount }
    else do
      let progress ← Program.foldl (applyTablet codec claim plan) ⟨[], 0, 0⟩
        (List.range header.tabletCount)
      require (codec.tabletsDigest progress.digests = header.tabletsDigest) (.outboxIntegrity
          s!"Index generation {claim.generation} staged tablets do not match the plan.")
      let _ ← underClaim claim
        (Txn.putImmutable (.outbox (.stageReady claim.generation)) {
          generation := claim.generation
          outboxSequence := claim.sequence
          stageDigest := plan.digest
          tabletCount := header.tabletCount
          tabletsDigest := header.tabletsDigest })
      return {
        status := .ready
        appliedTablets := progress.appliedTablets
        skippedTablets := progress.skippedTablets }

/-! ## Publishing -/

def skippedHandlers (handlers : List HandlerSummary) : List SkippedHandler :=
  handlers.filterMap fun handler => match handler.metadata with
    | some metadata =>
      if metadata.status = some "skipped" then some {
        id := handler.id
        reason := metadata.reason
        limitKind := metadata.limitKind
        limit := metadata.limit
        observed := metadata.observed }
      else none
    | none => none

def partialHandlerCount (handlers : List HandlerSummary) : Nat :=
  (handlers.filter fun handler => handler.metadata.bind (·.status) = some "partial").length

def indexStatus (handlers : List HandlerSummary) : String :=
  if (skippedHandlers handlers).length = handlers.length then "skipped"
  else if 0 < (skippedHandlers handlers).length ∨ 0 < partialHandlerCount handlers then "partial"
  else "complete"

def PlanMode.name : PlanMode → String
  | .atomic _ => "atomic"
  | .tablets _ => "tablets"

def PlanMode.tabletCount : PlanMode → Nat
  | .atomic _ => 0
  | .tablets header => header.tabletCount

/-- The mutations a publication applies with the cursor. -/
def PlanMode.publicationMutations : PlanMode → List SerializedMutation
  | .atomic mutations => mutations
  | .tablets header => header.publicationMutations

def createPublication (claim : Claim) (plan : StagePlan) (publishedAt : Nat) : Publication where
  generationVersion := indexGenerationVersion
  generation := claim.generation
  outboxSequence := claim.sequence
  operation := claim.operation
  documentId := plan.documentId
  documentVersion := plan.documentVersion
  sourceVersion := plan.sourceVersion
  handlers := plan.handlers
  indexStatus := indexStatus plan.handlers
  skippedHandlers := skippedHandlers plan.handlers
  partialHandlerCount := partialHandlerCount plan.handlers
  mutationCount := plan.mutationCount
  publicationMode := plan.mode.name
  tabletCount := plan.mode.tabletCount
  stageDigest := plan.digest
  publishedAt

/-- Tablets must be marked ready, under this very plan, before the publication. -/
def requireReady (claim : Claim) (plan : StagePlan) : Txn Unit :=
  match plan.mode with
  | .atomic _ => return ()
  | .tablets header => do
    let ready ← Txn.get (.outbox (.stageReady claim.generation))
    require
      (ready.map (·.stageDigest) = some plan.digest ∧
        ready.map (·.tabletsDigest) = some header.tabletsDigest)
      (.outboxIntegrity s!"Generation {claim.generation} tablets are not ready to publish.")

def recordPreparationMetrics (claim : Claim) (plan : StagePlan) (publishedAt : Nat) :
    Txn Unit := do
  let skipped := skippedHandlers plan.handlers
  if 0 < skipped.length then do
    let current ← Txn.get (.outbox .preparationMetrics)
    Txn.put (.outbox .preparationMetrics) {
      skippedDocuments := (current.map (·.skippedDocuments)).getD 0 + 1
      skippedHandlers := (current.map (·.skippedHandlers)).getD 0 + skipped.length
      lastSkippedDocumentId := plan.documentId
      lastSkippedGeneration := claim.generation
      updatedAt := publishedAt }
  else return ()

/-- The records a publication writes once its mutations are applied. -/
def recordPublication (claim : Claim) (state : OutboxState) (plan : StagePlan)
    (publishedAt : Nat) : Txn Publication := do
  let publication := createPublication claim plan publishedAt
  let _ ← Txn.putImmutable (.outbox (.generation claim.generation)) publication
  Txn.put (.outbox .publishedGeneration) {
    generation := claim.generation
    outboxSequence := claim.sequence
    indexStatus := publication.indexStatus
    skippedHandlerCount := publication.skippedHandlers.length
    partialHandlerCount := publication.partialHandlerCount
    publishedAt }
  recordPreparationMetrics claim plan publishedAt
  Txn.put (.outbox .cursor) { nextSequence := claim.sequence + 1, advancedAt := publishedAt }
  Txn.put (.outbox (.state claim.sequence)) {
    state with
    status := .processed
    processedAt := some publishedAt
    mutationCount := some plan.mutationCount
    indexStatus := some publication.indexStatus
    skippedHandlers := some publication.skippedHandlers
    stageDigest := some plan.digest
    claimedUntil := none
    claimToken := none
    workerId := none
    lastError := none }
  Txn.emit (.published claim.sequence claim.generation claim.claimToken)
  return publication

def publishTransaction (claim : Claim) (publishedAt : Nat) : Txn Publication := do
  let state ← assertClaimOwner claim
  let stored ← Txn.get (.outbox .cursor)
  let cursor ← ofExcept (cursorSequence stored)
  require (cursor = claim.sequence)
    (.outboxIntegrity s!"Generation {claim.generation} cannot publish out of outbox order.")
  let staged ← Txn.get (.outbox (.stage claim.generation))
  let plan ← ofExcept
    (checkStagedGeneration codec claim.generation claim.sequence staged)
  requireReady claim plan
  Transaction.forEach (applySerializedMutation codec) plan.mode.publicationMutations
  recordPublication claim state plan publishedAt

/-- Atomically apply the staged publication mutations, publish the generation, advance the ordered
    cursor, and mark the outbox entry processed. -/
def publishGeneration (claim : Claim) (publishedAt : Nat) : Prog Publication := do
  ofExcept (validateClaim claim)
  let _ ← readStagedGeneration codec claim.generation claim.sequence
  transaction (publishTransaction codec claim publishedAt)

/-! ## Cleaning up and recovering -/

inductive CleanupOutcome where
  | unpublished (generation : Nat)
  | removed (generation : Nat) (prunedGeneration prunedSequence : Option Nat)
deriving DecidableEq

def cleanupTabletTransaction (generation : Nat) (plan : StagePlan) (ordinal : Nat)
    (tablet : Tablet) : Txn Unit := do
  let stored ← Txn.get (.outbox (.stageReady generation))
  match stored with
  | none => Transaction.fail (progressChanged generation)
  | some current => do
    require
      (current.stageDigest = plan.digest ∧ current.cleanupOrdinal.getD 0 = ordinal)
      (progressChanged generation)
    applyPhase codec .cleanup tablet.mutations
    Txn.remove (.outbox (.stageTablet generation ordinal))
    Txn.remove (.outbox (.stageApplied generation ordinal))
    Txn.put (.outbox (.stageReady generation))
      { current with cleanupOrdinal := some (ordinal + 1) }
where
  progressChanged (generation : Nat) : StoreError :=
    .outboxIntegrity s!"Generation {generation} cleanup progress changed concurrently."

def cleanupTablet (generation sequence : Nat) (plan : StagePlan) (ordinal : Nat) : Prog Unit := do
  let tablet ← readStageTablet codec plan generation sequence ordinal
  transaction (cleanupTabletTransaction codec generation plan ordinal tablet)

/-- The tablets not yet cleaned, if the generation was staged in tablets. -/
def cleanupTablets (generation sequence : Nat) (stored : Option StagePlan) : Prog Unit :=
  match stored with
  | none => return ()
  | some plan => match plan.mode with
    | .atomic _ => return ()
    | .tablets header => do
      ofExcept (validateStage codec plan generation sequence)
      let ready ← Program.read (·.get (.outbox (.stageReady generation)))
      require (ready.map (·.stageDigest) = some plan.digest)
        (.outboxIntegrity s!"Published generation {generation} has no valid ready marker.")
      let ordinal := (ready.bind (·.cleanupOrdinal)).getD 0
      Program.forEach (cleanupTablet codec generation sequence plan)
        ((List.range header.tabletCount).drop ordinal)

def pruneGeneration (generation : Nat) : Txn Unit :=
  if 0 < generation then Txn.remove (.outbox (.generation generation)) else return ()

def pruneSequence (sequence : Nat) : Txn Unit :=
  if 0 < sequence then do
    Txn.remove (.outbox (.entry sequence))
    Txn.remove (.outbox (.state sequence))
  else return ()

/-- Remove the stage, and the history that lies `retainPublications` behind the publication. -/
def removeStage (generation : Nat) (publication : Publication) (retainPublications : Nat) :
    Txn CleanupOutcome := do
  Txn.remove (.outbox (.stage generation))
  Txn.remove (.outbox (.stageReady generation))
  let prunedGeneration := generation - retainPublications
  let prunedSequence := publication.outboxSequence - retainPublications
  pruneGeneration prunedGeneration
  pruneSequence prunedSequence
  return .removed generation
    (if 0 < prunedGeneration then some prunedGeneration else none)
    (if 0 < prunedSequence then some prunedSequence else none)

/-- Remove a no-longer-needed stage after its generation is durably published. -/
def cleanupPublishedStage (generation : Nat) (retainPublications : Option Nat) :
    Prog CleanupOutcome := do
  let _ ← ofExcept (positiveInteger generation "generation")
  let retain ← ofExcept (positiveInteger
    (retainPublications.getD defaultPublicationHistory) "retainPublications")
  let stored ← Program.read (·.get (.outbox (.generation generation)))
  match stored with
  | none => return .unpublished generation
  | some publication => do
    let storedPlan ← Program.read (·.get (.outbox (.stage generation)))
    cleanupTablets codec generation publication.outboxSequence storedPlan
    transaction (removeStage generation publication retain)

/-- The stored sequences with a state, in order. -/
def outboxStates (w : World) : List (Nat × OutboxState) :=
  w.store.scan (fun k v => match k, v with
    | .outbox (.state sequence), v => some (sequence, v)
    | _, _ => none) (·.1 ≤ ·.1)

def stagedGenerations (w : World) : List Nat :=
  w.store.scan (fun k _ => match k with
    | .outbox (.stage generation) => some generation
    | _ => none) (· ≤ ·)

def workerRestart : ErrorDetails where
  name := "WorkerRestart"
  code := some "ERR_INDEX_WORKER_RESTART"
  message := "The daemon restarted before this outbox entry was published."

def recoverClaim (now sequence : Nat) : Txn Bool := do
  let stored ← Txn.get (.outbox (.state sequence))
  match stored with
  | none => return false
  | some current =>
    if current.status ≠ .processing then return false
    else do
      Txn.put (.outbox (.state sequence)) {
        current with
        status := .pending
        retryAt := some now
        claimedUntil := none
        claimToken := none
        workerId := none
        lastError := some workerRestart }
      return true

structure RecoverOutcome where
  recoveredClaims : Nat
  cleanedStages : Nat
  truncated : Bool

def recoverState (now : Nat) (recovered : Nat) (record : Nat × OutboxState) : Prog Nat := do
  let state ← ofExcept (normalizeState (some record.2) record.1)
  if state.status ≠ .processing then return recovered
  else do
    let changed ← transaction (recoverClaim now record.1)
    return if changed then recovered + 1 else recovered

def recoverStage (retainPublications : Option Nat) (cleaned generation : Nat) : Prog Nat := do
  let published ← Program.read (·.get (.outbox (.generation generation)))
  if published.isSome then do
    let _ ← cleanupPublishedStage codec generation
      (some (retainPublications.getD defaultPublicationHistory))
    return cleaned + 1
  else return cleaned

/-- Recover claims left by a terminated daemon and clean published stage residue. -/
def recoverOutbox (now limit : Nat) (retainPublications : Option Nat) : Prog RecoverOutcome := do
  require (0 < limit ∧ limit ≤ defaultOutboxScanLimit)
    (.rangeError s!"limit must be between 1 and {defaultOutboxScanLimit}.")
  let states ← Program.read fun w => (outboxStates w).take limit
  let recoveredClaims ← Program.foldl (recoverState now) 0 states
  let stages ← Program.read fun w => (stagedGenerations w).take limit
  let cleanedStages ← Program.foldl (recoverStage codec retainPublications) 0 stages
  return {
    recoveredClaims
    cleanedStages
    truncated := states.length = limit ∨ stages.length = limit }

end ContextStore
