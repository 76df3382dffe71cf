import Mathlib.Algebra.Ring.Nat
import ContextStore.Store.World
import Mathlib.Data.Prod.Lex
import Mathlib.Data.String.Basic

/-! # Generation plans and tablets

Pure part of the index publication: the mutations of all handlers are serialized, sorted and
deduplicated, and become either one atomic plan or a plan in tablets, bounded batches that are
applied before and after the publication. Every digest is checked again when a plan or a tablet is
read back. -/

namespace ContextStore

open Concurrent

/-- What the planner takes from the encoding modules: the keyspace of an encoded key, the encoding
    of a record, the byte length of a value's stable JSON, and the digests. -/
structure PlanCodec where
  keyspace : String → String
  recordText : (kind payload : String) → (recordVersion : Nat) → String
  mutationBytes : SerializedMutation → Nat
  tabletBytes : Tablet → Nat
  tabletDigest : TabletContent → Digest
  tabletsDigest : List Digest → Digest
  planDigest : PlanContent → Digest

variable (codec : PlanCodec)

def outboxStateVersion : Nat := 1
def indexStageVersion : Nat := 2
def indexGenerationVersion : Nat := 1
def defaultClaimLeaseMs : Nat := 30000
def defaultOutboxScanLimit : Nat := 100000
def defaultPublicationHistory : Nat := 1024
def defaultIndexTabletMaxMutations : Nat := 256
def defaultIndexTabletMaxBytes : Nat := 512 * 1024
def defaultIndexAtomicMaxMutations : Nat := 256
def defaultIndexAtomicMaxBytes : Nat := 512 * 1024
def defaultIndexPublicationMaxMutations : Nat := 64
def defaultIndexPublicationMaxBytes : Nat := 256 * 1024

/-- `PROTECTED_KEYSPACES` -/
def protectedKeyspaces : List String :=
  ["chunk", "chunk-reference", "document", "event", "event-reference", "expiry", "idempotency",
    "lease", "meta", "outbox", "supersession", "window", "manifest"]

def positiveInteger (value : Nat) (label : String) : Except StoreError Nat :=
  if 0 < value then .ok value
  else .error (.typeError s!"{label} must be a positive safe integer.")

def identifier (value label : String) : Except StoreError Unit :=
  if value = "" then .error (.typeError s!"{label} must be a non-empty string.") else .ok ()

/-! ## Claims and handler results -/

/-- A claimed outbox entry, as the worker holds it. -/
structure Claim where
  sequence : Nat
  generation : Nat
  operation : String
  claimToken : Uuid
  workerId : String
  entry : OutboxEntry

/-- The checks of `validateClaim` that are not settled by the type. -/
def validateClaim (claim : Claim) : Except StoreError Unit := do
  let _ ← positiveInteger claim.sequence "claim.sequence"
  let _ ← positiveInteger claim.generation "claim.generation"
  return ()

inductive MutationType where
  | put
  | remove
deriving DecidableEq

/-- A mutation as a handler gives it; `key` is the base64url text of the encoded key. -/
structure HandlerMutation where
  type : Option MutationType := none
  key : String
  payload : Option String := none
  stagePhase : Option StagePhase := none
  immutable : Option Bool := none
  kind : Option String := none
  recordVersion : Option Nat := none

structure HandlerResult where
  id : String
  mutations : List HandlerMutation
  metadata : Option HandlerMetadata := none

/-! ## Serialized mutations -/

/-- Handlers may write only outside the protected keyspaces. -/
def mutationKey (key : String) : Except StoreError String :=
  if codec.keyspace key ∈ protectedKeyspaces then
    .error (.outboxIntegrity
      s!"Index handlers cannot mutate protected keyspace {codec.keyspace key}.")
  else .ok key

def kindForKey (key : String) : String :=
  if codec.keyspace key = "" then "derived-index" else codec.keyspace key

def serializeMutation (candidate : HandlerMutation) (label : String) :
    Except StoreError SerializedMutation := do
  let type := candidate.type <|> (candidate.payload.map fun _ => MutationType.put)
  let key ← mutationKey codec candidate.key
  let stagePhase := candidate.stagePhase.getD
    (if type = some .remove then StagePhase.cleanup else StagePhase.prepare)
  match type, candidate.payload with
  | some .remove, _ => return { key, stagePhase, kind := .remove }
  | some .put, some payload =>
    return {
      key, stagePhase,
      kind := .put (candidate.immutable.getD true)
        (codec.recordText (candidate.kind.getD (kindForKey codec key)) payload
          (candidate.recordVersion.getD 1)) }
  | _, _ => .error (.typeError
      s!"{label} must be a put mutation with payload or a remove mutation.")

def StagePhase.order : StagePhase → Nat
  | .prepare => 0
  | .publish => 1
  | .cleanup => 2

def MutationKind.typeName : MutationKind → String
  | .put _ _ => "put"
  | .remove => "remove"

def MutationKind.recordText : MutationKind → String
  | .put _ record => record
  | .remove => "undefined"

/-- `compareSerializedMutations` is the lexicographic order of these four fields. -/
def SerializedMutation.sortKey (m : SerializedMutation) : String ×ₗ Nat ×ₗ String ×ₗ String :=
  toLex (m.key, toLex (m.stagePhase.order, toLex (m.kind.typeName, m.kind.recordText)))

/-- A key may be written before publication and removed after it; no other pair of different
    mutations of one key is accepted. -/
def stagedCleanup (previous mutation : SerializedMutation) : Prop :=
  previous.stagePhase = .prepare ∧ previous.kind.typeName = "put" ∧
    mutation.stagePhase = .cleanup ∧ mutation.kind = .remove

instance (previous mutation : SerializedMutation) : Decidable (stagedCleanup previous mutation) :=
  inferInstanceAs (Decidable (_ ∧ _))

/-- The loop of `normalizeMutations` over the sorted mutations; `previous` is the last one kept. -/
def dropDuplicates : Option SerializedMutation → List SerializedMutation →
    Except StoreError (List SerializedMutation)
  | _, [] => .ok []
  | previous, mutation :: rest =>
    match previous with
    | none => (dropDuplicates (some mutation) rest).map (mutation :: ·)
    | some kept =>
      if kept.key ≠ mutation.key then
        (dropDuplicates (some mutation) rest).map (mutation :: ·)
      else if kept = mutation then dropDuplicates previous rest
      else if stagedCleanup kept mutation then
        (dropDuplicates (some mutation) rest).map (mutation :: ·)
      else .error (.outboxIntegrity
        "Index handlers produced conflicting mutations for one derived key.")

def serializeAll (id : String) : Nat → List HandlerMutation →
    Except StoreError (List SerializedMutation)
  | _, [] => .ok []
  | index, candidate :: rest => do
    let mutation ← serializeMutation codec candidate s!"{id}.mutations[{index}]"
    let mutations ← serializeAll id (index + 1) rest
    return mutation :: mutations

def serializeResults : List HandlerResult → Except StoreError (List SerializedMutation)
  | [] => .ok []
  | result :: rest => do
    let mutations ← serializeAll codec result.id 0 result.mutations
    let others ← serializeResults rest
    return mutations ++ others

def normalizeMutations (handlerResults : List HandlerResult) :
    Except StoreError (List SerializedMutation) := do
  let serialized ← serializeResults codec handlerResults
  dropDuplicates none (serialized.insertionSort (·.sortKey ≤ ·.sortKey))

/-! ## Tablets -/

structure TabletOptions where
  generation : Nat
  outboxSequence : Nat
  maxMutations : Nat
  maxBytes : Nat

def countPhase (phase : StagePhase) (mutations : List SerializedMutation) : Nat :=
  (mutations.filter (·.stagePhase = phase)).length

def totalBytes (mutations : List SerializedMutation) : Nat :=
  (mutations.map codec.mutationBytes).sum

/-- The tablets closed so far, the mutations of the open one and their bytes. -/
structure TabletBuilder where
  tablets : List Tablet
  current : List SerializedMutation
  currentBytes : Nat

def sealTablet (options : TabletOptions) (b : TabletBuilder) : Tablet :=
  let content : TabletContent := {
    stageVersion := indexStageVersion
    generation := options.generation
    outboxSequence := options.outboxSequence
    ordinal := b.tablets.length
    mutationCount := b.current.length
    prepareCount := countPhase .prepare b.current
    cleanupCount := countPhase .cleanup b.current
    mutationBytes := b.currentBytes
    mutations := b.current }
  { content with digest := codec.tabletDigest content }

def TabletBuilder.flush (options : TabletOptions) (b : TabletBuilder) :
    Except StoreError TabletBuilder :=
  if b.current = [] then .ok b
  else if codec.tabletBytes (sealTablet codec options b) ≤ options.maxBytes then
    .ok { tablets := b.tablets ++ [sealTablet codec options b], current := [], currentBytes := 0 }
  else .error (.outboxIntegrity s!"Index tablet {b.tablets.length} exceeds its durable byte bound.")

def TabletBuilder.push (b : TabletBuilder) (mutation : SerializedMutation) : TabletBuilder :=
  { b with
    current := b.current ++ [mutation]
    currentBytes := b.currentBytes + codec.mutationBytes mutation }

def fillTablets (options : TabletOptions) (mutationBudget : Nat) :
    List SerializedMutation → TabletBuilder → Except StoreError TabletBuilder
  | [], b => b.flush codec options
  | mutation :: rest, b => do
    let bytes := codec.mutationBytes mutation
    if mutationBudget < bytes then
      throw (.rangeError
        s!"One index mutation requires {bytes} bytes; tablet maximum is {options.maxBytes}.")
    let full := options.maxMutations ≤ b.current.length ∨ mutationBudget < b.currentBytes + bytes
    let b' ← if full then b.flush codec options else .ok b
    fillTablets options mutationBudget rest (b'.push codec mutation)

def createTablets (mutations : List SerializedMutation) (options : TabletOptions) :
    Except StoreError (List Tablet) := do
  let envelopeBytes := min (8 * 1024) (options.maxBytes / 4)
  let mutationBudget := options.maxBytes - envelopeBytes
  if mutationBudget = 0 then
    throw (.rangeError "tabletMaxBytes is too small for a tablet envelope.")
  let b ← fillTablets codec options mutationBudget mutations ⟨[], [], 0⟩
  return b.tablets

/-! ## Plans -/

/-- A plan before it is staged: the header with the tablets it announces. -/
structure GenerationPlan extends StagePlan where
  tabletRecords : List Tablet

structure PlanOptions where
  atomicMaxMutations : Option Nat := none
  atomicMaxBytes : Option Nat := none
  publicationMaxMutations : Option Nat := none
  publicationMaxBytes : Option Nat := none
  tabletMaxMutations : Option Nat := none
  tabletMaxBytes : Option Nat := none

def sealPlan (content : PlanContent) (tabletRecords : List Tablet) : GenerationPlan :=
  { content with digest := codec.planDigest content, tabletRecords }

/-- Publication mutations stay out of the tablets: they are applied with the cursor. -/
def publicationMutations (mutations : List SerializedMutation) : List SerializedMutation :=
  mutations.filter (·.stagePhase = .publish)

def tabletMutations (mutations : List SerializedMutation) : List SerializedMutation :=
  mutations.filter (·.stagePhase ≠ .publish)

/-- The second half of `createGenerationPlan`, once the mutations exceed the atomic bounds. -/
def createTabletsPlan (base : PlanMode → PlanContent) (mutations : List SerializedMutation)
    (options : PlanOptions) : Except StoreError GenerationPlan := do
  let publication := publicationMutations mutations
  let publicationBytes := totalBytes codec publication
  let publicationMaxMutations ← positiveInteger
    (options.publicationMaxMutations.getD defaultIndexPublicationMaxMutations)
    "publicationMaxMutations"
  let publicationMaxBytes ← positiveInteger
    (options.publicationMaxBytes.getD defaultIndexPublicationMaxBytes) "publicationMaxBytes"
  if publicationMaxMutations < publication.length ∨ publicationMaxBytes < publicationBytes then
    throw (.rangeError
      (s!"Atomic publication requires {publication.length} mutations/{publicationBytes} bytes; "
        ++ s!"maximum is {publicationMaxMutations}/{publicationMaxBytes}."))
  let tabletMaxMutations ← positiveInteger
    (options.tabletMaxMutations.getD defaultIndexTabletMaxMutations) "tabletMaxMutations"
  let tabletMaxBytes ← positiveInteger
    (options.tabletMaxBytes.getD defaultIndexTabletMaxBytes) "tabletMaxBytes"
  let tablets ← createTablets codec (tabletMutations mutations) {
    generation := (base (.atomic [])).generation
    outboxSequence := (base (.atomic [])).outboxSequence
    maxMutations := tabletMaxMutations
    maxBytes := tabletMaxBytes }
  return sealPlan codec (base (.tablets {
    publicationMutations := publication
    publicationMutationCount := publication.length
    publicationBytes
    tabletMaxMutations
    tabletMaxBytes
    tabletCount := tablets.length
    tabletsDigest := codec.tabletsDigest (tablets.map (·.digest))
    prepareMutationCount := (tablets.map (·.prepareCount)).sum
    cleanupMutationCount := (tablets.map (·.cleanupCount)).sum })) tablets

def summarizeHandlers : Nat → List HandlerResult → Except StoreError (List HandlerSummary)
  | _, [] => .ok []
  | index, result :: rest => do
    identifier result.id s!"handlerResults[{index}].id"
    let others ← summarizeHandlers (index + 1) rest
    return {
      id := result.id
      mutationCount := result.mutations.length
      metadata := result.metadata } :: others

/-- Build the deterministic, durable plan that separates staging from publication. -/
def createGenerationPlan (claim : Claim) (handlerResults : List HandlerResult)
    (options : PlanOptions) : Except StoreError GenerationPlan := do
  validateClaim claim
  let summaries ← summarizeHandlers 0 handlerResults
  let handlers := summaries.insertionSort (·.id ≤ ·.id)
  let mutations ← normalizeMutations codec handlerResults
  let mutationBytes := totalBytes codec mutations
  let atomicMaxMutations ← positiveInteger
    (options.atomicMaxMutations.getD defaultIndexAtomicMaxMutations) "atomicMaxMutations"
  let atomicMaxBytes ← positiveInteger
    (options.atomicMaxBytes.getD defaultIndexAtomicMaxBytes) "atomicMaxBytes"
  let base (mode : PlanMode) : PlanContent := {
    stageVersion := indexStageVersion
    generation := claim.generation
    outboxSequence := claim.sequence
    operation := claim.operation
    documentId := claim.entry.documentId
    documentVersion := claim.entry.documentVersion
    sourceVersion := claim.entry.sourceVersion
    handlers
    mutationCount := mutations.length
    mutationBytes
    mode }
  if mutations.length ≤ atomicMaxMutations ∧ mutationBytes ≤ atomicMaxBytes then
    return sealPlan codec (base (.atomic mutations)) []
  createTabletsPlan codec base mutations options

/-! ## Checks on what is read back -/

def validateStage (plan : StagePlan) (generation sequence : Nat) : Except StoreError Unit := do
  if plan.stageVersion ≠ indexStageVersion ∨ plan.generation ≠ generation
      ∨ plan.outboxSequence ≠ sequence then
    throw (.outboxIntegrity s!"Index generation {generation} has a malformed stage.")
  if codec.planDigest plan.toPlanContent ≠ plan.digest then
    throw (.outboxIntegrity s!"Index generation {generation} stage digest does not match.")

/-- The bounds a tablet is checked against come from the stage header. -/
def PlanMode.tabletBounds : PlanMode → Nat × Nat
  | .atomic _ => (0, 0)
  | .tablets header => (header.tabletMaxMutations, header.tabletMaxBytes)

def validateTablet (tablet : Tablet) (plan : StagePlan) (generation sequence ordinal : Nat) :
    Except StoreError Unit := do
  if tablet.stageVersion ≠ indexStageVersion ∨ tablet.generation ≠ generation
      ∨ tablet.outboxSequence ≠ sequence ∨ tablet.ordinal ≠ ordinal
      ∨ tablet.mutationCount ≠ tablet.mutations.length
      ∨ plan.mode.tabletBounds.1 < tablet.mutationCount
      ∨ plan.mode.tabletBounds.2 < tablet.mutationBytes
      ∨ codec.tabletDigest tablet.toTabletContent ≠ tablet.digest then
    throw (.outboxIntegrity s!"Index generation {generation} tablet {ordinal} is malformed.")
  if totalBytes codec tablet.mutations ≠ tablet.mutationBytes
      ∨ countPhase .prepare tablet.mutations ≠ tablet.prepareCount
      ∨ countPhase .cleanup tablet.mutations ≠ tablet.cleanupCount
      ∨ tablet.prepareCount + tablet.cleanupCount ≠ tablet.mutationCount
      ∨ tablet.mutations.any (·.stagePhase = .publish) then
    throw (.outboxIntegrity
      s!"Index generation {generation} tablet {ordinal} has inconsistent bounds.")

end ContextStore
