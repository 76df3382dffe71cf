import ContextStore.Outbox.Ordering

/-! # Waiting for the publication of one sequence

An index worker drains the outbox: it processes entry after entry until it finds none, another
worker, its limit or its deadline. The daemon's `publishIndexSequence` awaits drains until a given
sequence has been published, and retention awaits it for the index delete of a document before it
removes what the index delete needs.

Whether a sequence has been published stands in two places. Its state record says so until bounded
history removes it, and the cursor says so for ever. `isOutboxSequenceProcessed` reads both;
`publishIndexSequence` reads the state record alone. -/

namespace ContextStore

open Concurrent

variable (codec : PlanCodec)

/-! ## Draining -/

/-- The handlers of a worker: they prepare the plan of a claimed entry from a read-only view. -/
structure IndexHandlers where
  prepare : Claim → Prog GenerationPlan
  readOnly : ∀ claim, (prepare claim).Always fun u t => t = u

/-- A worker with its clock, which is read once for each entry, and the pages that clearing an
    unfinished stage may take. -/
structure IndexWorker where
  workerId : String
  leaseMs : Option Nat
  handlers : IndexHandlers
  clock : Nat → Nat
  pages : Nat

def serializeError (error : StoreError) : ErrorDetails where
  name := "Error"
  code := error.code
  message := ""

/-- The stage of the claimed generation, when there is one. -/
def findStagedGeneration (claim : Claim) : Prog (Option StagePlan) := do
  Program.ofExcept (validateClaim claim)
  let stored ← Program.read (·.get (.outbox (.stage claim.generation)))
  match stored with
  | none => return none
  | some plan => do
    Program.ofExcept (validateStage codec plan claim.generation claim.sequence)
    return some plan

def stageClaim (worker : IndexWorker) (claim : Claim) : Option StagePlan → Prog Unit
  | some _ => return ()
  | none => do
    let plan ← worker.handlers.prepare claim
    let _ ← stageGeneration codec claim plan worker.pages
    return ()

def processClaim (worker : IndexWorker) (claim : Claim) (now : Nat) : Prog Publication := do
  let staged ← findStagedGeneration codec claim
  stageClaim codec worker claim staged
  let _ ← applyGenerationTablets codec claim
  let publication ← publishGeneration codec claim now
  let _ ← cleanupPublishedStage codec claim.generation none
  return publication

/-- Process the entry at the cursor; without an entry to claim, nothing. A claim that fails is
    released for its replay. -/
def processNext (worker : IndexWorker) (now : Nat) : Prog (Option Publication) := do
  let outcome ← claimNextOutbox { workerId := worker.workerId, now, leaseMs := worker.leaseMs }
  match outcome with
  | .claimed claim _ => do
    let publication ← (processClaim codec worker claim now).tryCatch fun error => do
      let _ ← releaseOutboxClaim claim (some (serializeError error)) now
      Program.fail error
    return some publication
  | _ => return none

inductive DrainTerminal where
  | limit
  | deadline
  /-- Nothing was there to claim, or another worker has claimed it. -/
  | idle

structure DrainResult where
  processed : Nat
  terminal : DrainTerminal

/-- Process entries up to a limit and a deadline; an error ends the drain. -/
def drainEntries (worker : IndexWorker) (deadline : Nat) : Nat → Nat → Prog DrainResult
  | 0, processed => return { processed, terminal := .limit }
  | limit + 1, processed =>
    if deadline ≤ worker.clock processed then return { processed, terminal := .deadline }
    else do
      let publication ← processNext codec worker (worker.clock processed)
      match publication with
      | none => return { processed, terminal := .idle }
      | some _ => drainEntries worker deadline limit (processed + 1)

/-- `IndexWorker.drain`, recovering first what a terminated daemon left. -/
def drain (worker : IndexWorker) (initialized : Bool) (limit deadline : Nat) :
    Prog DrainResult := do
  if initialized then drainEntries codec worker deadline limit 0
  else do
    let _ ← recoverOutbox codec (worker.clock 0) defaultOutboxScanLimit none
    drainEntries codec worker deadline limit 0

/-- What awaiting `drainIndex` is for its caller: the drain it starts, or only the result of the
    one that is running already. -/
inductive AwaitsDrain : Prog Unit → Prop
  | started (worker : IndexWorker) (initialized : Bool) (limit deadline : Nat) :
      AwaitsDrain (drain codec worker initialized limit deadline).void
  | joined (result : Except StoreError Unit) : AwaitsDrain (.done result)

/-! ## Publishing a sequence -/

/-- Whether the state record of a sequence says that it has been published. -/
def stateProcessed (state : Option OutboxState) : Bool :=
  state.any fun state => state.status = .processed

/-- Up to `waves` drains, each after a look at the state record. -/
def publishWaves (drainIndex : Nat → Prog Unit) (sequence : Nat) : Nat → Prog Bool
  | 0 => do
    let state ← Prog.get (.outbox (.state sequence))
    return stateProcessed state
  | waves + 1 => do
    let state ← Prog.get (.outbox (.state sequence))
    if stateProcessed state then return true
    else do
      drainIndex waves
      publishWaves drainIndex sequence waves

/-- `publishIndexSequence`; `publishIndexDelete` is the same. -/
def publishIndexSequence (drainIndex : Nat → Prog Unit) (sequence : Nat) : Prog Bool :=
  publishWaves drainIndex sequence 4

/-- Retention's `publishDelete` in the daemon, where it is given `publishIndexDelete`. What it
    returns as false is reported as a partial step. -/
def publishDelete (publishIndexDelete : Nat → Prog Bool) (sequence : Nat) : Prog Bool := do
  Program.require (0 < sequence)
    (.plain "A tombstoned document is missing its index-delete outbox sequence.")
  let published ← publishIndexDelete sequence
  if published then do
    let state ← Prog.get (.outbox (.state sequence))
    let state ← Program.ofExcept (normalizeState state sequence)
    if state.status = .processed then return true
    else do
      let cursor ← Prog.get (.outbox .cursor)
      let next ← Program.ofExcept (cursorSequence cursor)
      return decide (sequence < next)
  else return false

/-! ## What a drain does -/

variable {codec}

theorem always_findStagedGeneration (claim : Claim) :
    (findStagedGeneration codec claim).Always OutboxStep := by
  refine .bind (.ofExcept _) fun _ => .bind (.read .refl _) fun stored => ?_
  cases stored with
  | none => trivial
  | some plan => exact .bind (.ofExcept _) fun _ => trivial

theorem always_stageClaim (worker : IndexWorker) (claim : Claim) (staged : Option StagePlan) :
    (stageClaim codec worker claim staged).Always OutboxStep := by
  cases staged with
  | some plan => trivial
  | none =>
    refine .bind ((worker.handlers.readOnly claim).imp fun u t h => ?_) fun plan =>
      .bind (always_stageGeneration codec claim plan worker.pages) fun _ => trivial
    rw [h]
    exact .refl u

theorem always_processClaim (worker : IndexWorker) (claim : Claim) (now : Nat) :
    (processClaim codec worker claim now).Always OutboxStep :=
  .bind (always_findStagedGeneration claim) fun staged =>
    .bind (always_stageClaim worker claim staged) fun _ =>
    .bind (always_applyGenerationTablets codec claim) fun _ =>
    .bind (always_publishGeneration codec claim now) fun _ =>
    .bind (always_cleanupPublishedStage codec _ none) fun _ => trivial

theorem always_processNext (worker : IndexWorker) (now : Nat) :
    (processNext codec worker now).Always OutboxStep := by
  refine .bind (always_stateSteps (always_claimNextOutbox _)) fun outcome => ?_
  cases outcome with
  | idle => trivial
  | busy => trivial
  | claimed claim state =>
    refine .bind (.tryCatch (always_processClaim worker claim now) fun error => ?_) fun _ => trivial
    exact .bind (always_stateSteps (always_releaseOutboxClaim claim _ now)) fun _ => trivial

theorem always_drainEntries (worker : IndexWorker) (deadline limit processed : Nat) :
    (drainEntries codec worker deadline limit processed).Always OutboxStep := by
  induction limit generalizing processed with
  | zero => trivial
  | succ limit ih =>
    unfold drainEntries
    split
    · trivial
    · refine .bind (always_processNext worker _) fun publication => ?_
      cases publication with
      | none => trivial
      | some publication => exact ih (processed + 1)

theorem always_drain (worker : IndexWorker) (initialized : Bool) (limit deadline : Nat) :
    (drain codec worker initialized limit deadline).Always OutboxStep := by
  unfold drain
  split
  · exact always_drainEntries worker deadline limit 0
  · exact .bind (always_recoverOutbox codec _ _ none) fun _ =>
      always_drainEntries worker deadline limit 0

theorem AwaitsDrain.always {p : Prog Unit} (h : AwaitsDrain codec p) : p.Always OutboxStep := by
  cases h with
  | started worker initialized limit deadline =>
    exact (always_drain worker initialized limit deadline).void
  | joined result => trivial

/-! ## A removed state record stays removed -/

/-- The sequence lies behind the cursor and its state record has been removed. -/
structure Pruned (sequence : Nat) (w : World) : Prop where
  ordered : Ordered w
  behind : sequence < cursorOf w
  removed : w.get (.outbox (.state sequence)) = none

variable {sequence : Nat} {drainIndex : Nat → Prog Unit} {w : World}

theorem OutboxStep.pruned {u t : World} (h : OutboxStep u t) (hu : Pruned sequence u) :
    Pruned sequence t := by
  obtain ⟨ht, hle, _⟩ := h.orderStep hu.ordered
  refine ⟨ht, lt_of_lt_of_le hu.behind hle, ?_⟩
  have hne : sequence ≠ cursorOf u := Nat.ne_of_lt hu.behind
  cases h with
  | staging h => rw [h.frame _ id, hu.removed]
  | removal h =>
    cases hget : t.get (.outbox (.state sequence)) with
    | none => rfl
    | some state =>
      have hold := h.states_of_some sequence state hget
      rw [hu.removed] at hold
      cases hold
  | publication _ _ hcursor hstaging hrecords =>
    rw [hrecords.frame _ (by simp) (by simp) (by simp) (by simp)
      (by simpa [← hcursor] using hne), hstaging.frame _ id, hu.removed]
  | state h =>
    cases h with
    | same h => rw [h, hu.removed]
    | claim _ _ hwrites =>
      rw [hwrites.frame _ (by simpa using hne) (by simp), hu.removed]
    | update hget hstatus hwrites =>
      -- the state that changes is the cursor's
      have hcursor := cursor_of_unprocessed hget (by simp [hstatus]) hu.ordered
      rw [hwrites.frame _ (by simpa [hcursor] using hne) (by simp), hu.removed]

/-! ## When a published sequence is reported as published -/

/-- The call looks once, changes nothing, and reports the sequence as published. -/
def ReportsAtOnce (p : Prog Bool) (w : World) : Prop :=
  ∃ next, p = .atomic id next ∧ next w = .done (.ok true)

theorem stateProcessed_iff_stored (hw : Ordered w) (hpublished : sequence < cursorOf w) :
    stateProcessed (w.get (.outbox (.state sequence))) = true ↔
      (w.get (.outbox (.state sequence))).isSome := by
  cases hget : w.get (.outbox (.state sequence)) with
  | none => simp [stateProcessed]
  | some state =>
    have hprocessed : state.status = .processed := by
      by_contra hne
      have hcursor := cursor_of_unprocessed hget hne hw
      omega
    simp [stateProcessed, hprocessed]

theorem publishWaves_succ (drainIndex : Nat → Prog Unit) (sequence waves : Nat) :
    publishWaves drainIndex sequence (waves + 1) = .atomic id fun w =>
      if stateProcessed (w.get (.outbox (.state sequence))) then .done (.ok true)
      else (drainIndex waves).bind fun _ => publishWaves drainIndex sequence waves := rfl

/-- A sequence whose state record has been removed is never reported, whatever the drains do. -/
theorem publishWaves_pruned (hdrain : ∀ wave, AwaitsDrain codec (drainIndex wave)) (waves : Nat)
    (hw : Pruned sequence w) :
    ((publishWaves drainIndex sequence waves).runAlone w).1 ≠ .ok true := by
  induction waves generalizing w with
  | zero =>
    simp [publishWaves, Prog.get, Program.read, Program.bind, Program.runAlone, hw.removed,
      stateProcessed]
  | succ waves ih =>
    rw [publishWaves_succ]
    simp only [Program.runAlone, id_eq, hw.removed, stateProcessed, Option.any_none,
      Bool.false_eq_true, if_false]
    rw [Program.runAlone_bind]
    have hafter : Pruned sequence ((drainIndex waves).runAlone w).2 :=
      (hdrain waves).always.runAlone_invariant (fun _ _ hu h => h.pruned hu) hw
    split
    · next result t heq =>
      rw [heq] at hafter
      exact ih hafter
    · simp

/-- Awaiting a drain and looking again is never a result by itself. -/
theorem publishWaves_ne_done (drainIndex : Nat → Prog Unit) (sequence waves : Nat)
    (r : Except StoreError Bool) : publishWaves drainIndex sequence waves ≠ .done r := by
  cases waves with
  | zero => exact fun h => by cases h
  | succ waves =>
    rw [publishWaves_succ]
    exact fun h => by cases h

theorem bind_publishWaves_ne_ok (p : Prog Unit) (drainIndex : Nat → Prog Unit)
    (sequence waves : Nat) (b : Bool) :
    (p.bind fun _ => publishWaves drainIndex sequence waves) ≠ .done (.ok b) := by
  cases p with
  | atomic act next => exact fun h => by cases h
  | done r =>
    cases r with
    | error e => exact fun h => by cases h
    | ok _ => exact publishWaves_ne_done drainIndex sequence waves _

theorem reportsAtOnce_iff (drainIndex : Nat → Prog Unit) (sequence : Nat) (w : World) :
    ReportsAtOnce (publishIndexSequence drainIndex sequence) w ↔
      stateProcessed (w.get (.outbox (.state sequence))) = true := by
  constructor
  · rintro ⟨next, hp, hnext⟩
    rw [publishIndexSequence, publishWaves_succ] at hp
    obtain ⟨-, rfl⟩ := Program.atomic.inj hp
    by_contra hfalse
    simp only [if_neg hfalse] at hnext
    exact bind_publishWaves_ne_ok _ _ _ _ _ hnext
  · intro hprocessed
    exact ⟨_, publishWaves_succ drainIndex sequence 3, by simp [hprocessed]⟩

theorem runAlone_publishDelete {publish : Nat → Prog Bool} (hpos : 0 < sequence) (w : World) :
    (publishDelete publish sequence).runAlone w =
      ((publish sequence).bind fun published =>
        if published then do
          let state ← Prog.get (.outbox (.state sequence))
          let state ← Program.ofExcept (normalizeState state sequence)
          if state.status = .processed then return true
          else do
            let cursor ← Prog.get (.outbox .cursor)
            let next ← Program.ofExcept (cursorSequence cursor)
            return decide (sequence < next)
        else return false).runAlone w := by
  unfold publishDelete
  rw [show (Program.require (0 < sequence) _ : Prog Unit) = .done (.ok ()) from if_pos hpos]
  rfl

/-- A retention step goes on exactly when the state record still says that the delete has been
    published. -/
theorem publishDelete_ok_iff (hdrain : ∀ wave, AwaitsDrain codec (drainIndex wave))
    (hpos : 0 < sequence) (hw : Ordered w) (hbehind : sequence < cursorOf w) :
    ((publishDelete (publishIndexSequence drainIndex) sequence).runAlone w).1 = .ok true ↔
      (w.get (.outbox (.state sequence))).isSome := by
  rw [runAlone_publishDelete hpos, Program.runAlone_bind]
  cases hget : w.get (.outbox (.state sequence)) with
  | none =>
    have hnever := publishWaves_pruned hdrain 4 ⟨hw, hbehind, hget⟩
    have hfalse : ∀ b t, (publishIndexSequence drainIndex sequence).runAlone w = (.ok b, t) →
        b = false := by
      intro b t heq
      have heq' : (publishWaves drainIndex sequence 4).runAlone w = (.ok b, t) := heq
      rw [heq'] at hnever
      simpa using hnever
    split
    · next b t heq =>
      obtain rfl := hfalse b t heq
      simp
    · simp
  | some state =>
    have hprocessed := (stateProcessed_iff_stored hw hbehind).mpr (by simp [hget])
    have hreports : (publishIndexSequence drainIndex sequence).runAlone w = (.ok true, w) := by
      rw [publishIndexSequence, publishWaves_succ]
      simp [Program.runAlone, hprocessed]
    have hfits := hw.states _ _ hget
    have hstatus : state.status = .processed := by
      simpa [stateProcessed, hget] using hprocessed
    rw [hreports]
    simp [Prog.get, Program.read, Program.bind, Program.runAlone, hget, normalizeState, hfits.1,
      hfits.2.1, Program.ofExcept, hstatus]

/-- Of the published sequences exactly those whose state record is still stored are reported as
    published at once, and let a retention step go on. -/
theorem published_sequence_reported_iff (τ : Type) [DecidableEq τ] (n : Nat)
    {c : Config World τ StoreError Unit} (hc : Reachable (outboxSystem codec τ n) c)
    {drainIndex : Nat → Prog Unit} (hdrain : ∀ wave, AwaitsDrain codec (drainIndex wave))
    {sequence : Nat} (hpublished : sequence ∈ publishedSequences c.shared.history) :
    (ReportsAtOnce (publishIndexSequence drainIndex sequence) c.shared ↔
      (c.shared.get (.outbox (.state sequence))).isSome) ∧
    (((publishDelete (publishIndexSequence drainIndex) sequence).runAlone c.shared).1 = .ok true ↔
      (c.shared.get (.outbox (.state sequence))).isSome) := by
  have hordered : Ordered c.shared := Discipline.invariant (orderDiscipline_covers codec τ n) hc
  rw [hordered.published, List.mem_range'_1] at hpublished
  have hbehind : sequence < cursorOf c.shared := by omega
  refine ⟨?_, publishDelete_ok_iff hdrain (by omega) hordered hbehind⟩
  rw [reportsAtOnce_iff, stateProcessed_iff_stored hordered hbehind]

/-! ## One run -/

def sampleEntry2 : OutboxEntry where
  operation := some "index"
  documentId := some "doc"
  documentVersion := some 2
  sequence := 2

/-- Two entries, not yet claimed. -/
def sampleWorld2 : World where
  store := ((KeyValue.Store.empty.put (.counter .outbox) (2 : Nat)).put (.outbox (.entry 1))
    sampleEntry).put (.outbox (.entry 2)) sampleEntry2
  uuids := 0
  history := []

def sampleClaim2 : Claim where
  sequence := 2
  generation := 2
  operation := "index"
  claimToken := ⟨1⟩
  workerId := "worker"
  entry := sampleEntry2

def samplePlan2 : GenerationPlan :=
  sealPlan sampleCodec {
    stageVersion := indexStageVersion
    generation := 2
    outboxSequence := 2
    operation := "index"
    documentId := some "doc"
    documentVersion := some 2
    sourceVersion := none
    handlers := []
    mutationCount := 1
    mutationBytes := 1
    mode := .atomic [⟨"k", .prepare, .put false "posting/2/1"⟩] } []

/-- Both entries are published, and cleaning up behind the second one keeps one publication. -/
def prunedMoves : List (Move World Unit StoreError Unit) :=
  [.start () (claimNextOutbox { workerId := "worker", now := 10 }).void, .advance (),
    .start () (stageGeneration sampleCodec sampleClaim samplePlan 1).void, .advance (),
    .advance (), .start () (publishGeneration sampleCodec sampleClaim 20).void, .advance (),
    .advance (), .start () (claimNextOutbox { workerId := "worker", now := 30 }).void, .advance (),
    .start () (stageGeneration sampleCodec sampleClaim2 samplePlan2 1).void, .advance (),
    .advance (), .start () (publishGeneration sampleCodec sampleClaim2 40).void, .advance (),
    .advance (), .start () (cleanupPublishedStage sampleCodec 2 (some 1)).void, .advance (),
    .advance (), .advance ()]

def prunedRun : Config World Unit StoreError Unit :=
  Config.playAll ⟨sampleWorld2, fun _ => none⟩ prunedMoves

theorem sampleWorld2_holdsSequences : HoldsSequences 2 sampleWorld2 := by
  have hother : ∀ k : OutboxKey, k ≠ .entry 1 → k ≠ .entry 2 →
      sampleWorld2.get (.outbox k) = none := fun k h₁ h₂ =>
    (KeyValue.Store.get_put_of_ne (by simpa using h₂) _ _).trans <|
      (KeyValue.Store.get_put_of_ne (by simpa using h₁) _ _).trans
        (KeyValue.Store.get_put_of_ne (by simp) _ _)
  refine ⟨?_, rfl, fun k hk => hother k (hk 1) (hk 2), rfl⟩
  intro sequence
  constructor
  · rintro ⟨entry, hget, -⟩
    by_contra h
    rw [hother _ (by simp; omega) (by simp; omega)] at hget
    cases hget
  · rintro ⟨hlow, hhigh⟩
    obtain rfl | rfl : sequence = 1 ∨ sequence = 2 := by omega
    · exact ⟨sampleEntry, rfl, rfl⟩
    · exact ⟨sampleEntry2, rfl, rfl⟩

theorem prunedRun_reachable : Reachable (outboxSystem sampleCodec Unit 2) prunedRun := by
  refine .playAll (.initial sampleWorld2_holdsSequences)
    (Config.playable_of_calls (fun _ => trivial) (fun t p hp s => ?_) _)
  simp only [prunedMoves, List.mem_cons, Move.start.injEq, reduceCtorEq, false_or, or_false,
    List.not_mem_nil] at hp
  rcases hp with ⟨_, rfl⟩ | ⟨_, rfl⟩ | ⟨_, rfl⟩ | ⟨_, rfl⟩ | ⟨_, rfl⟩ | ⟨_, rfl⟩ | ⟨_, rfl⟩
  · exact .claimNext _
  · exact .stage _ _ _
  · exact .publish _ _
  · exact .claimNext _
  · exact .stage _ _ _
  · exact .publish _ _
  · exact .cleanup _ _

/-- A worker whose handlers plan nothing new. -/
def idleWorker : IndexWorker where
  workerId := "retention"
  leaseMs := none
  handlers := ⟨fun _ => .done (.error (.plain "nothing to prepare")), fun _ => trivial⟩
  clock := fun _ => 50
  pages := 1

def idleDrain : Prog Unit := (drain sampleCodec idleWorker true 10 60).void

/-- After the run both sequences are published. The second is reported at once; the first one, whose
    state record is gone, is drained for four times over an empty outbox and reported as not
    published, and a retention step on it as partial. -/
theorem published_sequence_unreported :
    Reachable (outboxSystem sampleCodec Unit 2) prunedRun ∧
    (∀ wave : Nat, AwaitsDrain sampleCodec ((fun _ => idleDrain) wave)) ∧
    1 ∈ publishedSequences prunedRun.shared.history ∧
    (isOutboxSequenceProcessed 1).run prunedRun.shared = .ok (true, prunedRun.shared) ∧
    ¬ ReportsAtOnce (publishIndexSequence (fun _ => idleDrain) 1) prunedRun.shared ∧
    ((publishIndexSequence (fun _ => idleDrain) 1).runAlone prunedRun.shared).1 = .ok false ∧
    ((publishDelete (publishIndexSequence fun _ => idleDrain) 1).runAlone prunedRun.shared).1 =
      .ok false := by
  have hordered : Ordered prunedRun.shared :=
    Discipline.invariant (orderDiscipline_covers sampleCodec Unit 2) prunedRun_reachable
  refine ⟨prunedRun_reachable, fun _ => .started _ _ _ _, by decide +kernel, ?_, ?_,
    by decide +kernel, by decide +kernel⟩
  · rw [hordered.isOutboxSequenceProcessed]
    exact congrArg _ (congrArg (·, _) (by decide +kernel))
  · rw [reportsAtOnce_iff]
    decide +kernel

/-- The second sequence of the run is reported at once. -/
theorem published_sequence_reported_iff_prunedRun :
    ReportsAtOnce (publishIndexSequence (fun _ => idleDrain) 2) prunedRun.shared ∧
    ((publishDelete (publishIndexSequence fun _ => idleDrain) 2).runAlone prunedRun.shared).1 =
      .ok true := by
  have h := published_sequence_reported_iff Unit 2 prunedRun_reachable
    (fun _ => .started idleWorker true 10 60 : ∀ _ : Nat, AwaitsDrain sampleCodec idleDrain)
    (by decide +kernel : 2 ∈ publishedSequences prunedRun.shared.history)
  have hstored : (prunedRun.shared.get (.outbox (.state 2))).isSome := by decide +kernel
  exact ⟨h.1.mpr hstored, h.2.mpr hstored⟩

end ContextStore
