import ContextStore.Outbox.Steps

/-! # The transactions of an index worker

Every action of every call of a worker is one of five kinds of steps: it manages a claim, it writes
the records of a stage or derived records, it publishes, or it removes a stage with the history
behind it; everything else only reads. The calls are walked through once, here; what a worker keeps
is then proved by cases on these steps. -/

namespace ContextStore

open Concurrent

variable (codec : PlanCodec)

/-- The records of a stage and the derived records. -/
def Key.Staging : Key → Prop
  | .outbox (.stage _) | .outbox (.stageTablet _ _) | .outbox (.stageApplied _ _)
  | .outbox (.stageReady _) | .derived _ => True
  | _ => False

/-- Only the records of stages and derived records have changed. -/
structure StagingOnly (u t : World) : Prop where
  frame : ∀ k : Key, ¬ k.Staging → t.get k = u.get k
  history : t.history = u.history

/-- What one action of a worker does. -/
inductive OutboxStep (u t : World) : Prop
  | state (h : StateStep u t)
  | staging (h : StagingOnly u t)
  | publication {claim : Claim} {state : OutboxState} {v : World}
      (hget : u.get (.outbox (.state claim.sequence)) = some state) (howned : OwnedBy state claim)
      (hcursor : cursorOf u = claim.sequence) (hstaging : StagingOnly u v)
      (hrecords : RecordsPublication claim state v t)
  | removal {generation retain outboxSequence : Nat}
      (h : RemovesStage generation retain outboxSequence u t)

theorem StagingOnly.refl (u : World) : StagingOnly u u := ⟨fun _ _ => rfl, rfl⟩

theorem StagingOnly.trans {u v t : World} (h₁ : StagingOnly u v) (h₂ : StagingOnly v t) :
    StagingOnly u t :=
  ⟨fun k hk => (h₂.frame k hk).trans (h₁.frame k hk), h₂.history.trans h₁.history⟩

theorem OutboxStep.refl (u : World) : OutboxStep u u := .staging (.refl u)

theorem Key.ne_of_staging {k k' : Key} (hk : k.Staging) (hk' : ¬ k'.Staging) : k' ≠ k :=
  fun h => hk' (h ▸ hk)

theorem stagingOnly_put {u : World} {k : Key} (v : k.Record) (hk : k.Staging) :
    StagingOnly u (u.put k v) :=
  ⟨fun _ hk' => World.get_put_of_ne (Key.ne_of_staging hk hk') _ _, rfl⟩

theorem stagingOnly_remove {u : World} {k : Key} (hk : k.Staging) : StagingOnly u (u.remove k) :=
  ⟨fun _ hk' => World.get_remove_of_ne (Key.ne_of_staging hk hk') _, rfl⟩

variable {claim : Claim} {u t : World}

theorem stagingOnly_putImmutable {k : Key} {v : k.Record} {status : PutStatus} (hk : k.Staging)
    (h : (Txn.putImmutable k v).run u = .ok (status, t)) : StagingOnly u t := by
  obtain ⟨hframe, hhistory, _⟩ := Txn.frame_of_putImmutable h
  exact ⟨fun k' hk' => hframe k' (Key.ne_of_staging hk hk'), hhistory⟩

theorem AppliesMutations.stagingOnly {mutations : List SerializedMutation}
    (h : AppliesMutations mutations u t) : StagingOnly u t :=
  ⟨fun k hk => h.frame k fun _ heq => hk (heq ▸ trivial), h.history⟩

/-! ## Staging and applying -/

theorem always_underClaim {α : Type} {step : World → World → Prop} (hrefl : ∀ u, step u u)
    {write : Txn α}
    (h : ∀ u state a t, u.get (.outbox (.state claim.sequence)) = some state →
      OwnedBy state claim → write.run u = .ok (a, t) → step u t) :
    (underClaim claim write).Always step := by
  refine Program.Always.transaction hrefl fun u a t hrun => ?_
  obtain ⟨state, hget, howned, hwrite⟩ := run_underClaim hrun
  exact h u state a t hget howned hwrite

theorem always_underClaim_remove {k : Key} (hk : k.Staging) :
    (underClaim claim (Txn.remove k)).Always OutboxStep :=
  always_underClaim .refl fun u _ a t _ _ hrun => by
    rw [Txn.run_remove_eq_ok, Prod.mk.injEq] at hrun
    rw [← hrun.2]
    exact .staging (stagingOnly_remove hk)

theorem always_underClaim_putImmutable {k : Key} {v : k.Record} (hk : k.Staging) :
    (underClaim claim (Txn.putImmutable k v)).Always OutboxStep :=
  always_underClaim .refl fun _ _ _ _ _ _ hrun => .staging (stagingOnly_putImmutable hk hrun)

theorem always_clearPages {ordinals : World → List Nat} {key : Nat → Key}
    (hkey : ∀ ordinal, (key ordinal).Staging) (pages : Nat) :
    (clearPages claim ordinals key pages).Always OutboxStep := by
  induction pages with
  | zero => trivial
  | succ pages ih =>
    refine .bind (.read .refl _) fun page => ?_
    split
    · trivial
    · exact .bind (.forEach (fun ordinal => always_underClaim_remove (hkey ordinal)) page)
        fun _ => ih

theorem always_stageTabletRecords (claim : Claim) (plan : GenerationPlan) (pages : Nat) :
    (stageTabletRecords codec claim plan pages).Always OutboxStep := by
  unfold stageTabletRecords
  split
  · trivial
  · refine .bind (.require _ _) fun _ => .bind ?_ fun _ => .bind ?_ fun _ => .require _ _
    · exact .bind (always_clearPages (fun _ => by trivial) pages) fun _ =>
        .bind (always_clearPages (fun _ => by trivial) pages) fun _ =>
        always_underClaim_remove (by trivial)
    · refine .forEach (fun record => .bind (.ofExcept _) fun _ => ?_) _
      refine .bind ?_ fun _ => ?_
      · exact always_underClaim_putImmutable (by trivial)
      · trivial

theorem always_stageGeneration (claim : Claim) (plan : GenerationPlan) (pages : Nat) :
    (stageGeneration codec claim plan pages).Always OutboxStep := by
  refine .bind (.ofExcept _) fun _ => .bind (.ofExcept _) fun _ =>
    .bind (.read .refl _) fun existing => ?_
  split
  · exact .bind (.ofExcept _) fun _ => .bind (.require _ _) fun _ => trivial
  · exact .bind (always_stageTabletRecords codec claim plan pages) fun _ =>
      .bind (always_underClaim_putImmutable trivial) fun _ => trivial

theorem always_readStagedGeneration (generation sequence : Nat) :
    (readStagedGeneration codec generation sequence).Always OutboxStep :=
  .bind (.read .refl _) fun _ => .ofExcept _

theorem always_readStageTablet (plan : StagePlan) (generation sequence ordinal : Nat) :
    (readStageTablet codec plan generation sequence ordinal).Always OutboxStep := by
  refine .bind (.read .refl _) fun stored => ?_
  split
  · trivial
  · exact .bind (.ofExcept _) fun _ => trivial

theorem stagingOnly_applyTablet {plan : StagePlan} {ordinal : Nat} {tablet : Tablet}
    {outcome : TabletOutcome}
    (h : (applyTabletTransaction codec claim plan ordinal tablet).run u = .ok (outcome, t)) :
    StagingOnly u t := by
  obtain ⟨_, _, _, ⟨_, rfl⟩ | ⟨_, v, marker, happlied, rfl⟩⟩ := run_applyTabletTransaction_ok codec h
  · exact .refl t
  · exact happlied.stagingOnly.trans (stagingOnly_put _ trivial)

theorem always_applyTablet (claim : Claim) (plan : StagePlan) (progress : ApplyProgress)
    (ordinal : Nat) : (applyTablet codec claim plan progress ordinal).Always OutboxStep := by
  refine .bind (always_readStageTablet codec plan _ _ ordinal) fun tablet =>
    .bind (.transaction .refl fun _ _ _ hrun => .staging (stagingOnly_applyTablet codec hrun))
      fun outcome => ?_
  cases outcome <;> trivial

theorem always_applyGenerationTablets (claim : Claim) :
    (applyGenerationTablets codec claim).Always OutboxStep := by
  refine .bind (.ofExcept _) fun _ => .bind (always_readStagedGeneration codec _ _) fun plan => ?_
  split
  · trivial
  · refine .bind (.read .refl _) fun ready => ?_
    split
    · trivial
    · exact .bind (.foldl (always_applyTablet codec claim plan) _ _) fun progress =>
        .bind (.require _ _) fun _ =>
        .bind (always_underClaim_putImmutable trivial) fun _ => trivial

/-! ## Publishing, cleaning up and recovering -/

theorem outboxStep_publishTransaction {publishedAt : Nat} {publication : Publication}
    (h : (publishTransaction codec claim publishedAt).run u = .ok (publication, t)) :
    OutboxStep u t := by
  obtain ⟨state, plan, v, hget, howned, hcursor, _, _, happlied, hrecords⟩ :=
    run_publishTransaction_ok codec h
  exact .publication hget howned hcursor happlied.stagingOnly hrecords

theorem always_publishGeneration (claim : Claim) (publishedAt : Nat) :
    (publishGeneration codec claim publishedAt).Always OutboxStep :=
  .bind (.ofExcept _) fun _ => .bind (always_readStagedGeneration codec _ _) fun _ =>
    .transaction .refl fun _ _ _ hrun => outboxStep_publishTransaction codec hrun

theorem stagingOnly_cleanupTablet {generation ordinal : Nat} {plan : StagePlan} {tablet : Tablet}
    {r : Unit}
    (h : (cleanupTabletTransaction codec generation plan ordinal tablet).run u = .ok (r, t)) :
    StagingOnly u t := by
  obtain ⟨ready, v, _, _, happlied, rfl⟩ := run_cleanupTabletTransaction_ok codec h
  exact happlied.stagingOnly.trans <| (stagingOnly_remove (by trivial)).trans <|
    (stagingOnly_remove (by trivial)).trans (stagingOnly_put _ (by trivial))

theorem always_cleanupTablets (generation sequence : Nat) (stored : Option StagePlan) :
    (cleanupTablets codec generation sequence stored).Always OutboxStep := by
  unfold cleanupTablets
  split
  · trivial
  · split
    · trivial
    · exact .bind (.ofExcept _) fun _ => .bind (.read .refl _) fun ready =>
        .bind (.require _ _) fun _ => .forEach (fun ordinal =>
          .bind (always_readStageTablet codec _ _ _ ordinal) fun tablet =>
            .transaction .refl fun _ _ _ hrun =>
              .staging (stagingOnly_cleanupTablet codec hrun)) _

theorem always_cleanupPublishedStage (generation : Nat) (retainPublications : Option Nat) :
    (cleanupPublishedStage codec generation retainPublications).Always OutboxStep := by
  refine .bind (.ofExcept _) fun _ => .bind (.ofExcept _) fun retain =>
    .bind (.read .refl _) fun stored => ?_
  split
  · trivial
  · exact .bind (.read .refl _) fun storedPlan =>
      .bind (always_cleanupTablets codec _ _ storedPlan) fun _ =>
        .transaction .refl fun _ _ _ hrun => .removal (run_removeStage_ok hrun)

theorem always_recoverOutbox (now limit : Nat) (retainPublications : Option Nat) :
    (recoverOutbox codec now limit retainPublications).Always OutboxStep := by
  refine .bind (.require _ _) fun _ => .bind (.read .refl _) fun states =>
    .bind (.foldl (fun recovered record => ?_) _ _) fun recoveredClaims =>
    .bind (.read .refl _) fun stages =>
    .bind (.foldl (fun cleaned generation => ?_) _ _) fun cleanedStages => trivial
  · refine .bind (.ofExcept _) fun state => ?_
    split
    · trivial
    · exact .bind (.transaction .refl fun _ _ _ hrun => .state (stateStep_recoverClaim hrun))
        fun _ => trivial
  · refine .bind (.read .refl _) fun published => ?_
    split
    · exact .bind (always_cleanupPublishedStage codec _ _) fun _ => trivial
    · trivial

/-- The calls of an index worker, with any arguments: claims, plans and clock values are arbitrary,
    so a worker may also act on a claim it has lost. -/
inductive OutboxCall : Prog Unit → Prop
  | claimNext (options : ClaimOptions) : OutboxCall (claimNextOutbox options).void
  | renew (claim : Claim) (now : Nat) (leaseMs : Option Nat) :
      OutboxCall (renewOutboxClaim claim now leaseMs).void
  | release (claim : Claim) (error : Option ErrorDetails) (now : Nat) :
      OutboxCall (releaseOutboxClaim claim error now).void
  | stage (claim : Claim) (plan : GenerationPlan) (pages : Nat) :
      OutboxCall (stageGeneration codec claim plan pages).void
  | apply (claim : Claim) : OutboxCall (applyGenerationTablets codec claim).void
  | publish (claim : Claim) (publishedAt : Nat) :
      OutboxCall (publishGeneration codec claim publishedAt).void
  | cleanup (generation : Nat) (retainPublications : Option Nat) :
      OutboxCall (cleanupPublishedStage codec generation retainPublications).void
  | recover (now limit : Nat) (retainPublications : Option Nat) :
      OutboxCall (recoverOutbox codec now limit retainPublications).void

theorem always_stateSteps {α : Type} {p : Prog α} (h : p.Always StateStep) : p.Always OutboxStep :=
  h.imp fun _ _ => .state

theorem OutboxCall.always {p : Prog Unit} (h : OutboxCall codec p) : p.Always OutboxStep := by
  cases h with
  | claimNext options => exact (always_stateSteps (always_claimNextOutbox options)).void
  | renew claim now leaseMs =>
    exact (always_stateSteps (always_renewOutboxClaim claim now leaseMs)).void
  | release claim error now =>
    exact (always_stateSteps (always_releaseOutboxClaim claim error now)).void
  | stage claim plan pages => exact (always_stageGeneration codec claim plan pages).void
  | apply claim => exact (always_applyGenerationTablets codec claim).void
  | publish claim publishedAt => exact (always_publishGeneration codec claim publishedAt).void
  | cleanup generation retain => exact (always_cleanupPublishedStage codec generation retain).void
  | recover now limit retain => exact (always_recoverOutbox codec now limit retain).void

end ContextStore
