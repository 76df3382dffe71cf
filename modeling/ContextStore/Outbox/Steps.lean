import ContextStore.Outbox.PlanFacts
import ContextStore.Outbox.Worker

/-! # What one transaction of a worker does

One lemma per transaction: what it read to come to its writes, and what it wrote. The transactions
that only manage claims write one state record (`StateStep`); the ones that apply mutations write
the derived keyspace and the records of the stage (`AppliesMutations`). The two developments over
the outbox, the order of the publications and the course of one generation, both start from
here. -/

namespace ContextStore

open Concurrent KeyedUpdates
open Transaction (run_bind_eq_ok run_pure_eq_ok run_ofExcept_eq_ok run_require_eq_ok run_ite)
open World (get_put_of_ne get_remove_of_ne)

variable (codec : PlanCodec)

/-! ## Reading -/

/-- The sequence the durable cursor stands at; without a cursor record it is 1. -/
def cursorOf (w : World) : Nat :=
  match w.get (.outbox .cursor) with
  | none => 1
  | some cursor => cursor.nextSequence

variable {u t : World} {plan : StagePlan} {state : OutboxState} {claim : Claim}
  {publication : Publication} {r : Unit} {sequence : Nat}

theorem cursorOf_eq_of_get (h : t.get (.outbox .cursor) = u.get (.outbox .cursor)) :
    cursorOf t = cursorOf u := by
  simp only [cursorOf, h]

theorem cursorOf_of_get {w : World} {cursor : OutboxCursor}
    (h : w.get (.outbox .cursor) = some cursor) : cursorOf w = cursor.nextSequence := by
  simp only [cursorOf, h]

theorem cursorSequence_eq_ok {w : World}
    (h : cursorSequence (w.get (.outbox .cursor)) = .ok sequence) : sequence = cursorOf w := by
  unfold cursorSequence at h
  unfold cursorOf
  split at h
  · next hnone => rw [hnone]; cases h; rfl
  · next cursor hsome =>
    rw [hsome]
    split at h
    · cases h
    · cases h; rfl

theorem normalizeState_eq_ok {stored : Option OutboxState}
    (h : normalizeState stored sequence = .ok state) :
    state.stateVersion = outboxStateVersion ∧ state.sequence = sequence ∧
      (stored = some state ∨ (stored = none ∧ state.status = .pending)) := by
  unfold normalizeState at h
  split at h
  · cases h
    exact ⟨rfl, rfl, Or.inr ⟨rfl, rfl⟩⟩
  · split at h
    · cases h
    · next hwf =>
      cases h
      rw [not_or, not_not, not_not] at hwf
      exact ⟨hwf.1, hwf.2, Or.inl rfl⟩

theorem checkStagedGeneration_eq_ok {generation : Nat} {stored : Option StagePlan}
    (h : checkStagedGeneration codec generation sequence stored = .ok plan) :
    stored = some plan := by
  unfold checkStagedGeneration at h
  cases stored with
  | none => cases h
  | some found =>
    obtain ⟨_, _, heq⟩ := bind_ok_iff.mp h
    exact congrArg some (Except.ok.inj heq)

theorem run_assertClaimOwner_eq_ok {p : OutboxState × World} :
    (assertClaimOwner claim).run u = .ok p ↔
      u.get (.outbox (.state claim.sequence)) = some p.1 ∧ OwnedBy p.1 claim ∧ u = p.2 := by
  obtain ⟨state, t⟩ := p
  simp only [assertClaimOwner, run_bind_eq_ok, Txn.run_get_eq_ok, Prod.mk.injEq]
  constructor
  · rintro ⟨stored, v, ⟨hstored, rfl⟩, h⟩
    cases stored with
    | none => simp at h
    | some found =>
      by_cases howned : OwnedBy found claim
      · simp only [if_pos howned, run_pure_eq_ok, Prod.mk.injEq] at h
        obtain ⟨rfl, rfl⟩ := h
        exact ⟨hstored, howned, rfl⟩
      · simp [howned] at h
  · rintro ⟨hstored, howned, rfl⟩
    exact ⟨some state, u, ⟨hstored, rfl⟩, by simp [howned]⟩

theorem run_underClaim {α : Type} {write : Txn α} {a : α}
    (h : (do let _ ← assertClaimOwner claim; write : Txn α).run u = .ok (a, t)) :
    ∃ state, u.get (.outbox (.state claim.sequence)) = some state ∧ OwnedBy state claim ∧
      write.run u = .ok (a, t) := by
  simp only [run_bind_eq_ok, run_assertClaimOwner_eq_ok] at h
  obtain ⟨state, v, ⟨hget, howned, hv⟩, hwrite⟩ := h
  obtain rfl : u = v := hv
  exact ⟨state, hget, howned, hwrite⟩

/-! ## Claims -/

/-- One state record and at most a counter are written. -/
structure WritesState (u t : World) (sequence : Nat) (state : OutboxState) : Prop where
  written : t.get (.outbox (.state sequence)) = some state
  frame : ∀ k, k ≠ .outbox (.state sequence) → (∀ name, k ≠ .counter name) → t.get k = u.get k
  history : t.history = u.history

theorem writesState_put : WritesState u (u.put (.outbox (.state sequence)) state) sequence state :=
  ⟨World.get_put_self _ _ _, fun _ hk _ => get_put_of_ne hk _ _, rfl⟩

/-- What a transaction that manages claims does: nothing, or a new claim for the cursor's sequence,
    or a change to a claim that is being processed. -/
inductive StateStep (u t : World) : Prop
  | same (h : t = u)
  | claim {state claimed : OutboxState}
      (hstate : normalizeState (u.get (.outbox (.state (cursorOf u)))) (cursorOf u) = .ok state)
      (hstatus : state.status ≠ .processed) (hwrites : WritesState u t (cursorOf u) claimed)
      (hversion : claimed.stateVersion = outboxStateVersion)
      (hsequence : claimed.sequence = cursorOf u) (hclaimed : claimed.status = .processing)
      (hgeneration : ∀ g, state.generation = some g → claimed.generation = some g)
      (htoken : claimed.claimToken = some ⟨u.uuids⟩) (huuids : t.uuids = u.uuids + 1)
  | update {sequence : Nat} {state updated : OutboxState}
      (hget : u.get (.outbox (.state sequence)) = some state)
      (hstatus : state.status = .processing) (hwrites : WritesState u t sequence updated)
      (hversion : updated.stateVersion = state.stateVersion ∨
        updated.stateVersion = outboxStateVersion)
      (hsequence : updated.sequence = state.sequence) (hupdated : updated.status ≠ .processed)
      (hgeneration : updated.generation = state.generation)
      (htoken : updated.claimToken = state.claimToken ∨ updated.claimToken = none)
      (huuids : t.uuids = u.uuids)

theorem StateStep.refl (u : World) : StateStep u u := .same rfl

theorem run_allocateGeneration_ok {generation : Nat}
    (h : (allocateGeneration state).run u = .ok (generation, t)) :
    (∀ g, state.generation = some g → generation = g) ∧
    (∀ k, (∀ name, k ≠ .counter name) → t.get k = u.get k) ∧ t.history = u.history ∧
      t.uuids = u.uuids := by
  unfold allocateGeneration at h
  split at h
  · next g hg =>
    simp only [run_pure_eq_ok, Prod.mk.injEq] at h
    obtain ⟨rfl, rfl⟩ := h
    exact ⟨fun g' hg' => Option.some.inj (hg.symm.trans hg'), fun _ _ => rfl, rfl, rfl⟩
  · next hg =>
    simp only [Txn.run_increment_eq_ok, Prod.mk.injEq] at h
    obtain ⟨_, _, rfl⟩ := h
    refine ⟨fun g' hg' => ?_, fun k hk => get_put_of_ne (hk _) _ _, rfl, rfl⟩
    rw [hg] at hg'
    cases hg'

theorem stateStep_issueClaim {entry : OutboxEntry} {workerId : String} {now leaseMs : Nat}
    {outcome : ClaimOutcome}
    (hstate : normalizeState (u.get (.outbox (.state (cursorOf u)))) (cursorOf u) = .ok state)
    (hstatus : state.status ≠ .processed)
    (h : (issueClaim (cursorOf u) entry state workerId now leaseMs).run u = .ok (outcome, t)) :
    StateStep u t := by
  simp only [issueClaim, run_bind_eq_ok, Txn.run_randomUUID_eq_ok,
    Txn.run_put_eq_ok, run_pure_eq_ok, Prod.mk.injEq] at h
  obtain ⟨generation, v, hgeneration, token, _, ⟨rfl, rfl⟩, _, _, ⟨_, rfl⟩, _, rfl⟩ := h
  obtain ⟨hkept, hframe, hhistory, huuids⟩ := run_allocateGeneration_ok hgeneration
  refine .claim hstate hstatus
    ⟨World.get_put_self _ _ _, fun k hk hcounter => ?_, hhistory⟩ rfl rfl rfl
    (fun g hg => by rw [← hkept g hg]) (by rw [← huuids])
    (by rw [World.uuids_put, huuids])
  rw [get_put_of_ne hk]
  exact hframe k hcounter

theorem stateStep_claimTransaction {workerId : String} {now leaseMs : Nat} {outcome : ClaimOutcome}
    (h : (claimTransaction workerId now leaseMs).run u = .ok (outcome, t)) : StateStep u t := by
  simp only [claimTransaction, run_bind_eq_ok, Txn.run_get_eq_ok,
    run_ofExcept_eq_ok, Prod.mk.injEq] at h
  obtain ⟨cursor, _, ⟨rfl, rfl⟩, sequence, v, ⟨hsequence, hv⟩, stored, _, ⟨rfl, rfl⟩, h⟩ := h
  obtain rfl : u = v := hv
  obtain rfl := cursorSequence_eq_ok hsequence
  split at h
  · simp only [run_bind_eq_ok, Txn.run_get_eq_ok, run_require_eq_ok,
      run_pure_eq_ok, Prod.mk.injEq] at h
    obtain ⟨_, _, ⟨_, rfl⟩, _, _, ⟨_, _, rfl⟩, _, rfl⟩ := h
    exact .refl u
  · simp only [run_bind_eq_ok, run_ofExcept_eq_ok, claimEntry,
      Txn.run_get_eq_ok, run_require_eq_ok, Prod.mk.injEq] at h
    obtain ⟨entry, v, ⟨_, hv⟩, _, _, ⟨rfl, rfl⟩, state, v', ⟨hstate, hv'⟩, _, _,
      ⟨hstatus, _, rfl⟩, h⟩ := h
    obtain rfl : u = v := hv
    obtain rfl : u = v' := hv'
    split at h
    · simp only [run_pure_eq_ok, Prod.mk.injEq] at h
      exact h.2 ▸ .refl u
    · exact stateStep_issueClaim hstate hstatus h

theorem always_claimNextOutbox (options : ClaimOptions) :
    (claimNextOutbox options).Always StateStep :=
  .bind (.ofExcept _) fun _ => .bind (.ofExcept _) fun _ =>
    .transaction .refl fun _ _ _ hrun => stateStep_claimTransaction hrun

theorem always_renewOutboxClaim (claim : Claim) (now : Nat) (leaseMs : Option Nat) :
    (renewOutboxClaim claim now leaseMs).Always StateStep := by
  refine .bind (.ofExcept _) fun _ => .bind (.ofExcept _) fun lease =>
    .transaction .refl fun u a t hrun => ?_
  simp only [run_bind_eq_ok, run_assertClaimOwner_eq_ok, Txn.run_put_eq_ok,
    run_pure_eq_ok, Prod.mk.injEq] at hrun
  obtain ⟨state, v, ⟨hget, howned, hv⟩, _, _, ⟨_, rfl⟩, _, rfl⟩ := hrun
  obtain rfl : u = v := hv
  exact .update hget howned.1 writesState_put (.inl rfl) rfl (by simp [howned.1]) rfl (.inl rfl) rfl

theorem always_releaseOutboxClaim (claim : Claim) (error : Option ErrorDetails) (now : Nat) :
    (releaseOutboxClaim claim error now).Always StateStep := by
  refine .bind (.ofExcept _) fun _ => .transaction .refl fun u a t hrun => ?_
  simp only [releaseTransaction, run_bind_eq_ok, Txn.run_get_eq_ok, Prod.mk.injEq] at hrun
  obtain ⟨stored, v, ⟨rfl, rfl⟩, hrun⟩ := hrun
  split at hrun
  · simp only [run_pure_eq_ok, Prod.mk.injEq] at hrun
    exact hrun.2 ▸ .refl u
  · split at hrun
    · simp only [run_pure_eq_ok, Prod.mk.injEq] at hrun
      exact hrun.2 ▸ .refl u
    · simp only [run_bind_eq_ok, run_assertClaimOwner_eq_ok, Txn.run_put_eq_ok,
        run_pure_eq_ok, Prod.mk.injEq] at hrun
      obtain ⟨state, v, ⟨hget, howned, hv⟩, _, _, ⟨_, rfl⟩, _, rfl⟩ := hrun
      obtain rfl : u = v := hv
      exact .update hget howned.1 writesState_put (.inr rfl) howned.2.1.symm (by simp)
        howned.2.2.1.symm (.inr rfl) rfl

theorem stateStep_recoverClaim {now : Nat} {changed : Bool}
    (h : (recoverClaim now sequence).run u = .ok (changed, t)) : StateStep u t := by
  simp only [recoverClaim, run_bind_eq_ok, Txn.run_get_eq_ok, Prod.mk.injEq] at h
  obtain ⟨stored, _, ⟨hstored, rfl⟩, h⟩ := h
  cases stored with
  | none =>
    simp only [run_pure_eq_ok, Prod.mk.injEq] at h
    exact h.2 ▸ .refl u
  | some current =>
    simp only [run_ite] at h
    split at h
    · simp only [run_pure_eq_ok, Prod.mk.injEq] at h
      exact h.2 ▸ .refl u
    · next hprocessing =>
      simp only [run_bind_eq_ok, Txn.run_put_eq_ok, run_pure_eq_ok, Prod.mk.injEq] at h
      obtain ⟨_, _, ⟨_, rfl⟩, _, rfl⟩ := h
      rw [ne_eq, not_not] at hprocessing
      exact .update hstored hprocessing writesState_put (.inl rfl) rfl (by simp) rfl (.inr rfl) rfl

/-! ## Mutations -/

/-- The derived keyspace. -/
def derivedOf (w : World) : String → Option String := fun text => w.get (.derived text)

/-- Mutations ran on the derived keyspace, and nothing else changed. -/
structure AppliesMutations (mutations : List SerializedMutation) (u t : World) : Prop where
  derived : runMutations (derivedOf u) mutations = some (derivedOf t)
  frame : ∀ k, (∀ text, k ≠ .derived text) → t.get k = u.get k
  history : t.history = u.history
  uuids : t.uuids = u.uuids

theorem derivedOf_put (u : World) (text record : String) :
    derivedOf (u.put (.derived text) record) = Function.update (derivedOf u) text (some record) := by
  funext k
  by_cases hk : k = text
  · subst hk
    rw [Function.update_self]
    exact World.get_put_self _ _ _
  · rw [Function.update_of_ne hk]
    exact get_put_of_ne (by simpa using hk) _ _

theorem derivedOf_remove (u : World) (text : String) :
    derivedOf (u.remove (.derived text)) = Function.update (derivedOf u) text none := by
  funext k
  by_cases hk : k = text
  · subst hk
    rw [Function.update_self]
    exact World.get_remove_self _ _
  · rw [Function.update_of_ne hk]
    exact get_remove_of_ne (by simpa using hk) _

theorem AppliesMutations.cons {m : SerializedMutation} {rest : List SerializedMutation}
    {v : World} (hm : apply mutationSemantics (derivedOf u) m = some (derivedOf v))
    (hframe : ∀ k, (∀ text, k ≠ .derived text) → v.get k = u.get k)
    (hhistory : v.history = u.history) (huuids : v.uuids = u.uuids)
    (h : AppliesMutations rest v t) : AppliesMutations (m :: rest) u t where
  derived := by simpa only [runMutations, applyAll_cons, hm, Option.bind_some] using h.derived
  frame := fun k hk => (h.frame k hk).trans (hframe k hk)
  history := h.history.trans hhistory
  uuids := h.uuids.trans huuids

/-- One mutation has the effect that its kind says. -/
theorem run_applySerializedMutation_ok {m : SerializedMutation}
    (h : (applySerializedMutation codec m).run u = .ok (r, t)) :
    apply mutationSemantics (derivedOf u) m = some (derivedOf t) ∧
    (∀ k, (∀ text, k ≠ .derived text) → t.get k = u.get k) ∧ t.history = u.history ∧
      t.uuids = u.uuids := by
  simp only [applySerializedMutation, run_bind_eq_ok, run_ofExcept_eq_ok] at h
  obtain ⟨key, v, ⟨hkey, hv⟩, h⟩ := h
  obtain rfl : u = v := hv
  have hkey' : key = m.key := by
    simp only [mutationKey] at hkey
    split at hkey
    · cases hkey
    · exact (Except.ok.inj hkey).symm
  subst hkey'
  cases hkind : m.kind with
  | remove =>
    simp only [hkind, Txn.run_remove_eq_ok, Prod.mk.injEq] at h
    obtain ⟨_, rfl⟩ := h
    exact ⟨by simp [apply, mutationSemantics, hkind, MutationKind.act, derivedOf_remove],
      fun k hk => get_remove_of_ne (hk _) _, rfl, rfl⟩
  | put immutable record =>
    cases immutable with
    | false =>
      simp only [hkind, Txn.run_put_eq_ok, Prod.mk.injEq] at h
      obtain ⟨_, rfl⟩ := h
      exact ⟨by simp [apply, mutationSemantics, hkind, MutationKind.act, derivedOf_put],
        fun k hk => get_put_of_ne (hk _) _ _, rfl, rfl⟩
    | true =>
      simp only [hkind, run_bind_eq_ok, run_pure_eq_ok, Prod.mk.injEq] at h
      obtain ⟨status, v, hput, _, rfl⟩ := h
      obtain ⟨hframe, hhistory, huuids⟩ := Txn.frame_of_putImmutable hput
      refine ⟨?_, fun k hk => hframe k (hk _), hhistory, huuids⟩
      rcases Txn.run_putImmutable_eq_ok.mp hput with ⟨hnone, heq⟩ | ⟨hsome, heq⟩
      · obtain ⟨rfl, rfl⟩ := Prod.mk.inj heq
        have hd : derivedOf u m.key = none := hnone
        simp [apply, mutationSemantics, hkind, MutationKind.act, hd, derivedOf_put]
      · obtain ⟨rfl, rfl⟩ := Prod.mk.inj heq
        have hd : derivedOf v m.key = some record := hsome
        have hsame : Function.update (derivedOf v) m.key (some record) = derivedOf v := by
          rw [← hd]
          exact Function.update_eq_self _ _
        simp [apply, mutationSemantics, hkind, MutationKind.act, hd, hsame]

theorem run_applyAll_ok {mutations : List SerializedMutation}
    (h : (Transaction.forEach (applySerializedMutation codec) mutations).run u = .ok (r, t)) :
    AppliesMutations mutations u t := by
  induction mutations generalizing u with
  | nil =>
    have h' : ((), u) = (r, t) := Transaction.run_pure_eq_ok.mp h
    obtain ⟨_, rfl⟩ := Prod.mk.inj h'
    exact ⟨rfl, fun _ _ => rfl, rfl, rfl⟩
  | cons m rest ih =>
    obtain ⟨_, v, hm, hrest⟩ := Transaction.run_bind_eq_ok.mp h
    obtain ⟨hact, hframe, hhistory, huuids⟩ := run_applySerializedMutation_ok codec hm
    exact .cons hact hframe hhistory huuids (ih hrest)

/-! ## Tablets -/

theorem run_applyTabletTransaction_ok {ordinal : Nat} {tablet : Tablet} {outcome : TabletOutcome}
    (h : (applyTabletTransaction codec claim plan ordinal tablet).run u = .ok (outcome, t)) :
    ∃ state, u.get (.outbox (.state claim.sequence)) = some state ∧ OwnedBy state claim ∧
      ((u.get (.outbox (.stageApplied claim.generation ordinal)) ≠ none ∧ t = u) ∨
      (u.get (.outbox (.stageApplied claim.generation ordinal)) = none ∧
        ∃ v marker, AppliesMutations (inPhase .prepare tablet.mutations) u v ∧
          t = v.put (.outbox (.stageApplied claim.generation ordinal)) marker)) := by
  simp only [applyTabletTransaction, run_bind_eq_ok, run_assertClaimOwner_eq_ok,
    Txn.run_get_eq_ok, Prod.mk.injEq] at h
  obtain ⟨state, v, ⟨hget, howned, hv⟩, marker, _, ⟨hmarker, rfl⟩, h⟩ := h
  obtain rfl : u = v := hv
  refine ⟨state, hget, howned, ?_⟩
  split at h
  · simp only [run_bind_eq_ok, run_require_eq_ok, run_pure_eq_ok, Prod.mk.injEq] at h
    obtain ⟨_, _, ⟨_, _, rfl⟩, _, rfl⟩ := h
    exact .inl ⟨by simp [hmarker], rfl⟩
  · simp only [run_bind_eq_ok, run_pure_eq_ok, Prod.mk.injEq] at h
    obtain ⟨_, v, happly, _, _, hput, _, rfl⟩ := h
    have happlied := run_applyAll_ok codec happly
    have hnone : v.get (.outbox (.stageApplied claim.generation ordinal)) = none :=
      (happlied.frame _ (by simp)).trans hmarker
    refine .inr ⟨hmarker, v, ?_⟩
    rcases Txn.run_putImmutable_eq_ok.mp hput with ⟨_, heq⟩ | ⟨hsome, _⟩
    · exact ⟨_, happlied, (Prod.mk.inj heq).2⟩
    · rw [hnone] at hsome
      cases hsome

theorem run_cleanupTabletTransaction_ok {generation ordinal : Nat} {tablet : Tablet}
    (h : (cleanupTabletTransaction codec generation plan ordinal tablet).run u = .ok (r, t)) :
    ∃ ready v, u.get (.outbox (.stageReady generation)) = some ready ∧
      ready.cleanupOrdinal.getD 0 = ordinal ∧
      AppliesMutations (inPhase .cleanup tablet.mutations) u v ∧
      t = ((v.remove (.outbox (.stageTablet generation ordinal))).remove
        (.outbox (.stageApplied generation ordinal))).put (.outbox (.stageReady generation))
          { ready with cleanupOrdinal := some (ordinal + 1) } := by
  simp only [cleanupTabletTransaction, run_bind_eq_ok, Txn.run_get_eq_ok, Prod.mk.injEq] at h
  obtain ⟨stored, _, ⟨hstored, rfl⟩, h⟩ := h
  cases stored with
  | none => simp at h
  | some ready =>
    simp only [run_bind_eq_ok, run_require_eq_ok, Txn.run_remove_eq_ok,
      Txn.run_put_eq_ok, Prod.mk.injEq] at h
    obtain ⟨_, _, ⟨⟨_, hordinal⟩, _, rfl⟩, _, v, happly, _, _, ⟨_, rfl⟩, _, _, ⟨_, rfl⟩, _,
      rfl⟩ := h
    exact ⟨ready, v, hstored, hordinal, run_applyAll_ok codec happly, rfl⟩

/-! ## Publishing -/

theorem run_requireReady_ok (h : (requireReady claim plan).run u = .ok (r, t)) :
    u = t ∧ ∀ header, plan.mode = .tablets header →
      ∃ ready, u.get (.outbox (.stageReady claim.generation)) = some ready := by
  unfold requireReady at h
  split at h
  · next hmode =>
    simp only [run_pure_eq_ok, Prod.mk.injEq] at h
    refine ⟨h.2, fun header hheader => ?_⟩
    rw [hmode] at hheader
    cases hheader
  · simp only [run_bind_eq_ok, Txn.run_get_eq_ok, run_require_eq_ok, Prod.mk.injEq] at h
    obtain ⟨ready, _, ⟨hready, rfl⟩, ⟨hdigest, _⟩, _, rfl⟩ := h
    refine ⟨rfl, fun _ _ => ?_⟩
    rw [hready]
    exact Option.isSome_iff_exists.mp (by
      cases ready with
      | none => simp at hdigest
      | some _ => rfl)

/-- The records of a publication: its own, the cursor behind it and the processed state. -/
structure RecordsPublication (claim : Claim) (state : OutboxState) (u t : World) : Prop where
  publication : ∃ publication, t.get (.outbox (.generation claim.generation)) = some publication ∧
      publication.outboxSequence = claim.sequence
  cursor : cursorOf t = claim.sequence + 1
  processed : ∃ processed, t.get (.outbox (.state claim.sequence)) = some processed ∧
    processed.stateVersion = state.stateVersion ∧ processed.sequence = state.sequence ∧
    processed.status = .processed ∧ processed.claimToken = none
  frame : ∀ k, k ≠ .outbox (.generation claim.generation) → k ≠ .outbox .publishedGeneration →
    k ≠ .outbox .preparationMetrics → k ≠ .outbox .cursor →
    k ≠ .outbox (.state claim.sequence) → t.get k = u.get k
  history : t.history = u.history ++ [.published claim.sequence claim.generation claim.claimToken]
  uuids : t.uuids = u.uuids

theorem run_recordPreparationMetrics_ok {publishedAt : Nat}
    (h : (recordPreparationMetrics claim plan publishedAt).run u = .ok (r, t)) :
    (∀ k, k ≠ .outbox .preparationMetrics → t.get k = u.get k) ∧ t.history = u.history ∧
      t.uuids = u.uuids := by
  simp only [recordPreparationMetrics, run_ite] at h
  split at h
  · simp only [run_bind_eq_ok, Txn.run_get_eq_ok, Txn.run_put_eq_ok, Prod.mk.injEq] at h
    obtain ⟨_, _, ⟨_, rfl⟩, _, rfl⟩ := h
    exact ⟨fun k hk => get_put_of_ne hk _ _, rfl, rfl⟩
  · simp only [run_pure_eq_ok, Prod.mk.injEq] at h
    obtain ⟨_, rfl⟩ := h
    exact ⟨fun _ _ => rfl, rfl, rfl⟩

theorem run_recordPublication_ok {publishedAt : Nat}
    (h : (recordPublication claim state plan publishedAt).run u = .ok (publication, t)) :
    RecordsPublication claim state u t := by
  simp only [recordPublication, run_bind_eq_ok, Txn.run_put_eq_ok, Txn.run_emit_eq_ok,
    run_pure_eq_ok, Prod.mk.injEq] at h
  obtain ⟨status, v, hput, _, _, ⟨_, rfl⟩, _, w, hmetrics, _, _, ⟨_, rfl⟩, _, _, ⟨_, rfl⟩, _, _,
    ⟨_, rfl⟩, _, rfl⟩ := h
  obtain ⟨hframe, hhistory, huuids⟩ := Txn.frame_of_putImmutable hput
  obtain ⟨hframe', hhistory', huuids'⟩ := run_recordPreparationMetrics_ok hmetrics
  refine ⟨⟨createPublication claim plan publishedAt, ?_, rfl⟩, ?_, ?_, ?_, ?_, ?_⟩
  · rw [World.get_emit, get_put_of_ne (by simp), get_put_of_ne (by simp),
      hframe' _ (by simp), get_put_of_ne (by simp)]
    exact Txn.get_of_putImmutable hput
  · have hcursor : ∀ x : World, x.get (.outbox .cursor) = some ⟨claim.sequence + 1, publishedAt⟩ →
        cursorOf x = claim.sequence + 1 := fun x hx => cursorOf_of_get hx
    refine hcursor _ ?_
    rw [World.get_emit, get_put_of_ne (by simp), World.get_put_self]
  · exact ⟨_, World.get_put_self _ _ _, rfl, rfl, rfl, rfl⟩
  · intro k hgeneration hpublished hmetricsKey hcursor hstate
    rw [World.get_emit, get_put_of_ne hstate, get_put_of_ne hcursor,
      hframe' k hmetricsKey, get_put_of_ne hpublished, hframe k hgeneration]
  · rw [World.history_emit, World.history_put, World.history_put, hhistory', World.history_put,
      hhistory]
  · rw [World.uuids_emit, World.uuids_put, World.uuids_put, huuids', World.uuids_put, huuids]

theorem run_publishTransaction_ok {publishedAt : Nat}
    (h : (publishTransaction codec claim publishedAt).run u = .ok (publication, t)) :
    ∃ state plan v, u.get (.outbox (.state claim.sequence)) = some state ∧ OwnedBy state claim ∧
      cursorOf u = claim.sequence ∧
      checkStagedGeneration codec claim.generation claim.sequence
        (u.get (.outbox (.stage claim.generation))) = .ok plan ∧
      (∀ header, plan.mode = .tablets header →
        ∃ ready, u.get (.outbox (.stageReady claim.generation)) = some ready) ∧
      AppliesMutations plan.mode.publicationMutations u v ∧
      RecordsPublication claim state v t := by
  simp only [publishTransaction, run_bind_eq_ok, run_assertClaimOwner_eq_ok, Txn.run_get_eq_ok,
    run_ofExcept_eq_ok, run_require_eq_ok, Prod.mk.injEq] at h
  obtain ⟨state, v, ⟨hget, howned, hv⟩, _, _, ⟨rfl, rfl⟩, cursor, v', ⟨hcursor, hv'⟩, _, _,
    ⟨hsequence, _, rfl⟩, _, _, ⟨rfl, rfl⟩, plan, v'', ⟨hplan, hv''⟩, _, w, hready, _, x, happly,
    h⟩ := h
  obtain rfl : u = v := hv
  obtain rfl : u = v' := hv'
  obtain rfl : u = v'' := hv''
  obtain ⟨rfl, hmarker⟩ := run_requireReady_ok hready
  exact ⟨state, plan, x, hget, howned, (cursorSequence_eq_ok hcursor).symm.trans hsequence, hplan,
    hmarker, run_applyAll_ok codec happly, run_recordPublication_ok h⟩

/-! ## Removing a stage -/

/-- The stage and its ready marker go, with the history `retain` publications behind. -/
structure RemovesStage (generation retain outboxSequence : Nat) (u t : World) : Prop where
  stage : t.get (.outbox (.stage generation)) = none
  ready : t.get (.outbox (.stageReady generation)) = none
  states : ∀ s, (s = outboxSequence - retain → s = 0) →
    t.get (.outbox (.state s)) = u.get (.outbox (.state s))
  states_of_some : ∀ s state, t.get (.outbox (.state s)) = some state →
    u.get (.outbox (.state s)) = some state
  generations : ∀ g, (g = generation - retain → g = 0) →
    t.get (.outbox (.generation g)) = u.get (.outbox (.generation g))
  generations_of_some : ∀ g publication, t.get (.outbox (.generation g)) = some publication →
    u.get (.outbox (.generation g)) = some publication
  frame : ∀ k, k ≠ .outbox (.stage generation) → k ≠ .outbox (.stageReady generation) →
    (∀ s, k ≠ .outbox (.state s)) → (∀ s, k ≠ .outbox (.entry s)) →
    (∀ g, k ≠ .outbox (.generation g)) → t.get k = u.get k
  history : t.history = u.history
  uuids : t.uuids = u.uuids

theorem run_pruneGeneration_ok {generation : Nat}
    (h : (pruneGeneration generation).run u = .ok (r, t)) :
    (∀ k, (k = .outbox (.generation generation) → generation = 0) → t.get k = u.get k) ∧
      (∀ g publication, t.get (.outbox (.generation g)) = some publication →
        u.get (.outbox (.generation g)) = some publication) ∧
      t.history = u.history ∧ t.uuids = u.uuids := by
  simp only [pruneGeneration, run_ite] at h
  split at h
  · next hpos =>
    simp only [Txn.run_remove_eq_ok, Prod.mk.injEq] at h
    obtain ⟨_, rfl⟩ := h
    refine ⟨fun k hk => get_remove_of_ne (fun heq => ?_) _, fun g p hg => ?_, rfl, rfl⟩
    · have hzero := hk heq
      omega
    · exact (World.get_remove_eq_some_iff.mp hg).2
  · simp only [run_pure_eq_ok, Prod.mk.injEq] at h
    obtain ⟨_, rfl⟩ := h
    exact ⟨fun _ _ => rfl, fun _ _ hg => hg, rfl, rfl⟩

theorem run_pruneSequence_ok (h : (pruneSequence sequence).run u = .ok (r, t)) :
    (∀ k, (k = .outbox (.state sequence) → sequence = 0) →
      (∀ s, k ≠ .outbox (.entry s)) → t.get k = u.get k) ∧
      (∀ s state, t.get (.outbox (.state s)) = some state →
        u.get (.outbox (.state s)) = some state) ∧
      t.history = u.history ∧ t.uuids = u.uuids := by
  simp only [pruneSequence, run_ite] at h
  split at h
  · next hpos =>
    simp only [run_bind_eq_ok, Txn.run_remove_eq_ok, Prod.mk.injEq] at h
    obtain ⟨_, _, ⟨_, rfl⟩, _, rfl⟩ := h
    refine ⟨fun k hk hentry => ?_, fun s state hs => ?_, rfl, rfl⟩
    · rw [get_remove_of_ne (fun heq => by have hzero := hk heq; omega), get_remove_of_ne (hentry _)]
    · exact (World.get_remove_eq_some_iff.mp (World.get_remove_eq_some_iff.mp hs).2).2
  · simp only [run_pure_eq_ok, Prod.mk.injEq] at h
    obtain ⟨_, rfl⟩ := h
    exact ⟨fun _ _ _ => rfl, fun _ _ hs => hs, rfl, rfl⟩

theorem run_removeStage_ok {generation retain : Nat} {outcome : CleanupOutcome}
    (h : (removeStage generation publication retain).run u = .ok (outcome, t)) :
    RemovesStage generation retain publication.outboxSequence u t := by
  simp only [removeStage, run_bind_eq_ok, Txn.run_remove_eq_ok, run_pure_eq_ok, Prod.mk.injEq] at h
  obtain ⟨_, _, ⟨_, rfl⟩, _, _, ⟨_, rfl⟩, _, v, hgeneration, _, w, hsequence, _, rfl⟩ := h
  obtain ⟨hframe, hsome, hhistory, huuids⟩ := run_pruneGeneration_ok hgeneration
  obtain ⟨hframe', hsome', hhistory', huuids'⟩ := run_pruneSequence_ok hsequence
  refine ⟨?_, ?_, ?_, ?_, ?_, ?_, ?_, ?_, ?_⟩
  · rw [hframe' _ (by simp) (by simp), hframe _ (by simp), get_remove_of_ne (by simp),
      World.get_remove_self]
  · rw [hframe' _ (by simp) (by simp), hframe _ (by simp), World.get_remove_self]
  · intro s hs
    rw [hframe' _ (fun heq => ?_) (by simp), hframe _ (by simp), get_remove_of_ne (by simp),
      get_remove_of_ne (by simp)]
    simp only [Key.outbox.injEq, OutboxKey.state.injEq] at heq
    have hzero := hs heq
    omega
  · intro s state hs
    have hv := hsome' s state hs
    rwa [hframe _ (by simp), get_remove_of_ne (by simp), get_remove_of_ne (by simp)] at hv
  · intro g hg
    rw [hframe' _ (by simp) (by simp), hframe _ (fun heq => ?_), get_remove_of_ne (by simp),
      get_remove_of_ne (by simp)]
    simp only [Key.outbox.injEq, OutboxKey.generation.injEq] at heq
    have hzero := hg heq
    omega
  · intro g p hg
    rw [hframe' _ (by simp) (by simp)] at hg
    have hv := hsome g p hg
    rwa [get_remove_of_ne (by simp), get_remove_of_ne (by simp)] at hv
  · intro k hstage hready hstate hentry hgen
    rw [hframe' k (fun heq => absurd heq (hstate _)) hentry,
      hframe k (fun heq => absurd heq (hgen _)), get_remove_of_ne hready, get_remove_of_ne hstage]
  · rw [hhistory', hhistory, World.history_remove, World.history_remove]
  · rw [huuids', huuids, World.uuids_remove, World.uuids_remove]

end ContextStore
