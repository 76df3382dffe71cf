import ContextStore.Outbox.Transactions

/-! # Publications follow the outbox order

Index workers, stale ones included, interleave their calls at every transaction boundary. The
invariant ties the three durable places a publication leaves a trace in to the cursor: a state
record is processed exactly when its sequence lies behind the cursor and otherwise belongs to the
cursor's sequence, a generation record lies behind the cursor, and the publications so far are the
sequences `1, 2, …` up to the cursor. -/

namespace ContextStore

open Concurrent

variable (codec : PlanCodec)

/-! ## What the order is about -/

def Event.publishedSequence : Event → Option Nat
  | .published sequence _ _ => some sequence
  | _ => none

/-- The published sequences of a history, oldest first. -/
def publishedSequences (history : List Event) : List Nat :=
  history.filterMap Event.publishedSequence

/-- A stored state record is well formed, and its status says on which side of the cursor it is. -/
def StateFits (cursor sequence : Nat) (state : OutboxState) : Prop :=
  state.stateVersion = outboxStateVersion ∧ state.sequence = sequence ∧
    (state.status = .processed → sequence < cursor) ∧
    (state.status ≠ .processed → sequence = cursor)

/-- The invariant of the ordered outbox. -/
structure Ordered (w : World) : Prop where
  cursor_pos : 0 < cursorOf w
  states : ∀ sequence state, w.get (.outbox (.state sequence)) = some state →
    StateFits (cursorOf w) sequence state
  generations : ∀ generation publication,
    w.get (.outbox (.generation generation)) = some publication →
      publication.outboxSequence < cursorOf w
  published : publishedSequences w.history = List.range' 1 (cursorOf w - 1)

/-- A step publishes nothing, or publishes the cursor's sequence under the claim that is stored
    for it. -/
def PublishesOwned (u t : World) : Prop :=
  t.history = u.history ∨ ∃ generation token state,
    t.history = u.history ++ [.published (cursorOf u) generation token] ∧
    u.get (.outbox (.state (cursorOf u))) = some state ∧ state.status = .processing ∧
    state.generation = some generation ∧ state.claimToken = some token

/-- The part of the world the order depends on is the same. -/
def SameOrder (u t : World) : Prop :=
  t.get (.outbox .cursor) = u.get (.outbox .cursor) ∧
    (∀ sequence, t.get (.outbox (.state sequence)) = u.get (.outbox (.state sequence))) ∧
    (∀ generation,
      t.get (.outbox (.generation generation)) = u.get (.outbox (.generation generation))) ∧
    t.history = u.history

/-- What one transaction of a worker does to the order: it keeps the invariant, the cursor only
    advances, and a publication is one of the claim that is stored. -/
def OrderStep (u t : World) : Prop :=
  Ordered u → Ordered t ∧ cursorOf u ≤ cursorOf t ∧ PublishesOwned u t

theorem SameOrder.refl (u : World) : SameOrder u u :=
  ⟨rfl, fun _ => rfl, fun _ => rfl, rfl⟩

variable {u t : World}

theorem orderStep_of_fits
    (hcursor : t.get (.outbox .cursor) = u.get (.outbox .cursor))
    (hhistory : t.history = u.history)
    (hstates : ∀ sequence state, t.get (.outbox (.state sequence)) = some state →
      u.get (.outbox (.state sequence)) = some state ∨
        (Ordered u → StateFits (cursorOf u) sequence state))
    (hgenerations : ∀ generation publication,
      t.get (.outbox (.generation generation)) = some publication →
        u.get (.outbox (.generation generation)) = some publication) : OrderStep u t := by
  intro hu
  have hc : cursorOf t = cursorOf u := cursorOf_eq_of_get hcursor
  refine ⟨⟨hc ▸ hu.cursor_pos, ?_, ?_, ?_⟩, hc.ge, Or.inl hhistory⟩
  · intro sequence state hget
    rw [hc]
    rcases hstates sequence state hget with hold | hfit
    · exact hu.states sequence state hold
    · exact hfit hu
  · intro generation publication hget
    rw [hc]
    exact hu.generations generation publication (hgenerations generation publication hget)
  · rw [hhistory, hc]
    exact hu.published

theorem SameOrder.orderStep (h : SameOrder u t) : OrderStep u t :=
  orderStep_of_fits h.1 h.2.2.2 (fun sequence _ hget => Or.inl (h.2.1 sequence ▸ hget))
    (fun generation _ hget => h.2.2.1 generation ▸ hget)

theorem OrderStep.refl (u : World) : OrderStep u u := (SameOrder.refl u).orderStep

/-! ## Claims -/

theorem cursor_of_unprocessed {sequence : Nat} {state : OutboxState}
    (hget : u.get (.outbox (.state sequence)) = some state) (hstatus : state.status ≠ .processed)
    (hu : Ordered u) : sequence = cursorOf u :=
  (hu.states sequence state hget).2.2.2 hstatus

theorem WritesState.orderStep {sequence : Nat} {state : OutboxState}
    (hwrites : WritesState u t sequence state)
    (hfits : Ordered u → StateFits (cursorOf u) sequence state) : OrderStep u t := by
  refine orderStep_of_fits (hwrites.frame _ (by simp) (by simp)) hwrites.history ?_ ?_
  · intro s found hget
    by_cases hs : s = sequence
    · subst hs
      rw [hwrites.written, Option.some.injEq] at hget
      subst hget
      exact Or.inr hfits
    · rw [hwrites.frame _ (by simpa using hs) (by simp)] at hget
      exact Or.inl hget
  · intro g found hget
    rw [hwrites.frame _ (by simp) (by simp)] at hget
    exact hget

/-- Managing claims is an order step: what is written is an unprocessed state at the cursor. -/
theorem StateStep.orderStep (h : StateStep u t) : OrderStep u t := by
  cases h with
  | same h => exact h ▸ .refl u
  | claim hstate hstatus hwrites hversion hsequence hclaimed _ _ _ =>
    refine hwrites.orderStep fun _ => ⟨hversion, hsequence, fun hp => ?_, fun _ => rfl⟩
    rw [hclaimed] at hp
    cases hp
  | update hget hstatus hwrites hversion hsequence hupdated _ _ _ =>
    refine hwrites.orderStep fun hu => ?_
    have hfits := hu.states _ _ hget
    have hcursor := cursor_of_unprocessed hget (by simp [hstatus]) hu
    refine ⟨?_, hsequence.trans hfits.2.1, fun hp => absurd hp hupdated, fun _ => hcursor⟩
    rcases hversion with h | h
    · exact h.trans hfits.1
    · exact h

/-! ## Publishing -/

theorem publishedSequences_append_published (history : List Event) (sequence generation : Nat)
    (token : Uuid) :
    publishedSequences (history ++ [.published sequence generation token]) =
      publishedSequences history ++ [sequence] := by
  simp [publishedSequences, Event.publishedSequence]

/-- The records of a publication at the cursor move the cursor past it, and nothing else about the
    order. -/
theorem RecordsPublication.orderStep {claim : Claim} {state : OutboxState}
    (h : RecordsPublication claim state u t)
    (hget : u.get (.outbox (.state claim.sequence)) = some state) (howned : OwnedBy state claim)
    (hcursor : cursorOf u = claim.sequence) : OrderStep u t := by
  intro hu
  have hc := h.cursor
  have hhistory := h.history
  refine ⟨⟨by omega, ?_, ?_, ?_⟩, by omega, Or.inr ?_⟩
  · intro sequence found hfound
    rw [hc]
    by_cases hs : sequence = claim.sequence
    · subst hs
      obtain ⟨processed, hprocessed, hversion, hsequence, hstatus, _⟩ := h.processed
      rw [hprocessed, Option.some.injEq] at hfound
      subst hfound
      have hfits := hu.states _ _ hget
      exact ⟨hversion.trans hfits.1, hsequence.trans hfits.2.1, fun _ => Nat.lt_succ_self _,
        fun hne => absurd hstatus hne⟩
    · rw [h.frame _ (by simp) (by simp) (by simp) (by simp) (by simpa using hs)] at hfound
      have hfits := hu.states _ _ hfound
      refine ⟨hfits.1, hfits.2.1, fun hp => ?_, fun hp => ?_⟩
      · have := hfits.2.2.1 hp
        omega
      · exact absurd ((hfits.2.2.2 hp).trans hcursor) hs
  · intro generation found hfound
    rw [hc]
    by_cases hg : generation = claim.generation
    · subst hg
      obtain ⟨publication, hpublication, hsequence⟩ := h.publication
      rw [hpublication, Option.some.injEq] at hfound
      subst hfound
      omega
    · rw [h.frame _ (by simpa using hg) (by simp) (by simp) (by simp) (by simp)] at hfound
      have := hu.generations _ _ hfound
      omega
  · rw [hhistory, hc, publishedSequences_append_published, hu.published, hcursor]
    have hpos := hu.cursor_pos
    obtain ⟨n, hn⟩ : ∃ n, claim.sequence = n + 1 := ⟨claim.sequence - 1, by omega⟩
    rw [hn, Nat.add_sub_cancel, Nat.add_sub_cancel, List.range'_concat, Nat.one_mul,
      Nat.add_comm 1 n]
  · exact ⟨claim.generation, claim.claimToken, state, hcursor ▸ hhistory, hcursor ▸ hget, howned.1,
      howned.2.2.1, howned.2.2.2⟩

/-! ## Removing -/

/-- Removing history behind the cursor. -/
theorem RemovesStage.orderStep {generation retain outboxSequence : Nat}
    (h : RemovesStage generation retain outboxSequence u t) : OrderStep u t :=
  orderStep_of_fits (h.frame _ (by simp) (by simp) (by simp) (by simp) (by simp)) h.history
    (fun s state hs => Or.inl (h.states_of_some s state hs)) h.generations_of_some

/-! ## All runs -/

theorem StagingOnly.sameOrder (h : StagingOnly u t) : SameOrder u t :=
  ⟨h.frame _ id, fun _ => h.frame _ id, fun _ => h.frame _ id, h.history⟩

theorem OutboxStep.orderStep (h : OutboxStep u t) : OrderStep u t := by
  cases h with
  | state h => exact h.orderStep
  | staging h => exact h.sameOrder.orderStep
  | removal h => exact h.orderStep
  | publication hget howned hcursor hstaging hrecords =>
    have hsame := hstaging.sameOrder
    have hcursor' := cursorOf_eq_of_get hsame.1
    intro hu
    obtain ⟨hv, _, _⟩ := hsame.orderStep hu
    obtain ⟨ht, hle, hpub⟩ := hrecords.orderStep ((hsame.2.1 _).trans hget) howned
      (hcursor'.trans hcursor) hv
    rw [PublishesOwned, hcursor', hsame.2.2.2, hsame.2.1] at hpub
    exact ⟨ht, hcursor' ▸ hle, hpub⟩

/-- The outbox holds exactly the sequences `1..n`, and nothing has been done about them. -/
structure HoldsSequences (n : Nat) (w : World) : Prop where
  entries : ∀ sequence, (∃ entry, w.get (.outbox (.entry sequence)) = some entry ∧
    entry.sequence = sequence) ↔ 1 ≤ sequence ∧ sequence ≤ n
  counter : (w.get (.counter .outbox)).getD 0 = n
  untouched : ∀ k : OutboxKey, (∀ sequence, k ≠ .entry sequence) → w.get (.outbox k) = none
  history : w.history = []

/-- Any set `τ` of index workers on an outbox that holds `1..n`. -/
def outboxSystem (τ : Type) (n : Nat) : System World τ StoreError Unit where
  initial := HoldsSequences n
  calls := fun _ _ p => OutboxCall codec p

theorem ordered_of_holdsSequences {n : Nat} {w : World} (h : HoldsSequences n w) : Ordered w := by
  have hcursor : cursorOf w = 1 := by
    simp [cursorOf, h.untouched .cursor (by simp)]
  refine ⟨by omega, ?_, ?_, ?_⟩
  · intro sequence state hget
    rw [h.untouched (.state sequence) (by simp)] at hget
    cases hget
  · intro generation publication hget
    rw [h.untouched (.generation generation) (by simp)] at hget
    cases hget
  · rw [h.history, hcursor]
    rfl

/-- The order as a discipline: no worker assumes anything of the others but the invariant. -/
def orderDiscipline (τ : Type) : Discipline World τ where
  inv := Ordered
  promise := fun u t => cursorOf u ≤ cursorOf t ∧ PublishesOwned u t
  rely := fun _ _ _ => True
  promise_refl := fun _ => ⟨le_rfl, Or.inl rfl⟩
  rely_refl := fun _ _ => trivial
  rely_trans := fun _ _ _ _ _ _ => trivial

theorem orderDiscipline_covers (τ : Type) [DecidableEq τ] (n : Nat) :
    (orderDiscipline τ).Covers (outboxSystem codec τ n) fun _ _ _ => True := by
  refine ⟨fun w hw => ordered_of_holdsSequences hw, fun _ s p _ hp => ?_⟩
  refine (Safe.of_always OrderStep (fun _ _ => True) (fun _ _ _ _ _ => trivial)
    (fun _ => trivial) (fun _ _ _ => trivial) ?_
    (hp.always.imp fun _ _ h => h.orderStep) s).weaken fun _ _ _ => trivial
  intro u t hstep hu
  obtain ⟨ht, hle, hpub⟩ := hstep hu
  exact ⟨ht, ⟨⟨hle, hpub⟩, fun _ _ => trivial⟩, trivial⟩

/-- On a state in order, a sequence counts as processed exactly when it lies behind the cursor. -/
theorem Ordered.isOutboxSequenceProcessed {w : World} (hw : Ordered w) (sequence : Nat) :
    (isOutboxSequenceProcessed sequence).run w = .ok (decide (sequence < cursorOf w), w) := by
  have hcursor : cursorSequence (w.get (.outbox .cursor)) = .ok (cursorOf w) := by
    have hpos := hw.cursor_pos
    unfold cursorOf at hpos ⊢
    unfold cursorSequence
    split
    · next hnone => rw [hnone]
    · next cursor hsome =>
      rw [hsome] at hpos ⊢
      exact if_neg (Nat.pos_iff_ne_zero.mp hpos)
  simp only [ContextStore.isOutboxSequenceProcessed, Transaction.run_bind_eq_ok,
    Txn.run_get_eq_ok, Transaction.run_ofExcept_eq_ok, Prod.mk.injEq]
  refine ⟨_, _, ⟨rfl, rfl⟩, _, _, ⟨rfl, rfl⟩, ?_, rfl⟩
  unfold sequenceProcessed
  cases hstate : w.get (.outbox (.state sequence)) with
  | none =>
    simp [normalizeState, hcursor, Bind.bind, Except.bind, pure, Except.pure]
  | some state =>
    have hfits := hw.states _ _ hstate
    have hnormal : normalizeState (some state) sequence = .ok state := by
      simp [normalizeState, hfits.1, hfits.2.1]
    by_cases hprocessed : state.status = .processed
    · simp [hnormal, hprocessed, hfits.2.2.1 hprocessed, Bind.bind, Except.bind, pure, Except.pure]
    · simp [hnormal, hprocessed, hcursor, Bind.bind, Except.bind, pure, Except.pure]

/-- In every reachable configuration the sequences published so far are `1, 2, …` in this order and
    without repetition up to the durable cursor, a sequence counts as processed exactly when it
    lies behind the cursor, and a move that publishes does so for the cursor's sequence under the
    claim token stored for it. -/
theorem publications_follow_outbox_order (τ : Type) [DecidableEq τ] (n : Nat)
    {c : Config World τ StoreError Unit} (hc : Reachable (outboxSystem codec τ n) c) :
    publishedSequences c.shared.history = List.range' 1 (cursorOf c.shared - 1) ∧
    (publishedSequences c.shared.history).Nodup ∧
    (∀ sequence, (isOutboxSequenceProcessed sequence).run c.shared =
      .ok (decide (sequence < cursorOf c.shared), c.shared)) ∧
    ∀ c', Step (outboxSystem codec τ n) c c' →
      cursorOf c.shared ≤ cursorOf c'.shared ∧ PublishesOwned c.shared c'.shared := by
  have hordered : Ordered c.shared :=
    Discipline.invariant (orderDiscipline_covers codec τ n) hc
  refine ⟨hordered.published, ?_, fun sequence => hordered.isOutboxSequenceProcessed sequence,
    fun c' hstep => Discipline.promise_of_step (orderDiscipline_covers codec τ n) hc hstep⟩
  rw [hordered.published]
  exact List.nodup_range' 1

/-! ## One run -/

/-- A stand-in for the encoding modules on the inputs of the run below. -/
def sampleCodec : PlanCodec where
  keyspace := fun _ => "posting"
  recordText := fun kind payload recordVersion => s!"{kind}/{payload}/{recordVersion}"
  mutationBytes := fun mutation => mutation.key.length
  tabletBytes := fun tablet => tablet.mutationBytes
  tabletDigest := fun content => s!"tablet/{content.generation}/{content.ordinal}"
  tabletsDigest := fun digests => "|".intercalate digests
  planDigest := fun content => s!"plan/{content.generation}/{content.mutationCount}"

def sampleEntry : OutboxEntry where
  operation := some "index"
  documentId := some "doc"
  documentVersion := some 1
  sequence := 1

/-- One entry, not yet claimed. -/
def sampleWorld : World where
  store := (KeyValue.Store.empty.put (.counter .outbox) (1 : Nat)).put (.outbox (.entry 1))
    sampleEntry
  uuids := 0
  history := []

def sampleClaim : Claim where
  sequence := 1
  generation := 1
  operation := "index"
  claimToken := ⟨0⟩
  workerId := "worker"
  entry := sampleEntry

def samplePlan : GenerationPlan :=
  sealPlan sampleCodec {
    stageVersion := indexStageVersion
    generation := 1
    outboxSequence := 1
    operation := "index"
    documentId := some "doc"
    documentVersion := some 1
    sourceVersion := none
    handlers := []
    mutationCount := 1
    mutationBytes := 1
    mode := .atomic [⟨"k", .prepare, .put true "posting/1/1"⟩] } []

/-- Claim, stage and publish, with a stale attempt to publish again at the end. -/
def sampleMoves : List (Move World Unit StoreError Unit) :=
  [.start () (claimNextOutbox { workerId := "worker", now := 10 }).void, .advance (),
    .start () (stageGeneration sampleCodec sampleClaim samplePlan 1).void, .advance (),
    .advance (), .start () (publishGeneration sampleCodec sampleClaim 20).void, .advance (),
    .advance (), .start () (publishGeneration sampleCodec sampleClaim 30).void, .advance (),
    .advance ()]

def sampleRun : Config World Unit StoreError Unit :=
  Config.playAll ⟨sampleWorld, fun _ => none⟩ sampleMoves

theorem sampleWorld_holdsSequences : HoldsSequences 1 sampleWorld := by
  have hother : ∀ k : OutboxKey, k ≠ .entry 1 → sampleWorld.get (.outbox k) = none := fun k hk =>
    (KeyValue.Store.get_put_of_ne (by simpa using hk) _ _).trans
      (KeyValue.Store.get_put_of_ne (by simp) _ _)
  refine ⟨?_, rfl, fun k hk => hother k (hk 1), rfl⟩
  intro sequence
  constructor
  · rintro ⟨entry, hget, -⟩
    by_cases h : sequence = 1
    · omega
    · rw [hother _ (by simpa using h)] at hget
      cases hget
  · rintro ⟨hlow, hhigh⟩
    obtain rfl : sequence = 1 := by omega
    exact ⟨sampleEntry, rfl, rfl⟩

theorem sampleRun_reachable : Reachable (outboxSystem sampleCodec Unit 1) sampleRun := by
  refine .playAll (.initial sampleWorld_holdsSequences)
    (Config.playable_of_calls (fun _ => trivial) (fun t p hp s => ?_) _)
  simp only [sampleMoves, List.mem_cons, Move.start.injEq, reduceCtorEq, false_or, or_false,
    List.not_mem_nil] at hp
  rcases hp with ⟨_, rfl⟩ | ⟨_, rfl⟩ | ⟨_, rfl⟩ | ⟨_, rfl⟩
  · exact .claimNext _
  · exact .stage _ _ _
  · exact .publish _ _
  · exact .publish _ _

/-- In the run above the sequence is published once, and the second attempt is refused. -/
theorem publications_follow_outbox_order_sampleRun :
    publishedSequences sampleRun.shared.history = [1] ∧ cursorOf sampleRun.shared = 2 ∧
    (publishedSequences sampleRun.shared.history).Nodup ∧
    (isOutboxSequenceProcessed 1).run sampleRun.shared =
      .ok (decide (1 < cursorOf sampleRun.shared), sampleRun.shared) := by
  have h := publications_follow_outbox_order sampleCodec Unit 1 sampleRun_reachable
  exact ⟨by decide, by decide, h.2.1, h.2.2.1 1⟩

end ContextStore
