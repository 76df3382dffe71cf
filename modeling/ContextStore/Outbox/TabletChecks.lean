import ContextStore.Outbox.Refinement

/-! # The tablets of a plan and no others

The planner packs tablets under two bounds, and whoever reads a tablet back checks it against the
stage header. Both sides agree on every boundary, so a plan passes its own checks. The header
commits to its tablets by one digest over their digests: tablets that are changed, left out or put
in another order are refused, whatever the other workers do meanwhile. -/

namespace ContextStore

open Concurrent

/-! ## Packing -/

variable (codec : PlanCodec) {options : TabletOptions} {budget : Nat} {b b' : TabletBuilder}
  {mutations : List SerializedMutation}

theorem countPhase_add (h : ∀ m ∈ mutations, m.stagePhase ≠ .publish) :
    countPhase .prepare mutations + countPhase .cleanup mutations = mutations.length := by
  induction mutations with
  | nil => rfl
  | cons m rest ih =>
    obtain ⟨hm, hrest⟩ := List.forall_mem_cons.mp h
    have hcounts := ih hrest
    unfold countPhase at hcounts ⊢
    cases hphase : m.stagePhase <;> simp_all <;> omega

/-- A tablet closed under these options: every header with their bounds accepts it. -/
structure Tablet.Accepted (options : TabletOptions) (tablet : Tablet) (ordinal : Nat) : Prop where
  bytes : codec.tabletBytes tablet ≤ options.maxBytes
  valid : ∀ plan : StagePlan, plan.mode.tabletBounds = (options.maxMutations, options.maxBytes) →
    validateTablet codec tablet plan options.generation options.outboxSequence ordinal = .ok ()

/-- What holds between two mutations of the loop. -/
structure TabletBuilder.Sound (options : TabletOptions) (budget : Nat) (b : TabletBuilder) :
    Prop where
  closed : ∀ ordinal (tablet : Tablet), b.tablets[ordinal]? = some tablet →
    tablet.Accepted codec options ordinal
  count : b.current.length ≤ options.maxMutations
  bytes : b.currentBytes = totalBytes codec b.current
  fits : b.currentBytes ≤ budget
  staged : ∀ m ∈ b.current, m.stagePhase ≠ .publish

theorem validate_sealTablet (hbudget : budget ≤ options.maxBytes)
    (h : b.Sound codec options budget) {plan : StagePlan}
    (hplan : plan.mode.tabletBounds = (options.maxMutations, options.maxBytes)) :
    validateTablet codec (sealTablet codec options b) plan options.generation
      options.outboxSequence b.tablets.length = .ok () := by
  have hcount := not_lt.mpr h.count
  have hbytes := not_lt.mpr (h.fits.trans hbudget)
  have hphases := countPhase_add h.staged
  have hstaged : b.current.any (·.stagePhase = .publish) = false := by
    simpa using h.staged
  simp [validateTablet, sealTablet, hplan, hphases, hstaged, ← h.bytes, hcount, hbytes]
  rfl

theorem TabletBuilder.Sound.flush (hbudget : budget ≤ options.maxBytes)
    (h : b.Sound codec options budget) (hflush : b.flush codec options = .ok b') :
    b'.Sound codec options budget ∧ b'.current = [] ∧ b'.currentBytes = 0 := by
  unfold TabletBuilder.flush at hflush
  split at hflush
  · next hnil =>
    cases hflush
    exact ⟨h, hnil, by rw [h.bytes, hnil]; rfl⟩
  · split at hflush
    · next hbytes =>
      cases hflush
      refine ⟨⟨fun ordinal tablet hget => ?_, Nat.zero_le _, rfl, Nat.zero_le _, by simp⟩, rfl, rfl⟩
      rw [List.getElem?_append] at hget
      split at hget
      · exact h.closed ordinal tablet hget
      · next hge =>
        rw [List.getElem?_singleton] at hget
        split at hget
        · next hlast =>
          cases hget
          obtain rfl : ordinal = b.tablets.length := by omega
          exact ⟨hbytes, fun plan hplan => validate_sealTablet codec hbudget h hplan⟩
        · cases hget
    · cases hflush

theorem TabletBuilder.Sound.push (h : b.Sound codec options budget) {m : SerializedMutation}
    (hcount : b.current.length < options.maxMutations)
    (hfits : b.currentBytes + codec.mutationBytes m ≤ budget) (hm : m.stagePhase ≠ .publish) :
    (b.push codec m).Sound codec options budget where
  closed := h.closed
  count := by simpa [TabletBuilder.push] using Nat.succ_le_of_lt hcount
  bytes := by simp [TabletBuilder.push, h.bytes, totalBytes]
  fits := hfits
  staged := by simpa [TabletBuilder.push, or_imp, forall_and, hm] using h.staged

theorem TabletBuilder.Sound.fillTablets (hbudget : budget ≤ options.maxBytes)
    (hmax : 0 < options.maxMutations) (hstaged : ∀ m ∈ mutations, m.stagePhase ≠ .publish)
    (h : b.Sound codec options budget)
    (hfill : fillTablets codec options budget mutations b = .ok b') :
    b'.Sound codec options budget := by
  induction mutations generalizing b with
  | nil => exact (h.flush codec hbudget hfill).1
  | cons m rest ih =>
    obtain ⟨hm, hrest⟩ := List.forall_mem_cons.mp hstaged
    simp only [ContextStore.fillTablets] at hfill
    split at hfill
    · cases hfill
    · next hfits =>
      rw [not_lt] at hfits
      split at hfill
      · obtain ⟨b₁, hflush, hfill⟩ := bind_ok_iff.mp hfill
        -- the open tablet is empty, so the mutation fits into it
        obtain ⟨h₁, hcurrent, hzero⟩ := h.flush codec hbudget hflush
        exact ih hrest (h₁.push codec (by simpa [hcurrent] using hmax) (by omega) hm) hfill
      · next hroom =>
        rw [not_or, not_le, not_lt] at hroom
        exact ih hrest (h.push codec hroom.1 hroom.2 hm) hfill

theorem accepted_of_createTablets {tablets : List Tablet} (hmax : 0 < options.maxMutations)
    (hstaged : ∀ m ∈ mutations, m.stagePhase ≠ .publish)
    (h : createTablets codec mutations options = .ok tablets) {ordinal : Nat} {tablet : Tablet}
    (hget : tablets[ordinal]? = some tablet) : tablet.Accepted codec options ordinal := by
  simp only [createTablets] at h
  split at h
  · cases h
  · obtain ⟨b, hfill, hret⟩ := bind_ok_iff.mp h
    cases hret
    have hstart : TabletBuilder.Sound codec options
        (options.maxBytes - min (8 * 1024) (options.maxBytes / 4)) ⟨[], [], 0⟩ :=
      ⟨by simp, Nat.zero_le _, rfl, Nat.zero_le _, by simp⟩
    exact (hstart.fillTablets codec (Nat.sub_le _ _) hmax hstaged hfill).closed ordinal tablet hget

variable {claim : Claim} {results : List HandlerResult} {planOptions : PlanOptions}
  {plan : GenerationPlan} {header : TabletsHeader}

theorem accepted_of_createGenerationPlan
    (h : createGenerationPlan codec claim results planOptions = .ok plan)
    (hmode : plan.mode = .tablets header) :
    validateStage codec plan.toStagePlan claim.generation claim.sequence = .ok () ∧ ∃ mutations,
      normalizeMutations codec results = .ok mutations ∧
      TabletsPlan codec claim.generation claim.sequence mutations plan header ∧
      ∀ ordinal (tablet : Tablet), plan.tabletRecords[ordinal]? = some tablet →
        tablet.Accepted codec ⟨claim.generation, claim.sequence, header.tabletMaxMutations,
          header.tabletMaxBytes⟩ ordinal := by
  have hplan := h
  simp only [createGenerationPlan, bind_ok_iff] at h
  obtain ⟨_, -, summaries, -, mutations, hmutations, _, -, _, -, h⟩ := h
  have htablets := tabletsPlan_of_createGenerationPlan codec hmutations hplan hmode
  split at h
  · cases h
    cases hmode
  · simp only [createTabletsPlan, bind_ok_iff] at h
    obtain ⟨_, -, _, -, h⟩ := h
    split at h
    · cases h
    · simp only [bind_ok_iff] at h
      obtain ⟨maxMutations, hmax, maxBytes, -, tablets, hcreate, h⟩ := h
      cases h
      cases hmode
      obtain ⟨hpositive, rfl⟩ := positiveInteger_eq_ok hmax
      refine ⟨?_, mutations, hmutations, htablets, fun ordinal tablet hget =>
        accepted_of_createTablets codec hpositive
          (fun m hm => of_decide_eq_true (List.mem_filter.mp hm).2) hcreate hget⟩
      simp only [validateStage, sealPlan, ne_eq, not_true_eq_false, or_self, if_false]
      rfl

/-- A plan passes its own checks: the stage is accepted, and under its header every tablet is,
    within the bound for durable records; the tablets hold the sorted mutations that are not for the
    publication. -/
theorem createGenerationPlan_passes_checks
    (h : createGenerationPlan codec claim results planOptions = .ok plan)
    (hmode : plan.mode = .tablets header) :
    validateStage codec plan.toStagePlan claim.generation claim.sequence = .ok () ∧
      (∃ mutations, normalizeMutations codec results = .ok mutations ∧
        mutationsOf plan.tabletRecords = tabletMutations mutations) ∧
      ∀ ordinal tablet, plan.tabletRecords[ordinal]? = some tablet →
        validateTablet codec tablet plan.toStagePlan claim.generation claim.sequence ordinal =
          .ok () ∧ codec.tabletBytes tablet ≤ header.tabletMaxBytes := by
  obtain ⟨hstage, mutations, hmutations, htablets, haccepted⟩ :=
    accepted_of_createGenerationPlan codec h hmode
  refine ⟨hstage, ⟨mutations, hmutations, htablets.tablets⟩, fun ordinal tablet hget => ?_⟩
  have htablet := haccepted ordinal tablet hget
  exact ⟨htablet.valid _ (by rw [hmode]; rfl), htablet.bytes⟩

theorem createGenerationPlan_passes_checks_sample :
    sampleTabletsPlan.tabletRecords.length = 2 ∧
      validateStage sampleCodec sampleTabletsPlan.toStagePlan 1 1 = .ok () :=
  ⟨by rfl, (@createGenerationPlan_passes_checks sampleCodec sampleClaim sampleResults sampleOptions
    sampleTabletsPlan _ (by rfl) rfl).1⟩

/-! ## Other tablets under the header -/

variable {codec}

/-- The digests tell these tablets apart from those. -/
structure DigestsApart (codec : PlanCodec) (tablets tablets' : List Tablet) : Prop where
  set : codec.tabletsDigest (tablets.map (·.digest)) =
      codec.tabletsDigest (tablets'.map (·.digest)) →
    tablets.map (·.digest) = tablets'.map (·.digest)
  contents : ∀ tablet ∈ tablets, ∀ tablet' ∈ tablets',
    codec.tabletDigest tablet.toTabletContent = codec.tabletDigest tablet'.toTabletContent →
      tablet.toTabletContent = tablet'.toTabletContent

/-- A tablet with the digest of its content, as `validateTablet` wants it. -/
def Sealed (codec : PlanCodec) (tablet : Tablet) : Prop :=
  codec.tabletDigest tablet.toTabletContent = tablet.digest

theorem sealed_of_validateTablet {tablet : Tablet} {plan : StagePlan}
    {generation sequence ordinal : Nat}
    (h : validateTablet codec tablet plan generation sequence ordinal = .ok ()) :
    Sealed codec tablet := by
  simp only [validateTablet] at h
  split at h
  · cases h
  · next hchecks =>
    simp only [not_or, not_not] at hchecks
    exact hchecks.2.2.2.2.2.2.2

theorem sealed_of_createGenerationPlan
    (h : createGenerationPlan codec claim results planOptions = .ok plan)
    (hmode : plan.mode = .tablets header) :
    header.tabletsDigest = codec.tabletsDigest (plan.tabletRecords.map (·.digest)) ∧
      ∀ tablet ∈ plan.tabletRecords, Sealed codec tablet := by
  obtain ⟨-, mutations, -, htablets, haccepted⟩ := accepted_of_createGenerationPlan codec h hmode
  refine ⟨htablets.tabletsDigest, fun tablet hmem => ?_⟩
  obtain ⟨ordinal, hget⟩ := List.mem_iff_getElem?.mp hmem
  exact sealed_of_validateTablet
    ((haccepted ordinal tablet hget).valid plan.toStagePlan (by rw [hmode]; rfl))

theorem eq_of_tabletsDigest {tablets tablets' : List Tablet}
    (hnone : DigestsApart codec tablets tablets') (h : ∀ tablet ∈ tablets, Sealed codec tablet)
    (h' : ∀ tablet ∈ tablets', Sealed codec tablet)
    (hset : codec.tabletsDigest (tablets.map (·.digest)) =
      codec.tabletsDigest (tablets'.map (·.digest))) : tablets = tablets' := by
  have hdigests := hnone.set hset
  have hcontents := hnone.contents
  clear hset hnone
  induction tablets generalizing tablets' with
  | nil => exact (List.map_eq_nil_iff.mp hdigests.symm).symm
  | cons tablet rest ih =>
    cases tablets' with
    | nil => cases hdigests
    | cons tablet' rest' =>
      obtain ⟨hdigest, hrest⟩ := List.cons.inj hdigests
      rw [List.forall_mem_cons] at h h'
      have hcontent := hcontents tablet List.mem_cons_self tablet' List.mem_cons_self
        (h.1.trans (hdigest.trans h'.1.symm))
      have heq : tablet = tablet' := by
        cases tablet
        cases tablet'
        cases hcontent
        cases hdigest
        rfl
      rw [heq, ih h.2 h'.2 hrest fun t ht t' ht' =>
        hcontents t (List.mem_cons_of_mem _ ht) t' (List.mem_cons_of_mem _ ht')]

/-- Where the call returns, `q` holds, whatever the others do as long as they keep `inv`. -/
abbrev ReturnsOnly {α : Type} (inv : World → Prop) (p : Prog α) (q : α → Prop) (s : World) : Prop :=
  Safe (fun _ => True) inv (fun _ _ => True) (fun _ _ => True) p (OnOk fun a _ => q a) s

theorem returnsOnly_true {α : Type} (p : Prog α) (s : World) :
    ReturnsOnly (fun _ => True) p (fun _ => True) s := by
  induction p generalizing s with
  | done r => cases r <;> trivial
  | atomic act next ih => exact fun u _ _ _ => ⟨trivial, trivial, ih u (act u)⟩

/-- Under a header that is not staged yet only its own tablets can be staged. -/
theorem stageGeneration_refuses {holder : Claim} {offered : GenerationPlan}
    (hplan : createGenerationPlan codec claim results planOptions = .ok plan)
    (hmode : plan.mode = .tablets header) (hheader : offered.toStagePlan = plan.toStagePlan)
    (hother : offered.tabletRecords ≠ plan.tabletRecords)
    (hnone : DigestsApart codec offered.tabletRecords plan.tabletRecords) (pages : Nat)
    (s : World) :
    ReturnsOnly (fun _ => True) (stageGeneration codec holder offered pages)
      (fun outcome => outcome.status = .unchanged) s := by
  obtain ⟨hset, hsealed⟩ := sealed_of_createGenerationPlan hplan hmode
  refine Safe.seqOfExcept fun _ _ => Safe.seqOfExcept fun _ _ => Safe.seq (fun _ _ => True)
    (returnsOnly_true _ s) fun existing t _ => ?_
  cases existing with
  | some existing => exact Safe.seqOfExcept fun _ _ => Safe.seqRequire fun _ => rfl
  | none =>
    refine Safe.seq (fun _ _ => False) ?_ fun _ _ h => h.elim
    unfold stageTabletRecords
    rw [show offered.mode = .tablets header from (congrArg (·.mode) hheader).trans hmode]
    refine Safe.seqRequire fun _ => Safe.seq (fun _ _ => True) (returnsOnly_true _ t) fun _ u _ =>
      Safe.seq (fun _ _ => ∀ tablet ∈ offered.tabletRecords, Sealed codec tablet)
        (Safe.forEach (fun rest _ => ∀ tablet ∈ offered.tabletRecords,
          tablet ∈ rest.map (·.2) ∨ Sealed codec tablet) ?_ ?_ _ u ?_) fun _ v hv => ?_
    · exact fun _ h tablet hmem => (h tablet hmem).resolve_left List.not_mem_nil
    · -- each tablet is checked before it is staged
      rintro ⟨ordinal, tablet⟩ rest w h
      refine Safe.seqOfExcept fun _ hvalid => Safe.seq (fun _ _ => True) (returnsOnly_true _ w)
        fun _ _ _ other hmem => ?_
      rcases h other hmem with hleft | hdone
      · rcases List.mem_cons.mp hleft with rfl | hleft
        · exact .inr (sealed_of_validateTablet hvalid)
        · exact .inl hleft
      · exact .inr hdone
    · rw [List.map_snd_zip (by simp)]
      exact fun _ hmem => .inl hmem
    · unfold Program.require
      split
      · next h => exact hother (eq_of_tabletsDigest hnone hv hsealed (h.trans hset))
      · trivial

def reversedPlan : GenerationPlan :=
  { sampleTabletsPlan with tabletRecords := sampleTabletsPlan.tabletRecords.reverse }

theorem stageGeneration_refuses_reversed : ReturnsOnly (fun _ => True)
    (stageGeneration sampleCodec laterClaim reversedPlan 2)
    (fun outcome => outcome.status = .unchanged) sampleClaimed :=
  @stageGeneration_refuses sampleCodec sampleClaim sampleResults sampleOptions sampleTabletsPlan _
    laterClaim reversedPlan (by rfl) rfl rfl (by decide) ⟨by decide, by decide⟩ 2 sampleClaimed

/-- The header, the ready marker and the tablets of a generation are the same. -/
structure SameStage (generation : Nat) (u t : World) : Prop where
  header : t.get (.outbox (.stage generation)) = u.get (.outbox (.stage generation))
  ready : t.get (.outbox (.stageReady generation)) = u.get (.outbox (.stageReady generation))
  tablets : ∀ ordinal, t.get (.outbox (.stageTablet generation ordinal)) =
    u.get (.outbox (.stageTablet generation ordinal))

variable {holder : Claim} {w : World}

theorem SameStage.applyTablet {stored : StagePlan} {ordinal : Nat} {tablet : Tablet}
    {outcome : TabletOutcome} {u t : World} (hu : SameStage holder.generation w u)
    (h : (applyTabletTransaction codec holder stored ordinal tablet).run u = .ok (outcome, t)) :
    SameStage holder.generation w t := by
  obtain ⟨_, _, _, ⟨_, rfl⟩ | ⟨_, v, marker, happlied, rfl⟩⟩ :=
    run_applyTabletTransaction_ok codec h
  · exact hu
  · have hframe : ∀ k : OutboxKey, k ≠ .stageApplied holder.generation ordinal →
        (v.put (.outbox (.stageApplied holder.generation ordinal)) marker).get (.outbox k) =
          u.get (.outbox k) := fun k hk =>
      (World.get_put_of_ne (by simpa using hk) _ _).trans (happlied.frame _ (by simp))
    exact ⟨(hframe _ (by simp)).trans hu.header, (hframe _ (by simp)).trans hu.ready,
      fun i => (hframe _ (by simp)).trans (hu.tablets i)⟩

/-- A round reads one of the stored tablets, and notes its digest. -/
theorem returnsOnly_applyTablet {stored : StagePlan} {progress : ApplyProgress} {ordinal : Nat}
    {s : World} : ReturnsOnly (SameStage holder.generation w)
      (applyTablet codec holder stored progress ordinal)
      (fun next => ∃ tablet, Sealed codec tablet ∧
        w.get (.outbox (.stageTablet holder.generation ordinal)) = some tablet ∧
          next.digests = progress.digests ++ [tablet.digest]) s := by
  refine Safe.seq (fun tablet _ => Sealed codec tablet ∧
      w.get (.outbox (.stageTablet holder.generation ordinal)) = some tablet)
    (Safe.seq (fun found _ => w.get (.outbox (.stageTablet holder.generation ordinal)) = found)
      (Safe.read (fun _ => trivial) fun u _ hu => (hu.tablets ordinal).symm) fun found u hu => ?_)
    fun tablet u hu => Safe.seq (fun _ _ => True) (Safe.transaction (fun _ => trivial)
      (fun v _ t _ hv _ hrun => ⟨hv.applyTablet hrun, trivial, trivial⟩) fun _ _ _ _ _ => trivial)
      fun outcome v _ => ?_
  · cases found with
    | none => trivial
    | some tablet => exact Safe.seqOfExcept fun _ hvalid => ⟨sealed_of_validateTablet hvalid, hu⟩
  · cases outcome <;> exact ⟨tablet, hu.1, hu.2, rfl⟩

/-- The tablets that are stored for the first ordinals of a generation. -/
def storedTablets (generation count : Nat) (w : World) : List Tablet :=
  (List.range count).filterMap fun ordinal => w.get (.outbox (.stageTablet generation ordinal))

/-- Where the tablets of a staged plan are not its own, applying them is rejected. -/
theorem applyGenerationTablets_refuses
    (hplan : createGenerationPlan codec claim results planOptions = .ok plan)
    (hmode : plan.mode = .tablets header)
    (hstage : w.get (.outbox (.stage holder.generation)) = some plan.toStagePlan)
    (hready : (w.get (.outbox (.stageReady holder.generation))).map (·.stageDigest) ≠
      some plan.digest)
    (hother : storedTablets holder.generation header.tabletCount w ≠ plan.tabletRecords)
    (hnone : DigestsApart codec (storedTablets holder.generation header.tabletCount w)
      plan.tabletRecords) (s : World) :
    ReturnsOnly (SameStage holder.generation w) (applyGenerationTablets codec holder)
      (fun _ => False) s := by
  obtain ⟨hset, hsealed⟩ := sealed_of_createGenerationPlan hplan hmode
  refine Safe.seqOfExcept fun _ _ => Safe.seq (fun stored _ => stored = plan.toStagePlan)
    (Safe.seq (fun found _ => found = some plan.toStagePlan)
      (Safe.read (fun _ => trivial) fun t _ ht => ht.header.trans hstage) ?_) ?_
  · rintro found t rfl
    exact Safe.ofExcept fun stored hstored =>
      (Option.some.inj (checkStagedGeneration_eq_ok codec hstored)).symm
  · rintro stored t rfl
    rw [hmode]
    refine Safe.seq (fun found _ => found = w.get (.outbox (.stageReady holder.generation)))
      (Safe.read (fun _ => trivial) fun u _ hu => hu.ready) ?_
    rintro found u rfl
    rw [if_neg hready]
    refine Safe.seq (fun progress _ => progress.digests =
        (storedTablets holder.generation header.tabletCount w).map (·.digest) ∧
          ∀ tablet ∈ storedTablets holder.generation header.tabletCount w, Sealed codec tablet)
      (Safe.foldl (fun progress rest _ => ∃ n, rest = (List.range header.tabletCount).drop n ∧
        n ≤ header.tabletCount ∧
          progress.digests = (storedTablets holder.generation n w).map (·.digest) ∧
          ∀ tablet ∈ storedTablets holder.generation n w, Sealed codec tablet) ?_ ?_ _ _ u
        ⟨0, rfl, Nat.zero_le _, rfl, by simp [storedTablets]⟩) ?_
    · rintro progress v ⟨n, hrest, hle, hdigests, hall⟩
      have hcount := List.drop_eq_nil_iff.mp hrest.symm
      rw [List.length_range] at hcount
      rw [le_antisymm hcount hle]
      exact ⟨hdigests, hall⟩
    · rintro progress ordinal rest v ⟨n, hrest, hle, hdigests, hall⟩
      obtain ⟨rfl, hlt, hrest'⟩ := range_drop_eq_cons hrest.symm
      refine returnsOnly_applyTablet.mono ?_
      rintro next v' ⟨tablet, htablet, hget, hnext⟩
      have hstored : storedTablets holder.generation (ordinal + 1) w =
          storedTablets holder.generation ordinal w ++ [tablet] := by
        simp [storedTablets, List.range_succ, hget]
      refine ⟨ordinal + 1, hrest', hlt, ?_, ?_⟩
      · rw [hnext, hdigests, hstored, List.map_append]
        rfl
      · rw [hstored]
        simpa [or_imp, forall_and, htablet] using hall
    · rintro progress v ⟨hdigests, hall⟩
      unfold Program.require
      split
      · next h =>
        rw [hdigests] at h
        exact absurd (eq_of_tabletsDigest hnone hall hsealed (h.trans hset)) hother
      · trivial

/-- The header is staged and the tablets are lost. -/
def strippedWorld : World :=
  sampleClaimed.put (.outbox (.stage 1)) sampleTabletsPlan.toStagePlan

theorem applyGenerationTablets_refuses_stripped : ReturnsOnly (SameStage 1 strippedWorld)
    (applyGenerationTablets sampleCodec laterClaim) (fun _ => False) strippedWorld :=
  @applyGenerationTablets_refuses sampleCodec sampleClaim sampleResults sampleOptions
    sampleTabletsPlan _ laterClaim strippedWorld (by rfl) rfl rfl (by decide) (by decide)
    ⟨by decide, by decide⟩ strippedWorld

end ContextStore
