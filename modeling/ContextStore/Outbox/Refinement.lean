import ContextStore.Outbox.Course
import ContextStore.Outbox.Ordering

/-! # Publishing in tablets refines the atomic plan

The workers of one claimed generation: the holders of its claim tokens, who stage, apply and
publish, and everybody else, who may take over the claim, renew, release or recover it and clean
up. A holder relies on the stage records staying as they are for as long as its token is the one
stored; nobody relies on more of the others than that the course moves forward. Hence, once a
cleanup reports that the stage is gone, the derived keyspace is what the sorted plan makes of it
when it is run once. -/

namespace ContextStore

open Concurrent KeyedUpdates

variable {r : TabletRun}

/-! ## The discipline -/

/-- The processes: one for each claim token, which its holder uses for one call at a time, and any
    number of others. -/
inductive Worker (ι : Type) where
  | holder (token : Uuid)
  | other (i : ι)
deriving DecidableEq

variable {ι : Type}

/-- The token a worker's writes are guarded by. -/
def Worker.token : Worker ι → Option Uuid
  | .holder token => some token
  | .other _ => none

/-- What a worker assumes of the others. -/
structure CourseRely (r : TabletRun) (w : Worker ι) (u t : World) : Prop where
  uuids : u.uuids ≤ t.uuids
  evolves : Evolves r u t
  kept : ∀ token, w = .holder token → token.serial < u.uuids → OwnsSequence r token t →
    OwnsSequence r token u ∧ KeepsStaging u t

def InCourse (r : TabletRun) (w : World) : Prop := ∃ p, InPhase r p w

variable (r ι) in
def courseDiscipline : Discipline World (Worker ι) where
  inv := InCourse r
  promise := fun _ _ => True
  rely := CourseRely r
  promise_refl := fun _ => trivial
  rely_refl := fun _ s => ⟨le_rfl, .refl r s, fun _ _ _ h => ⟨h, fun _ _ => rfl⟩⟩
  rely_trans := by
    intro w s u v h h'
    refine ⟨h.uuids.trans h'.uuids, h.evolves.trans r h'.evolves, fun token hw hlt howns => ?_⟩
    obtain ⟨hu, hkeeps'⟩ := h'.kept token hw (hlt.trans_le h.uuids) howns
    obtain ⟨hs, hkeeps⟩ := h.kept token hw hlt hu
    exact ⟨hs, fun k hk => (hkeeps' k hk).trans (hkeeps k hk)⟩

/-- A call of a worker is safe, and `q` holds where it returns. -/
abbrev SafeFor {α : Type} (r : TabletRun) (w : Worker ι) (p : Prog α) (q : α → World → Prop)
    (s : World) : Prop :=
  Safe (fun _ => True) (InCourse r) (CourseRely r w) ((courseDiscipline r ι).guar w) p (OnOk q) s

variable {plan : GenerationPlan} {header : TabletsHeader} {token : Uuid} {claim : Claim} {s : World}
  {stored : StagePlan} {w : World} {fact : World → Prop} {u t : World} {publication : Publication}
  {tablet : Tablet} {α : Type} {n : Nat}

theorem CourseStep.guar {w : Worker ι} (h : CourseStep r w.token u t) :
    (courseDiscipline r ι).guar w u t := by
  refine ⟨trivial, fun w' hne => ⟨h.uuids, h.evolves, ?_⟩⟩
  rintro token rfl hlt howns
  refine h.others token (fun heq => hne ?_) hlt howns
  cases w with
  | holder mine =>
    rw [Worker.token, Option.some.injEq] at heq
    rw [heq]
  | other i => cases heq

theorem CourseStep.inCourse {mine : Option Uuid} (h : CourseStep r mine u t) (hu : InCourse r u) :
    InCourse r t := by
  obtain ⟨p, hp⟩ := hu
  obtain ⟨p', hp', _⟩ := h.evolves p hp
  exact ⟨p', hp'⟩

/-- A fact that the others leave alone. -/
def Stable (r : TabletRun) (w : Worker ι) (fact : World → Prop) : Prop :=
  ∀ u t, CourseRely r w u t → fact u → fact t

theorem safe_transaction {w : Worker ι} {body : Txn α} {q : α → World → Prop}
    (hstable : Stable r w fact) (hs : fact s)
    (hok : ∀ u a t, fact u → InCourse r u → body.run u = .ok (a, t) →
      CourseStep r w.token u t ∧ q a t) : SafeFor r w (Program.transaction body) q s := by
  refine Safe.transaction ((courseDiscipline r ι).guar_refl w) ?_ fun _ _ _ _ _ => trivial
  intro u a t hrely hu _ hrun
  obtain ⟨hstep, hpost⟩ := hok u a t (hstable s u hrely hs) hu hrun
  exact ⟨hstep.inCourse hu, hstep.guar, hpost⟩

theorem safe_read {w : Worker ι} {f : World → α} {q : α → World → Prop} (hstable : Stable r w fact)
    (hs : fact s) (h : ∀ u, fact u → InCourse r u → q (f u) u) : SafeFor r w (Program.read f) q s :=
  Safe.read ((courseDiscipline r ι).guar_refl w) fun u hrely hu => h u (hstable s u hrely hs) hu

theorem safe_of_always {w : Worker ι} {p : Prog α}
    (h : p.Always fun u t => InCourse r u → CourseStep r w.token u t) (s : World) :
    SafeFor r w p (fun _ _ => True) s := by
  refine (Safe.of_always _ (fun _ _ => True) (fun _ _ _ _ _ => trivial) (fun _ => trivial)
    (fun _ _ _ => trivial) ?_ h s).weaken fun res _ _ => ?_
  · intro u t hstep hu
    exact ⟨(hstep hu).inCourse hu, (hstep hu).guar, trivial⟩
  · cases res <;> trivial

/-! ## Stable facts -/

/-- The course has come at least this far. -/
def After (r : TabletRun) (p : Phase) (w : World) : Prop := ∃ p', InPhase r p' w ∧ p.Le p'

theorem After.of_inPhase {p : Phase} (h : InPhase r p w) : After r p w :=
  ⟨p, h, .refl p⟩

theorem stable_true (w : Worker ι) : Stable r w fun _ => True := fun _ _ _ _ => trivial

theorem stable_after (w : Worker ι) (p : Phase) : Stable r w (After r p) := by
  rintro u t hrely ⟨p', hp', hle⟩
  obtain ⟨p'', hp'', hle'⟩ := hrely.evolves p' hp'
  exact ⟨p'', hp'', hle.trans hle'⟩

/-- As long as the token is the one stored, the fact holds. -/
structure Held (r : TabletRun) (token : Uuid) (fact : World → Prop) (w : World) : Prop where
  issued : token.serial < w.uuids
  fact : OwnsSequence r token w → fact w

theorem stable_held (hkeep : ∀ u t, KeepsStaging u t → fact u → fact t) :
    Stable r (.holder token : Worker ι) (Held r token fact) := by
  intro u t hrely hu
  refine ⟨hu.issued.trans_le hrely.uuids, fun howns => ?_⟩
  obtain ⟨howns', hkeeps⟩ := hrely.kept token rfl hu.issued howns
  exact hkeep u t hkeeps (hu.fact howns')

/-- The claims of the generation under one token. -/
structure ClaimOf (r : TabletRun) (token : Uuid) (claim : Claim) : Prop where
  sequence : claim.sequence = r.sequence
  generation : claim.generation = r.generation
  token : claim.claimToken = token

theorem ClaimOf.ownsSequence {state : OutboxState} (h : ClaimOf r token claim)
    (hget : u.get (.outbox (.state claim.sequence)) = some state) (howned : OwnedBy state claim) :
    OwnsSequence r token u :=
  ⟨state, h.sequence ▸ hget, h.token ▸ howned.2.2.2⟩

theorem safe_underClaim {write : Txn α}
    {q : α → World → Prop}
    (hclaim : ClaimOf r token claim) (hstable : Stable r (.holder token : Worker ι) fact)
    (hs : fact s)
    (hok : ∀ u a t, fact u → InCourse r u → OwnsSequence r token u → write.run u = .ok (a, t) →
      CourseStep r (some token) u t ∧ q a t) :
    SafeFor r (.holder token : Worker ι) (underClaim claim write) q s := by
  refine safe_transaction hstable hs fun u a t hfact hu hrun => ?_
  obtain ⟨state, hget, howned, hwrite⟩ := run_underClaim hrun
  exact hok u a t hfact hu (hclaim.ownsSequence hget howned) hwrite

/-! ## Staging -/

/-- No header is stored yet, and the tablets are the first `n` of the plan. -/
structure StagedPrefix (r : TabletRun) (plan : GenerationPlan) (n : Nat) (w : World) : Prop where
  header : w.get (.outbox (.stage r.generation)) = none
  tablets : ∀ i, w.get (.outbox (.stageTablet r.generation i)) =
    if i < n then plan.tabletRecords[i]? else none

def NoHeader (r : TabletRun) (w : World) : Prop := w.get (.outbox (.stage r.generation)) = none

theorem noHeader_of_keeps (u t : World) (h : KeepsStaging u t) (hu : NoHeader r u) : NoHeader r t :=
  (h (.outbox (.stage r.generation)) trivial).trans hu

theorem stagedPrefix_of_keeps (u t : World) (h : KeepsStaging u t) (hu : StagedPrefix r plan n u) :
    StagedPrefix r plan n t :=
  ⟨noHeader_of_keeps u t h hu.header, fun i =>
    (h (.outbox (.stageTablet r.generation i)) trivial).trans (hu.tablets i)⟩

theorem drop_eq_cons {l rest : List α} {a : α} (h : l.drop n = a :: rest) :
    l[n]? = some a ∧ rest = l.drop (n + 1) := by
  constructor
  · rw [← List.head?_drop, h]
    rfl
  · rw [← List.tail_drop, h]
    rfl

/-- Clearing keeps a fact that each removal keeps, and ends on an empty page. -/
theorem safe_clearPages {ordinals : World → List Nat}
    {key : Nat → Key} (hclaim : ClaimOf r token claim)
    (hstable : Stable r (.holder token : Worker ι) fact)
    (hremove : ∀ u i, fact u → InCourse r u → OwnsSequence r token u →
      CourseStep r (some token) u (u.remove (key i)) ∧ fact (u.remove (key i)))
    (pages : Nat) (hs : fact s) :
    SafeFor r (.holder token : Worker ι) (clearPages claim ordinals key pages)
      (fun _ t => fact t ∧ ordinals t = []) s := by
  induction pages generalizing s with
  | zero => trivial
  | succ pages ih =>
    refine Safe.seq (fun page t => fact t ∧ (page = [] → ordinals t = []))
      (safe_read hstable hs fun u hu _ => ⟨hu, fun hpage => ?_⟩) fun page u hu => ?_
    · exact (List.take_eq_nil_iff.mp hpage).resolve_left (by decide)
    · split
      · next hpage => exact ⟨hu.1, hu.2 hpage⟩
      · refine Safe.seq (fun _ t => fact t) (Safe.forEach (fun _ t => fact t) (fun _ ht => ht)
          (fun i rest t ht => ?_) _ u hu.1) fun _ t ht => ih ht
        refine safe_underClaim hclaim hstable ht fun v a v' hv hcourse howns hrun => ?_
        rw [Txn.run_remove_eq_ok, Prod.mk.injEq] at hrun
        obtain ⟨_, rfl⟩ := hrun
        exact hremove v i hv hcourse howns

theorem get_remove_of_none {k : Key} (h : w.get k = none) (k' : Key) :
    (w.remove k).get k' = w.get k' := by
  by_cases hk : k' = k
  · subst hk
    rw [World.get_remove_self, h]
  · exact World.get_remove_of_ne hk w

/-- Under a claim that finds no header, an applied or ready marker is absent already, and removing
    it changes nothing. -/
theorem courseStep_remove_marker
    {k : Key} (hk : (∃ i, k = .outbox (.stageApplied r.generation i)) ∨
      k = .outbox (.stageReady r.generation))
    (hu : Held r token (StagedPrefix r plan n) u) (hcourse : InCourse r u)
    (howns : OwnsSequence r token u) :
    CourseStep r (some token) u (u.remove k) ∧
      Held r token (StagedPrefix r plan n) (u.remove k) := by
  obtain ⟨p, hp⟩ := hcourse
  have hstaged := hu.fact howns
  obtain rfl := hp.eq_unstaged howns hstaged.header
  have hnone : u.get k = none := by
    rcases hk with ⟨i, rfl⟩ | rfl
    · exact hp.staging.2.1 i
    · exact hp.staging.2.2.1
  have hsame := get_remove_of_none hnone
  exact ⟨courseStep_of_same hsame rfl, ⟨hu.issued, fun _ =>
    stagedPrefix_of_keeps u _ (fun k' _ => hsame k') hstaged⟩⟩

theorem stable_stagedPrefix (token : Uuid) (plan : GenerationPlan) (n : Nat) :
    Stable r (.holder token : Worker ι) (Held r token (StagedPrefix r plan n)) :=
  stable_held stagedPrefix_of_keeps

theorem safe_clearOrphanStageRecords (plan : GenerationPlan) (hclaim : ClaimOf r token claim)
    (pages : Nat) (hs : Held r token (NoHeader r) s) :
    SafeFor r (.holder token : Worker ι) (clearOrphanStageRecords claim pages)
      (fun _ => Held r token (StagedPrefix r plan 0)) s := by
  refine Safe.seq _ (safe_clearPages hclaim (stable_held noHeader_of_keeps) ?_ pages hs) ?_
  · intro u i hu hcourse howns
    rw [hclaim.generation]
    have hframe : ∀ k, (∀ i, k ≠ .outbox (.stageTablet r.generation i)) →
        (u.remove (.outbox (.stageTablet r.generation i))).get k = u.get k :=
      fun k hk => World.get_remove_of_ne (hk i) _
    exact ⟨courseStep_of_tablets howns (hu.fact howns) hframe rfl, ⟨hu.issued, fun _ =>
      (hframe _ (by simp)).trans (hu.fact howns)⟩⟩
  · rintro - t ⟨hheld, hempty⟩
    -- The last page was empty: no tablet is left.
    have hstaged : Held r token (StagedPrefix r plan 0) t := by
      refine ⟨hheld.issued, fun howns => ⟨hheld.fact howns, fun i => ?_⟩⟩
      rw [if_neg (Nat.not_lt_zero i), Option.eq_none_iff_forall_ne_some]
      intro tablet htablet
      have hmem : i ∈ stageTabletOrdinals claim.generation t :=
        KeyValue.Store.mem_scan.mpr ⟨_, tablet, htablet, by simp [hclaim.generation]⟩
      rw [hempty] at hmem
      cases hmem
    refine Safe.seq _ (safe_clearPages hclaim (stable_stagedPrefix token plan 0)
      (fun u i hu hcourse howns => ?_) pages hstaged) fun _ v hv => ?_
    · exact courseStep_remove_marker (.inl ⟨i, by rw [hclaim.generation]⟩) hu hcourse howns
    · refine safe_underClaim hclaim (stable_stagedPrefix token plan 0) hv.1
        fun u a u' hu hcourse howns hrun => ?_
      rw [Txn.run_remove_eq_ok, Prod.mk.injEq] at hrun
      obtain ⟨_, rfl⟩ := hrun
      exact courseStep_remove_marker (.inr (by rw [hclaim.generation])) hu hcourse howns

theorem courseStep_stageTablet
    {v : World} {status : PutStatus} (htablet : plan.tabletRecords[n]? = some tablet)
    (hu : Held r token (StagedPrefix r plan n) u) (howns : OwnsSequence r token u)
    (hrun : (Txn.putImmutable (.outbox (.stageTablet r.generation n)) tablet).run u =
      .ok (status, v)) :
    CourseStep r (some token) u v ∧ Held r token (StagedPrefix r plan (n + 1)) v := by
  have hstaged := hu.fact howns
  have hnone : u.get (.outbox (.stageTablet r.generation n)) = none := by
    rw [hstaged.tablets n, if_neg (lt_irrefl n)]
  obtain rfl : v = u.put (.outbox (.stageTablet r.generation n)) tablet := by
    rcases Txn.run_putImmutable_eq_ok.mp hrun with ⟨_, heq⟩ | ⟨hsome, _⟩
    · exact (Prod.mk.inj heq).2
    · rw [hnone] at hsome
      cases hsome
  have hframe : ∀ k, (∀ i, k ≠ .outbox (.stageTablet r.generation i)) →
      (u.put (.outbox (.stageTablet r.generation n)) tablet).get k = u.get k :=
    fun k hk => World.get_put_of_ne (hk n) _ _
  refine ⟨courseStep_of_tablets howns hstaged.header hframe rfl, hu.issued, fun _ =>
    ⟨(hframe _ (by simp)).trans hstaged.header, fun i => ?_⟩⟩
  by_cases hi : i = n
  · subst hi
    rw [World.get_put_self, if_pos (Nat.lt_succ_self i), htablet]
  · rw [World.get_put_of_ne (by simpa using hi), hstaged.tablets i]
    by_cases hin : i < n
    · rw [if_pos hin, if_pos (by omega)]
    · rw [if_neg hin, if_neg (by omega)]

theorem safe_stageTablets (plan : GenerationPlan) (hclaim : ClaimOf r token claim)
    (hs : Held r token (StagedPrefix r plan 0) s) :
    SafeFor r (.holder token : Worker ι) (stageTablets r.codec claim plan.toStagePlan
        ((List.range plan.tabletRecords.length).zip plan.tabletRecords))
      (fun _ => Held r token (StagedPrefix r plan plan.tabletRecords.length)) s := by
  refine Safe.forEach (fun rest t => ∃ n,
    rest = ((List.range plan.tabletRecords.length).zip plan.tabletRecords).drop n ∧
      n ≤ plan.tabletRecords.length ∧ Held r token (StagedPrefix r plan n) t) ?_ ?_ _ s
    ⟨0, rfl, Nat.zero_le _, hs⟩
  · rintro t ⟨n, hrest, hle, ht⟩
    have hlength := List.drop_eq_nil_iff.mp hrest.symm
    rw [List.length_zip, List.length_range, Nat.min_self] at hlength
    exact le_antisymm hle hlength ▸ ht
  · rintro ⟨ordinal, tablet⟩ rest t ⟨n, hrest, _, ht⟩
    obtain ⟨hget, hrest'⟩ := drop_eq_cons hrest.symm
    obtain ⟨hordinal, htablet⟩ := List.getElem?_zip_eq_some.mp hget
    obtain ⟨hlt, heq⟩ := List.getElem?_eq_some_iff.mp hordinal
    rw [List.length_range] at hlt
    obtain rfl : n = ordinal := (List.getElem_range _).symm.trans heq
    refine Safe.seqOfExcept fun _ _ => Safe.seq
      (fun _ v => Held r token (StagedPrefix r plan (n + 1)) v)
      (safe_underClaim hclaim (stable_stagedPrefix token plan n) ht ?_)
      fun _ v hv => ⟨n + 1, hrest', hlt, hv⟩
    intro u a v hu _ howns hrun
    rw [hclaim.generation] at hrun
    exact courseStep_stageTablet htablet hu howns hrun

theorem courseStep_stageHeader
    {status : PutStatus}
    (hplan : TabletsPlan r.codec r.generation r.sequence r.mutations plan header)
    (hstaged : StagedPrefix r plan plan.tabletRecords.length u) (howns : OwnsSequence r token u)
    (hrun : (Txn.putImmutable (.outbox (.stage r.generation)) plan.toStagePlan).run u =
      .ok (status, t)) : CourseStep r (some token) u t := by
  obtain rfl : t = u.put (.outbox (.stage r.generation)) plan.toStagePlan := by
    rcases Txn.run_putImmutable_eq_ok.mp hrun with ⟨_, heq⟩ | ⟨hsome, _⟩
    · exact (Prod.mk.inj heq).2
    · rw [hstaged.header] at hsome
      cases hsome
  have hw : WritesStage r u (u.put (.outbox (.stage r.generation)) plan.toStagePlan) :=
    ⟨fun k _ hk _ _ _ => World.get_put_of_ne hk _ _, rfl⟩
  refine hw.courseStep howns fun p hp => ?_
  obtain rfl := hp.eq_unstaged howns hstaged.header
  refine ⟨_, hp.stageHeader hplan fun i => ?_, .unstaged _⟩
  rw [hstaged.tablets i]
  split
  · rfl
  · next hi => exact (List.getElem?_eq_none (not_lt.mp hi)).symm

theorem safe_stageTabletRecords (hclaim : ClaimOf r token claim)
    (hmode : plan.mode = .tablets header) (pages : Nat) (hs : Held r token (NoHeader r) s) :
    SafeFor r (.holder token : Worker ι) (stageTabletRecords r.codec claim plan pages)
      (fun _ => Held r token (StagedPrefix r plan plan.tabletRecords.length)) s := by
  unfold stageTabletRecords
  rw [hmode]
  refine Safe.seqRequire fun _ => Safe.seq _ (safe_clearOrphanStageRecords plan hclaim pages hs)
    fun _ t ht => Safe.seq _ (safe_stageTablets plan hclaim ht) fun _ v hv => ?_
  unfold Program.require
  split
  · exact hv
  · trivial

theorem safe_stageGeneration (hclaim : ClaimOf r token claim)
    (hplan : TabletsPlan r.codec r.generation r.sequence r.mutations plan header) (pages : Nat)
    (hissued : token.serial < s.uuids) :
    SafeFor r (.holder token : Worker ι) (stageGeneration r.codec claim plan pages)
      (fun _ _ => True) s := by
  have hstable : Stable r (.holder token : Worker ι) fun w => token.serial < w.uuids :=
    fun u t hrely hu => hu.trans_le hrely.uuids
  refine Safe.seqOfExcept fun _ _ => Safe.seqOfExcept fun _ _ => Safe.seq
    (fun found t => found = none → Held r token (NoHeader r) t)
    (safe_read hstable hissued fun u hu _ => ?_) fun found t ht => ?_
  · intro hnone
    rw [hclaim.generation] at hnone
    exact ⟨hu, fun _ => hnone⟩
  · cases found with
    | some existing => exact Safe.seqOfExcept fun _ _ => Safe.seqRequire fun _ => trivial
    | none =>
      refine Safe.seq _ (safe_stageTabletRecords hclaim hplan.mode pages (ht rfl)) fun _ u hu => ?_
      refine Safe.seq (fun _ _ => True) (safe_underClaim hclaim (stable_stagedPrefix token plan _)
        hu fun v a v' hv _ howns hrun => ?_) fun _ _ _ => trivial
      rw [hclaim.generation] at hrun
      exact ⟨courseStep_stageHeader hplan (hv.fact howns) howns hrun, trivial⟩

/-! ## Applying -/

/-- What a stage header that is read says about the course. -/
theorem InPhase.of_header {p : Phase} (hp : InPhase r p w)
    (hstored : w.get (.outbox (.stage r.generation)) = some stored) :
    ∃ plan header, plan.toStagePlan = stored ∧
      TabletsPlan r.codec r.generation r.sequence r.mutations plan header ∧
      ((∃ n, p = .staged plan header n) ∨ ∃ n, p = .published plan header n) := by
  cases p with
  | unstaged =>
    have hnone := hp.staging.1
    rw [hstored] at hnone
    cases hnone
  | staged plan header n =>
    have hstage := hp.staging.2.1
    rw [hstored, Option.some.injEq] at hstage
    exact ⟨plan, header, hstage.symm, hp.staging.1, .inl ⟨n, rfl⟩⟩
  | published plan header n =>
    have hstage := hp.staging.2.1
    rw [hstored, Option.some.injEq] at hstage
    exact ⟨plan, header, hstage.symm, hp.staging.1, .inr ⟨n, rfl⟩⟩
  | done =>
    have hnone := hp.staging.1
    rw [hstored] at hnone
    cases hnone

/-- Under the claim, a course that has reached a staged plan is still at that plan. -/
theorem After.staged_of_owned {i : Nat} (h : After r (.staged plan header i) w)
    (howns : OwnsSequence r token w) : ∃ n, i ≤ n ∧ InPhase r (.staged plan header n) w := by
  obtain ⟨p, hp, hle⟩ := h
  have hnot := hp.not_published howns
  cases hle with
  | refl => exact ⟨i, le_rfl, hp⟩
  | apply _ _ hij => exact ⟨_, hij, hp⟩
  | publish => exact absurd trivial hnot
  | done => exact absurd trivial hnot

/-- A tablet that is read is the plan's, whenever it is read. -/
theorem After.tablet_eq {i k : Nat} (h : After r (.staged plan header k) w)
    (htablet : w.get (.outbox (.stageTablet r.generation i)) = some tablet) :
    plan.tabletRecords[i]? = some tablet := by
  obtain ⟨p, hp, hle⟩ := h
  have hstaged : ∀ n, p = .staged plan header n → plan.tabletRecords[i]? = some tablet := by
    rintro n rfl
    exact (hp.staging.2.2.1 i).symm.trans htablet
  cases hle with
  | refl => exact hstaged _ rfl
  | apply => exact hstaged _ rfl
  | publish =>
    have hread := hp.staging.2.2.1 i
    rw [htablet] at hread
    split at hread
    · exact hread.symm
    · cases hread
  | done =>
    have hread := hp.staging.2.1 i
    rw [htablet] at hread
    cases hread

/-- Under the claim, a tablet is applied when it is the next one, and skipped before. -/
theorem courseStep_applyTablet {i : Nat} {outcome : TabletOutcome} (hclaim : ClaimOf r token claim)
    (hafter : After r (.staged plan header i) u) (htablet : plan.tabletRecords[i]? = some tablet)
    (hrun : (applyTabletTransaction r.codec claim stored i tablet).run u = .ok (outcome, t)) :
    CourseStep r (some token) u t ∧ After r (.staged plan header (i + 1)) t := by
  obtain ⟨state, hget, howned, hcases⟩ := run_applyTabletTransaction_ok r.codec hrun
  have howns := hclaim.ownsSequence hget howned
  obtain ⟨n, hin, hp⟩ := hafter.staged_of_owned howns
  obtain ⟨_, _, htablets, happlied, _⟩ := hp.staging
  rw [hclaim.generation] at hcases
  rcases hcases with ⟨hmarked, rfl⟩ | ⟨hunmarked, v, marker, happly, rfl⟩
  · rw [ne_eq, happlied i] at hmarked
    exact ⟨.refl r _ t, _, hp, .apply plan header (by omega)⟩
  · obtain rfl : i = n := le_antisymm hin ((happlied i).mp hunmarked)
    have hstored : u.get (.outbox (.stageTablet r.generation i)) = some tablet :=
      (htablets i).trans htablet
    have hw : WritesStage r u (v.put (.outbox (.stageApplied r.generation i)) marker) := by
      refine ⟨fun k hk _ _ hkApplied _ => ?_, happly.uuids⟩
      rw [World.get_put_of_ne (hkApplied i), happly.frame k hk]
    refine ⟨hw.courseStep howns fun p' hp' => ?_, After.of_inPhase (hp.applyTablet hstored happly)⟩
    obtain ⟨plan', rfl⟩ := hp.eq_staged hp'
    exact ⟨_, hp'.applyTablet hstored happly, .apply plan' header (Nat.le_succ i)⟩

/-- Under the claim, a generation whose tablets are all applied is marked ready. -/
theorem courseStep_markReady
    {ready : StageReady} {status : PutStatus}
    (hafter : After r (.staged plan header header.tabletCount) u)
    (hordinal : ready.cleanupOrdinal = none) (howns : OwnsSequence r token u)
    (hrun : (Txn.putImmutable (.outbox (.stageReady r.generation)) ready).run u =
      .ok (status, t)) : CourseStep r (some token) u t := by
  obtain ⟨n, hn, hp⟩ := hafter.staged_of_owned howns
  obtain rfl : n = header.tabletCount := le_antisymm hp.staging.2.2.2.2.2.1 hn
  rcases Txn.run_putImmutable_eq_ok.mp hrun with ⟨_, heq⟩ | ⟨_, heq⟩
  · obtain ⟨_, rfl⟩ := Prod.mk.inj heq
    have hw : WritesStage r u (u.put (.outbox (.stageReady r.generation)) ready) :=
      ⟨fun k _ _ _ _ hk => World.get_put_of_ne hk _ _, rfl⟩
    refine hw.courseStep howns fun p' hp' => ?_
    obtain ⟨plan', rfl⟩ := hp.eq_staged hp'
    exact ⟨_, hp'.markReady hordinal, .refl _⟩
  · obtain ⟨_, rfl⟩ := Prod.mk.inj heq
    exact .refl r _ t

theorem safe_readStageTablet {w : Worker ι} {p : Phase} {i : Nat}
    (hle : (Phase.staged plan header 0).Le p) (hs : After r p s) :
    SafeFor r w (readStageTablet r.codec stored r.generation r.sequence i)
      (fun tablet t => plan.tabletRecords[i]? = some tablet ∧ After r p t) s := by
  refine Safe.seq (fun found t => (∀ tablet, found = some tablet →
      plan.tabletRecords[i]? = some tablet) ∧ After r p t)
    (safe_read (stable_after w p) hs fun u hu _ => ⟨fun tablet htablet => ?_, hu⟩)
    fun found t ht => ?_
  · obtain ⟨p', hp', hle'⟩ := hu
    exact After.tablet_eq ⟨p', hp', hle.trans hle'⟩ htablet
  · cases found with
    | none => trivial
    | some tablet => exact Safe.seqOfExcept fun _ _ => ⟨ht.1 tablet rfl, ht.2⟩

theorem safe_applyTablet {progress : ApplyProgress} {i : Nat} (hclaim : ClaimOf r token claim)
    (hs : After r (.staged plan header i) s) :
    SafeFor r (.holder token : Worker ι) (applyTablet r.codec claim stored progress i)
      (fun _ => After r (.staged plan header (i + 1))) s := by
  unfold applyTablet
  rw [hclaim.generation, hclaim.sequence]
  refine Safe.seq _ (safe_readStageTablet (.apply plan header (Nat.zero_le i)) hs)
    fun tablet t ht => ?_
  refine Safe.seq (fun _ => After r (.staged plan header (i + 1)))
    (safe_transaction (stable_after _ _) ht.2 fun u outcome v hu _ hrun =>
      courseStep_applyTablet hclaim hu ht.1 hrun) fun outcome v hv => ?_
  cases outcome <;> exact hv

theorem range_drop_eq_cons {count i : Nat} {rest : List Nat}
    (h : (List.range count).drop n = i :: rest) :
    i = n ∧ n < count ∧ rest = (List.range count).drop (n + 1) := by
  obtain ⟨hget, hrest⟩ := drop_eq_cons h
  obtain ⟨hlt, heq⟩ := List.getElem?_eq_some_iff.mp hget
  rw [List.getElem_range] at heq
  rw [List.length_range] at hlt
  exact ⟨heq.symm, hlt, hrest⟩

theorem safe_applyGenerationTablets (hclaim : ClaimOf r token claim) (s : World) :
    SafeFor r (.holder token : Worker ι) (applyGenerationTablets r.codec claim)
      (fun _ _ => True) s := by
  refine Safe.seqOfExcept fun _ _ => Safe.seq (fun stored t => ∃ plan header,
    plan.toStagePlan = stored ∧ plan.mode = .tablets header ∧ After r (.staged plan header 0) t)
    (Safe.seq (fun found t => ∀ stored, found = some stored → ∃ plan header,
      plan.toStagePlan = stored ∧ plan.mode = .tablets header ∧ After r (.staged plan header 0) t)
      (safe_read (stable_true _) trivial fun u _ hu stored hstored => ?_) fun found t ht => ?_)
    fun stored t ht => ?_
  · obtain ⟨p, hp⟩ := hu
    rw [hclaim.generation] at hstored
    obtain ⟨plan, header, hplan, hmode, hphase⟩ := hp.of_header hstored
    refine ⟨plan, header, hplan, hmode.mode, p, hp, ?_⟩
    rcases hphase with ⟨n, rfl⟩ | ⟨n, rfl⟩
    · exact .apply plan header (Nat.zero_le n)
    · exact .publish plan header 0 n
  · exact Safe.ofExcept fun stored hstored => ht stored (checkStagedGeneration_eq_ok r.codec hstored)
  · obtain ⟨plan, header, rfl, hmode, hafter⟩ := ht
    rw [hmode]
    refine Safe.seq (fun _ => After r (.staged plan header 0))
      (safe_read (stable_after _ _) hafter fun u hu _ => hu) fun ready u hu => ?_
    split
    · trivial
    · refine Safe.seq (fun _ => After r (.staged plan header header.tabletCount))
        (Safe.foldl (fun _ rest t => ∃ n, rest = (List.range header.tabletCount).drop n ∧
          After r (.staged plan header n) t) ?_ ?_ _ _ u ⟨0, rfl, hu⟩) fun progress t ht => ?_
      · rintro - t ⟨n, hrest, p, hp, hle⟩
        have hcount := List.drop_eq_nil_iff.mp hrest.symm
        rw [List.length_range] at hcount
        exact ⟨p, hp, Phase.Le.trans (.apply plan header hcount) hle⟩
      · rintro progress i rest t ⟨n, hrest, ht⟩
        obtain ⟨rfl, _, hrest'⟩ := range_drop_eq_cons hrest.symm
        exact (safe_applyTablet hclaim ht).mono fun _ v hv => ⟨i + 1, hrest', hv⟩
      · refine Safe.seqRequire fun _ => Safe.seq (fun _ _ => True)
          (safe_underClaim hclaim (stable_after _ _) ht fun v status v' hv _ howns hrun => ?_)
          fun _ _ _ => trivial
        rw [hclaim.generation] at hrun
        exact ⟨courseStep_markReady hv rfl howns hrun, trivial⟩

/-! ## Publishing -/

theorem courseStep_publish {publishedAt : Nat} (hclaim : ClaimOf r token claim)
    (hrun : (publishTransaction r.codec claim publishedAt).run u = .ok (publication, t)) :
    CourseStep r (some token) u t := by
  obtain ⟨state, stored, v, hget, howned, _, hstored, hready, happly, hrecords⟩ :=
    run_publishTransaction_ok r.codec hrun
  have howns := hclaim.ownsSequence hget howned
  have hstored := checkStagedGeneration_eq_ok r.codec hstored
  rw [hclaim.generation] at hstored hready
  refine .of_unowned r (hrecords.uuids.trans happly.uuids).ge (fun p hp => ?_) ?_
  · obtain ⟨plan, header, hplan, htablets, hphase⟩ := hp.of_header hstored
    have hmode : stored.mode = .tablets header := hplan ▸ htablets.mode
    obtain ⟨ready, hready⟩ := hready header hmode
    rw [hmode] at happly
    rcases hphase with ⟨n, rfl⟩ | ⟨n, rfl⟩
    · exact ⟨_, hp.publish hclaim.sequence hclaim.generation hready happly hrecords,
        .publish plan header n 0⟩
    · exact absurd trivial (hp.not_published howns)
  · rintro other ⟨found, hfound, hfoundToken⟩
    obtain ⟨processed, hprocessed, _, _, _, hnone⟩ := hrecords.processed
    rw [hclaim.sequence, hfound, Option.some.injEq] at hprocessed
    rw [← hprocessed, hfoundToken] at hnone
    cases hnone

theorem safe_publishGeneration (hclaim : ClaimOf r token claim) (publishedAt : Nat) (s : World) :
    SafeFor r (.holder token : Worker ι) (publishGeneration r.codec claim publishedAt)
      (fun _ _ => True) s := by
  refine Safe.seqOfExcept fun _ _ => Safe.seq (fun _ _ => True)
    (Safe.seq (fun _ _ => True) (safe_read (stable_true _) trivial fun _ _ _ => trivial)
      fun _ _ _ => Safe.ofExcept fun _ _ => trivial) fun _ t _ => ?_
  exact safe_transaction (stable_true _) trivial fun u publication v _ _ hrun =>
    ⟨courseStep_publish hclaim hrun, trivial⟩

/-! ## Cleaning up -/

theorem InPhase.unowned {p : Phase} (hp : InPhase r p w) (hpublished : p.IsPublished)
    (token : Uuid) : ¬ OwnsSequence r token w :=
  fun h => h.not_closed (hp.closed hpublished)

theorem courseStep_cleanupTablet {i : Nat}
    {res : Unit}
    (hafter : After r (.published plan header i) u)
    (htablet : plan.tabletRecords[i]? = some tablet)
    (hrun : (cleanupTabletTransaction r.codec r.generation stored i tablet).run u =
      .ok (res, t)) :
    CourseStep r none u t ∧ After r (.published plan header (i + 1)) t := by
  obtain ⟨ready, v, hready, hordinal, happly, rfl⟩ := run_cleanupTabletTransaction_ok r.codec hrun
  obtain ⟨p, hp, hle⟩ := hafter
  obtain rfl : p = .published plan header i := by
    have hpublished : ∀ n, p = .published plan header n → n = i := by
      rintro n rfl
      obtain ⟨found, hfound, hn⟩ := hp.staging.2.2.2.2.1
      rw [hready, Option.some.injEq] at hfound
      rw [← hn, ← hfound, hordinal]
    cases hle with
    | refl => rfl
    | clean => rw [hpublished _ rfl]
    | done =>
      have hnone := hp.staging.2.2.2.1
      rw [hready] at hnone
      cases hnone
  have hstored : u.get (.outbox (.stageTablet r.generation i)) = some tablet := by
    rw [hp.staging.2.2.1 i, if_pos le_rfl, htablet]
  have hnext := hp.cleanupTablet ready hstored happly
  refine ⟨.of_unowned r happly.uuids.ge (fun p' hp' => ?_) (hnext.unowned trivial),
    After.of_inPhase hnext⟩
  obtain ⟨plan', rfl⟩ := hp.eq_published hp'
  exact ⟨_, hp'.cleanupTablet ready hstored happly, .clean plan' header (Nat.le_succ i)⟩

def Phase.IsCleaned : Phase → Prop
  | .published _ header n => n = header.tabletCount
  | .done => True
  | _ => False

/-- No tablet of the published generation is left to clean. -/
def Cleaned (r : TabletRun) (w : World) : Prop := ∃ p, InPhase r p w ∧ p.IsCleaned

theorem Cleaned.of_after (h : After r (.published plan header n) w) (hn : header.tabletCount ≤ n) :
    Cleaned r w := by
  obtain ⟨p, hp, hle⟩ := h
  refine ⟨p, hp, ?_⟩
  cases hle with
  | refl => exact le_antisymm hp.staging.2.2.2.2.2.1 hn
  | clean _ _ hij => exact le_antisymm hp.staging.2.2.2.2.2.1 (hn.trans hij)
  | done => trivial

theorem stable_cleaned (w : Worker ι) : Stable r w (Cleaned r) := by
  rintro u t hrely ⟨p, hp, hcleaned⟩
  obtain ⟨p', hp', hle⟩ := hrely.evolves p hp
  cases hle with
  | refl => exact ⟨_, hp', hcleaned⟩
  | unstaged => exact absurd hcleaned id
  | apply => exact absurd hcleaned id
  | publish => exact absurd hcleaned id
  | clean plan header hij =>
    exact .of_after (After.of_inPhase hp') ((show _ = header.tabletCount from hcleaned) ▸ hij)
  | done => exact ⟨_, hp', trivial⟩

theorem courseStep_removeStage {retain : Nat} (hcleaned : Cleaned r u) (hretain : 0 < retain)
    (h : RemovesStage r.generation retain r.sequence u t) :
    CourseStep r none u t ∧ InPhase r .done t := by
  obtain ⟨p, hp, hp_cleaned⟩ := hcleaned
  cases p with
  | unstaged => exact absurd hp_cleaned id
  | staged => exact absurd hp_cleaned id
  | published plan header n =>
    obtain rfl : n = header.tabletCount := hp_cleaned
    have hdone := hp.removeStage hretain h
    refine ⟨.of_unowned r h.uuids.ge (fun p' hp' => ⟨.done, hdone, .done p'⟩)
      (hdone.unowned trivial), hdone⟩
  | done =>
    have hdone := hp.removeStage_done hretain h
    exact ⟨.of_unowned r h.uuids.ge (fun p' _ => ⟨.done, hdone, .done p'⟩)
      (hdone.unowned trivial), hdone⟩

/-- The generation is published, whatever has been cleaned since. -/
def Published (r : TabletRun) (w : World) : Prop := ∃ p, InPhase r p w ∧ p.IsPublished

theorem stable_published (w : Worker ι) : Stable r w (Published r) := by
  rintro u t hrely ⟨p, hp, hpublished⟩
  obtain ⟨p', hp', hle⟩ := hrely.evolves p hp
  refine ⟨p', hp', ?_⟩
  cases hle with
  | refl => exact hpublished
  | unstaged => exact absurd hpublished id
  | apply => exact absurd hpublished id
  | publish => trivial
  | clean => trivial
  | done => trivial

theorem Published.of_stored (hw : InCourse r w)
    (hget : w.get (.outbox (.generation r.generation)) = some publication) :
    Published r w ∧ publication.outboxSequence = r.sequence := by
  obtain ⟨p, hp⟩ := hw
  have hpublished : p.IsPublished := by
    by_contra h
    have hnone := (hp.opened h).unpublished
    rw [hget] at hnone
    cases hnone
  obtain ⟨found, hfound, hsequence⟩ := (hp.closed hpublished).publication
  rw [hget, Option.some.injEq] at hfound
  exact ⟨⟨p, hp, hpublished⟩, hfound ▸ hsequence⟩

theorem Published.header_cases (h : Published r w) :
    (w.get (.outbox (.stage r.generation)) = none ∧ Cleaned r w) ∨
    ∃ plan header, w.get (.outbox (.stage r.generation)) = some plan.toStagePlan ∧
      plan.mode = .tablets header ∧ After r (.published plan header 0) w := by
  obtain ⟨p, hp, hpublished⟩ := h
  cases p with
  | unstaged => exact absurd hpublished id
  | staged => exact absurd hpublished id
  | published plan header n =>
    exact .inr ⟨plan, header, hp.staging.2.1, hp.staging.1.mode, _, hp,
      .clean plan header (Nat.zero_le n)⟩
  | done => exact .inl ⟨hp.staging.1, _, hp, trivial⟩

/-- The ready marker says where cleaning has come to. -/
theorem After.cleanupOrdinal {ready : StageReady} (h : After r (.published plan header 0) w)
    (hready : w.get (.outbox (.stageReady r.generation)) = some ready) :
    After r (.published plan header (ready.cleanupOrdinal.getD 0)) w := by
  obtain ⟨p, hp, hle⟩ := h
  have hpublished : ∀ n, p = .published plan header n →
      After r (.published plan header (ready.cleanupOrdinal.getD 0)) w := by
    rintro n rfl
    obtain ⟨found, hfound, hn⟩ := hp.staging.2.2.2.2.1
    rw [hready, Option.some.injEq] at hfound
    rw [hfound, hn]
    exact After.of_inPhase hp
  cases hle with
  | refl => exact hpublished _ rfl
  | clean => exact hpublished _ rfl
  | done =>
    have hnone := hp.staging.2.2.2.1
    rw [hready] at hnone
    cases hnone

theorem safe_cleanupTablet {i : ι} (hs : After r (.published plan header n) s) :
    SafeFor r (.other i) (cleanupTablet r.codec r.generation r.sequence stored n)
      (fun _ => After r (.published plan header (n + 1))) s := by
  refine Safe.seq _ (safe_readStageTablet (.publish plan header 0 n) hs) fun tablet t ht => ?_
  exact safe_transaction (stable_after _ _) ht.2 fun u res v hu _ hrun =>
    courseStep_cleanupTablet hu ht.1 hrun

theorem safe_cleanupTablets {i : ι} {stored : Option StagePlan}
    (hs : (stored = none ∧ Cleaned r s) ∨ ∃ plan header, stored = some plan.toStagePlan ∧
      plan.mode = .tablets header ∧ After r (.published plan header 0) s) :
    SafeFor r (.other i) (cleanupTablets r.codec r.generation r.sequence stored)
      (fun _ => Cleaned r) s := by
  rcases hs with ⟨rfl, hs⟩ | ⟨plan, header, rfl, hmode, hs⟩
  · exact hs
  · simp only [cleanupTablets, hmode]
    refine Safe.seqOfExcept fun _ _ => Safe.seq (fun found t => ∀ ready, found = some ready →
      After r (.published plan header (ready.cleanupOrdinal.getD 0)) t)
      (safe_read (stable_after _ _) hs fun u hu _ ready hready => hu.cleanupOrdinal hready)
      fun found t ht => ?_
    refine Safe.seqRequire fun hdigest => ?_
    cases found with
    | none => cases hdigest
    | some ready =>
      refine Safe.forEach (fun rest t => ∃ n, rest = (List.range header.tabletCount).drop n ∧
        After r (.published plan header n) t) ?_ ?_ _ _ ⟨_, rfl, ht ready rfl⟩
      · rintro t ⟨n, hrest, ht⟩
        have hcount := List.drop_eq_nil_iff.mp hrest.symm
        rw [List.length_range] at hcount
        exact .of_after ht hcount
      · rintro ordinal rest t ⟨n, hrest, ht⟩
        obtain ⟨rfl, _, hrest'⟩ := range_drop_eq_cons hrest.symm
        exact (safe_cleanupTablet ht).mono fun _ v hv => ⟨ordinal + 1, hrest', hv⟩

theorem positiveInteger_eq_ok {value value' : Nat} {label : String}
    (h : positiveInteger value label = .ok value') : 0 < value ∧ value = value' := by
  unfold positiveInteger at h
  split at h
  · next hpos => exact ⟨hpos, Except.ok.inj h⟩
  · cases h

theorem safe_cleanupPublishedStage {i : ι} (retain : Option Nat) (s : World) :
    SafeFor r (.other i) (cleanupPublishedStage r.codec r.generation retain)
      (fun outcome t => ∀ g a b, outcome = .removed g a b → InPhase r .done t) s := by
  refine Safe.seqOfExcept fun _ _ => Safe.seqOfExcept fun kept hkept => Safe.seq
    (fun found t => ∀ publication, found = some publication →
      Published r t ∧ publication.outboxSequence = r.sequence)
    (safe_read (stable_true _) trivial fun u _ hu publication hget =>
      Published.of_stored hu hget)
    fun found t ht => ?_
  obtain ⟨hretain, rfl⟩ := positiveInteger_eq_ok hkept
  cases found with
  | none => rintro g a b ⟨⟩
  | some publication =>
    obtain ⟨hpublished, hsequence⟩ := ht publication rfl
    dsimp only
    rw [hsequence]
    refine Safe.seq _ (safe_read (stable_published _) hpublished fun u hu _ => hu.header_cases)
      fun stored u hu => Safe.seq (fun _ => Cleaned r) (safe_cleanupTablets hu) fun _ v hv => ?_
    refine safe_transaction (stable_cleaned _) hv fun x outcome y hx _ hrun => ?_
    have hremoves := run_removeStage_ok hrun
    rw [hsequence] at hremoves
    have h := courseStep_removeStage hx hretain hremoves
    exact ⟨h.1, fun _ _ _ _ => h.2⟩

/-! ## Recovering -/

theorem safe_stateSteps {i : ι} {p : Prog α} (h : p.Always StateStep) (s : World) :
    SafeFor r (.other i) p (fun _ _ => True) s :=
  safe_of_always (h.imp fun _ _ hstep _ => hstep.courseStep r) s

theorem safe_recoverOutbox {i : ι} (now limit : Nat) (retain : Option Nat) (s : World) :
    SafeFor r (.other i) (recoverOutbox r.codec now limit retain) (fun _ _ => True) s := by
  refine Safe.seqRequire fun _ => Safe.seq (fun _ _ => True)
    (safe_read (stable_true _) trivial fun _ _ _ => trivial) fun states t _ =>
    Safe.seq (fun _ _ => True) (Safe.foldl (fun _ _ _ => True) (fun _ _ _ => trivial) ?_ _ _ t
      trivial) fun recovered u _ => Safe.seq (fun stages _ => ∀ g ∈ stages, g = r.generation)
      (safe_read (stable_true _) trivial fun v _ hv g hg => ?_) fun stages v hv =>
    Safe.seq (fun _ _ => True) (Safe.foldl (fun _ rest _ => ∀ g ∈ rest, g = r.generation)
      (fun _ _ _ => trivial) ?_ _ _ v hv) fun _ _ _ => trivial
  · intro recovered record rest t _
    refine Safe.seqOfExcept fun state _ => ?_
    split
    · trivial
    · exact Safe.seq (fun _ _ => True) (safe_stateSteps (.transaction .refl fun _ _ _ hrun =>
        stateStep_recoverClaim hrun) t) fun _ _ _ => trivial
  · -- Only this generation has a stage.
    obtain ⟨k, plan, hget, hselect⟩ := KeyValue.Store.mem_scan.mp (List.mem_of_mem_take hg)
    obtain ⟨p, hp⟩ := hv
    by_contra hne
    split at hselect
    · obtain rfl := Option.some.inj hselect
      have hnone := hp.otherStages _ hne
      rw [World.get, hget] at hnone
      cases hnone
    · cases hselect
  · intro cleaned g rest t ht
    obtain rfl := ht g List.mem_cons_self
    have hrest : ∀ g ∈ rest, g = r.generation := fun g hg => ht g (List.mem_cons_of_mem _ hg)
    refine Safe.seq (fun _ _ => True) (safe_read (stable_true _) trivial fun _ _ _ => trivial)
      fun found u _ => ?_
    split
    · exact Safe.seq _ (safe_cleanupPublishedStage _ u) fun _ _ _ => hrest
    · exact hrest

/-! ## All runs -/

/-- The calls of the workers. Claims under an issued token stage a plan for what the handlers
    returned, under bounds that may differ from claim to claim, apply its tablets and publish it;
    the others manage claims and clean up. -/
inductive TabletCall (r : TabletRun) :
    Worker ι → World → Prog (Option CleanupOutcome) → Prop
  | stage {token : Uuid} {s : World} {claim : Claim} {plan : GenerationPlan}
      {header : TabletsHeader} (options : PlanOptions) (pages : Nat) (hclaim : ClaimOf r token claim)
      (hissued : token.serial < s.uuids)
      (hplan : createGenerationPlan r.codec claim r.results options = .ok plan)
      (hmode : plan.mode = .tablets header) :
      TabletCall r (.holder token) s
        ((stageGeneration r.codec claim plan pages).mapResult fun _ => none)
  | apply {token : Uuid} {s : World} {claim : Claim} (hclaim : ClaimOf r token claim) :
      TabletCall r (.holder token) s
        ((applyGenerationTablets r.codec claim).mapResult fun _ => none)
  | publish {token : Uuid} {s : World} {claim : Claim} (publishedAt : Nat)
      (hclaim : ClaimOf r token claim) :
      TabletCall r (.holder token) s
        ((publishGeneration r.codec claim publishedAt).mapResult fun _ => none)
  | claimNext (i : ι) (s : World) (options : ClaimOptions) :
      TabletCall r (.other i) s ((claimNextOutbox options).mapResult fun _ => none)
  | renew (i : ι) (s : World) (claim : Claim) (now : Nat) (leaseMs : Option Nat) :
      TabletCall r (.other i) s ((renewOutboxClaim claim now leaseMs).mapResult fun _ => none)
  | release (i : ι) (s : World) (claim : Claim) (error : Option ErrorDetails) (now : Nat) :
      TabletCall r (.other i) s ((releaseOutboxClaim claim error now).mapResult fun _ => none)
  | recover (i : ι) (s : World) (now limit : Nat) (retain : Option Nat) :
      TabletCall r (.other i) s ((recoverOutbox r.codec now limit retain).mapResult fun _ => none)
  | cleanup (i : ι) (s : World) (retain : Option Nat) :
      TabletCall r (.other i) s ((cleanupPublishedStage r.codec r.generation retain).mapResult some)

/-- The workers on a claimed generation of which nothing is staged yet. -/
def tabletSystem (r : TabletRun) (ι : Type) :
    System World (Worker ι) StoreError (Option CleanupOutcome) where
  initial := InPhase r .unstaged
  calls := TabletCall r

/-- A cleanup that reports the stage removed leaves the generation done. -/
def RemovedIsDone (r : TabletRun) (outcome : Option CleanupOutcome) (w : World) : Prop :=
  ∀ g a b, outcome = some (.removed g a b) → InPhase r .done w

theorem courseDiscipline_covers (r : TabletRun) (ι : Type) [DecidableEq ι] :
    (courseDiscipline r ι).Covers (tabletSystem r ι) fun _ => OnOk (RemovedIsDone r) := by
  have hnone : ∀ w, RemovedIsDone r none w := fun _ _ _ _ h => by cases h
  refine ⟨fun w hw => ⟨_, hw⟩, fun t s p _ hp => ?_⟩
  cases hp with
  | stage options pages hclaim hissued hplan hmode =>
    have hplan := tabletsPlan_of_createGenerationPlan r.codec r.normalized hplan hmode
    rw [hclaim.generation, hclaim.sequence] at hplan
    exact .mapResult ((safe_stageGeneration hclaim hplan pages hissued).mono fun _ w _ => hnone w)
  | apply hclaim =>
    exact .mapResult ((safe_applyGenerationTablets hclaim s).mono fun _ w _ => hnone w)
  | publish publishedAt hclaim =>
    exact .mapResult ((safe_publishGeneration hclaim publishedAt s).mono fun _ w _ => hnone w)
  | claimNext i s options =>
    exact .mapResult ((safe_stateSteps (always_claimNextOutbox options) s).mono
      fun _ w _ => hnone w)
  | renew i s claim now leaseMs =>
    exact .mapResult ((safe_stateSteps (always_renewOutboxClaim claim now leaseMs) s).mono
      fun _ w _ => hnone w)
  | release i s claim error now =>
    exact .mapResult ((safe_stateSteps (always_releaseOutboxClaim claim error now) s).mono
      fun _ w _ => hnone w)
  | recover i s now limit retain =>
    exact .mapResult ((safe_recoverOutbox now limit retain s).mono fun _ w _ => hnone w)
  | cleanup i s retain =>
    refine .mapResult ((safe_cleanupPublishedStage retain s).mono fun outcome w hw => ?_)
    intro g a b houtcome
    exact hw g a b (Option.some.inj houtcome)

/-- Staging the atomic plan instead and publishing it has the effect of the sorted plan, run
    once. -/
theorem derivedOf_atomic_publication (r : TabletRun) {options : PlanOptions}
    {planned : List SerializedMutation} {publishedAt : Nat}
    (hplan : createGenerationPlan r.codec claim r.results options = .ok plan)
    (hmode : plan.mode = .atomic planned) (hderived : derivedOf w = r.derived)
    (hstaged : w.get (.outbox (.stage claim.generation)) = some plan.toStagePlan)
    (hrun : (publishTransaction r.codec claim publishedAt).run w = .ok (publication, t)) :
    runMutations r.derived r.mutations = some (derivedOf t) := by
  obtain ⟨_, stored, v, _, _, _, hstored, _, happly, hrecords⟩ :=
    run_publishTransaction_ok r.codec hrun
  have hstored := checkStagedGeneration_eq_ok r.codec hstored
  rw [hstaged, Option.some.injEq] at hstored
  subst hstored
  have hsame : derivedOf t = derivedOf v :=
    funext fun text => hrecords.frame _ (by simp) (by simp) (by simp) (by simp) (by simp)
  have hrun := happly.derived
  rw [hmode, hderived] at hrun
  rw [hsame, ← atomic_of_createGenerationPlan r.codec r.normalized hplan hmode]
  exact hrun

/-- Whatever crashes and retries came before, once a cleanup has reported the stage removed the
    derived keyspace is what the sorted plan makes of the one before when it is run once, which is
    also what staging and publishing the atomic plan makes of it, and no stage, tablet, applied or
    ready record of the generation is left. -/
theorem tablets_refine_atomic_plan (r : TabletRun) (ι : Type) [DecidableEq ι]
    {c : Config World (Worker ι) StoreError (Option CleanupOutcome)}
    (hc : Reachable (tabletSystem r ι) c) {worker : Worker ι} {g : Nat} {a b : Option Nat}
    (hremoved : c.processes worker = some (.done (.ok (some (.removed g a b))))) :
    runMutations r.derived r.mutations = some (derivedOf c.shared) ∧
    (∀ claim options plan planned w publishedAt publication t,
      createGenerationPlan r.codec claim r.results options = .ok plan →
      plan.mode = .atomic planned → derivedOf w = r.derived →
      w.get (.outbox (.stage claim.generation)) = some plan.toStagePlan →
      (publishTransaction r.codec claim publishedAt).run w = .ok (publication, t) →
      derivedOf t = derivedOf c.shared) ∧
    c.shared.get (.outbox (.stage r.generation)) = none ∧
    (∀ i, c.shared.get (.outbox (.stageTablet r.generation i)) = none) ∧
    (∀ i, c.shared.get (.outbox (.stageApplied r.generation i)) = none) ∧
    c.shared.get (.outbox (.stageReady r.generation)) = none := by
  obtain ⟨s, hrely, hpost⟩ :=
    Discipline.post_of_finished (courseDiscipline_covers r ι) hc hremoved
  have hs : InPhase r .done s := hpost g a b rfl
  obtain ⟨p, hp, hle⟩ := hrely.evolves _ hs
  have hdone : p = .done := by cases hle <;> rfl
  subst hdone
  obtain ⟨hstage, htablets, happlied, hready, hderived⟩ := hp.staging
  refine ⟨hderived, ?_, hstage, htablets, happlied, hready⟩
  intro claim options plan planned w publishedAt publication t hplan hmode hw hstaged hrun
  have hatomic := derivedOf_atomic_publication r hplan hmode hw hstaged hrun
  rw [hderived] at hatomic
  exact (Option.some.inj hatomic).symm

/-! ## One run -/

/-- A put before the publication, one with it, and a removal after it. -/
def sampleResults : List HandlerResult :=
  [{ id := "handler", mutations := [
      { key := "a", payload := some "1" },
      { key := "b", payload := some "2", stagePhase := some .publish },
      { key := "c", type := some .remove }] }]

def sampleMutations : List SerializedMutation :=
  [⟨"a", .prepare, .put true "posting/1/1"⟩, ⟨"b", .publish, .put true "posting/2/1"⟩,
    ⟨"c", .cleanup, .remove⟩]

theorem sampleMutations_normalized :
    normalizeMutations sampleCodec sampleResults = .ok sampleMutations := by decide

/-- The entry claimed by a worker that has staged nothing yet. -/
def sampleClaimed : World where
  store := ((KeyValue.Store.empty.put (.outbox (.entry 1)) sampleEntry).put
    (.outbox (.state 1)) {
      stateVersion := outboxStateVersion
      sequence := 1
      status := .processing
      generation := some 1
      claimToken := some ⟨0⟩
      claimedUntil := some 100 }).put (.derived "c") "old"
  uuids := 1
  history := []

def sampleTabletRun : TabletRun where
  codec := sampleCodec
  sequence := 1
  generation := 1
  results := sampleResults
  mutations := sampleMutations
  normalized := sampleMutations_normalized
  derived := derivedOf sampleClaimed

def sampleOptions : PlanOptions where
  atomicMaxMutations := some 1
  tabletMaxMutations := some 1

/-- The plan in two tablets that these bounds lead to. -/
def sampleTabletsPlan : GenerationPlan :=
  match createGenerationPlan sampleCodec sampleClaim sampleResults sampleOptions with
  | .ok plan => plan
  | .error _ => samplePlan

/-- The claim that takes over. -/
def laterClaim : Claim := { sampleClaim with claimToken := ⟨1⟩ }

def sampleStage (claim : Claim) : Prog (Option CleanupOutcome) :=
  (stageGeneration sampleCodec claim sampleTabletsPlan 2).mapResult fun _ => none

def sampleApply : Prog (Option CleanupOutcome) :=
  (applyGenerationTablets sampleCodec laterClaim).mapResult fun _ => none

def sampleCleanup : Prog (Option CleanupOutcome) :=
  (cleanupPublishedStage sampleCodec 1 none).mapResult some

/-- The first claim stages one tablet and is lost. The second stages anew, applies with a crash
    after the first tablet, publishes, and cleaning crashes once before it is through. -/
def sampleTabletMoves : List (Move World (Worker Unit) StoreError (Option CleanupOutcome)) :=
  Move.call (.holder ⟨0⟩) (sampleStage sampleClaim) 5 ++
  (Move.call (.other ()) ((claimNextOutbox { workerId := "later", now := 200 }).mapResult
    fun _ => none) 1 ++
  (Move.call (.holder ⟨1⟩) (sampleStage laterClaim) 9 ++
  (Move.call (.holder ⟨1⟩) sampleApply 4 ++
  (Move.call (.holder ⟨1⟩) sampleApply 7 ++
  (Move.call (.holder ⟨1⟩) ((publishGeneration sampleCodec laterClaim 300).mapResult
    fun _ => none) 2 ++
  (Move.call (.other ()) sampleCleanup 5 ++
  (Move.call (.other ()) sampleCleanup 6 ++ [])))))))

def sampleTabletEnd : Config World (Worker Unit) StoreError (Option CleanupOutcome) :=
  Config.playAll ⟨sampleClaimed, fun _ => none⟩ sampleTabletMoves

theorem sampleClaimed_inPhase : InPhase sampleTabletRun .unstaged sampleClaimed := by
  have hother : ∀ k : OutboxKey, k ≠ .entry 1 → k ≠ .state 1 →
      sampleClaimed.get (.outbox k) = none := fun k hentry hstate =>
    (KeyValue.Store.get_put_of_ne (by simp) _ _).trans <|
      (KeyValue.Store.get_put_of_ne (by simpa using hstate) _ _).trans
        (KeyValue.Store.get_put_of_ne (by simpa using hentry) _ _)
  refine ⟨Nat.one_pos, Nat.one_pos, ?_, fun g _ => hother _ (by simp) (by simp), fun _ =>
    ⟨rfl, ⟨_, rfl, rfl, by decide⟩, hother _ (by simp) (by simp)⟩, fun h => absurd h id,
    ⟨hother _ (by simp) (by simp), fun i => hother _ (by simp) (by simp),
      hother _ (by simp) (by simp), rfl⟩⟩
  intro state token hstate htoken
  cases hstate
  cases htoken
  exact Nat.one_pos

theorem sampleStage_call (claim : Claim) (hsequence : claim.sequence = 1)
    (hgeneration : claim.generation = 1)
    (hplan : createGenerationPlan sampleCodec claim sampleResults sampleOptions =
      .ok sampleTabletsPlan) (hissued : claim.claimToken.serial < s.uuids) :
    TabletCall sampleTabletRun (.holder claim.claimToken : Worker Unit) s (sampleStage claim) :=
  .stage sampleOptions 2 ⟨hsequence, hgeneration, rfl⟩ hissued hplan rfl

theorem sampleTabletEnd_reachable : Reachable (tabletSystem sampleTabletRun Unit) sampleTabletEnd := by
  have hlater : ClaimOf sampleTabletRun ⟨1⟩ laterClaim := ⟨rfl, rfl, rfl⟩
  refine .playAll (.initial sampleClaimed_inPhase) ?_
  have hallowed : ∀ s, (tabletSystem sampleTabletRun Unit).allowed s := fun _ => trivial
  exact .call hallowed (sampleStage_call sampleClaim rfl rfl (by rfl) (by decide)) <|
    .call hallowed (.claimNext _ _ _) <|
    .call hallowed (sampleStage_call laterClaim rfl rfl (by rfl) (by decide)) <|
    .call hallowed (.apply hlater) <|
    .call hallowed (.apply hlater) <|
    .call hallowed (.publish 300 hlater) <|
    .call hallowed (.cleanup _ _ none) <|
    .call hallowed (.cleanup _ _ none) trivial

theorem sampleTabletEnd_removed : sampleTabletEnd.processes (.other ()) =
    some (.done (.ok (some (.removed 1 none none)))) :=
  Config.processes_of_result (by decide +kernel)

/-- In the run above the effect is that of the plan, although tablets were staged twice and
    applying and cleaning were interrupted. -/
theorem tablets_refine_atomic_plan_sampleTabletRun :
    derivedOf sampleTabletEnd.shared "a" = some "posting/1/1" ∧
    derivedOf sampleTabletEnd.shared "b" = some "posting/2/1" ∧
    derivedOf sampleTabletEnd.shared "c" = none ∧
    runMutations sampleTabletRun.derived sampleMutations =
      some (derivedOf sampleTabletEnd.shared) :=
  ⟨by decide, by decide, by decide,
    (tablets_refine_atomic_plan sampleTabletRun Unit sampleTabletEnd_reachable
      sampleTabletEnd_removed).1⟩

end ContextStore
