import ContextStore.Outbox.Steps

/-! # The course of one generation

One claimed generation is staged, applied, published and cleaned by workers that may crash at any
transaction boundary and be succeeded by a later claim. `Phase` is the abstract course of the
generation: nothing staged, staged with some prefix of the tablets applied, published with some
prefix cleaned, done. Every transaction either leaves the phase or moves it forward
(`Evolves`), and each phase says what the derived keyspace holds: the effect of the mutations run
so far. -/

namespace ContextStore

open Concurrent KeyedUpdates
open World (get_put_of_ne get_remove_of_ne)

/-! ## The generation and its phases -/

/-- One generation to publish: its claim's sequence and generation, what the handlers returned,
    and the derived keyspace before. -/
structure TabletRun where
  codec : PlanCodec
  sequence : Nat
  generation : Nat
  results : List HandlerResult
  mutations : List SerializedMutation
  normalized : normalizeMutations codec results = .ok mutations
  derived : String → Option String

inductive Phase where
  | unstaged
  | staged (plan : GenerationPlan) (header : TabletsHeader) (applied : Nat)
  | published (plan : GenerationPlan) (header : TabletsHeader) (cleaned : Nat)
  | done

/-- The course of a generation never goes back. -/
inductive Phase.Le : Phase → Phase → Prop
  | refl (p : Phase) : Le p p
  | unstaged (p : Phase) : Le .unstaged p
  | apply (plan : GenerationPlan) (header : TabletsHeader) {i j : Nat} (h : i ≤ j) :
      Le (.staged plan header i) (.staged plan header j)
  | publish (plan : GenerationPlan) (header : TabletsHeader) (i j : Nat) :
      Le (.staged plan header i) (.published plan header j)
  | clean (plan : GenerationPlan) (header : TabletsHeader) {i j : Nat} (h : i ≤ j) :
      Le (.published plan header i) (.published plan header j)
  | done (p : Phase) : Le p .done

theorem Phase.Le.trans {p q r : Phase} (h : p.Le q) (h' : q.Le r) : p.Le r := by
  cases h with
  | refl => exact h'
  | unstaged => exact .unstaged r
  | apply plan header h =>
    cases h' with
    | refl => exact .apply plan header h
    | apply _ _ h' => exact .apply plan header (h.trans h')
    | publish => exact .publish plan header _ _
    | done => exact .done _
  | publish =>
    cases h' with
    | refl => exact .publish _ _ _ _
    | clean => exact .publish _ _ _ _
    | done => exact .done _
  | clean plan header h =>
    cases h' with
    | refl => exact .clean plan header h
    | clean _ _ h' => exact .clean plan header (h.trans h')
    | done => exact .done _
  | done =>
    cases h' with
    | refl => exact .done _
    | done => exact .done _

variable (r : TabletRun)

/-- The mutations that the first `n` tablets of a plan apply before or after publication. -/
def tabletPhase (phase : StagePhase) (plan : GenerationPlan) (n : Nat) : List SerializedMutation :=
  inPhase phase (mutationsOf (plan.tabletRecords.take n))

/-- Everything a published plan has run once its first `n` tablets are cleaned. -/
def publishedMutations (plan : GenerationPlan) (n : Nat) : List SerializedMutation :=
  inPhase .prepare r.mutations ++ (inPhase .publish r.mutations ++ tabletPhase .cleanup plan n)

/-- What the stage records and the derived keyspace hold in a phase. -/
def StagingAt : Phase → World → Prop
  | .unstaged, w =>
    w.get (.outbox (.stage r.generation)) = none ∧
    (∀ i, w.get (.outbox (.stageApplied r.generation i)) = none) ∧
    w.get (.outbox (.stageReady r.generation)) = none ∧ derivedOf w = r.derived
  | .staged plan header n, w =>
    TabletsPlan r.codec r.generation r.sequence r.mutations plan header ∧
    w.get (.outbox (.stage r.generation)) = some plan.toStagePlan ∧
    (∀ i, w.get (.outbox (.stageTablet r.generation i)) = plan.tabletRecords[i]?) ∧
    (∀ i, w.get (.outbox (.stageApplied r.generation i)) = none ↔ n ≤ i) ∧
    (∀ ready, w.get (.outbox (.stageReady r.generation)) = some ready →
      n = header.tabletCount ∧ ready.cleanupOrdinal = none) ∧
    n ≤ header.tabletCount ∧
    runMutations r.derived (tabletPhase .prepare plan n) = some (derivedOf w)
  | .published plan header n, w =>
    TabletsPlan r.codec r.generation r.sequence r.mutations plan header ∧
    w.get (.outbox (.stage r.generation)) = some plan.toStagePlan ∧
    (∀ i, w.get (.outbox (.stageTablet r.generation i)) =
      if n ≤ i then plan.tabletRecords[i]? else none) ∧
    (∀ i, i < n ∨ header.tabletCount ≤ i → w.get (.outbox (.stageApplied r.generation i)) = none) ∧
    (∃ ready, w.get (.outbox (.stageReady r.generation)) = some ready ∧
      ready.cleanupOrdinal.getD 0 = n) ∧
    n ≤ header.tabletCount ∧
    runMutations r.derived (publishedMutations r plan n) = some (derivedOf w)
  | .done, w =>
    w.get (.outbox (.stage r.generation)) = none ∧
    (∀ i, w.get (.outbox (.stageTablet r.generation i)) = none) ∧
    (∀ i, w.get (.outbox (.stageApplied r.generation i)) = none) ∧
    w.get (.outbox (.stageReady r.generation)) = none ∧
    runMutations r.derived r.mutations = some (derivedOf w)

/-- Before publication: the cursor stands at the sequence, whose state keeps the generation. -/
structure Open (w : World) : Prop where
  cursor : cursorOf w = r.sequence
  state : ∃ state, w.get (.outbox (.state r.sequence)) = some state ∧
    state.generation = some r.generation ∧ state.status ≠ .processed
  unpublished : w.get (.outbox (.generation r.generation)) = none

/-- After publication: no claim owns the sequence any more. -/
structure Closed (w : World) : Prop where
  cursor : r.sequence < cursorOf w
  state : ∃ state, w.get (.outbox (.state r.sequence)) = some state ∧ state.status = .processed ∧
    state.claimToken = none
  publication : ∃ publication, w.get (.outbox (.generation r.generation)) = some publication ∧
    publication.outboxSequence = r.sequence

def Phase.IsPublished : Phase → Prop
  | .unstaged | .staged _ _ _ => False
  | .published _ _ _ | .done => True

/-- The token stored for the sequence has been issued. -/
def Issued (w : World) : Prop :=
  ∀ state token, w.get (.outbox (.state r.sequence)) = some state →
    state.claimToken = some token → token.serial < w.uuids

/-- The world is in a phase. -/
structure InPhase (p : Phase) (w : World) : Prop where
  generation_pos : 0 < r.generation
  sequence_pos : 0 < r.sequence
  issued : Issued r w
  otherStages : ∀ g, g ≠ r.generation → w.get (.outbox (.stage g)) = none
  opened : ¬ p.IsPublished → Open r w
  closed : p.IsPublished → Closed r w
  staging : StagingAt r p w

/-- The course of the generation moves forward, if at all. -/
def Evolves (u t : World) : Prop :=
  ∀ p, InPhase r p u → ∃ p', InPhase r p' t ∧ p.Le p'

theorem Evolves.refl (u : World) : Evolves r u u :=
  fun p hp => ⟨p, hp, .refl p⟩

theorem Evolves.trans {u v t : World} (h : Evolves r u v) (h' : Evolves r v t) : Evolves r u t := by
  intro p hp
  obtain ⟨p', hp', hle⟩ := h p hp
  obtain ⟨p'', hp'', hle'⟩ := h' p' hp'
  exact ⟨p'', hp'', hle.trans hle'⟩

/-! ## Steps of the workers -/

/-- The keys that staging, applying, publishing and cleaning write. -/
def IsStagingKey : Key → Prop
  | .outbox (.stage _) | .outbox (.stageTablet _ _) | .outbox (.stageApplied _ _)
  | .outbox (.stageReady _) | .outbox (.generation _) | .derived _ => True
  | _ => False

def KeepsStaging (u t : World) : Prop := ∀ k, IsStagingKey k → t.get k = u.get k

/-- The token is the one stored for the sequence. -/
def OwnsSequence (token : Uuid) (w : World) : Prop :=
  ∃ state, w.get (.outbox (.state r.sequence)) = some state ∧ state.claimToken = some token

/-- What an action owes the rest of the system. `mine` is the token the action is taken under, if
    it writes stage records: for every other token that is stored afterwards, it was stored before
    and the stage records are the same. -/
structure CourseStep (mine : Option Uuid) (u t : World) : Prop where
  uuids : u.uuids ≤ t.uuids
  evolves : Evolves r u t
  others : ∀ token, some token ≠ mine → token.serial < u.uuids → OwnsSequence r token t →
    OwnsSequence r token u ∧ KeepsStaging u t

theorem CourseStep.refl (mine : Option Uuid) (u : World) : CourseStep r mine u u :=
  ⟨le_rfl, .refl r u, fun _ _ _ h => ⟨h, fun _ _ => rfl⟩⟩

variable {u t : World}

theorem CourseStep.of_unowned {mine : Option Uuid} (huuids : u.uuids ≤ t.uuids)
    (hevolves : Evolves r u t) (hunowned : ∀ token, ¬ OwnsSequence r token t) :
    CourseStep r mine u t :=
  ⟨huuids, hevolves, fun token _ _ h => absurd h (hunowned token)⟩

theorem derivedOf_eq_of_keeps (h : KeepsStaging u t) : derivedOf t = derivedOf u :=
  funext fun text => h (.derived text) trivial

theorem stagingAt_of_keeps {p : Phase} (h : KeepsStaging u t) (hp : StagingAt r p u) :
    StagingAt r p t := by
  have hstage := fun g => h (.outbox (.stage g)) trivial
  have htablet := fun g i => h (.outbox (.stageTablet g i)) trivial
  have happlied := fun g i => h (.outbox (.stageApplied g i)) trivial
  have hready := fun g => h (.outbox (.stageReady g)) trivial
  have hderived := derivedOf_eq_of_keeps h
  cases p <;> simpa only [StagingAt, hstage, htablet, happlied, hready, hderived] using hp

/-- A transaction on the states of sequences: the stage records and the cursor stay, and the
    sequence keeps its generation and stays unprocessed while it is open. -/
theorem evolves_of_states (hkeeps : KeepsStaging u t)
    (hcursor : t.get (.outbox .cursor) = u.get (.outbox .cursor))
    (hissued : Issued r u → Issued r t)
    (hopen : Open r u → ∃ state, t.get (.outbox (.state r.sequence)) = some state ∧
      state.generation = some r.generation ∧ state.status ≠ .processed)
    (hclosed : Closed r u →
      t.get (.outbox (.state r.sequence)) = u.get (.outbox (.state r.sequence))) :
    Evolves r u t := by
  intro p hp
  have hc : cursorOf t = cursorOf u := cursorOf_eq_of_get hcursor
  refine ⟨p, ⟨hp.generation_pos, hp.sequence_pos, hissued hp.issued, ?_, ?_, ?_,
    stagingAt_of_keeps r hkeeps hp.staging⟩, .refl p⟩
  · intro g hg
    rw [hkeeps (.outbox (.stage g)) trivial]
    exact hp.otherStages g hg
  · intro hpub
    have hu := hp.opened hpub
    refine ⟨hc.trans hu.cursor, hopen hu, ?_⟩
    rw [hkeeps (.outbox (.generation r.generation)) trivial]
    exact hu.unpublished
  · intro hpub
    have hu := hp.closed hpub
    refine ⟨hc ▸ hu.cursor, ?_, ?_⟩
    · rw [hclosed hu]
      exact hu.state
    · rw [hkeeps (.outbox (.generation r.generation)) trivial]
      exact hu.publication

/-! ### Claims -/

theorem WritesState.keepsStaging {sequence : Nat} {state : OutboxState}
    (h : WritesState u t sequence state) : KeepsStaging u t := by
  intro k hk
  refine h.frame k ?_ ?_
  · rintro rfl
    exact hk
  · rintro name rfl
    exact hk

/-- Managing claims leaves the course where it is, and no old token comes to own the sequence. -/
theorem StateStep.courseStep (h : StateStep u t) : CourseStep r none u t := by
  cases h with
  | same h => exact h ▸ .refl r none u
  | @claim state claimed hstate hstatus hwrites _ _ hclaimed hgeneration htoken huuids =>
    have hother : cursorOf u ≠ r.sequence →
        t.get (.outbox (.state r.sequence)) = u.get (.outbox (.state r.sequence)) :=
      fun hne => hwrites.frame _ (by simpa using Ne.symm hne) (by simp)
    refine ⟨by omega, evolves_of_states r hwrites.keepsStaging
      (hwrites.frame _ (by simp) (by simp)) ?_ ?_ ?_, ?_⟩
    · intro hissued found token hfound hfoundToken
      by_cases hcursor : cursorOf u = r.sequence
      · have hwritten := hwrites.written
        rw [hcursor, hfound, Option.some.injEq] at hwritten
        subst hwritten
        rw [htoken, Option.some.injEq] at hfoundToken
        subst hfoundToken
        exact huuids ▸ Nat.lt_succ_self _
      · rw [hother hcursor] at hfound
        have := hissued found token hfound hfoundToken
        omega
    · intro hopen
      obtain ⟨stored, hstored, hkept, _⟩ := hopen.state
      refine ⟨claimed, hopen.cursor ▸ hwrites.written, hgeneration _ ?_, by simp [hclaimed]⟩
      rw [hopen.cursor] at hstate
      rcases (normalizeState_eq_ok hstate).2.2 with h | ⟨h, _⟩
      · rw [hstored, Option.some.injEq] at h
        exact h ▸ hkept
      · rw [hstored] at h
        cases h
    · intro hclosed
      exact hother hclosed.cursor.ne'
    · rintro token - hlt ⟨found, hfound, hfoundToken⟩
      by_cases hcursor : cursorOf u = r.sequence
      · have hwritten := hwrites.written
        rw [hcursor, hfound, Option.some.injEq] at hwritten
        subst hwritten
        rw [htoken, Option.some.injEq] at hfoundToken
        subst hfoundToken
        exact absurd hlt (lt_irrefl _)
      · rw [hother hcursor] at hfound
        exact ⟨⟨found, hfound, hfoundToken⟩, hwrites.keepsStaging⟩
  | @update sequence state updated hget hstatus hwrites _ _ hupdated hgeneration htoken huuids =>
    have hother : sequence ≠ r.sequence →
        t.get (.outbox (.state r.sequence)) = u.get (.outbox (.state r.sequence)) :=
      fun hne => hwrites.frame _ (by simpa using Ne.symm hne) (by simp)
    -- A token that is stored afterwards was stored before.
    have hback : ∀ found token, t.get (.outbox (.state r.sequence)) = some found →
        found.claimToken = some token → OwnsSequence r token u := by
      intro found token hfound hfoundToken
      by_cases hsequence : sequence = r.sequence
      · have hwritten := hwrites.written
        rw [hsequence, hfound, Option.some.injEq] at hwritten
        subst hwritten
        rcases htoken with h | h
        · exact ⟨state, hsequence ▸ hget, h ▸ hfoundToken⟩
        · rw [h] at hfoundToken
          cases hfoundToken
      · exact ⟨found, hother hsequence ▸ hfound, hfoundToken⟩
    refine ⟨huuids.ge, evolves_of_states r hwrites.keepsStaging
      (hwrites.frame _ (by simp) (by simp)) ?_ ?_ ?_, ?_⟩
    · intro hissued found token hfound hfoundToken
      obtain ⟨old, hold, holdToken⟩ := hback found token hfound hfoundToken
      have := hissued old token hold holdToken
      omega
    · intro hopen
      obtain ⟨stored, hstored, hkept, hunprocessed⟩ := hopen.state
      by_cases hsequence : sequence = r.sequence
      · rw [hsequence, hstored, Option.some.injEq] at hget
        subst hget
        exact ⟨updated, hsequence ▸ hwrites.written, hgeneration.trans hkept, hupdated⟩
      · exact ⟨stored, (hother hsequence).trans hstored, hkept, hunprocessed⟩
    · intro hclosed
      refine hother fun hsequence => ?_
      obtain ⟨stored, hstored, hprocessed, _⟩ := hclosed.state
      rw [hsequence, hstored, Option.some.injEq] at hget
      rw [hget, hstatus] at hprocessed
      cases hprocessed
    · rintro token - - ⟨found, hfound, hfoundToken⟩
      exact ⟨hback found token hfound hfoundToken, hwrites.keepsStaging⟩

/-! ### Under the claim -/

variable {r}
  {plan : GenerationPlan} {header : TabletsHeader} {u t : World} {token : Uuid} {w : World}
  {n : Nat}

theorem OwnsSequence.not_closed (h : OwnsSequence r token w) : ¬ Closed r w := by
  intro hclosed
  obtain ⟨state, hstate, htoken⟩ := h
  obtain ⟨stored, hstored, _, hnone⟩ := hclosed.state
  rw [hstored, Option.some.injEq] at hstate
  rw [hstate, htoken] at hnone
  cases hnone

variable {mutations : List SerializedMutation} {p : Phase} {generation sequence : Nat}
  {tablet : Tablet} {retain : Nat}

theorem InPhase.not_published (hp : InPhase r p w) (howns : OwnsSequence r token w) :
    ¬ p.IsPublished :=
  fun h => howns.not_closed (hp.closed h)

/-- A claim that finds no stage header finds nothing staged. -/
theorem InPhase.eq_unstaged (hp : InPhase r p w) (howns : OwnsSequence r token w)
    (hnone : w.get (.outbox (.stage r.generation)) = none) : p = .unstaged := by
  cases p with
  | unstaged => rfl
  | staged plan header n =>
    have hstage := hp.staging.2.1
    rw [hnone] at hstage
    cases hstage
  | published => exact absurd trivial (hp.not_published howns)
  | done => exact absurd trivial (hp.not_published howns)

theorem InPhase.not_open_and_closed {p' : Phase} (hp : InPhase r p w) (hp' : InPhase r p' w)
    (hopen : ¬ p.IsPublished) : ¬ p'.IsPublished := by
  intro hclosed
  have h₁ := (hp.opened hopen).cursor
  have h₂ := (hp'.closed hclosed).cursor
  omega

theorem TabletsPlan.header_eq {codec : PlanCodec} {plan' : GenerationPlan}
    {header' : TabletsHeader}
    (h : TabletsPlan codec generation sequence mutations plan header)
    (h' : TabletsPlan codec generation sequence mutations plan' header')
    (hsame : some plan.toStagePlan = some plan'.toStagePlan) : header' = header := by
  have hmode : plan.mode = plan'.mode := by rw [Option.some.inj hsame]
  rw [h.mode, h'.mode] at hmode
  exact (PlanMode.tablets.inj hmode).symm

/-- The stage records determine the phase, up to tablets that are gone. -/
theorem InPhase.eq_staged (hp : InPhase r (.staged plan header n) w) (hp' : InPhase r p w) :
    ∃ plan', p = .staged plan' header n := by
  obtain ⟨hplan, hstage, _, happlied, _⟩ := hp.staging
  have hnot := hp.not_open_and_closed hp' id
  cases p with
  | unstaged =>
    have hnone := hp'.staging.1
    rw [hstage] at hnone
    cases hnone
  | staged plan' header' n' =>
    obtain ⟨hplan', hstage', _, happlied', _⟩ := hp'.staging
    have hn : n' = n := by
      have h₁ := ((happlied' n').mpr le_rfl)
      have h₂ := ((happlied n).mpr le_rfl)
      rw [happlied] at h₁
      rw [happlied'] at h₂
      omega
    obtain rfl := hplan.header_eq hplan' (hstage.symm.trans hstage')
    exact ⟨plan', by rw [hn]⟩
  | published => exact absurd trivial hnot
  | done => exact absurd trivial hnot

theorem InPhase.eq_published (hp : InPhase r (.published plan header n) w) (hp' : InPhase r p w) :
    ∃ plan', p = .published plan' header n := by
  obtain ⟨hplan, hstage, _, _, ⟨ready, hready, hordinal⟩, _⟩ := hp.staging
  have hnot : p.IsPublished := by
    by_contra h
    exact hp'.not_open_and_closed hp h trivial
  cases p with
  | unstaged => exact absurd hnot id
  | staged => exact absurd hnot id
  | published plan' header' n' =>
    obtain ⟨hplan', hstage', _, _, ⟨ready', hready', hordinal'⟩, _⟩ := hp'.staging
    rw [hready, Option.some.injEq] at hready'
    subst hready'
    obtain rfl := hplan.header_eq hplan' (hstage.symm.trans hstage')
    exact ⟨plan', by rw [← hordinal, hordinal']⟩
  | done =>
    have hnone := hp'.staging.1
    rw [hstage] at hnone
    cases hnone

/-- Only stage records of the generation and derived records are written. -/
structure WritesStage (r : TabletRun) (u t : World) : Prop where
  frame : ∀ k, (∀ text, k ≠ .derived text) → k ≠ .outbox (.stage r.generation) →
    (∀ i, k ≠ .outbox (.stageTablet r.generation i)) →
    (∀ i, k ≠ .outbox (.stageApplied r.generation i)) → k ≠ .outbox (.stageReady r.generation) →
      t.get k = u.get k
  uuids : t.uuids = u.uuids

theorem WritesStage.state (h : WritesStage r u t) :
    t.get (.outbox (.state r.sequence)) = u.get (.outbox (.state r.sequence)) :=
  h.frame _ (by simp) (by simp) (by simp) (by simp) (by simp)

theorem WritesStage.ownsSequence_iff (h : WritesStage r u t) (token : Uuid) :
    OwnsSequence r token t ↔ OwnsSequence r token u := by
  rw [OwnsSequence, OwnsSequence, h.state]

/-- Writing stage records moves between phases on the same side of the publication. -/
theorem WritesStage.inPhase {p' : Phase} (h : WritesStage r u t) (hp : InPhase r p u)
    (hpublished : p'.IsPublished ↔ p.IsPublished) (hstaging : StagingAt r p' t) :
    InPhase r p' t := by
  have hcursor : cursorOf t = cursorOf u :=
    cursorOf_eq_of_get (h.frame _ (by simp) (by simp) (by simp) (by simp) (by simp))
  have hgeneration : t.get (.outbox (.generation r.generation)) =
      u.get (.outbox (.generation r.generation)) :=
    h.frame _ (by simp) (by simp) (by simp) (by simp) (by simp)
  refine ⟨hp.generation_pos, hp.sequence_pos, ?_, ?_, ?_, ?_, hstaging⟩
  · intro state token hstate htoken
    rw [h.state] at hstate
    exact h.uuids ▸ hp.issued state token hstate htoken
  · intro g hg
    rw [h.frame _ (by simp) (by simpa using hg) (by simp) (by simp) (by simp)]
    exact hp.otherStages g hg
  · intro hopen
    have hu := hp.opened (hpublished.not.mp hopen)
    exact ⟨hcursor.trans hu.cursor, h.state ▸ hu.state, hgeneration.trans hu.unpublished⟩
  · intro hclosed
    have hu := hp.closed (hpublished.mp hclosed)
    exact ⟨hcursor ▸ hu.cursor, h.state ▸ hu.state, hgeneration ▸ hu.publication⟩

/-- A write under the claim `token` is a step if it moves every phase it can be taken in forward. -/
theorem WritesStage.courseStep (h : WritesStage r u t) (howns : OwnsSequence r token u)
    (hevolves : ∀ p, InPhase r p u → ∃ p', InPhase r p' t ∧ p.Le p') :
    CourseStep r (some token) u t := by
  refine ⟨h.uuids.ge, hevolves, fun other hne _ hother => absurd ?_ hne⟩
  obtain ⟨state, hstate, htoken⟩ := howns
  obtain ⟨found, hfound, hfoundToken⟩ := (h.ownsSequence_iff other).mp hother
  rw [hstate, Option.some.injEq] at hfound
  rw [← hfoundToken, ← hfound, htoken]

/-- Nothing that is read back changed. -/
theorem courseStep_of_same {mine : Option Uuid} (hget : ∀ k, t.get k = u.get k)
    (huuids : t.uuids = u.uuids) : CourseStep r mine u t := by
  have hw : WritesStage r u t := ⟨fun k _ _ _ _ _ => hget k, huuids⟩
  refine ⟨huuids.ge, fun p hp => ⟨p, hw.inPhase hp Iff.rfl ?_, .refl p⟩, fun token _ _ h =>
    ⟨(hw.ownsSequence_iff token).mp h, fun k _ => hget k⟩⟩
  exact stagingAt_of_keeps r (fun k _ => hget k) hp.staging

/-- While nothing is staged, tablets come and go. -/
theorem courseStep_of_tablets (howns : OwnsSequence r token u)
    (hnone : u.get (.outbox (.stage r.generation)) = none)
    (hframe : ∀ k, (∀ i, k ≠ .outbox (.stageTablet r.generation i)) → t.get k = u.get k)
    (huuids : t.uuids = u.uuids) : CourseStep r (some token) u t := by
  have hw : WritesStage r u t := ⟨fun k _ _ hk _ _ => hframe k hk, huuids⟩
  refine hw.courseStep howns fun p hp => ?_
  obtain rfl := hp.eq_unstaged howns hnone
  obtain ⟨hstage, happlied, hready, hderived⟩ := hp.staging
  refine ⟨.unstaged, hw.inPhase hp Iff.rfl ⟨?_, fun i => ?_, ?_, ?_⟩, .refl _⟩
  · rw [hframe _ (by simp)]
    exact hstage
  · rw [hframe _ (by simp)]
    exact happlied i
  · rw [hframe _ (by simp)]
    exact hready
  · rw [← hderived]
    exact funext fun text => hframe _ (by simp)

/-! ### Moving forward -/

theorem InPhase.stageHeader (hp : InPhase r .unstaged u)
    (hplan : TabletsPlan r.codec r.generation r.sequence r.mutations plan header)
    (htablets : ∀ i, u.get (.outbox (.stageTablet r.generation i)) = plan.tabletRecords[i]?) :
    InPhase r (.staged plan header 0) (u.put (.outbox (.stage r.generation)) plan.toStagePlan) := by
  obtain ⟨_, happlied, hready, hderived⟩ := hp.staging
  have hw : WritesStage r u (u.put (.outbox (.stage r.generation)) plan.toStagePlan) :=
    ⟨fun k _ hk _ _ _ => get_put_of_ne hk _ _, rfl⟩
  refine hw.inPhase hp Iff.rfl ⟨hplan, World.get_put_self _ _ _, fun i => ?_, fun i => ?_,
    fun ready hsome => ?_, Nat.zero_le _, ?_⟩
  · rw [get_put_of_ne (by simp)]
    exact htablets i
  · rw [get_put_of_ne (by simp)]
    simp [happlied i]
  · rw [get_put_of_ne (by simp), hready] at hsome
    cases hsome
  · have hsame : derivedOf (u.put (.outbox (.stage r.generation)) plan.toStagePlan) =
        derivedOf u := funext fun text => get_put_of_ne (by simp) _ _
    rw [hsame, hderived]
    rfl

theorem tabletPhase_succ {phase : StagePhase} (h : plan.tabletRecords[n]? = some tablet) :
    tabletPhase phase plan (n + 1) = tabletPhase phase plan n ++ inPhase phase tablet.mutations := by
  rw [tabletPhase, tabletPhase, List.take_add_one, h, Option.toList_some, mutationsOf, mutationsOf,
    List.flatMap_append, inPhase, List.filter_append]
  simp [inPhase]

theorem tabletPhase_all {codec : PlanCodec} {phase : StagePhase}
    (hplan : TabletsPlan codec generation sequence mutations plan header)
    (hphase : phase ≠ .publish) :
    tabletPhase phase plan header.tabletCount = inPhase phase mutations := by
  rw [tabletPhase, hplan.tabletCount, List.take_length, hplan.tablets,
    inPhase_tabletMutations hphase]

theorem runMutations_append {derived derived' derived'' : String → Option String}
    {l l' : List SerializedMutation} (h : runMutations derived l = some derived')
    (h' : runMutations derived' l' = some derived'') :
    runMutations derived (l ++ l') = some derived'' := by
  simpa only [runMutations, applyAll_append, h, Option.bind_some] using h'

theorem InPhase.applyTablet {v : World} {marker : StageApplied}
    (hp : InPhase r (.staged plan header n) u)
    (htablet : u.get (.outbox (.stageTablet r.generation n)) = some tablet)
    (happly : AppliesMutations (ContextStore.inPhase .prepare tablet.mutations) u v) :
    InPhase r (.staged plan header (n + 1))
      (v.put (.outbox (.stageApplied r.generation n)) marker) := by
  obtain ⟨hplan, hstage, htablets, happlied, hready, hle, hderived⟩ := hp.staging
  have hw : WritesStage r u (v.put (.outbox (.stageApplied r.generation n)) marker) := by
    refine ⟨fun k hk _ _ hkApplied _ => ?_, happly.uuids⟩
    rw [get_put_of_ne (hkApplied n), happly.frame k hk]
  have hrecord : plan.tabletRecords[n]? = some tablet := (htablets n).symm.trans htablet
  have hlt : n < header.tabletCount :=
    hplan.tabletCount ▸ (List.getElem?_eq_some_iff.mp hrecord).1
  refine hw.inPhase hp Iff.rfl ⟨hplan, ?_, fun i => ?_, fun i => ?_, fun ready hsome => ?_, hlt, ?_⟩
  · rw [get_put_of_ne (by simp), happly.frame _ (by simp)]
    exact hstage
  · rw [get_put_of_ne (by simp), happly.frame _ (by simp)]
    exact htablets i
  · by_cases hi : i = n
    · subst hi
      rw [World.get_put_self]
      simp
    · rw [get_put_of_ne (by simpa using hi), happly.frame _ (by simp), happlied i]
      omega
  · rw [get_put_of_ne (by simp), happly.frame _ (by simp)] at hsome
    have := (hready ready hsome).1
    omega
  · have hsame : derivedOf (v.put (.outbox (.stageApplied r.generation n)) marker) =
        derivedOf v := funext fun text => get_put_of_ne (by simp) _ _
    rw [hsame, tabletPhase_succ hrecord]
    exact runMutations_append hderived happly.derived

theorem InPhase.markReady {ready : StageReady}
    (hp : InPhase r (.staged plan header header.tabletCount) u)
    (hordinal : ready.cleanupOrdinal = none) :
    InPhase r (.staged plan header header.tabletCount)
      (u.put (.outbox (.stageReady r.generation)) ready) := by
  obtain ⟨hplan, hstage, htablets, happlied, hready, hle, hderived⟩ := hp.staging
  have hw : WritesStage r u (u.put (.outbox (.stageReady r.generation)) ready) :=
    ⟨fun k _ _ _ _ hk => get_put_of_ne hk _ _, rfl⟩
  refine hw.inPhase hp Iff.rfl ⟨hplan, ?_, fun i => ?_, fun i => ?_, fun found hsome => ?_, le_rfl,
    ?_⟩
  · rw [get_put_of_ne (by simp)]
    exact hstage
  · rw [get_put_of_ne (by simp)]
    exact htablets i
  · rw [get_put_of_ne (by simp)]
    exact happlied i
  · rw [World.get_put_self, Option.some.injEq] at hsome
    exact ⟨rfl, hsome ▸ hordinal⟩
  · have hsame : derivedOf (u.put (.outbox (.stageReady r.generation)) ready) = derivedOf u :=
      funext fun text => get_put_of_ne (by simp) _ _
    rw [hsame]
    exact hderived

theorem InPhase.publish {v : World} {claim : Claim} {state : OutboxState} {ready : StageReady}
    (hp : InPhase r (.staged plan header n) u) (hsequence : claim.sequence = r.sequence)
    (hgeneration : claim.generation = r.generation)
    (hready : u.get (.outbox (.stageReady r.generation)) = some ready)
    (happly : AppliesMutations header.publicationMutations u v)
    (hrecords : RecordsPublication claim state v t) : InPhase r (.published plan header 0) t := by
  obtain ⟨hplan, hstage, htablets, happlied, hmarker, hle, hderived⟩ := hp.staging
  obtain ⟨rfl, hordinal⟩ := hmarker ready hready
  have hkeep : ∀ k, (∀ text, k ≠ .derived text) →
      k ≠ .outbox (.generation claim.generation) → k ≠ .outbox .publishedGeneration →
      k ≠ .outbox .preparationMetrics → k ≠ .outbox .cursor →
      k ≠ .outbox (.state claim.sequence) → t.get k = u.get k := by
    intro k hk h₁ h₂ h₃ h₄ h₅
    rw [hrecords.frame k h₁ h₂ h₃ h₄ h₅, happly.frame k hk]
  obtain ⟨processed, hprocessed, _, _, hstatus, htoken⟩ := hrecords.processed
  obtain ⟨publication, hpublication, houtbox⟩ := hrecords.publication
  rw [hsequence] at hprocessed houtbox
  rw [hgeneration] at hpublication
  have hcursor := hrecords.cursor
  refine ⟨hp.generation_pos, hp.sequence_pos, ?_, ?_, fun h => absurd trivial h, fun _ =>
    ⟨by omega, ⟨processed, hprocessed, hstatus, htoken⟩, ⟨publication, hpublication, houtbox⟩⟩,
    ⟨hplan, ?_, fun i => ?_, fun i hi => ?_, ⟨ready, ?_, ?_⟩, Nat.zero_le _, ?_⟩⟩
  · intro found token hfound hfoundToken
    rw [hprocessed, Option.some.injEq] at hfound
    rw [← hfound, htoken] at hfoundToken
    cases hfoundToken
  · intro g hg
    rw [hkeep _ (by simp) (by simp) (by simp) (by simp) (by simp) (by simp)]
    exact hp.otherStages g hg
  · rw [hkeep _ (by simp) (by simp) (by simp) (by simp) (by simp) (by simp)]
    exact hstage
  · rw [hkeep _ (by simp) (by simp) (by simp) (by simp) (by simp) (by simp), if_pos (Nat.zero_le i)]
    exact htablets i
  · rw [hkeep _ (by simp) (by simp) (by simp) (by simp) (by simp) (by simp), happlied i]
    omega
  · rw [hkeep _ (by simp) (by simp) (by simp) (by simp) (by simp) (by simp)]
    exact hready
  · rw [hordinal]
    rfl
  · have hsame : derivedOf t = derivedOf v :=
      funext fun text => hrecords.frame _ (by simp) (by simp) (by simp) (by simp) (by simp)
    have hpublish := happly.derived
    rw [tabletPhase_all hplan (by simp)] at hderived
    rw [hplan.publication] at hpublish
    rw [hsame]
    have hnil : tabletPhase .cleanup plan 0 = [] := rfl
    rw [publishedMutations, hnil, List.append_nil]
    exact runMutations_append hderived hpublish

theorem InPhase.cleanupTablet {v : World} (ready : StageReady)
    (hp : InPhase r (.published plan header n) u)
    (htablet : u.get (.outbox (.stageTablet r.generation n)) = some tablet)
    (happly : AppliesMutations (ContextStore.inPhase .cleanup tablet.mutations) u v) :
    InPhase r (.published plan header (n + 1))
      (((v.remove (.outbox (.stageTablet r.generation n))).remove
        (.outbox (.stageApplied r.generation n))).put (.outbox (.stageReady r.generation))
          { ready with cleanupOrdinal := some (n + 1) }) := by
  obtain ⟨hplan, hstage, htablets, happlied, hready, hle, hderived⟩ := hp.staging
  have hw : WritesStage r u (((v.remove (.outbox (.stageTablet r.generation n))).remove
      (.outbox (.stageApplied r.generation n))).put (.outbox (.stageReady r.generation))
        { ready with cleanupOrdinal := some (n + 1) }) := by
    refine ⟨fun k hk _ hkTablet hkApplied hkReady => ?_, happly.uuids⟩
    rw [get_put_of_ne hkReady, get_remove_of_ne (hkApplied n),
      get_remove_of_ne (hkTablet n), happly.frame k hk]
  have hrecord : plan.tabletRecords[n]? = some tablet := by
    rw [← htablet, htablets n, if_pos le_rfl]
  have hlt : n < header.tabletCount :=
    hplan.tabletCount ▸ (List.getElem?_eq_some_iff.mp hrecord).1
  refine hw.inPhase hp Iff.rfl ⟨hplan, ?_, fun i => ?_, fun i hi => ?_,
    ⟨_, World.get_put_self _ _ _, rfl⟩, hlt, ?_⟩
  · rw [get_put_of_ne (by simp), get_remove_of_ne (by simp),
      get_remove_of_ne (by simp), happly.frame _ (by simp)]
    exact hstage
  · rw [get_put_of_ne (by simp), get_remove_of_ne (by simp)]
    by_cases hi : i = n
    · subst hi
      rw [World.get_remove_self, if_neg (by omega)]
    · rw [get_remove_of_ne (by simpa using hi), happly.frame _ (by simp), htablets i]
      by_cases hni : n ≤ i
      · rw [if_pos hni, if_pos (by omega)]
      · rw [if_neg hni, if_neg (by omega)]
  · rw [get_put_of_ne (by simp)]
    by_cases hin : i = n
    · subst hin
      exact World.get_remove_self _ _
    · rw [get_remove_of_ne (by simpa using hin), get_remove_of_ne (by simp),
        happly.frame _ (by simp)]
      exact happlied i (by omega)
  · have hsame : derivedOf (((v.remove (.outbox (.stageTablet r.generation n))).remove
        (.outbox (.stageApplied r.generation n))).put (.outbox (.stageReady r.generation))
          { ready with cleanupOrdinal := some (n + 1) }) = derivedOf v := by
      funext text
      exact (get_put_of_ne (by simp) _ _).trans <|
        (get_remove_of_ne (by simp) _).trans (get_remove_of_ne (by simp) _)
    rw [hsame, publishedMutations, tabletPhase_succ hrecord, ← List.append_assoc,
      ← List.append_assoc]
    refine runMutations_append ?_ happly.derived
    rw [List.append_assoc]
    exact hderived

theorem RemovesStage.inPhase_done (h : RemovesStage r.generation retain r.sequence u t)
    (hretain : 0 < retain) (hp : InPhase r p u) (hpublished : p.IsPublished)
    (htablets : ∀ i, u.get (.outbox (.stageTablet r.generation i)) = none)
    (happlied : ∀ i, u.get (.outbox (.stageApplied r.generation i)) = none)
    (hderived : runMutations r.derived r.mutations = some (derivedOf u)) : InPhase r .done t := by
  have hclosed := hp.closed hpublished
  have hgeneration_pos := hp.generation_pos
  have hsequence_pos := hp.sequence_pos
  -- What is pruned lies behind the generation and its sequence.
  have hstate := h.states r.sequence (by omega)
  have hgeneration := h.generations r.generation (by omega)
  refine ⟨hp.generation_pos, hp.sequence_pos, ?_, ?_, fun hopen => absurd trivial hopen,
    fun _ => ⟨?_, hstate ▸ hclosed.state, hgeneration ▸ hclosed.publication⟩,
    ⟨h.stage, fun i => ?_, fun i => ?_, h.ready, ?_⟩⟩
  · intro state token hfound htoken
    rw [hstate] at hfound
    exact h.uuids ▸ hp.issued state token hfound htoken
  · intro g hg
    rw [h.frame _ (by simpa using hg) (by simp) (by simp) (by simp) (by simp)]
    exact hp.otherStages g hg
  · rw [cursorOf_eq_of_get (h.frame _ (by simp) (by simp) (by simp) (by simp) (by simp))]
    exact hclosed.cursor
  · rw [h.frame _ (by simp) (by simp) (by simp) (by simp) (by simp)]
    exact htablets i
  · rw [h.frame _ (by simp) (by simp) (by simp) (by simp) (by simp)]
    exact happlied i
  · have hsame : derivedOf t = derivedOf u :=
      funext fun text => h.frame _ (by simp) (by simp) (by simp) (by simp) (by simp)
    rw [hsame]
    exact hderived

theorem InPhase.removeStage (hp : InPhase r (.published plan header header.tabletCount) u)
    (hretain : 0 < retain) (h : RemovesStage r.generation retain r.sequence u t) :
    InPhase r .done t := by
  obtain ⟨hplan, _, htablets, happlied, _, _, hderived⟩ := hp.staging
  refine h.inPhase_done hretain hp trivial (fun i => ?_) (fun i => happlied i (lt_or_ge i _)) ?_
  · rw [htablets i]
    split
    · next hle => exact List.getElem?_eq_none (hplan.tabletCount ▸ hle)
    · rfl
  · rw [← hderived, publishedMutations, tabletPhase_all hplan (by simp),
      runMutations_phases r.codec r.normalized]

/-- Removing a stage that is gone changes nothing about it. -/
theorem InPhase.removeStage_done (hp : InPhase r .done u) (hretain : 0 < retain)
    (h : RemovesStage r.generation retain r.sequence u t) : InPhase r .done t := by
  obtain ⟨_, htablets, happlied, _, hderived⟩ := hp.staging
  exact h.inPhase_done hretain hp trivial htablets happlied hderived

end ContextStore
