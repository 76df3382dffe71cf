import Mathlib.Order.Interval.Set.Basic
import ContextStore.Store.CommitFacts

/-! # The ledger of commits

Any set of processes that call `commitCanonical`, with resubmissions and crashes. The commits that
took effect are read off the history; the markers, the outbox entries and the ordinal records are
shown to agree with them (`Ledger`), step by step, and from this follow the replay of resubmitted
requests, the density of the sequences and the bijection between ordinals and documents.

The store's own keys are reserved: a request that writes the outbox counter, say, gets whatever
sequence it asked for (`commit_writing_counter`). -/

namespace ContextStore

open Concurrent

variable (codec : CommitCodec)

/-! ## The commits of a history -/

structure EffectiveCommit where
  content : List ContentEntry
  admission : Option DocumentIdentity
  result : CommitResult

def Event.effectiveCommit : Event → Option EffectiveCommit
  | .committed content admission result => some { content, admission, result }
  | _ => none

/-- The commits that took effect, in order. -/
def effectiveCommits (w : World) : List EffectiveCommit :=
  w.history.filterMap Event.effectiveCommit

def admittedDocuments (w : World) : Set DocumentIdentity :=
  {document | ∃ commit ∈ effectiveCommits w, commit.admission = some document}

def ordinalOf (w : World) (document : DocumentIdentity) : Nat :=
  ((assignmentOf w document).map (·.ordinal)).getD 0

def DocumentOrdinal.identity (assignment : DocumentOrdinal) : DocumentIdentity where
  project := assignment.project
  documentId := assignment.documentId
  documentVersion := assignment.documentVersion

/-- The commit of a prepared request, as the history records it. -/
def PreparedCommit.effective (prepared : PreparedCommit) (result : CommitResult) :
    EffectiveCommit where
  content := prepared.content
  admission := prepared.derivedView.map (·.identity)
  result

theorem Commits.effectiveCommits {prepared : PreparedCommit} {committedAt : Nat} {u t : World}
    {result : CommitResult} (h : Commits prepared committedAt [] u t result) :
    effectiveCommits t = effectiveCommits u ++ [prepared.effective result] := by
  rw [ContextStore.effectiveCommits, h.history, List.filterMap_append]
  rfl

/-! ## The invariant -/

/-- Ordinals are numbered without gaps, and belong to the documents of `admitted`. -/
structure OrdinalsAssigned (admitted : Set DocumentIdentity) (w : World) : Prop where
  assigned : ∀ document assignment, assignmentOf w document = some assignment →
    document ∈ admitted ∧ assignment.identity = document ∧ 1 ≤ assignment.ordinal ∧
      assignment.ordinal ≤ ordinalCounter w ∧
      w.get (.derivedView (.ordinal assignment.ordinal)) = some assignment
  dense : ∀ n, 1 ≤ n → n ≤ ordinalCounter w → ∃ document assignment,
    assignmentOf w document = some assignment ∧ assignment.ordinal = n
  complete : ∀ document ∈ admitted, ∃ assignment, assignmentOf w document = some assignment

/-- Sequences are numbered without gaps, each commit has one, and each commit reports the ordinal of
    the document it admits. -/
structure Numbered (w : World) : Prop where
  sequences : (effectiveCommits w).map (·.result.outboxSequence) = List.range' 1 (outboxCounter w)
  entries : ∀ sequence, (w.get (.outbox (.entry sequence))).isSome ↔
    1 ≤ sequence ∧ sequence ≤ outboxCounter w
  ordinals : OrdinalsAssigned (admittedDocuments w) w
  reported : ∀ commit ∈ effectiveCommits w,
    commit.result.documentOrdinal = commit.admission.map (ordinalOf w)

/-- Each commit of the history has its marker, each marker its commit, and each commit comes from a
    submitted request. -/
structure Marked (submitted : CanonicalCommit → Prop) (w : World) : Prop where
  requests : ((effectiveCommits w).map (·.result.requestId)).Nodup
  marked : ∀ commit ∈ effectiveCommits w, ∃ committedAt,
    w.get (.idempotency commit.result.requestId) = some (commit.result.marker committedAt)
  marks : ∀ requestId marker, w.get (.idempotency requestId) = some marker →
    ∃ commit ∈ effectiveCommits w, commit.result.requestId = requestId
  submissions : ∀ commit ∈ effectiveCommits w, ∃ request prepared, submitted request ∧
    prepareCommit codec request = .ok prepared ∧ commit = prepared.effective commit.result ∧
    commit.result.requestId = prepared.requestId ∧
    commit.result.fingerprint = prepared.fingerprint

/-- The request writes no key of the store's own. -/
def CanonicalCommit.Ordinary (commit : CanonicalCommit) : Prop :=
  (∀ entry ∈ commit.records, entry.1.storeOwned = false) ∧
    ∀ transition ∈ commit.transitions, transition.key.storeOwned = false

theorem CanonicalCommit.Ordinary.prepared {commit : CanonicalCommit} {prepared : PreparedCommit}
    (h : commit.Ordinary) (hprepared : prepareCommit codec commit = .ok prepared) :
    prepared.Ordinary := by
  obtain ⟨_, hrecords, htransitions, _⟩ := prepareCommit_eq_ok codec hprepared
  rintro k (⟨guard, _, rfl⟩ | ⟨entry, hentry, rfl⟩ | ⟨transition, htransition, rfl⟩)
  · rfl
  · rw [hrecords, mem_sortEntries] at hentry
    exact h.1 entry hentry
  · rw [htransitions, mem_sortTransitions] at htransition
    exact h.2 transition htransition

/-! ## What one commit preserves -/

section Step

variable {prepared : PreparedCommit} {committedAt : Nat} {u t : World} {result : CommitResult}
  {view : Option DerivedViewAdmission} {ordinal : Option Nat}

/-- An assigned ordinal is never taken back or changed. -/
theorem OrdinalStep.assignment_kept (h : OrdinalStep u t view ordinal)
    {document : DocumentIdentity} {assignment : DocumentOrdinal}
    (hget : assignmentOf u document = some assignment) :
    assignmentOf t document = some assignment := by
  cases h with
  | none h => rw [h.documents, hget]
  | existing _ _ h => rw [h.documents, hget]
  | fresh h =>
    rw [h.documents document ?_, hget]
    rintro rfl
    rw [h.unassigned] at hget
    cases hget

/-- The ordinal a commit reports is the one its document has afterwards. -/
theorem OrdinalStep.reported (h : OrdinalStep u t view ordinal) :
    ordinal = (view.map (·.identity)).map (ordinalOf t) := by
  cases h with
  | none h => rfl
  | existing hget _ h => simp [ordinalOf, h.documents, hget]
  | fresh h => simp [ordinalOf, h.document, createDocumentOrdinal]

variable {admitted : Set DocumentIdentity}

theorem KeepsOrdinals.ordinalsAssigned (h : KeepsOrdinals u t) (hu : OrdinalsAssigned admitted u) :
    OrdinalsAssigned admitted t := by
  have hcounter : ordinalCounter t = ordinalCounter u := by
    rw [ordinalCounter, ordinalCounter, h.counter]
  constructor
  · simpa only [h.documents, h.ordinals, hcounter] using hu.assigned
  · simpa only [h.documents, hcounter] using hu.dense
  · simpa only [h.documents] using hu.complete

theorem AssignsOrdinal.ordinalsAssigned {view : DerivedViewAdmission} {n : Nat}
    (h : AssignsOrdinal view n u t) (hu : OrdinalsAssigned admitted u) :
    OrdinalsAssigned (admitted ∪ {view.identity}) t := by
  have hcounter : ordinalCounter t = n := by
    rw [ordinalCounter, h.counter]
    rfl
  have hnext := h.next
  refine ⟨fun document assignment hget => ?_, fun m hpos hle => ?_, ?_⟩
  · by_cases hdocument : document = view.identity
    · subst hdocument
      obtain rfl : createDocumentOrdinal view n = assignment :=
        Option.some.inj (h.document.symm.trans hget)
      exact ⟨Or.inr rfl, rfl, hnext ▸ Nat.le_add_left 1 _, hcounter.ge, h.ordinal⟩
    · rw [h.documents document hdocument] at hget
      obtain ⟨hmem, hid, hpos, hle, hord⟩ := hu.assigned document assignment hget
      exact ⟨Or.inl hmem, hid, hpos, by omega, by rw [h.ordinals _ (by omega), hord]⟩
  · by_cases hm : m = n
    · exact ⟨_, _, h.document, hm.symm⟩
    · obtain ⟨document, assignment, hget, hordinal⟩ := hu.dense m hpos (by omega)
      exact ⟨document, assignment, (OrdinalStep.fresh h).assignment_kept hget, hordinal⟩
  · rintro document (hdocument | rfl)
    · obtain ⟨assignment, hget⟩ := hu.complete document hdocument
      exact ⟨assignment, (OrdinalStep.fresh h).assignment_kept hget⟩
    · exact ⟨_, h.document⟩

theorem OrdinalStep.ordinalsAssigned (h : OrdinalStep u t view ordinal)
    (hu : OrdinalsAssigned admitted u) :
    OrdinalsAssigned {document | document ∈ admitted ∨
      view.map (·.identity) = some document} t := by
  cases h with
  | none h => simpa using h.ordinalsAssigned hu
  | @existing view assignment hget hfits h =>
    have hmem : view.identity ∈ admitted := (hu.assigned _ _ hget).1
    have hset : {document | document ∈ admitted ∨
        (some view).map (·.identity) = some document} = admitted := by
      ext document
      simp only [Option.map_some, Option.some.injEq, Set.mem_ofPred_eq]
      exact ⟨fun hd => hd.elim id fun heq => heq ▸ hmem, Or.inl⟩
    rw [hset]
    exact h.ordinalsAssigned hu
  | @fresh view n h =>
    have hset : {document | document ∈ admitted ∨
        (some view).map (·.identity) = some document} = admitted ∪ {view.identity} := by
      ext document
      simp only [Option.map_some, Option.some.injEq, Set.mem_ofPred_eq, Set.mem_union,
        Set.mem_singleton_iff, eq_comm]
    rw [hset]
    exact h.ordinalsAssigned hu

theorem Commits.outboxCounter (h : Commits prepared committedAt [] u t result) :
    outboxCounter t = outboxCounter u + 1 := by
  rw [ContextStore.outboxCounter, h.counter]
  rfl

theorem Commits.admittedDocuments (h : Commits prepared committedAt [] u t result) :
    admittedDocuments t = {document | document ∈ admittedDocuments u ∨
      prepared.derivedView.map (·.identity) = some document} := by
  ext document
  simp only [ContextStore.admittedDocuments, h.effectiveCommits, List.mem_append,
    List.mem_singleton, Set.mem_ofPred_eq]
  constructor
  · rintro ⟨commit, hcommit | rfl, hadmission⟩
    · exact Or.inl ⟨commit, hcommit, hadmission⟩
    · exact Or.inr hadmission
  · rintro (⟨commit, hcommit, hadmission⟩ | hadmission)
    · exact ⟨commit, Or.inl hcommit, hadmission⟩
    · exact ⟨_, Or.inr rfl, hadmission⟩

theorem Numbered.commit (hu : Numbered u) (h : Commits prepared committedAt [] u t result) :
    Numbered t := by
  have hcommits := h.effectiveCommits
  have hcounter := h.outboxCounter
  have hsequence : result.outboxSequence = ContextStore.outboxCounter u + 1 :=
    congrArg CommitResult.outboxSequence h.shape
  refine ⟨?_, fun s => ?_, ?_, fun commit hcommit => ?_⟩
  · rw [hcommits, hcounter, List.map_append, hu.sequences, List.range'_1_concat]
    simp [PreparedCommit.effective, hsequence, Nat.add_comm]
  · by_cases hs : s = ContextStore.outboxCounter u + 1
    · subst hs
      rw [h.entry, hcounter]
      simp
    · rw [h.entries s hs, hu.entries s, hcounter]
      omega
  · rw [h.admittedDocuments]
    exact h.ordinals.ordinalsAssigned hu.ordinals
  · rw [hcommits, List.mem_append, List.mem_singleton] at hcommit
    rcases hcommit with hold | rfl
    · rw [hu.reported commit hold]
      -- The ordinal of a document that was admitted before stays.
      cases hadmission : commit.admission with
      | none => rfl
      | some document =>
        obtain ⟨assignment, hget⟩ := hu.ordinals.complete document ⟨commit, hold, hadmission⟩
        simp [ordinalOf, hget, h.ordinals.assignment_kept hget]
    · exact h.ordinals.reported

theorem Marked.fresh {submitted : CanonicalCommit → Prop} (hu : Marked codec submitted u)
    (h : Commits prepared committedAt [] u t result) :
    ∀ commit ∈ ContextStore.effectiveCommits u, commit.result.requestId ≠ prepared.requestId := by
  intro commit hcommit heq
  obtain ⟨at', hmarker⟩ := hu.marked commit hcommit
  rw [heq, h.unmarked] at hmarker
  cases hmarker

theorem Marked.commit {submitted : CanonicalCommit → Prop} {request : CanonicalCommit}
    (hu : Marked codec submitted u) (hsubmitted : submitted request)
    (hprepared : prepareCommit codec request = .ok prepared)
    (h : Commits prepared committedAt [] u t result) : Marked codec submitted t := by
  have hcommits := h.effectiveCommits
  have hfresh := hu.fresh codec h
  have hrequest : result.requestId = prepared.requestId :=
    congrArg CommitResult.requestId h.shape
  refine ⟨?_, fun commit hcommit => ?_, fun id marker hget => ?_, fun commit hcommit => ?_⟩
  · rw [hcommits, List.map_append]
    refine hu.requests.append (List.nodup_singleton _) fun id hid hnew => ?_
    obtain ⟨commit, hcommit, rfl⟩ := List.mem_map.mp hid
    refine hfresh commit hcommit ?_
    rw [← hrequest]
    exact List.mem_singleton.mp hnew
  · rw [hcommits, List.mem_append, List.mem_singleton] at hcommit
    rcases hcommit with hold | rfl
    · rw [h.markers _ (hfresh commit hold)]
      exact hu.marked commit hold
    · refine ⟨committedAt, ?_⟩
      rw [PreparedCommit.effective, hrequest]
      exact h.marker
  · by_cases hid : id = prepared.requestId
    · refine ⟨prepared.effective result, ?_, hrequest.trans hid.symm⟩
      rw [hcommits]
      exact List.mem_append_right _ List.mem_cons_self
    · rw [h.markers id hid] at hget
      obtain ⟨commit, hcommit, heq⟩ := hu.marks id marker hget
      exact ⟨commit, hcommits ▸ List.mem_append_left _ hcommit, heq⟩
  · rw [hcommits, List.mem_append, List.mem_singleton] at hcommit
    rcases hcommit with hold | rfl
    · exact hu.submissions commit hold
    · exact ⟨request, prepared, hsubmitted, hprepared, rfl, hrequest,
        congrArg CommitResult.fingerprint h.shape⟩

end Step

/-! ## All runs -/

/-- The store's own keys are unused, except that the derived view is initialised. -/
structure Pristine (w : World) : Prop where
  unused : ∀ k, k.storeOwned = true → k ≠ .derivedView .upgradeState → w.get k = none
  history : w.history = []

/-- Any set `τ` of processes that submit requests, each as often and in whatever order it likes. -/
def commitSystem (submitted : CanonicalCommit → Prop) (τ : Type) :
    System World τ StoreError CommitResult where
  initial := Pristine
  calls := fun _ _ p => ∃ request committedAt, submitted request ∧
    p = commitCanonical codec request committedAt []

theorem Pristine.numbered {w : World} (h : Pristine w) : Numbered w := by
  have hcommits : effectiveCommits w = [] := by
    rw [effectiveCommits, h.history]
    rfl
  have hunused : ∀ document, assignmentOf w document = none := fun _ => h.unused _ rfl (by simp)
  have hoverall : ordinalCounter w = 0 := by
    rw [ordinalCounter, h.unused _ rfl (by simp)]
    rfl
  refine ⟨?_, fun s => ?_, ⟨fun d a hget => ?_, fun n hpos hle => ?_, fun d hd => ?_⟩,
    fun commit hcommit => ?_⟩
  · rw [hcommits, outboxCounter, h.unused _ rfl (by simp)]
    rfl
  · rw [outboxCounter, h.unused _ rfl (by simp), h.unused _ rfl (by simp)]
    exact iff_of_false Bool.false_ne_true fun hs => absurd (hs.1.trans hs.2) (by decide)
  · rw [hunused] at hget
    cases hget
  · omega
  · obtain ⟨commit, hcommit, _⟩ := hd
    rw [hcommits] at hcommit
    cases hcommit
  · rw [hcommits] at hcommit
    cases hcommit

variable {submitted : CanonicalCommit → Prop} {request : CanonicalCommit}

theorem Pristine.marked {w : World} (h : Pristine w) : Marked codec submitted w := by
  have hcommits : effectiveCommits w = [] := by
    rw [effectiveCommits, h.history]
    rfl
  refine ⟨by simp [hcommits], by simp [hcommits], fun id marker hget => ?_, by simp [hcommits]⟩
  rw [h.unused _ rfl (by simp)] at hget
  cases hget

/-- A submitted request takes effect between `u` and `t`. -/
def TakesEffect (submitted : CanonicalCommit → Prop) (u t : World) : Prop :=
  ∃ request prepared committedAt result, submitted request ∧
    prepareCommit codec request = .ok prepared ∧ Commits prepared committedAt [] u t result

/-- What one action of a submission can do. -/
def SubmissionStep (submitted : CanonicalCommit → Prop) (u t : World) : Prop :=
  t = u ∨ TakesEffect codec submitted u t

theorem SubmissionStep.refl (u : World) :
    SubmissionStep codec submitted u u := Or.inl rfl

theorem always_commitCanonical (hsubmitted : submitted request) (hordinary : request.Ordinary)
    (committedAt : Nat) :
    (commitCanonical codec request committedAt []).Always (SubmissionStep codec submitted) := by
  rw [commitCanonical, Program.bind_eq]
  cases hprepared : prepareCommit codec request with
  | error e => trivial
  | ok prepared =>
    show (Program.transaction (commitTransaction prepared committedAt [])).Always _
    refine .transaction (.refl codec) fun u result t hrun => ?_
    rcases run_commitTransaction_ok (hordinary.prepared codec hprepared) hrun with
      ⟨_, _, _, hsame, _⟩ | hcommits
    · exact Or.inl hsame
    · exact Or.inr ⟨request, prepared, committedAt, result, hsubmitted, hprepared, hcommits⟩

theorem numbered_and_marked (hordinary : ∀ request, submitted request → request.Ordinary) {τ : Type}
    [DecidableEq τ] {c : Config World τ StoreError CommitResult}
    (hc : Reachable (commitSystem codec submitted τ) c) :
    Numbered c.shared ∧ Marked codec submitted c.shared := by
  refine Reachable.invariant_of_always (SubmissionStep codec submitted)
    (fun w => Numbered w ∧ Marked codec submitted w) ?_ ?_ ?_ hc
  · rintro t s p ⟨request, committedAt, hsubmitted, rfl⟩
    exact always_commitCanonical codec hsubmitted (hordinary _ hsubmitted) committedAt
  · exact fun w hw => ⟨hw.numbered, hw.marked codec⟩
  · rintro u t hu (rfl | ⟨request, prepared, at', result, hsubmitted, hprepared, h⟩) _
    · exact hu
    · exact ⟨hu.1.commit h, hu.2.commit codec hsubmitted hprepared h⟩

/-! ## Resubmissions and refusals -/

/-- No two submitted contents are hashed to one digest. -/
def CollisionFree (submitted : CanonicalCommit → Prop) : Prop :=
  ∀ request request' bytes bytes', submitted request → submitted request' →
    fingerprintBytes codec (request.content codec) = .ok bytes →
    fingerprintBytes codec (request'.content codec) = .ok bytes' →
    codec.sha256 bytes = codec.sha256 bytes' → bytes = bytes'

/-- Under an id that is taken: the original result for the same content, else a conflict. -/
def resubmissionOutcome (request : CanonicalCommit) (commit : EffectiveCommit) (w : World) :
    Except StoreError CommitResult × World :=
  if encodeContent codec (request.content codec) = encodeContent codec commit.content then
    (.ok { commit.result with duplicate := true }, w)
  else (.error (.idempotencyConflict request.requestId), w)

theorem fingerprint_eq_iff (hsha256 : CollisionFree codec submitted)
    {request' : CanonicalCommit} {fingerprint fingerprint' : Digest}
    (hsubmitted : submitted request) (hsubmitted' : submitted request')
    (h : requestFingerprint codec (request.content codec) = .ok fingerprint)
    (h' : requestFingerprint codec (request'.content codec) = .ok fingerprint') :
    fingerprint = fingerprint' ↔
      encodeContent codec (request.content codec) = encodeContent codec (request'.content codec) := by
  obtain ⟨bytes, hbytes, rfl⟩ := map_ok_iff.mp h
  obtain ⟨bytes', hbytes', rfl⟩ := map_ok_iff.mp h'
  constructor
  · intro heq
    obtain rfl := hsha256 _ _ _ _ hsubmitted hsubmitted' hbytes hbytes' heq
    exact fingerprintBytes_injective codec hbytes hbytes'
  · intro heq
    have hsame : ∀ content content', encodeContent codec content = encodeContent codec content' →
        fingerprintBytes codec content = fingerprintBytes codec content' := by
      intro content
      induction content with
      | nil =>
        intro content' hc
        cases content' with
        | nil => rfl
        | cons _ _ => cases hc
      | cons entry rest ih =>
        intro content' hc
        cases content' with
        | nil => cases hc
        | cons entry' rest' =>
          obtain ⟨hentry, hrest⟩ := List.cons.inj hc
          obtain ⟨hkey, hvalue⟩ := Prod.mk.inj hentry
          simp only [fingerprintBytes, hkey, hvalue, ih rest' hrest]
    rw [hsame _ _ heq, hbytes'] at hbytes
    rw [Except.ok.inj hbytes]

theorem Marked.resubmission {w : World} (hsha256 : CollisionFree codec submitted)
    (hw : Marked codec submitted w) {commit : EffectiveCommit}
    (hcommit : commit ∈ effectiveCommits w) {prepared : PreparedCommit}
    (hsubmitted : submitted request) (hprepared : prepareCommit codec request = .ok prepared)
    (hrequest : request.requestId = commit.result.requestId) (committedAt : Nat) :
    (commitCanonical codec request committedAt []).runAlone w =
      resubmissionOutcome codec request commit w := by
  obtain ⟨at', hmarker⟩ := hw.marked commit hcommit
  obtain ⟨original, prepared', horiginal, hprepared', hcommit', hid', hfingerprint'⟩ :=
    hw.submissions commit hcommit
  obtain ⟨hid, _, _, _, _, _, _, _, _, hfingerprint⟩ := prepareCommit_eq_ok codec hprepared
  obtain ⟨_, _, _, _, _, _, _, _, hcontent, horiginalFingerprint⟩ :=
    prepareCommit_eq_ok codec hprepared'
  have hcontents : commit.content = original.content codec := by
    rw [hcommit']
    exact hcontent
  rw [← hrequest, ← hid] at hmarker
  rw [runAlone_commitCanonical codec hprepared, Program.runAlone_transaction,
    run_commitTransaction_of_marker hmarker, resubmissionOutcome, hcontents]
  have hiff := fingerprint_eq_iff codec hsha256 hsubmitted horiginal hfingerprint
    horiginalFingerprint
  by_cases hsame :
      encodeContent codec (request.content codec) = encodeContent codec (original.content codec)
  · have heq := hiff.mpr hsame
    have hmatch : (commit.result.marker at').fingerprint = prepared.fingerprint :=
      hfingerprint'.trans heq.symm
    rw [if_pos hsame, if_pos hmatch]
    simp only [IdempotencyMarker.duplicateResult, CommitResult.marker, hid, hrequest, heq,
      hfingerprint']
  · have hne : (commit.result.marker at').fingerprint ≠ prepared.fingerprint := fun heq =>
      hsame (hiff.mp (heq.symm.trans hfingerprint'))
    rw [if_neg hsame, if_neg hne, hid]

/-- A refused call writes nothing. -/
theorem unchanged_of_refused {committedAt : Nat} {events : List Event} {w w' : World}
    {error : StoreError}
    (h : (commitCanonical codec request committedAt events).runAlone w = (.error error, w')) :
    w' = w := by
  cases hprepared : prepareCommit codec request with
  | error e =>
    rw [commitCanonical, hprepared] at h
    exact (Prod.mk.inj h).2.symm
  | ok prepared =>
    rw [runAlone_commitCanonical codec hprepared, Program.runAlone_transaction] at h
    split at h
    · cases h
    · exact (Prod.mk.inj h).2.symm

/-- Under a new request id, a call whose preconditions fail is refused. -/
theorem refused_of_not_preconditionsHold {prepared : PreparedCommit} {committedAt : Nat}
    {events : List Event} {w : World} (hordinary : request.Ordinary)
    (hprepared : prepareCommit codec request = .ok prepared)
    (hunmarked : w.get (.idempotency prepared.requestId) = none)
    (hfails : ¬ prepared.PreconditionsHold w) :
    ∃ error, (commitCanonical codec request committedAt events).runAlone w = (.error error, w) := by
  rw [runAlone_commitCanonical codec hprepared, Program.runAlone_transaction]
  split
  · next result t hrun =>
    rcases run_commitTransaction_ok (hordinary.prepared codec hprepared) hrun with
      ⟨marker, hmarker, _⟩ | hcommits
    · rw [hunmarked] at hmarker
      cases hmarker
    · exact absurd hcommits.preconditions hfails
  · next error _ => exact ⟨error, rfl⟩

theorem OrdinalsAssigned.bijOn {admitted : Set DocumentIdentity} {w : World}
    (h : OrdinalsAssigned admitted w) :
    Set.BijOn (ordinalOf w) admitted (Set.Icc 1 (ordinalCounter w)) := by
  have hordinal : ∀ document assignment, assignmentOf w document = some assignment →
      ordinalOf w document = assignment.ordinal := by
    intro document assignment hget
    simp [ordinalOf, hget]
  refine ⟨fun document hdocument => ?_, fun document hdocument document' hdocument' heq => ?_,
    fun n hn => ?_⟩
  · obtain ⟨assignment, hget⟩ := h.complete document hdocument
    obtain ⟨_, _, hpos, hle, _⟩ := h.assigned document assignment hget
    rw [hordinal _ _ hget]
    exact ⟨hpos, hle⟩
  · obtain ⟨assignment, hget⟩ := h.complete document hdocument
    obtain ⟨assignment', hget'⟩ := h.complete document' hdocument'
    obtain ⟨_, hid, _, _, hrecord⟩ := h.assigned document assignment hget
    obtain ⟨_, hid', _, _, hrecord'⟩ := h.assigned document' assignment' hget'
    -- One ordinal record for both, and it names its document.
    rw [hordinal _ _ hget, hordinal _ _ hget'] at heq
    rw [heq, hrecord'] at hrecord
    rw [← hid, ← hid', Option.some.inj hrecord]
  · obtain ⟨document, assignment, hget, rfl⟩ := h.dense n hn.1 hn.2
    exact ⟨document, (h.assigned _ _ hget).1, hordinal _ _ hget⟩

/-- A stand-in for the encoding modules on the requests below: the digest keeps every byte. -/
def sampleCommitCodec : CommitCodec where
  keyBytes
    | .manifest (.document _ version) => [1, UInt8.ofNat version]
    | .counter _ => [2]
    | .outbox (.entry sequence) => [3, UInt8.ofNat sequence]
    | _ => [0]
  recordBytes
    | .manifest (.document _ _), manifest => [UInt8.ofNat manifest.byteLength]
    | .counter _, value => [UInt8.ofNat value]
    | _, _ => []
  payloadBytes := fun payload => [UInt8.ofNat (payload.documentVersion.getD 0)]
  sha256 := fun bytes => String.ofList (bytes.map Char.ofUInt8)

def sampleManifest (version byteLength : Nat) : Manifest where
  manifestId := "doc"
  documentId := "doc"
  version
  sourceKey := "source"
  sourceKeyStatus := "verified"
  sessionId := "session"
  project := "project"
  kind := "note"
  createdAt := 5
  metadata := {}
  sourceMessageKeys := []
  contentHash := "hash"
  byteLength
  retentionClass := "standard"
  protectedAtAdmission := false
  chunks := []
  structuralMessages := "[]"

/-- The admission of one version of a document. -/
def sampleRequest (requestId : String) (version byteLength : Nat) : CanonicalCommit where
  requestId
  records := [⟨.manifest (.document "doc" version), sampleManifest version byteLength⟩]
  outbox := some {
    operation := some "index"
    documentId := some "doc"
    documentVersion := some version }
  derivedView := some {
    project := "project"
    sessionId := "session"
    documentId := "doc"
    documentVersion := version
    admittedAt := 5
    retiredDocuments := [] }

def freshWorld : World where
  store := KeyValue.Store.empty.put (.derivedView .upgradeState) { phase := .complete }
  uuids := 0
  history := []

theorem freshWorld_pristine : Pristine freshWorld :=
  ⟨fun _ _ hk => World.get_put_of_ne hk ⟨KeyValue.Store.empty, 0, []⟩ _, rfl⟩

/-- A request that sets the store's own counter on the way. -/
def counterRequest : CanonicalCommit where
  requestId := "count"
  records := [⟨.manifest (.document "doc" 1), sampleManifest 1 3⟩]
  transitions := [⟨.counter .outbox, none, (5 : Nat)⟩]

def counterRun : Config World Unit StoreError CommitResult :=
  Config.playAll ⟨freshWorld, fun _ => none⟩
    (Move.call () (commitCanonical sampleCommitCodec counterRequest 10 []) 1)

/-- Two requests, and a different one under the id of the first. -/
def sampleRequests : List CanonicalCommit :=
  [sampleRequest "first" 1 3, sampleRequest "second" 2 4, sampleRequest "first" 2 5]

/-- Both are submitted, the first once more, and then the different one. -/
def sampleCommitRun : Config World Unit StoreError CommitResult :=
  Config.playAll ⟨freshWorld, fun _ => none⟩
    (Move.call () (commitCanonical sampleCommitCodec (sampleRequest "first" 1 3) 10 []) 1 ++
      Move.call () (commitCanonical sampleCommitCodec (sampleRequest "first" 1 3) 11 []) 1 ++
      Move.call () (commitCanonical sampleCommitCodec (sampleRequest "second" 2 4) 12 []) 1 ++
      Move.call () (commitCanonical sampleCommitCodec (sampleRequest "first" 2 5) 13 []) 1)

theorem sampleCommitRun_reachable :
    Reachable (commitSystem sampleCommitCodec (· ∈ sampleRequests) Unit) sampleCommitRun := by
  refine .playAll (.initial freshWorld_pristine)
    (Config.playable_of_calls (fun _ => trivial) (fun t p hp s => ?_) _)
  simp only [Move.call, List.replicate, List.mem_append, List.mem_cons, Move.start.injEq,
    reduceCtorEq, or_false, List.not_mem_nil] at hp
  rcases hp with ((⟨_, rfl⟩ | ⟨_, rfl⟩) | ⟨_, rfl⟩) | ⟨_, rfl⟩
  · exact ⟨_, 10, List.mem_cons_self, rfl⟩
  · exact ⟨_, 11, List.mem_cons_self, rfl⟩
  · exact ⟨_, 12, List.mem_cons_of_mem _ List.mem_cons_self, rfl⟩
  · exact ⟨_, 13, List.mem_cons_of_mem _ (List.mem_cons_of_mem _ List.mem_cons_self), rfl⟩

theorem sampleRequests_ordinary : ∀ request, request ∈ sampleRequests → request.Ordinary := by
  intro request hrequest
  simp only [sampleRequests, List.mem_cons, List.not_mem_nil, or_false] at hrequest
  rcases hrequest with rfl | rfl | rfl <;>
    exact ⟨by simp [sampleRequest, Key.storeOwned], by simp [sampleRequest]⟩

theorem sampleRequests_collisionFree : CollisionFree sampleCommitCodec (· ∈ sampleRequests) := by
  intro _ _ bytes bytes' _ _ _ _ heq
  refine List.map_injective_iff.mpr (fun byte byte' hbyte => ?_) (String.ofList_injective heq)
  have hnat : byte.toUInt32.toNat = byte'.toUInt32.toNat :=
    congrArg UInt32.toNat (congrArg Char.val hbyte)
  rwa [UInt8.toNat_toUInt32, UInt8.toNat_toUInt32, UInt8.toNat_inj] at hnat

end ContextStore
