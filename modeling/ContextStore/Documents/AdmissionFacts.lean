import ContextStore.Documents.Admission
import ContextStore.Store.CommitFacts

/-! # What an admission names

Preparing an admission only reads, and its commit names keys of documents and nothing else: neither
the store's own keys nor any record of retention, leases or migration beyond the first expiry of the
document. -/

namespace ContextStore

open Concurrent

variable {codec : AdmissionCodec}

/-- The keys that an admission may write. -/
inductive DocumentKey : Key → Prop
  | manifest (key : ManifestKey) : DocumentKey (.manifest key)
  | expiry (expiresAt : Nat) (retentionClass documentId : String) (version : Nat) :
      DocumentKey (.retention (.expiry expiresAt retentionClass documentId version none))

theorem DocumentKey.storeOwned {k : Key} (h : DocumentKey k) : k.storeOwned = false := by
  cases h <;> rfl

/-- The transition of the subject, if there is one, is that of a subject. -/
def AdmissionState.SubjectOnly (state : AdmissionState) : Prop :=
  ∀ transition, state.subjectLiveTransition = some transition → DocumentKey transition.key

theorem prepareDocumentAdmission_eq_ok {request : PutRequest} {options : AdmissionOptions}
    {state : AdmissionState} {prepared : PreparedAdmission}
    (h : prepareDocumentAdmission codec request options state = .ok prepared) :
    ∃ chunks windows sourceMessageKeys,
      splitPhysicalChunks codec.contentHash request.document.text options.chunking = .ok chunks ∧
      sourceMessageKeysOf request.document = .ok sourceMessageKeys ∧
      prepared.request = request ∧ prepared.state = state ∧ prepared.windows = windows ∧
      prepared.chunks = chunks ∧
      ∃ reference, prepared.manifest =
        { createDocumentManifest codec request sourceMessageKeys (createChunkReferences chunks) with
          auxiliaryManifestReference := reference } := by
  simp only [prepareDocumentAdmission, bind_ok_iff] at h
  obtain ⟨_, _, chunks, hchunks, windows, _, keys, hkeys, _, _, hprepared⟩ := h
  cases hprepared
  exact ⟨chunks, windows, keys, hchunks, hkeys, rfl, rfl, rfl, rfl, _, rfl⟩

namespace PreparedAdmission

variable (prepared : PreparedAdmission)

theorem records_documentKey : ∀ entry ∈ prepared.records, DocumentKey entry.1 := by
  intro entry hentry
  simp only [records, identityEntries, List.mem_append, List.mem_map, List.mem_cons,
    List.not_mem_nil, or_false] at hentry
  rcases hentry with ((((((((h | h) | h) | h) | h) | h) | h) | h) | h) | h
  · obtain ⟨_, _, rfl⟩ := h
    exact .manifest _
  · obtain ⟨_, _, rfl⟩ := h
    exact .manifest _
  · obtain ⟨_, _, rfl⟩ := h
    exact .manifest _
  · obtain ⟨_, _, rfl⟩ := h
    exact .manifest _
  · obtain ⟨_, _, rfl⟩ := h
    exact .manifest _
  · rcases h with rfl | rfl | rfl <;> exact .manifest _
  · obtain ⟨_, _, rfl⟩ := h
    exact .manifest _
  · obtain ⟨_, _, rfl⟩ := h
    exact .manifest _
  · obtain ⟨_, _, rfl⟩ := h
    exact .manifest _
  · obtain ⟨_, _, rfl⟩ := h
    exact .expiry _ _ _ _

theorem transitions_documentKey {prepared : PreparedAdmission} (h : prepared.state.SubjectOnly) :
    ∀ transition ∈ prepared.commit.transitions, DocumentKey transition.key := by
  intro transition hmem
  rcases List.mem_cons.mp hmem with rfl | hmem
  · exact .manifest _
  · split at hmem
    · cases hmem
    · exact h transition (Option.mem_toList.mp hmem)

theorem names_commit {prepared : PreparedAdmission} (h : prepared.state.SubjectOnly) {k : Key}
    (hk : prepared.commit.Names k) : (∃ guard, k = .guard guard) ∨ DocumentKey k := by
  rcases hk with ⟨guard, _, rfl⟩ | ⟨entry, hentry, rfl⟩ | ⟨transition, htransition, rfl⟩
  · exact Or.inl ⟨guard, rfl⟩
  · exact Or.inr (prepared.records_documentKey entry hentry)
  · exact Or.inr (transitions_documentKey h transition htransition)

end PreparedAdmission

/-! ## Preparing only reads -/

section Reads

variable (document : Document) (request : PutRequest) (state : AdmissionState)
  (documentHistory : Option DocumentHistory) (recordedAt : Nat)

theorem readsTo_priorSupersession : (priorSupersession document).ReadsTo fun _ => True := by
  unfold priorSupersession
  split
  · trivial
  · exact .readBind fun _ => trivial

theorem readsTo_supersedePrior (replayed : Bool) :
    (supersedePrior document documentHistory replayed).ReadsTo AdmissionState.SubjectOnly := by
  refine (readsTo_priorSupersession document).bind fun _ _ => ?_
  rintro _ ⟨⟩

theorem readsTo_supersedeLatest (latest : Manifest) :
    (supersedeLatest document documentHistory latest recordedAt).ReadsTo
      AdmissionState.SubjectOnly := by
  refine .requireBind fun _ => .readBind fun existing => ?_
  cases existing <;> rintro _ ⟨⟩

theorem readsTo_supersedeStored :
    (supersedeStored document documentHistory recordedAt).ReadsTo AdmissionState.SubjectOnly := by
  refine .readBind fun latest => ?_
  cases latest with
  | none => exact readsTo_supersedePrior _ _ _
  | some latest =>
    dsimp only
    split
    · exact readsTo_supersedePrior _ _ _
    · exact readsTo_supersedeLatest _ _ _ _

theorem readsTo_admissionOfNewRequest :
    (admissionOfNewRequest document documentHistory recordedAt).ReadsTo
      AdmissionState.SubjectOnly := by
  unfold admissionOfNewRequest
  split
  · trivial
  · refine .requireBind fun _ => .readBind fun targetMarker => ?_
    cases targetMarker with
    | some marker => trivial
    | none => exact readsTo_supersedeStored _ _ _

theorem readsTo_admissionSupersession :
    (admissionSupersession request recordedAt).ReadsTo AdmissionState.SubjectOnly := by
  refine .readBind fun documentHistory => .requireBind fun _ => .ofExceptBind fun _ _ =>
    .readBind fun committed => ?_
  split
  · exact readsTo_supersedePrior _ _ _
  · exact readsTo_admissionOfNewRequest _ _ _

theorem readsTo_walkChain (depth : Nat) (visited : List DocumentVersionRef) (cursor : Manifest) :
    (walkChain document depth visited cursor).ReadsTo fun _ => True := by
  induction depth generalizing visited cursor with
  | zero =>
    unfold walkChain
    split <;> trivial
  | succ depth ih =>
    unfold walkChain
    split
    · trivial
    · trivial
    · next heq =>
      cases heq
      refine .requireBind fun _ => .requireBind fun _ => .requireBind fun _ =>
        .readBind fun next => ?_
      cases next with
      | none => trivial
      | some next => exact .requireBind fun _ => ih _ _

variable {state} in
theorem readsTo_supersedeTarget (reference : DocumentVersionRef) (marker : Option Tombstone)
    (h : state.SubjectOnly) :
    (supersedeTarget document reference marker state).ReadsTo AdmissionState.SubjectOnly := by
  cases marker with
  | some marker => trivial
  | none =>
    refine .readBind fun stored => .ofExceptBind fun target _ => ?_
    exact (readsTo_walkChain _ _ _ _).bind fun _ _ => h

variable {state} in
theorem readsTo_admissionExplicitSupersession (h : state.SubjectOnly) :
    (admissionExplicitSupersession request state).ReadsTo AdmissionState.SubjectOnly := by
  unfold admissionExplicitSupersession
  dsimp only
  split
  · exact h
  · refine .requireBind fun _ => .readBind fun committed => .readBind fun marker => ?_
    split
    · exact .requireBind fun _ => h
    · exact readsTo_supersedeTarget _ _ _ h

theorem readsTo_requireSubjectFree (previous : Option SubjectLive) :
    (requireSubjectFree document previous).ReadsTo fun _ => True := by
  cases previous with
  | none => trivial
  | some previous =>
    unfold requireSubjectFree
    dsimp only
    split
    · trivial
    · exact .readBind fun _ => by
        unfold Program.require
        split <;> trivial

variable {state} in
theorem readsTo_admissionSubjectLive (h : state.SubjectOnly) :
    (admissionSubjectLive request state).ReadsTo AdmissionState.SubjectOnly := by
  unfold admissionSubjectLive
  dsimp only
  split
  · exact h
  · refine .readBind fun previous => (readsTo_requireSubjectFree _ previous).bind fun _ _ => ?_
    rintro _ ⟨⟩
    exact .manifest _

theorem readsTo_documentVersionState (diagnostic : Bool) :
    (documentVersionState request diagnostic recordedAt).ReadsTo AdmissionState.SubjectOnly := by
  unfold documentVersionState
  split
  · rintro _ ⟨⟩
  · exact readsTo_admissionSupersession _ _

theorem readsTo_documentAdmissionState (diagnostic : Bool) :
    (documentAdmissionState request diagnostic recordedAt).ReadsTo AdmissionState.SubjectOnly :=
  (readsTo_documentVersionState request recordedAt diagnostic).bind fun _ h =>
    (readsTo_admissionExplicitSupersession request h).bind fun _ h =>
      readsTo_admissionSubjectLive request h

theorem readsTo_prepareAttempt (options : AdmissionOptions) (diagnostic : Bool) :
    (prepareAttempt codec request options diagnostic recordedAt).ReadsTo fun prepared =>
      prepared.request = request ∧ prepared.state.SubjectOnly := by
  refine (readsTo_documentAdmissionState request recordedAt diagnostic).bind fun state h =>
    .ofExcept fun prepared hprepared => ?_
  obtain ⟨_, _, _, _, _, hrequest, hstate, -⟩ := prepareDocumentAdmission_eq_ok hprepared
  exact ⟨hrequest, hstate ▸ h⟩

end Reads

end ContextStore
