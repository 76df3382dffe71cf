import ContextStore.Documents.AdmissionFacts
import ContextStore.Migration.Source

/-! # The commit of a migrated row

A row is committed once, under its own request id: its manifest, its source record and the history
of its document, with all else about other documents left alone. A second row of the same document
finds the history of the first and is refused. -/

namespace ContextStore

open Concurrent

variable {codec : MigrationCodec} {row : SourceRow} {info : SourceDescriptor} {startedAt : Nat}
  {migrated : MigratedDocument}

/-! ## What is prepared -/

theorem prepareMigratedDocument_eq_ok
    (h : prepareMigratedDocument codec row info startedAt = .ok migrated) :
    ∃ text createdAt, row.text = some text ∧
      migrated.sourceRecord = mappedRecord codec row info.sourceDatabaseId text ∧
      migrated.prepared.request.idempotencyKey =
        migrationRequestId info.sourceDatabaseId row.sourceOrderingKey ∧
      migrated.prepared.document = mappedDocument row info.sourceDatabaseId text createdAt ∧
      migrated.prepared.state = {} := by
  simp only [prepareMigratedDocument, bind_ok_iff] at h
  obtain ⟨mapped, hmapped, retention, _, prepared, hprepared, heq⟩ := h
  cases heq
  obtain ⟨_, _, _, _, _, hrequest, hstate, -⟩ := prepareDocumentAdmission_eq_ok hprepared
  simp only [mappedSource, bind_ok_iff] at hmapped
  obtain ⟨_, _, _, _, _, _, _, _, hmapped⟩ := hmapped
  split at hmapped
  · cases hmapped
  · next text htext =>
    simp only [bind_ok_iff] at hmapped
    obtain ⟨createdAt, _, _, _, heq⟩ := hmapped
    cases heq
    exact ⟨text, createdAt, htext, rfl, by rw [hrequest],
      by rw [PreparedAdmission.document, hrequest], hstate⟩

theorem subjectOnly_prepareMigratedDocument
    (h : prepareMigratedDocument codec row info startedAt = .ok migrated) :
    migrated.prepared.state.SubjectOnly := by
  obtain ⟨_, _, _, _, _, _, hstate⟩ := prepareMigratedDocument_eq_ok h
  rw [hstate]
  rintro _ ⟨⟩

theorem names_migrated (h : migrated.prepared.state.SubjectOnly) {k : Key}
    (hk : (migrated.commit codec).Names k) :
    ((∃ guard, k = .guard guard) ∨ DocumentKey k) ∨
      (∃ db n, k = .migration (.source db n)) ∨ ∃ text, k = .derived text := by
  rcases hk with ⟨guard, _, rfl⟩ | ⟨entry, hentry, rfl⟩ | ⟨transition, htransition, rfl⟩
  · exact Or.inl (Or.inl ⟨guard, rfl⟩)
  · rcases List.mem_append.mp hentry with hentry | hentry
    · exact Or.inl (Or.inr (migrated.prepared.records_documentKey entry hentry))
    · obtain rfl := List.mem_singleton.mp hentry
      exact Or.inr (Or.inl ⟨_, _, rfl⟩)
  · rcases List.mem_append.mp htransition with htransition | htransition
    · exact Or.inl (Or.inr (PreparedAdmission.transitions_documentKey h transition htransition))
    · obtain rfl := List.mem_singleton.mp htransition
      exact Or.inr (Or.inr ⟨_, rfl⟩)

theorem PreparedAdmission.document_of_records {prepared : PreparedAdmission} {id : String}
    {version : Nat} {manifest : Manifest}
    (h : (⟨.manifest (.document id version), manifest⟩ : Entry) ∈ prepared.records) :
    id = prepared.document.documentId ∧ version = prepared.document.version ∧
      manifest = prepared.manifest := by
  simp only [records, identityEntries, List.mem_append, List.mem_map, List.mem_cons,
    List.not_mem_nil, or_false] at h
  rcases h with ((((((((h | h) | h) | h) | h) | h) | h) | h) | h) | h
  all_goals try (obtain ⟨_, _, heq⟩ := h; cases heq)
  rcases h with heq | heq | heq
  · cases heq
    exact ⟨rfl, rfl, rfl⟩
  · cases heq
  · cases heq

theorem PreparedAdmission.no_history_of_records {prepared : PreparedAdmission} {id : String}
    {history : DocumentHistory} :
    (⟨.manifest (.documentHistory id), history⟩ : Entry) ∉ prepared.records := by
  intro h
  simp only [records, identityEntries, List.mem_append, List.mem_map, List.mem_cons,
    List.not_mem_nil, or_false] at h
  rcases h with ((((((((h | h) | h) | h) | h) | h) | h) | h) | h) | h
  all_goals try (obtain ⟨_, _, heq⟩ := h; cases heq)
  rcases h with heq | heq | heq <;> cases heq

namespace MigratedDocument

theorem sourceRecord_of_records {db : String} {n : Nat} {record : SourceRecord}
    (h : (⟨.migration (.source db n), record⟩ : Entry) ∈ (migrated.commit codec).records) :
    db = migrated.sourceRecord.sourceDatabaseId ∧ n = migrated.sourceRecord.sourceOrderingKey ∧
      record = migrated.sourceRecord := by
  rcases List.mem_append.mp h with h | h
  · cases migrated.prepared.records_documentKey _ h
  · cases List.mem_singleton.mp h
    exact ⟨rfl, rfl, rfl⟩

theorem manifest_of_records {id : String} {version : Nat} {manifest : Manifest}
    (h : (⟨.manifest (.document id version), manifest⟩ : Entry) ∈
      (migrated.commit codec).records) :
    id = migrated.prepared.document.documentId ∧
      version = migrated.prepared.document.version ∧ manifest = migrated.prepared.manifest := by
  rcases List.mem_append.mp h with h | h
  · exact PreparedAdmission.document_of_records h
  · cases List.mem_singleton.mp h

theorem mem_transitions (hstate : migrated.prepared.state = {}) {transition : Transition} :
    transition ∈ (migrated.commit codec).transitions ↔
      transition = migrated.prepared.historyTransition ∨
        transition = migrated.referenceTransition codec := by
  simp [commit, PreparedAdmission.commit, hstate]

/-! ## What the commit leaves -/

variable (migrated) in
/-- The row's commit has taken effect between `u` and `t`. -/
structure TakesEffect (u t : World) : Prop where
  unmarked : u.get (.idempotency migrated.prepared.request.idempotencyKey) = none
  marked : (t.get (.idempotency migrated.prepared.request.idempotencyKey)).isSome
  markers : ∀ requestId, requestId ≠ migrated.prepared.request.idempotencyKey →
    t.get (.idempotency requestId) = u.get (.idempotency requestId)
  manifest : t.get (.manifest (.document migrated.prepared.document.documentId
    migrated.prepared.document.version)) = some migrated.prepared.manifest
  manifests : ∀ id version, id ≠ migrated.prepared.document.documentId ∨
    version ≠ migrated.prepared.document.version →
      t.get (.manifest (.document id version)) = u.get (.manifest (.document id version))
  unadmitted : u.get (.manifest (.documentHistory migrated.prepared.document.documentId)) = none
  admitted :
    (t.get (.manifest (.documentHistory migrated.prepared.document.documentId))).isSome
  histories : ∀ id, id ≠ migrated.prepared.document.documentId →
    t.get (.manifest (.documentHistory id)) = u.get (.manifest (.documentHistory id))
  sourceRecord : t.get (.migration (.source migrated.sourceRecord.sourceDatabaseId
    migrated.sourceRecord.sourceOrderingKey)) = some migrated.sourceRecord
  migration : ∀ key, key ≠ .source migrated.sourceRecord.sourceDatabaseId
    migrated.sourceRecord.sourceOrderingKey → t.get (.migration key) = u.get (.migration key)

theorem run_commit_ok (hstate : migrated.prepared.state = {}) {prepared : PreparedCommit}
    (hprepared : prepareCommit codec.toCommitCodec (migrated.commit codec) = .ok prepared)
    {committedAt : Nat} {events : List Event} {u t : World} {result : CommitResult}
    (h : (commitTransaction prepared committedAt events).run u = .ok (result, t)) :
    ((u.get (.idempotency migrated.prepared.request.idempotencyKey)).isSome ∧ t = u) ∨
      migrated.TakesEffect u t := by
  obtain ⟨hid, hrecords, htransitions, -⟩ := prepareCommit_eq_ok codec.toCommitCodec hprepared
  have hsubject : migrated.prepared.state.SubjectOnly := by
    rw [hstate]
    rintro _ ⟨⟩
  have hnamed : ∀ k, prepared.Names k → _ := fun k hk =>
    names_migrated hsubject ((names_of_prepareCommit codec.toCommitCodec hprepared k).mp hk)
  have hordinary : prepared.Ordinary := fun k hk => by
    rcases hnamed k hk with (⟨_, rfl⟩ | hdocument) | ⟨_, _, rfl⟩ | ⟨_, rfl⟩
    · rfl
    · exact hdocument.storeOwned
    · rfl
    · rfl
  have hrequest : prepared.requestId = migrated.prepared.request.idempotencyKey := hid
  rcases run_commitTransaction_ok hordinary h with ⟨marker, hmarker, _, rfl, _⟩ | hcommits
  · rw [← hrequest, hmarker]
    exact Or.inl ⟨rfl, rfl⟩
  · have hrecord : ∀ {entry : Entry}, entry ∈ prepared.records ↔
        entry ∈ (migrated.commit codec).records := by
      intro entry
      rw [hrecords, mem_sortEntries]
    have htransition : ∀ {transition : Transition}, transition ∈ prepared.transitions ↔
        transition = migrated.prepared.historyTransition ∨
          transition = migrated.referenceTransition codec := by
      intro transition
      rw [htransitions, mem_sortTransitions, mem_transitions hstate]
    have hframe : ∀ k, k.storeOwned = false → (∀ guard, k ≠ .guard guard) →
        (∀ v, (⟨k, v⟩ : Entry) ∉ (migrated.commit codec).records) →
        k ≠ migrated.prepared.historyTransition.key →
        k ≠ (migrated.referenceTransition codec).key → t.get k = u.get k := by
      intro k hk hguard hnone hhistory hreference
      refine hcommits.frame hk ?_
      rintro (⟨guard, _, rfl⟩ | ⟨⟨k', v⟩, hentry, rfl⟩ | ⟨transition, hmem, rfl⟩)
      · exact hguard guard rfl
      · exact hnone v (hrecord.mp hentry)
      · rcases htransition.mp hmem with rfl | rfl
        · exact hhistory rfl
        · exact hreference rfl
    have hkeep : ∀ transition ∈ prepared.transitions, ∀ k,
        k ≠ migrated.prepared.historyTransition.key →
        k ≠ (migrated.referenceTransition codec).key → transition.key ≠ k := by
      intro transition hmem k hhistory hreference
      rcases htransition.mp hmem with rfl | rfl
      · exact hhistory.symm
      · exact hreference.symm
    refine Or.inr ⟨?_, ?_, ?_, ?_, ?_, ?_, ?_, ?_, ?_, ?_⟩
    · rw [← hrequest]
      exact hcommits.unmarked
    · rw [← hrequest, hcommits.marker]
      rfl
    · intro requestId hne
      exact hcommits.markers requestId (by rwa [hrequest])
    · refine hcommits.get_record (hrecord.mpr ?_) (fun v' hv' => ?_) (fun _ h => by cases h)
        (fun transition hmem => hkeep transition hmem _ (fun h => by cases h) (fun h => by cases h)) rfl
      · refine List.mem_append_left _ ?_
        simp [PreparedAdmission.commit, PreparedAdmission.records,
          PreparedAdmission.identityEntries]
      · exact (manifest_of_records (hrecord.mp hv')).2.2
    · intro id version hne
      refine hframe _ rfl (fun _ h => by cases h) (fun v hv => ?_) (fun h => by cases h) (fun h => by cases h)
      obtain ⟨rfl, rfl, -⟩ := manifest_of_records hv
      rcases hne with hne | hne <;> exact hne rfl
    · have hprevious := hcommits.preconditions.previous _ (htransition.mpr (Or.inl rfl))
      have hnone : migrated.prepared.historyTransition.previous = none := by
        rw [PreparedAdmission.historyTransition, hstate]
      exact hprevious.trans hnone
    · obtain ⟨v, _, hget⟩ := hcommits.get_transition (htransition.mpr (Or.inl rfl)) rfl
      have hget' : t.get (.manifest
          (.documentHistory migrated.prepared.document.documentId)) = some v := hget
      rw [hget']
      rfl
    · intro id hne
      refine hframe _ rfl (fun _ h => by cases h) (fun v hv => ?_) (fun heq => ?_) (fun h => by cases h)
      · rcases List.mem_append.mp hv with hv | hv
        · exact PreparedAdmission.no_history_of_records hv
        · cases List.mem_singleton.mp hv
      · cases heq
        exact hne rfl
    · refine hcommits.get_record (hrecord.mpr ?_) (fun v' hv' => ?_) (fun _ h => by cases h)
        (fun transition hmem => hkeep transition hmem _ (fun h => by cases h) (fun h => by cases h)) rfl
      · exact List.mem_append_right _ (List.mem_singleton_self _)
      · exact (sourceRecord_of_records (hrecord.mp hv')).2.2
    · intro key hne
      refine hframe _ rfl (fun _ h => by cases h) (fun v hv => ?_) (fun h => by cases h) (fun h => by cases h)
      rcases List.mem_append.mp hv with hv | hv
      · cases migrated.prepared.records_documentKey _ hv
      · cases List.mem_singleton.mp hv
        exact hne rfl

end MigratedDocument

end ContextStore
