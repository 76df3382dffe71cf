import ContextStore.Foundation.Clock
import ContextStore.Foundation.SecondaryIndex
import ContextStore.Retention.RetrievalLeases
import ContextStore.Store.CommitFacts

/-! # Protections and leases match their references

Every protection and every lease is a primary record with index records in three families. Here both
are instances of `SecondaryIndex`: what an owner's keys hold is a function of its primary record.
Each transaction rewrites the keys of one owner, so it is enough to look at that owner. -/

namespace ContextStore

open KeyValue Concurrent
open World (get_remove_self get_remove_of_ne)
open Transaction (run_bind_eq_ok run_pure_eq_ok run_require_eq_ok)

/-! ## The two indexes -/

namespace Protection

/-- The sessions whose references the recorded cleanup progress has not reached. -/
def heldSessions (protection : Protection) : List String :=
  protection.sessionIds.drop protection.progress.sessionOffset

def heldDocuments (protection : Protection) : List DocumentVersionRef :=
  protection.documentVersions.drop protection.progress.documentOffset

/-- What a stored protection puts under each key of its owner. -/
def content (protection : Protection) : (k : Key) → Option k.Record
  | .retention (.protection _) => some protection
  | .retention (.protectionExpiry expiresAt _) =>
    if expiresAt = protection.expiresAt then some protection.reference else none
  | .retention (.protectionSession sessionId _ project) =>
    if project = protection.project ∧ sessionId ∈ protection.heldSessions then
      some protection.reference
    else none
  | .retention (.protectionDocument documentId version _) =>
    if { documentId, version } ∈ protection.heldDocuments then some protection.reference
    else none
  | _ => none

end Protection

/-- The owner of a protection record or of a reference to one. -/
def protectionOwner : Key → Option String
  | .retention (.protection ownerId) => some ownerId
  | .retention (.protectionExpiry _ ownerId) => some ownerId
  | .retention (.protectionSession _ ownerId _) => some ownerId
  | .retention (.protectionDocument _ _ ownerId) => some ownerId
  | _ => none

def protectionIndex : SecondaryIndex Key.Record String where
  owner := protectionOwner
  primary ownerId := .retention (.protection ownerId)
  content _ protection k := Protection.content protection k
  owner_primary _ := rfl
  content_primary _ _ := rfl

/-- What a stored lease puts under each of its keys. -/
def Lease.content (lease : Lease) : (k : Key) → Option k.Record
  | .lease (.byId _) => some lease
  | .lease (.byExpiry expiresAt _) =>
    if expiresAt = lease.expiresAt then some lease.reference else none
  | .lease (.byDocument documentId documentVersion _) =>
    if documentId = lease.documentId ∧ documentVersion = lease.documentVersion then
      some lease.reference
    else none
  | .lease (.byDocumentExpiry documentId documentVersion expiresAt _) =>
    if documentId = lease.documentId ∧ documentVersion = lease.documentVersion
        ∧ expiresAt = lease.expiresAt then
      some lease.reference
    else none
  | _ => none

def leaseOwner : Key → Option Uuid
  | .lease (.byId leaseId) => some leaseId
  | .lease (.byExpiry _ leaseId) => some leaseId
  | .lease (.byDocument _ _ leaseId) => some leaseId
  | .lease (.byDocumentExpiry _ _ _ leaseId) => some leaseId
  | _ => none

def leaseIndex : SecondaryIndex Key.Record Uuid where
  owner := leaseOwner
  primary leaseId := .lease (.byId leaseId)
  content _ lease k := Lease.content lease k
  owner_primary _ := rfl
  content_primary _ _ := rfl

theorem protectionOwner_of_leaseOwner {k : Key} {leaseId : Uuid} (h : leaseOwner k = some leaseId) :
    protectionOwner k = none := by
  unfold leaseOwner at h
  split at h <;> first | rfl | cases h

/-! ## Protections -/

/-- What every stored protection satisfies: it is stored under its owner, and names each session and
    each document version once. -/
structure Protection.Stored (ownerId : String) (protection : Protection) : Prop where
  owner : protection.ownerId = ownerId
  sessions : protection.sessionIds.Nodup
  documents : protection.documentVersions.Nodup

/-- The keys of an owner hold what its protection puts there, and that protection is well formed. -/
structure ProtectionMatches (w : World) (ownerId : String) : Prop where
  index : protectionIndex.Matches w.get ownerId
  stored : ∀ protection : Protection,
    w.get (.retention (.protection ownerId)) = some protection → protection.Stored ownerId

theorem ProtectionMatches.congr {u t : World} {ownerId : String} (h : ProtectionMatches u ownerId)
    (hframe : ∀ k, protectionOwner k = some ownerId → t.get k = u.get k) :
    ProtectionMatches t ownerId where
  index := h.index.congr hframe
  stored protection hp := h.stored protection (by rw [← hp]; exact (hframe _ rfl).symm)

theorem nodup_eraseDups {α : Type} [DecidableEq α] (l : List α) : l.eraseDups.Nodup := by
  induction hn : l.length using Nat.strongRecOn generalizing l with
  | ind n ih =>
    cases l with
    | nil => simp
    | cons a rest =>
      have hlen : (rest.filter fun b => !b == a).length < n := by
        have hle := List.length_filter_le (fun b => !b == a) rest
        simp only [List.length_cons] at hn
        omega
      rw [List.eraseDups_cons]
      refine List.nodup_cons.mpr ⟨fun hmem => ?_, ih _ hlen _ rfl⟩
      rw [List.mem_eraseDups, List.mem_filter] at hmem
      simp at hmem

/-- A normalized request is well formed, names no cleanup progress and expires after it is made. -/
theorem normalizeProtectionRequest_stored {request : ProtectionRequest} {now : Nat}
    {project : Option String} {protection : Protection}
    (h : normalizeProtectionRequest request now project = .ok protection) :
    protection.Stored protection.ownerId ∧ protection.cleanupProgress = none := by
  simp only [normalizeProtectionRequest, bind_ok_iff] at h
  obtain ⟨_, _, issuedAt, _, h⟩ := h
  split at h
  · cases h
  · obtain ⟨_, _, h⟩ := bind_ok_iff.mp h
    obtain rfl := Except.ok.inj h
    exact ⟨⟨rfl, nodup_eraseDups _, nodup_eraseDups _⟩, rfl⟩

namespace Protection

/-- The keys `removeProtectionReferences` removes. -/
def referenceKeys (protection : Protection) : List Key :=
  protection.sessionIds.map protection.sessionKey ++
    protection.documentVersions.map protection.documentKey ++ [protection.expiryKey]

/-- The entries `putProtection` writes. -/
def entries (protection : Protection) : List Entry :=
  ⟨.retention (.protection protection.ownerId), protection⟩ ::
    ⟨.retention (.protectionExpiry protection.expiresAt protection.ownerId),
      protection.reference⟩ ::
    ((protection.sessionIds.map fun sessionId => (⟨.retention
        (.protectionSession sessionId protection.ownerId protection.project),
        protection.reference⟩ : Entry)) ++
      protection.documentVersions.map fun target => ⟨.retention
        (.protectionDocument target.documentId target.version protection.ownerId),
        protection.reference⟩)

variable {protection : Protection} {ownerId : String} {k : Key}

theorem owner_of_mem_referenceKeys (h : k ∈ protection.referenceKeys) :
    protectionOwner k = some protection.ownerId := by
  simp only [referenceKeys, List.mem_append, List.mem_map, List.mem_singleton] at h
  rcases h with (⟨_, _, rfl⟩ | ⟨_, _, rfl⟩) | rfl <;> rfl

theorem owner_of_mem_entries {entry : Entry} (h : entry ∈ protection.entries) :
    protectionOwner entry.1 = some protection.ownerId := by
  simp only [entries, List.mem_cons, List.mem_append, List.mem_map] at h
  rcases h with rfl | rfl | ⟨_, _, rfl⟩ | ⟨_, _, rfl⟩ <;> rfl

/-- Every reference that a protection puts under a key is one that its removal removes. -/
theorem mem_referenceKeys_of_content (hp : protection.Stored ownerId)
    (hk : protectionOwner k = some ownerId) (hcontent : protection.content k ≠ none)
    (hne : k ≠ .retention (.protection ownerId)) : k ∈ protection.referenceKeys := by
  have howner := hp.owner
  subst howner
  simp only [referenceKeys, List.mem_append, List.mem_map, List.mem_singleton]
  unfold protectionOwner at hk
  split at hk
  · cases hk
    exact absurd rfl hne
  · cases hk
    simp only [content, ne_eq, ite_eq_right_iff, reduceCtorEq, imp_false, not_not] at hcontent
    exact Or.inr (by rw [hcontent]; rfl)
  · cases hk
    simp only [content, ne_eq, ite_eq_right_iff, reduceCtorEq, imp_false, not_not] at hcontent
    exact Or.inl (Or.inl ⟨_, List.mem_of_mem_drop hcontent.2, by rw [hcontent.1]; rfl⟩)
  · cases hk
    simp only [content, ne_eq, ite_eq_right_iff, reduceCtorEq, imp_false, not_not] at hcontent
    exact Or.inl (Or.inr ⟨_, List.mem_of_mem_drop hcontent, rfl⟩)
  · cases hk

theorem mem_entries_iff (hprogress : protection.cleanupProgress = none)
    (hk : protectionOwner k = some protection.ownerId) (r : k.Record) :
    ⟨k, r⟩ ∈ protection.entries ↔ protection.content k = some r := by
  have hsessions : protection.heldSessions = protection.sessionIds := by
    simp [heldSessions, progress, hprogress]
  have hdocuments : protection.heldDocuments = protection.documentVersions := by
    simp [heldDocuments, progress, hprogress]
  unfold protectionOwner at hk
  split at hk
  · cases hk
    simp [entries, content, eq_comm]
  · cases hk
    simp only [entries, content, List.mem_cons, List.mem_append, List.mem_map]
    simp [eq_comm]
  · cases hk
    simp only [entries, content, List.mem_cons, List.mem_append, List.mem_map, hsessions]
    simp [and_assoc, and_left_comm, eq_comm]
  · cases hk
    simp only [entries, content, List.mem_cons, List.mem_append, List.mem_map, hdocuments]
    simp only [Sigma.mk.injEq, Key.retention.injEq, reduceCtorEq, false_and, false_or,
      RetentionKey.protectionDocument.injEq, and_true, and_false, exists_false, heq_eq_eq,
      Option.ite_none_right_eq_some, Option.some.injEq]
    constructor
    · rintro ⟨target, hmem, ⟨rfl, rfl⟩, heq⟩
      exact ⟨hmem, heq⟩
    · rintro ⟨hmem, rfl⟩
      exact ⟨_, hmem, ⟨rfl, rfl⟩, rfl⟩
  · cases hk

theorem get_putAll_entries (hprogress : protection.cleanupProgress = none) (u : World)
    (hk : protectionOwner k = some protection.ownerId) {r : k.Record}
    (hcontent : protection.content k = some r) : (u.putAll protection.entries).get k = some r := by
  obtain ⟨r', hmem, hr'⟩ :=
    World.get_putAll_of_mem ((mem_entries_iff hprogress hk r).mpr hcontent) u
  rw [hr', ← (mem_entries_iff hprogress hk r').mp hmem, hcontent]

variable {u : World} {n m : Nat}

theorem matches_of_replaced {removed : List Key}
    (hp : protection.Stored ownerId) (hprogress : protection.cleanupProgress = none)
    (hremoved : ∀ k, protectionOwner k = some ownerId →
      k ≠ .retention (.protection ownerId) → u.get k ≠ none → k ∈ removed) :
    ProtectionMatches ((u.removeAll removed).putAll protection.entries) ownerId := by
  have howner := hp.owner
  subst howner
  have hget : ∀ k, protectionOwner k = some protection.ownerId →
      ((u.removeAll removed).putAll protection.entries).get k = protection.content k := by
    intro k hk
    cases hcontent : protection.content k with
    | some r => exact get_putAll_entries hprogress _ hk hcontent
    | none =>
      rw [World.get_putAll_of_not_mem]
      · by_cases hmem : k ∈ removed
        · exact World.get_removeAll_of_mem hmem u
        · rw [World.get_removeAll_of_not_mem hmem]
          by_contra hstored
          refine hmem (hremoved k hk ?_ hstored)
          rintro rfl
          cases hcontent
      · intro r hmem
        rw [mem_entries_iff hprogress hk] at hmem
        rw [hmem] at hcontent
        cases hcontent
  refine ⟨.of_content protectionIndex protection hget, fun stored hs => ?_⟩
  rw [hget _ rfl] at hs
  obtain rfl := Option.some.inj hs
  exact hp

theorem matches_of_removed (hu : ProtectionMatches u ownerId)
    (hstored : u.get (.retention (.protection ownerId)) = some protection) :
    ProtectionMatches ((u.removeAll protection.referenceKeys).remove
      (.retention (.protection ownerId))) ownerId := by
  have hget : ∀ k, protectionOwner k = some ownerId →
      ((u.removeAll protection.referenceKeys).remove (.retention (.protection ownerId))).get k
        = none := by
    intro k hk
    by_cases hprimary : k = .retention (.protection ownerId)
    · subst hprimary
      exact get_remove_self _ _
    · rw [get_remove_of_ne hprimary]
      by_cases hmem : k ∈ protection.referenceKeys
      · exact World.get_removeAll_of_mem hmem u
      · rw [World.get_removeAll_of_not_mem hmem, hu.index.get_eq hstored hk]
        by_contra hcontent
        exact hmem (mem_referenceKeys_of_content (hu.stored _ hstored) hk hcontent hprimary)
  refine ⟨.of_absent hget, fun stored hs => ?_⟩
  rw [hget _ rfl] at hs
  cases hs

/-- The references a bounded cleanup removes next: `n` of sessions, then `m` of documents. -/
def nextKeys (protection : Protection) (n m : Nat) : List Key :=
  (protection.heldSessions.take n).map protection.sessionKey ++
    (protection.heldDocuments.take m).map protection.documentKey

/-- The protection with its recorded progress moved on. -/
def advance (protection : Protection) (n m : Nat) : Protection :=
  { protection with
    cleanupProgress := some {
      sessionOffset := protection.progress.sessionOffset + n
      documentOffset := protection.progress.documentOffset + m } }

theorem stored_advance (hp : protection.Stored ownerId) (n m : Nat) :
    (protection.advance n m).Stored ownerId :=
  ⟨hp.owner, hp.sessions, hp.documents⟩

@[simp] theorem project_advance (n m : Nat) :
    (protection.advance n m).project = protection.project := rfl

@[simp] theorem reference_advance (n m : Nat) :
    (protection.advance n m).reference = protection.reference := rfl

theorem heldSessions_advance (n m : Nat) :
    (protection.advance n m).heldSessions = protection.heldSessions.drop n := by
  show protection.sessionIds.drop (protection.progress.sessionOffset + n) = _
  rw [heldSessions, List.drop_drop]

theorem heldDocuments_advance (n m : Nat) :
    (protection.advance n m).heldDocuments = protection.heldDocuments.drop m := by
  show protection.documentVersions.drop (protection.progress.documentOffset + m) = _
  rw [heldDocuments, List.drop_drop]

theorem mem_drop_iff_of_nodup {α : Type} {l : List α} (hl : l.Nodup) (n : Nat) (a : α) :
    a ∈ l.drop n ↔ a ∈ l ∧ a ∉ l.take n := by
  rw [← List.take_append_drop n l, List.nodup_append] at hl
  conv_rhs => rw [← List.take_append_drop n l, List.mem_append]
  simp only [List.take_append_drop]
  constructor
  · exact fun h => ⟨Or.inr h, fun h' => hl.2.2 a h' a h rfl⟩
  · rintro ⟨h | h, hnot⟩
    · exact absurd h hnot
    · exact h

theorem session_mem_nextKeys {sessionId : String} {project : Option String} :
    .retention (.protectionSession sessionId ownerId project) ∈ protection.nextKeys n m ↔
      ownerId = protection.ownerId ∧ project = protection.project ∧
        sessionId ∈ protection.heldSessions.take n := by
  simp only [nextKeys, List.mem_append, List.mem_map, sessionKey, documentKey, Key.retention.injEq,
    RetentionKey.protectionSession.injEq, reduceCtorEq, and_false, exists_false, or_false]
  constructor
  · rintro ⟨_, hmem, rfl, rfl, rfl⟩
    exact ⟨rfl, rfl, hmem⟩
  · rintro ⟨rfl, rfl, hmem⟩
    exact ⟨_, hmem, rfl, rfl, rfl⟩

theorem document_mem_nextKeys {version : Nat} {documentId : String} :
    .retention (.protectionDocument documentId version ownerId) ∈ protection.nextKeys n m ↔
      ownerId = protection.ownerId ∧ { documentId, version } ∈ protection.heldDocuments.take m := by
  simp only [nextKeys, List.mem_append, List.mem_map, sessionKey, documentKey, Key.retention.injEq,
    RetentionKey.protectionDocument.injEq, reduceCtorEq, and_false, exists_false, false_or]
  constructor
  · rintro ⟨_, hmem, rfl, rfl, rfl⟩
    exact ⟨rfl, hmem⟩
  · rintro ⟨rfl, hmem⟩
    exact ⟨_, hmem, rfl, rfl, rfl⟩

theorem expiry_not_mem_nextKeys {expiresAt : Nat} :
    .retention (.protectionExpiry expiresAt ownerId) ∉ protection.nextKeys n m := by
  simp only [nextKeys, List.mem_append, List.mem_map, sessionKey, documentKey,
    Key.retention.injEq, reduceCtorEq, and_false, exists_false, or_false, not_false_eq_true]

theorem owner_of_mem_nextKeys (h : k ∈ protection.nextKeys n m) :
    protectionOwner k = some protection.ownerId := by
  simp only [nextKeys, List.mem_append, List.mem_map] at h
  rcases h with ⟨_, _, rfl⟩ | ⟨_, _, rfl⟩ <;> rfl

/-- Once these references are removed, every key but the primary one holds what the protection with
    the new progress puts there. -/
theorem get_removeAll_nextKeys (hu : ProtectionMatches u ownerId)
    (hstored : u.get (.retention (.protection ownerId)) = some protection) (n m : Nat)
    (hk : protectionOwner k = some ownerId) (hne : k ≠ .retention (.protection ownerId)) :
    (u.removeAll (protection.nextKeys n m)).get k = (protection.advance n m).content k := by
  have hp := hu.stored _ hstored
  have hcontent : u.get k = protection.content k := hu.index.get_eq hstored hk
  have hsessions : protection.heldSessions.Nodup := hp.sessions.sublist (List.drop_sublist _ _)
  have hdocuments : protection.heldDocuments.Nodup := hp.documents.sublist (List.drop_sublist _ _)
  have howner := hp.owner
  subst howner
  rw [World.get_removeAll, hcontent]
  unfold protectionOwner at hk
  split at hk
  · cases hk
    exact absurd rfl hne
  · -- The expiry entry stays until the last reference is gone.
    cases hk
    rw [if_neg expiry_not_mem_nextKeys]
    rfl
  · cases hk
    simp only [session_mem_nextKeys, content, heldSessions_advance,
      mem_drop_iff_of_nodup hsessions, true_and, project_advance, reference_advance]
    split_ifs <;> first | rfl | tauto
  · cases hk
    simp only [document_mem_nextKeys, content, heldDocuments_advance,
      mem_drop_iff_of_nodup hdocuments, true_and, reference_advance]
    split_ifs <;> first | rfl | tauto
  · cases hk

/-- Recording the new progress over the removed references leaves a match. -/
theorem matches_of_advanced (hu : ProtectionMatches u ownerId)
    (hstored : u.get (.retention (.protection ownerId)) = some protection) (n m : Nat) :
    ProtectionMatches ((u.removeAll (protection.nextKeys n m)).put
      (.retention (.protection ownerId)) (protection.advance n m)) ownerId := by
  refine ⟨.of_content protectionIndex (protection.advance n m) fun k hk => ?_,
    fun stored hs => ?_⟩
  · by_cases hne : k = .retention (.protection ownerId)
    · subst hne
      exact World.get_put_self _ _ _
    · rw [World.get_put_of_ne hne]
      exact get_removeAll_nextKeys hu hstored n m hk hne
  · rw [World.get_put_self] at hs
    obtain rfl := Option.some.inj hs
    exact stored_advance (hu.stored _ hstored) n m

/-- With the last reference gone, removing the expiry entry and the protection leaves nothing. -/
theorem matches_of_reclaimed (hu : ProtectionMatches u ownerId)
    (hstored : u.get (.retention (.protection ownerId)) = some protection)
    (hsessions : (protection.advance n m).heldSessions = [])
    (hdocuments : (protection.advance n m).heldDocuments = []) :
    ProtectionMatches (((u.removeAll (protection.nextKeys n m)).remove
      (.retention (.protectionExpiry protection.expiresAt ownerId))).remove
        (.retention (.protection ownerId))) ownerId := by
  have hget : ∀ k, protectionOwner k = some ownerId →
      (((u.removeAll (protection.nextKeys n m)).remove
        (.retention (.protectionExpiry protection.expiresAt ownerId))).remove
          (.retention (.protection ownerId))).get k = none := by
    intro k hk
    by_cases hne : k = .retention (.protection ownerId)
    · subst hne
      exact get_remove_self _ _
    · rw [get_remove_of_ne hne]
      by_cases hexpiry : k = .retention (.protectionExpiry protection.expiresAt ownerId)
      · subst hexpiry
        exact get_remove_self _ _
      · rw [get_remove_of_ne hexpiry, get_removeAll_nextKeys hu hstored n m hk hne]
        unfold protectionOwner at hk
        split at hk
        · cases hk
          exact absurd rfl hne
        · cases hk
          refine if_neg ?_
          rintro rfl
          exact hexpiry rfl
        · simp [content, hsessions]
        · simp [content, hdocuments]
        · cases hk
  refine ⟨.of_absent hget, fun stored hs => ?_⟩
  rw [hget _ rfl] at hs
  cases hs

end Protection

/-! ## What a transaction on protections does -/

/-- A write of one owner's keys, and of guards, that leaves the owner's keys matching. -/
structure RewritesProtection (ownerId : String) (u t : World) : Prop where
  changes : World.ChangesOnly
    (fun k => protectionOwner k = some ownerId ∨ ∃ guard, k = .guard guard) u t
  matched : ProtectionMatches t ownerId

variable {u t : World} {ownerId : String} {protection : Protection} {leaseId : Uuid}

/-- The owners whose keys are not written keep matching. -/
theorem RewritesProtection.matches_all (h : RewritesProtection ownerId u t)
    (hu : ∀ o, ProtectionMatches u o) (o : String) : ProtectionMatches t o := by
  by_cases ho : o = ownerId
  · subst ho
    exact h.matched
  · refine (hu o).congr fun k hk => h.changes.frame k ?_
    rintro (hk' | ⟨guard, rfl⟩)
    · rw [hk] at hk'
      exact ho (Option.some.inj hk')
    · cases hk

theorem run_removeProtectionReferences_eq_ok {p : Unit × World} :
    (removeProtectionReferences protection).run u = .ok p ↔
      ((), u.removeAll protection.referenceKeys) = p := by
  rw [Protection.referenceKeys, World.removeAll_append, World.removeAll_append,
    removeProtectionReferences]
  simp only [run_bind_eq_ok, Txn.run_forEach_remove_eq_ok, Prod.mk.injEq, Txn.run_remove_eq_ok]
  constructor
  · rintro ⟨_, _, ⟨_, rfl⟩, _, _, ⟨_, rfl⟩, h⟩
    exact h
  · exact fun h => ⟨(), _, ⟨trivial, rfl⟩, (), _, ⟨trivial, rfl⟩, h⟩

variable {result : BatchResult} {expiresAt now workLimit : Nat} {history : List Event} {a : Unit}

theorem run_putProtection_ok (h : (putProtection protection).run u = .ok (a, t)) :
    t = u.putAll protection.entries := by
  simp only [putProtection, run_bind_eq_ok, Txn.run_forEach_put_eq_ok,
    Prod.mk.injEq, Txn.run_put_eq_ok] at h
  obtain ⟨_, _, ⟨_, rfl⟩, _, _, ⟨_, rfl⟩, _, _, ⟨_, rfl⟩, _, rfl⟩ := h
  simp only [World.putAll, Protection.entries, List.foldl_cons, List.foldl_append]

theorem run_removePreviousReferences_ok {previous : Option Protection}
    (h : (removePreviousReferences previous).run u = .ok (a, t)) :
    t = u.removeAll ((previous.map (·.referenceKeys)).getD []) := by
  cases previous with
  | none =>
    simp only [removePreviousReferences, run_pure_eq_ok, Prod.mk.injEq] at h
    exact h.2.symm
  | some previous =>
    simp only [removePreviousReferences, run_removeProtectionReferences_eq_ok, Prod.mk.injEq] at h
    exact h.2.symm

theorem run_recheckTarget_ok {project : Option String} {validated : ValidatedTarget}
    (h : (recheckTarget project validated).run u = .ok (a, t)) : t = u := by
  simp only [recheckTarget, run_bind_eq_ok, Txn.run_get_eq_ok,
    run_require_eq_ok, Prod.mk.injEq] at h
  obtain ⟨_, _, ⟨_, rfl⟩, _, _, ⟨_, rfl⟩, _, _, rfl⟩ := h
  rfl

/-- Creating or renewing a protection rewrites the owner's keys. -/
theorem protectTransaction_rewrites {validated : List ValidatedTarget} {result : ProtectionResult}
    (hp : protection.Stored protection.ownerId) (hprogress : protection.cleanupProgress = none)
    (hu : ∀ o, ProtectionMatches u o)
    (h : (protectTransaction protection validated).run u = .ok (result, t)) :
    RewritesProtection protection.ownerId u t ∧
      t.get (.retention (.protection protection.ownerId)) = some protection := by
  simp only [protectTransaction, run_bind_eq_ok, Txn.run_get_eq_ok,
    run_pure_eq_ok, Prod.mk.injEq] at h
  obtain ⟨_, v, hguards, _, v', hrecheck, previous, _, ⟨hprevious, rfl⟩, _, r, hremove, _, _, hput,
    _, rfl⟩ := h
  -- The guards are bumped, the targets checked, the previous references removed, the new written.
  obtain rfl : v = v' := by
    show (fun s => v = s) v'
    refine Transaction.run_forEach_ok (fun b _ s r a hs hb => ?_) rfl hrecheck
    exact Eq.trans hs (run_recheckTarget_ok hb).symm
  obtain rfl := run_forEach_bumpGuard_ok hguards
  obtain rfl := run_removePreviousReferences_ok hremove
  obtain rfl := run_putProtection_ok hput
  have hbump : World.ChangesOnly (fun k => ∃ guard, k = .guard guard) u
      (u.bumpAll protection.guards) := bumpAll_changesOnly (fun guard _ => ⟨guard, rfl⟩) u
  have hbumped : ProtectionMatches (u.bumpAll protection.guards) protection.ownerId :=
    (hu _).congr fun k hk => hbump.frame k (by rintro ⟨guard, rfl⟩; cases hk)
  have hmatched : ProtectionMatches (((u.bumpAll protection.guards).removeAll
      ((previous.map (·.referenceKeys)).getD [])).putAll protection.entries)
      protection.ownerId := by
    refine Protection.matches_of_replaced hp hprogress fun k hk hne hstored => ?_
    cases previous with
    | none => exact absurd (hbumped.index.get_of_absent hprevious hk) hstored
    | some previous =>
      refine Protection.mem_referenceKeys_of_content (hbumped.stored _ hprevious) hk ?_ hne
      rw [hbumped.index.get_eq hprevious hk] at hstored
      exact hstored
  refine ⟨⟨?_, hmatched⟩, ?_⟩
  · refine ((hbump.mono fun k hk => Or.inr hk).trans (World.removeAll_changesOnly ?_ _)).trans
      (World.putAll_changesOnly ?_ _)
    · intro k hk
      cases previous with
      | none => cases hk
      | some previous =>
        have howner := (hbumped.stored _ hprevious).owner
        exact Or.inl (howner ▸ Protection.owner_of_mem_referenceKeys hk)
    · exact fun entry hentry => Or.inl (Protection.owner_of_mem_entries hentry)
  · exact Protection.get_putAll_entries hprogress _ (k := .retention (.protection _)) rfl rfl

theorem releaseProtectionTransaction_rewrites {released : Nat} (hu : ∀ o, ProtectionMatches u o)
    (h : (releaseProtectionTransaction ownerId).run u = .ok (released, t)) :
    RewritesProtection ownerId u t ∧ t.get (.retention (.protection ownerId)) = none := by
  simp only [releaseProtectionTransaction, run_bind_eq_ok, Txn.run_get_eq_ok, Prod.mk.injEq] at h
  obtain ⟨stored, _, ⟨hstored, rfl⟩, h⟩ := h
  cases stored with
  | none =>
    obtain ⟨_, rfl⟩ := Prod.mk.inj (Transaction.run_pure_eq_ok.mp h)
    exact ⟨⟨.refl _ _, hu ownerId⟩, hstored⟩
  | some protection =>
    simp only [run_bind_eq_ok, run_removeProtectionReferences_eq_ok,
      Txn.run_remove_eq_ok, run_pure_eq_ok, Prod.mk.injEq] at h
    obtain ⟨_, _, ⟨_, rfl⟩, _, _, ⟨_, rfl⟩, _, rfl⟩ := h
    have howner := ((hu ownerId).stored _ hstored).owner
    refine ⟨⟨(World.removeAll_changesOnly (fun k hk => ?_) u).trans
      (.remove (Or.inl rfl) _), Protection.matches_of_removed (hu ownerId) hstored⟩,
      get_remove_self _ _⟩
    exact Or.inl (howner ▸ Protection.owner_of_mem_referenceKeys hk)

/-! ## What a bounded cleanup does -/

theorem run_removeWithin_ok {β : Type} {key : β → Key} {items : List β} {budget count : Nat}
    (h : (removeWithin key items budget).run u = .ok (count, t)) :
    count = min budget items.length ∧ t = u.removeAll ((items.take count).map key) := by
  induction items generalizing budget count u with
  | nil =>
    simp only [removeWithin, run_pure_eq_ok, Prod.mk.injEq] at h
    obtain ⟨rfl, rfl⟩ := h
    simp
  | cons item rest ih =>
    cases budget with
    | zero =>
      simp only [removeWithin, run_pure_eq_ok, Prod.mk.injEq] at h
      obtain ⟨rfl, rfl⟩ := h
      simp
    | succ budget =>
      simp only [removeWithin, run_bind_eq_ok, Txn.run_remove_eq_ok,
        run_pure_eq_ok, Prod.mk.injEq] at h
      obtain ⟨_, _, ⟨_, rfl⟩, n, _, hrest, rfl, rfl⟩ := h
      obtain ⟨hn, rfl⟩ := ih hrest
      refine ⟨?_, rfl⟩
      rw [hn, List.length_cons]
      omega

/-- What one batch of the cleanup leaves of an owner: nothing has changed, or the protection there
    has expired. Progress is recorded on expired protections only. -/
structure Reclaims (ownerId : String) (now : Nat) (u t : World) : Prop where
  rewrites : RewritesProtection ownerId u t
  expired : (∀ k, t.get k = u.get k) ∨
    ∃ protection : Protection, u.get (.retention (.protection ownerId)) = some protection ∧
      protection.expiresAt ≤ now
  progress : ∀ protection : Protection, t.get (.retention (.protection ownerId)) = some protection →
      u.get (.retention (.protection ownerId)) = some protection ∨ protection.expiresAt ≤ now

theorem Reclaims.of_same
    (hu : ProtectionMatches u ownerId) (hsame : ∀ k, t.get k = u.get k)
    (hhistory : t.history = u.history) (huuids : t.uuids = u.uuids) :
    Reclaims ownerId now u t where
  rewrites := ⟨⟨fun k _ => hsame k, hhistory, huuids⟩, hu.congr fun k _ => hsame k⟩
  expired := Or.inl hsame
  progress protection hp := Or.inl (by rw [← hsame, hp])

/-- A stale entry is one that the index does not have: its removal changes nothing. -/
theorem removeStaleEntry_reclaims (hu : ProtectionMatches u ownerId)
    (hstale : ∀ protection : Protection,
      u.get (.retention (.protection ownerId)) = some protection → protection.expiresAt ≠ expiresAt)
    (h : (removeStaleEntry expiresAt ownerId).run u = .ok (result, t)) :
    Reclaims ownerId now u t := by
  simp only [removeStaleEntry, run_bind_eq_ok, Txn.run_remove_eq_ok,
    run_pure_eq_ok, Prod.mk.injEq] at h
  obtain ⟨_, _, ⟨_, rfl⟩, _, rfl⟩ := h
  have habsent : u.get (.retention (.protectionExpiry expiresAt ownerId)) = none := by
    cases hget : u.get (.retention (.protectionExpiry expiresAt ownerId)) with
    | none => rfl
    | some r =>
      obtain ⟨protection, hstored, hcontent⟩ := hu.index.exists_primary
        (k := .retention (.protectionExpiry expiresAt ownerId)) rfl hget
      have hne := hstale protection hstored
      rw [show protectionIndex.content ownerId protection
        (.retention (.protectionExpiry expiresAt ownerId)) = none from if_neg hne.symm]
        at hcontent
      cases hcontent
  refine .of_same hu (fun k => ?_) rfl rfl
  by_cases hk : k = .retention (.protectionExpiry expiresAt ownerId)
  · subst hk
    rw [get_remove_self, habsent]
  · exact get_remove_of_ne hk _

theorem reclaimReferences_reclaims (hu : ProtectionMatches u ownerId)
    (hstored : u.get (.retention (.protection ownerId)) = some protection)
    (hexpiry : protection.expiresAt = expiresAt) (hdue : protection.expiresAt ≤ now)
    (h : (reclaimReferences protection expiresAt ownerId workLimit).run u = .ok (result, t)) :
    Reclaims ownerId now u t := by
  subst hexpiry
  have howner := (hu.stored _ hstored).owner
  simp only [reclaimReferences, run_bind_eq_ok] at h
  obtain ⟨n, _, hsessions, m, _, hdocuments, h⟩ := h
  obtain ⟨-, rfl⟩ := run_removeWithin_ok hsessions
  obtain ⟨-, rfl⟩ := run_removeWithin_ok hdocuments
  rw [← World.removeAll_append] at h
  change (ite _ _ _ : Txn BatchResult).run (u.removeAll (protection.nextKeys n m)) = _ at h
  have hchanges : World.ChangesOnly
      (fun k => protectionOwner k = some ownerId ∨ ∃ guard, k = .guard guard) u
      (u.removeAll (protection.nextKeys n m)) :=
    World.removeAll_changesOnly
      (fun k hk => Or.inl (howner ▸ Protection.owner_of_mem_nextKeys hk)) u
  split at h
  · next hcomplete =>
    simp only [run_bind_eq_ok, Txn.run_remove_eq_ok, run_pure_eq_ok, Prod.mk.injEq] at h
    obtain ⟨_, _, ⟨_, rfl⟩, _, _, ⟨_, rfl⟩, _, rfl⟩ := h
    have hmatched := Protection.matches_of_reclaimed hu hstored (n := n) (m := m)
      (List.drop_eq_nil_of_le hcomplete.1) (List.drop_eq_nil_of_le hcomplete.2)
    refine ⟨⟨(hchanges.trans (.remove (Or.inl rfl) _)).trans (.remove (Or.inl rfl) _),
      hmatched⟩, Or.inr ⟨protection, hstored, hdue⟩, fun stored hs => ?_⟩
    rw [get_remove_self] at hs
    cases hs
  · simp only [run_bind_eq_ok, Txn.run_put_eq_ok, run_pure_eq_ok, Prod.mk.injEq] at h
    obtain ⟨_, _, ⟨_, rfl⟩, _, rfl⟩ := h
    have hmatched := Protection.matches_of_advanced hu hstored n m
    refine ⟨⟨hchanges.trans (.put (Or.inl rfl) _ _), hmatched⟩,
      Or.inr ⟨protection, hstored, hdue⟩, fun stored hs => Or.inr ?_⟩
    rw [World.get_put_self] at hs
    obtain rfl := Option.some.inj hs
    exact hdue

theorem cleanupBatchTransaction_reclaims (hu : ProtectionMatches u ownerId)
    (h : (cleanupBatchTransaction expiresAt ownerId now workLimit).run u = .ok (result, t)) :
    Reclaims ownerId now u t := by
  simp only [cleanupBatchTransaction, run_bind_eq_ok, Txn.run_get_eq_ok, Prod.mk.injEq] at h
  obtain ⟨current, _, ⟨hcurrent, rfl⟩, h⟩ := h
  cases current with
  | none =>
    refine removeStaleEntry_reclaims hu (fun protection hp => ?_) h
    rw [hcurrent] at hp
    cases hp
  | some current =>
    simp only [Transaction.run_ite] at h
    split at h
    · next hne =>
      refine removeStaleEntry_reclaims hu (fun protection hp => ?_) h
      rw [hcurrent] at hp
      obtain rfl := Option.some.inj hp
      exact hne
    · next heq =>
      split at h
      · obtain ⟨_, rfl⟩ := Prod.mk.inj (Transaction.run_pure_eq_ok.mp h)
        exact .of_same hu (fun _ => rfl) rfl rfl
      · next hdue =>
        exact reclaimReferences_reclaims hu hcurrent (not_not.mp heq) (Nat.not_lt.mp hdue) h

/-! ## What a transaction on leases does -/

/-- The keys of a lease hold what it puts there. -/
abbrev LeaseMatches (w : World) (leaseId : Uuid) : Prop := leaseIndex.Matches w.get leaseId

/-- The identifiers of the leases created so far, in order. -/
def leasedIds (history : List Event) : List Uuid :=
  history.filterMap fun event => match event with
    | .leased leaseId => some leaseId
    | _ => none

/-- No identifier was used for two leases. -/
def LeasedOnce (history : List Event) : Prop := (leasedIds history).Nodup

theorem mem_leasedIds : leaseId ∈ leasedIds history ↔ .leased leaseId ∈ history := by
  simp only [leasedIds, List.mem_filterMap]
  constructor
  · rintro ⟨event, hmem, h⟩
    split at h
    · cases h
      exact hmem
    · cases h
  · exact fun hmem => ⟨_, hmem, rfl⟩

theorem leasedIds_append (history events : List Event) :
    leasedIds (history ++ events) = leasedIds history ++ leasedIds events :=
  List.filterMap_append

theorem LeasedOnce.of_append {events : List Event} (h : LeasedOnce (history ++ events)) :
    LeasedOnce history := by
  rw [LeasedOnce, leasedIds_append] at h
  exact (List.nodup_append.mp h).1

/-- A lease created anew had never been created before. -/
theorem LeasedOnce.not_mem (h : LeasedOnce (history ++ [.leased leaseId])) :
    .leased leaseId ∉ history := by
  rw [LeasedOnce, leasedIds_append] at h
  intro hmem
  exact (List.nodup_append.mp h).2.2 leaseId (mem_leasedIds.mpr hmem) leaseId
    List.mem_cons_self rfl

/-- A write of the keys of one lease, and of guards. -/
def RewritesLease (leaseId : Uuid) (u t : World) : Prop :=
  ∀ k, leaseOwner k ≠ some leaseId → (∀ guard, k ≠ .guard guard) → t.get k = u.get k

theorem RewritesLease.trans {v : World} (h : RewritesLease leaseId u v)
    (h' : RewritesLease leaseId v t) : RewritesLease leaseId u t :=
  fun k hk hguard => (h' k hk hguard).trans (h k hk hguard)

theorem RewritesLease.matches_other {other : Uuid} (h : RewritesLease leaseId u t)
    (hne : other ≠ leaseId) (hu : LeaseMatches u other) : LeaseMatches t other := by
  refine hu.congr fun k hk => h k ?_ ?_
  · intro hk'
    have hk : leaseOwner k = some other := hk
    rw [hk] at hk'
    exact hne (Option.some.inj hk')
  · rintro guard rfl
    cases hk

/-- What the creation of a lease leaves: its four records, and a note of its identifier. -/
theorem putLease_ok {lease : Lease} (h : (putLease lease).run u = .ok (a, t)) :
    RewritesLease lease.leaseId u t ∧ t.history = u.history ++ [.leased lease.leaseId] ∧
      t.uuids = u.uuids ∧ t.get (.lease (.byId lease.leaseId)) = some lease ∧
      (LeaseMatches u lease.leaseId → u.get (.lease (.byId lease.leaseId)) = none →
        LeaseMatches t lease.leaseId) := by
  simp only [putLease, run_bind_eq_ok, Txn.run_emit_eq_ok, Prod.mk.injEq] at h
  obtain ⟨_, v₁, h₁, _, v₂, h₂, _, v₃, h₃, _, v₄, h₄, _, rfl⟩ := h
  obtain ⟨f₁, hh₁, hu₁⟩ := Txn.frame_of_putImmutable h₁
  obtain ⟨f₂, hh₂, hu₂⟩ := Txn.frame_of_putImmutable h₂
  obtain ⟨f₃, hh₃, hu₃⟩ := Txn.frame_of_putImmutable h₃
  obtain ⟨f₄, hh₄, hu₄⟩ := Txn.frame_of_putImmutable h₄
  have hframe : RewritesLease lease.leaseId u (v₄.emit (.leased lease.leaseId)) := by
    intro k hk _
    rw [World.get_emit, f₄ k (by rintro rfl; exact hk rfl), f₃ k (by rintro rfl; exact hk rfl),
      f₂ k (by rintro rfl; exact hk rfl), f₁ k (by rintro rfl; exact hk rfl)]
  refine ⟨hframe, ?_, ?_, ?_, fun hmatched habsent => ?_⟩
  · rw [World.history_emit, hh₄, hh₃, hh₂, hh₁]
  · rw [World.uuids_emit, hu₄, hu₃, hu₂, hu₁]
  · rw [World.get_emit, f₄ _ (by simp), f₃ _ (by simp), f₂ _ (by simp), Txn.get_of_putImmutable h₁]
  · refine .of_content leaseIndex lease fun k hk => ?_
    have hnone : u.get k = none := hmatched.get_of_absent habsent hk
    change leaseOwner k = some lease.leaseId at hk
    change (v₄.emit _).get k = lease.content k
    rw [World.get_emit]
    unfold leaseOwner at hk
    split at hk
    · cases hk
      rw [f₄ _ (by simp), f₃ _ (by simp), f₂ _ (by simp), Txn.get_of_putImmutable h₁]
      rfl
    · next expiresAt _ =>
      cases hk
      rw [f₄ _ (by simp), f₃ _ (by simp)]
      by_cases heq : expiresAt = lease.expiresAt
      · subst heq
        rw [Txn.get_of_putImmutable h₂]
        simp [Lease.content]
      · rw [f₂ _ (by simpa using heq), f₁ _ (by simp), hnone]
        simp [Lease.content, heq]
    · next documentId documentVersion _ =>
      cases hk
      by_cases heq : documentId = lease.documentId ∧ documentVersion = lease.documentVersion
      · obtain ⟨rfl, rfl⟩ := heq
        rw [Txn.get_of_putImmutable h₄]
        simp [Lease.content]
      · rw [f₄ _ (by simpa using heq), f₃ _ (by simp), f₂ _ (by simp), f₁ _ (by simp), hnone]
        simp [Lease.content, heq]
    · next documentId documentVersion expiresAt _ =>
      cases hk
      rw [f₄ _ (by simp)]
      by_cases heq : documentId = lease.documentId ∧ documentVersion = lease.documentVersion
          ∧ expiresAt = lease.expiresAt
      · obtain ⟨rfl, rfl, rfl⟩ := heq
        rw [Txn.get_of_putImmutable h₃]
        simp [Lease.content]
      · rw [f₃ _ (by simpa using heq), f₂ _ (by simp), f₁ _ (by simp), hnone]
        simp [Lease.content, heq]
    · cases hk

/-- What the release of a lease leaves: nothing under its keys. -/
theorem releaseLeaseFromView_ok {released : Bool}
    (h : (releaseLeaseFromView leaseId).run u = .ok (released, t)) :
    RewritesLease leaseId u t ∧ t.history = u.history ∧ t.uuids = u.uuids ∧
      t.get (.lease (.byId leaseId)) = none ∧
      (LeaseMatches u leaseId → LeaseMatches t leaseId) := by
  simp only [releaseLeaseFromView, run_bind_eq_ok, Txn.run_get_eq_ok, Prod.mk.injEq] at h
  obtain ⟨stored, _, ⟨hstored, rfl⟩, h⟩ := h
  cases stored with
  | none =>
    obtain ⟨_, rfl⟩ := Prod.mk.inj (Transaction.run_pure_eq_ok.mp h)
    exact ⟨fun _ _ _ => rfl, rfl, rfl, hstored, id⟩
  | some lease =>
    simp only [run_bind_eq_ok, run_require_eq_ok,
      Txn.run_remove_eq_ok, run_pure_eq_ok, Prod.mk.injEq] at h
    obtain ⟨_, _, ⟨_, _, rfl⟩, _, _, ⟨_, rfl⟩, _, _, ⟨_, rfl⟩, _, _, ⟨_, rfl⟩, _, _,
      ⟨_, rfl⟩, _, rfl⟩ := h
    refine ⟨fun k hk _ => ?_, rfl, rfl, ?_, fun hmatched => .of_absent fun k hk => ?_⟩
    · rw [get_remove_of_ne (by rintro rfl; exact hk rfl),
        get_remove_of_ne (by rintro rfl; exact hk rfl),
        get_remove_of_ne (by rintro rfl; exact hk rfl),
        get_remove_of_ne (by rintro rfl; exact hk rfl)]
    · rw [get_remove_of_ne (by simp), get_remove_of_ne (by simp),
        get_remove_of_ne (by simp), get_remove_self]
    · have hcontent : u.get k = lease.content k := hmatched.get_eq hstored hk
      change leaseOwner k = some leaseId at hk
      simp only [World.get, World.remove] at hcontent ⊢
      rw [Option.eq_none_iff_forall_ne_some]
      intro r hr
      simp only [Store.get_remove_eq_some_iff, hcontent] at hr
      obtain ⟨h₁, h₂, h₃, h₄, hr⟩ := hr
      unfold leaseOwner at hk
      split at hk
      · cases hk
        exact h₄ rfl
      · cases hk
        simp only [Lease.content, Option.ite_none_right_eq_some] at hr
        exact h₃ (by rw [hr.1])
      · cases hk
        simp only [Lease.content, Option.ite_none_right_eq_some] at hr
        exact h₂ (by rw [hr.1.1, hr.1.2])
      · cases hk
        simp only [Lease.content, Option.ite_none_right_eq_some] at hr
        exact h₁ (by rw [hr.1.1, hr.1.2.1, hr.1.2.2])
      · cases hk

/-! ## The invariant and the steps -/

/-- Every owner's and every lease's keys hold what the primary record puts there; of the leases this
    holds as long as no identifier is used twice. -/
structure ReferencesMatch (w : World) : Prop where
  protections : ∀ ownerId, ProtectionMatches w ownerId
  leases : LeasedOnce w.history → ∀ leaseId, LeaseMatches w leaseId
  leased : ∀ (leaseId : Uuid) (lease : Lease), w.get (.lease (.byId leaseId)) = some lease →
    lease.leaseId = leaseId ∧ .leased leaseId ∈ w.history

/-- What any number of steps does: a released lease does not come back. -/
structure ReferenceMoves (u t : World) : Prop where
  history : ∃ events, t.history = u.history ++ events
  released : LeasedOnce t.history → ∀ leaseId, .leased leaseId ∈ u.history →
    u.get (.lease (.byId leaseId)) = none → t.get (.lease (.byId leaseId)) = none

/-- What one step of a call that read `now` does: cleanup progress is recorded on expired
    protections only. -/
structure ReferenceStep (now : Nat) (u t : World) : Prop extends ReferenceMoves u t where
  progress : ∀ (ownerId : String) (protection : Protection),
    t.get (.retention (.protection ownerId)) = some protection → protection.cleanupProgress ≠ none →
        u.get (.retention (.protection ownerId)) = some protection ∨ protection.expiresAt ≤ now

/-- What one step of a cleanup that read `now` does besides: no record of a protection that expires
    later is touched. -/
def Spares (now : Nat) (u t : World) : Prop :=
  ∀ (ownerId : String) (protection : Protection),
    u.get (.retention (.protection ownerId)) = some protection → now < protection.expiresAt →
      ∀ k, protectionOwner k = some ownerId → t.get k = u.get k

theorem ReferenceMoves.refl (u : World) : ReferenceMoves u u :=
  ⟨⟨[], (List.append_nil _).symm⟩, fun _ _ _ h => h⟩

theorem ReferenceMoves.trans {v : World} (h : ReferenceMoves u v) (h' : ReferenceMoves v t) :
    ReferenceMoves u t := by
  obtain ⟨events, hevents⟩ := h.history
  obtain ⟨events', hevents'⟩ := h'.history
  refine ⟨⟨events ++ events', by rw [hevents', hevents, List.append_assoc]⟩, ?_⟩
  intro honce leaseId hmem hnone
  have honce' : LeasedOnce v.history := by
    rw [hevents'] at honce
    exact honce.of_append
  exact h'.released honce leaseId (by rw [hevents]; exact List.mem_append_left _ hmem)
    (h.released honce' leaseId hmem hnone)

theorem ReferenceStep.refl (now : Nat) (u : World) : ReferenceStep now u u :=
  ⟨.refl u, fun _ _ h _ => Or.inl h⟩

theorem Spares.refl (now : Nat) (u : World) : Spares now u u := fun _ _ _ _ _ _ => rfl

inductive ReferenceTask where
  | caller (n : Nat)
  | cleaner (n : Nat)
deriving DecidableEq

/-- What the calls of a task do; the cleaners spare what has not expired. -/
def ReferenceTask.Does (task : ReferenceTask) (now : Nat) (u t : World) : Prop :=
  ReferenceStep now u t ∧ ∀ n, task = .cleaner n → Spares now u t

theorem ReferenceTask.Does.refl (task : ReferenceTask) (now : Nat) (u : World) :
    task.Does now u u :=
  ⟨.refl now u, fun _ _ => .refl now u⟩

def referenceRules : Timed World ReferenceTask where
  inv := ReferencesMatch
  rely := ReferenceMoves
  guar := ReferenceTask.Does
  rely_refl := .refl
  rely_trans _ _ _ := .trans
  rely_of_guar _ _ _ _ h := h.1.toReferenceMoves

theorem RewritesProtection.keeps (h : RewritesProtection ownerId u t) (hu : ReferencesMatch u) :
    ReferencesMatch t := by
  have hlease : ∀ k leaseId, leaseOwner k = some leaseId → t.get k = u.get k := by
    intro k leaseId hk
    refine h.changes.frame k ?_
    rintro (hk' | ⟨guard, rfl⟩)
    · rw [protectionOwner_of_leaseOwner hk] at hk'
      cases hk'
    · cases hk
  refine ⟨h.matches_all hu.protections, fun honce leaseId => ?_, fun leaseId lease hl => ?_⟩
  · rw [h.changes.history] at honce
    exact (hu.leases honce leaseId).congr fun k hk => hlease k leaseId hk
  · rw [h.changes.history]
    exact hu.leased leaseId lease (by rw [← hl]; exact (hlease _ leaseId rfl).symm)

theorem RewritesProtection.moves (h : RewritesProtection ownerId u t) : ReferenceMoves u t := by
  refine ⟨⟨[], by rw [h.changes.history, List.append_nil]⟩, fun _ leaseId _ hnone => ?_⟩
  rw [h.changes.frame _ (by simp [protectionOwner]), hnone]

theorem RewritesProtection.step
    (h : RewritesProtection ownerId u t)
    (hprogress : ∀ protection : Protection,
      t.get (.retention (.protection ownerId)) = some protection →
        protection.cleanupProgress ≠ none →
          u.get (.retention (.protection ownerId)) = some protection ∨
            protection.expiresAt ≤ now) : ReferenceStep now u t := by
  refine ⟨h.moves, fun other protection hp hne => ?_⟩
  by_cases hother : other = ownerId
  · subst hother
    exact hprogress protection hp hne
  · left
    rw [← hp]
    exact (h.changes.frame _ (by simpa [protectionOwner] using hother)).symm

/-- An expired or unchanged owner is all that a batch touches. -/
theorem Reclaims.spares (h : Reclaims ownerId now u t) : Spares now u t := by
  intro other protection hp hlater k hk
  rcases h.expired with hsame | ⟨expired, hstored, hdue⟩
  · exact hsame k
  · by_cases hother : other = ownerId
    · subst hother
      rw [hstored] at hp
      obtain rfl := Option.some.inj hp
      omega
    · refine h.rewrites.changes.frame k ?_
      rintro (hk' | ⟨guard, rfl⟩)
      · rw [hk] at hk'
        exact hother (Option.some.inj hk')
      · cases hk

/-- A write of the keys of leases and guards leaves every protection as it is. -/
theorem RewritesLease.protections (h : RewritesLease leaseId u t) :
    ∀ k ownerId, protectionOwner k = some ownerId → t.get k = u.get k := by
  intro k ownerId hk
  refine h k (fun hk' => ?_) ?_
  · rw [protectionOwner_of_leaseOwner hk'] at hk
    cases hk
  · rintro guard rfl
    cases hk

theorem RewritesLease.step
    (h : RewritesLease leaseId u t) (hmoves : ReferenceMoves u t) (task : ReferenceTask) :
    task.Does now u t := by
  refine ⟨⟨hmoves, fun ownerId protection hp _ => Or.inl ?_⟩, fun _ _ => ?_⟩
  · rw [← hp]
    exact (h.protections _ ownerId rfl).symm
  · exact fun ownerId _ _ _ k hk => h.protections k ownerId hk

/-- A write of one lease's keys keeps the invariant when it leaves those keys matching and notes a
    new lease. -/
theorem RewritesLease.keeps (h : RewritesLease leaseId u t)
    (hu : ReferencesMatch u) {events : List Event} (hhistory : t.history = u.history ++ events)
    (hmatched : LeasedOnce t.history → LeaseMatches u leaseId → LeaseMatches t leaseId)
    (hleased : ∀ lease : Lease, t.get (.lease (.byId leaseId)) = some lease →
      lease.leaseId = leaseId ∧ .leased leaseId ∈ t.history) : ReferencesMatch t := by
  refine ⟨fun ownerId => (hu.protections ownerId).congr fun k hk => h.protections k _ hk, ?_, ?_⟩
  · intro honce other
    have honce' : LeasedOnce u.history := by
      rw [hhistory] at honce
      exact honce.of_append
    by_cases hother : other = leaseId
    · subst hother
      exact hmatched honce (hu.leases honce' _)
    · exact h.matches_other hother (hu.leases honce' other)
  · intro other lease hl
    by_cases hother : other = leaseId
    · subst hother
      exact hleased lease hl
    · rw [h _ (by simpa [leaseOwner] using hother) (by simp)] at hl
      obtain ⟨heq, hmem⟩ := hu.leased other lease hl
      exact ⟨heq, by rw [hhistory]; exact List.mem_append_left _ hmem⟩

/-! ## The calls -/

section Calls

variable {task : ReferenceTask} {now : Nat} {s : World}

theorem validateTarget_reads (project : Option String) (target : DocumentVersionRef) :
    (validateTarget project target).Always Eq := by
  refine (Program.Always.read (fun _ => rfl) _).bind fun stored => ?_
  refine (Program.Always.read (fun _ => rfl) _).bind fun history => ?_
  refine (Program.Always.read (fun _ => rfl) _).bind fun manifest => ?_
  dsimp only
  split
  · trivial
  · exact (Program.Always.require _ _).bind fun _ => trivial

theorem validateTargets_reads (project : Option String) (targets : List DocumentVersionRef) :
    (validateTargets project targets).Always Eq := by
  induction targets with
  | nil => trivial
  | cons target rest ih =>
    exact (validateTarget_reads project target).bind fun _ => ih.bind fun _ => trivial

theorem safeCall_of_reads {α : Type} {p : Prog α} (hp : p.Always Eq) :
    referenceRules.SafeCall task now p (fun _ _ => True) s := by
  refine (Safe.of_always Eq (fun _ _ => True) (fun _ _ _ _ _ => trivial)
    (fun _ => trivial) (fun _ _ _ => trivial) (fun u t htu hinv => ?_) hp s).weaken
    fun r t _ => by cases r <;> trivial
  subst htu
  exact ⟨hinv, ReferenceTask.Does.refl _ _ _, trivial⟩

theorem protectEvidence_safe (request : ProtectionRequest) (project : Option String) (n : Nat) :
    referenceRules.SafeCall (.caller n) now (protectEvidence request project now)
      (fun _ _ => True) s := by
  refine Safe.seqOfExcept fun protection hnormal => ?_
  obtain ⟨hstored, hprogress⟩ := normalizeProtectionRequest_stored hnormal
  refine Safe.seq _ (safeCall_of_reads (validateTargets_reads _ _)) fun validated v _ => ?_
  refine Safe.transaction (ReferenceTask.Does.refl _ _) (fun u result t _ hinv _ h => ?_)
    fun _ _ _ _ _ => trivial
  obtain ⟨hrewrites, hget⟩ := protectTransaction_rewrites hstored hprogress hinv.protections h
  refine ⟨hrewrites.keeps hinv, ⟨hrewrites.step fun protection' hp hne => ?_, ?_⟩, trivial⟩
  · rw [hget] at hp
    obtain rfl := Option.some.inj hp
    exact absurd hprogress hne
  · rintro m ⟨⟩

theorem releaseProtection_safe (ownerId : String) (n : Nat) :
    referenceRules.SafeCall (.caller n) now (releaseProtection ownerId) (fun _ _ => True) s := by
  refine Safe.seqRequire fun _ => ?_
  refine Safe.transaction (ReferenceTask.Does.refl _ _) (fun u result t _ hinv _ h => ?_)
    fun _ _ _ _ _ => trivial
  obtain ⟨hrewrites, hget⟩ := releaseProtectionTransaction_rewrites hinv.protections h
  refine ⟨hrewrites.keeps hinv, ⟨hrewrites.step fun protection hp _ => ?_, ?_⟩, trivial⟩
  · rw [hget] at hp
    cases hp
  · rintro m ⟨⟩

theorem sweepProtections_safe (workLimit : Nat) (due : List (Nat × String)) :
    ∀ (sweep : ProtectionSweep) (s : World),
      referenceRules.SafeCall task now (sweepProtections now workLimit sweep due)
        (fun _ _ => True) s := by
  induction due with
  | nil => exact fun sweep s => trivial
  | cons entry rest ih =>
    obtain ⟨expiresAt, ownerId⟩ := entry
    intro sweep s
    rw [sweepProtections]
    split
    · trivial
    · split
      · trivial
      · refine Safe.seq (fun _ _ => True) ?_ fun cleaned v _ => ?_
        · refine Safe.transaction (ReferenceTask.Does.refl _ _)
            (fun u result t _ hinv _ h => ?_) fun _ _ _ _ _ => trivial
          have hreclaims : Reclaims ownerId now u t :=
            cleanupBatchTransaction_reclaims (hinv.protections ownerId) h
          exact ⟨hreclaims.rewrites.keeps hinv,
            ⟨hreclaims.rewrites.step fun protection hp _ => hreclaims.progress protection hp,
              fun _ _ => hreclaims.spares⟩, trivial⟩
        · dsimp only
          by_cases hcomplete : cleaned.complete = true
          · rw [if_pos hcomplete]
            exact ih _ _
          · rw [if_neg hcomplete]
            trivial

theorem cleanupExpiredProtections_safe (limit workLimit : Nat) :
    referenceRules.SafeCall task now (cleanupExpiredProtections now limit workLimit)
      (fun _ _ => True) s := by
  refine Safe.seqOfExcept fun now' hnow => ?_
  obtain rfl : now = now' := timestamp_ok hnow
  refine Safe.seqOfExcept fun limit' _ => Safe.seqOfExcept fun workLimit' _ => ?_
  refine Safe.seq (fun _ _ => True) (Safe.read (ReferenceTask.Does.refl _ _) fun _ _ _ => trivial)
    fun due v _ => ?_
  exact Safe.seq _ (sweepProtections_safe workLimit' due _ _) fun _ _ _ => trivial

theorem chooseLeaseId_safe (leaseId : Option Uuid) :
    referenceRules.SafeCall task now (chooseLeaseId leaseId) (fun _ _ => True) s := by
  cases leaseId with
  | some leaseId => trivial
  | none =>
    show referenceRules.SafeCall task now (Program.transaction Txn.randomUUID) _ s
    refine Safe.transaction (ReferenceTask.Does.refl _ _) (fun u drawn t _ hinv _ h => ?_)
      fun _ _ _ _ _ => trivial
    obtain ⟨_, rfl⟩ := Prod.mk.inj (Txn.run_randomUUID_eq_ok.mp h)
    have hrewrites : RewritesLease drawn u { u with uuids := u.uuids + 1 } := fun _ _ _ => rfl
    exact ⟨⟨fun ownerId => (hinv.protections ownerId).congr fun _ _ => rfl, hinv.leases,
      hinv.leased⟩, hrewrites.step ⟨⟨[], (List.append_nil _).symm⟩, fun _ _ _ h => h⟩ task,
      trivial⟩

/-- Creating a lease keeps the invariant; an identifier created before is not created again, or it
    is used twice. -/
theorem leaseTransaction_keeps {lease : Lease} {result : Lease × Bool}
    (hu : ReferencesMatch u) (h : (leaseTransaction lease).run u = .ok (result, t)) :
    ReferencesMatch t ∧ task.Does now u t := by
  simp only [leaseTransaction, run_bind_eq_ok, Txn.run_get_eq_ok, Prod.mk.injEq] at h
  obtain ⟨_, w, hguard, existing, _, ⟨hexisting, rfl⟩, h⟩ := h
  obtain rfl := run_bumpGuard_ok hguard
  generalize hkey : GuardKey.document lease.documentId lease.documentVersion = guard at *
  have hbump : RewritesLease lease.leaseId u (u.bump guard) :=
    fun k _ hk => World.get_put_of_ne (hk guard) _ _
  have hsame : ∀ leaseId, LeaseMatches u leaseId → LeaseMatches (u.bump guard) leaseId :=
    fun leaseId hm => hm.congr fun k hk =>
      World.get_put_of_ne (by rintro rfl; cases hk) _ _
  have hmoves : ReferenceMoves u (u.bump guard) :=
    ⟨⟨[], (List.append_nil _).symm⟩, fun _ leaseId _ hnone => by
      rw [← hnone]
      exact World.get_put_of_ne (by simp) _ _⟩
  have hbumped : ReferencesMatch (u.bump guard) :=
    hbump.keeps hu (List.append_nil _).symm (fun _ => hsame _) fun stored hs =>
      hu.leased _ stored (by rw [← hs]; exact (World.get_put_of_ne (by simp) _ _).symm)
  cases existing with
  | some existing =>
    simp only [run_bind_eq_ok, run_require_eq_ok, run_pure_eq_ok, Prod.mk.injEq] at h
    obtain ⟨_, _, ⟨_, _, rfl⟩, _, rfl⟩ := h
    exact ⟨hbumped, hbump.step hmoves task⟩
  | none =>
    simp only [run_bind_eq_ok, Txn.run_get_eq_ok, run_require_eq_ok,
      run_pure_eq_ok, Prod.mk.injEq] at h
    obtain ⟨_, _, ⟨_, rfl⟩, _, _, ⟨_, _, rfl⟩, _, _, hput, _, rfl⟩ := h
    obtain ⟨hrewrites, hhistory, -, hget, hmatched⟩ := putLease_ok hput
    have hkeeps := hrewrites.keeps hbumped hhistory (fun _ hm => hmatched hm hexisting)
      fun stored hs => by
        rw [hget] at hs
        obtain rfl := Option.some.inj hs
        exact ⟨rfl, by rw [hhistory]; exact List.mem_append_right _ List.mem_cons_self⟩
    refine ⟨hkeeps, (hbump.trans hrewrites).step (hmoves.trans ⟨⟨_, hhistory⟩, ?_⟩) task⟩
    intro honce leaseId hmem hnone
    have hne : leaseId ≠ lease.leaseId := by
      rintro rfl
      rw [hhistory] at honce
      exact honce.not_mem hmem
    rw [hrewrites _ (by simpa [leaseOwner] using hne) (by simp), hnone]

theorem createRetrievalLease_safe (request : LeaseRequest) :
    referenceRules.SafeCall task now (createRetrievalLease request now) (fun _ _ => True) s := by
  refine Safe.seq _ (chooseLeaseId_safe _) fun leaseId v _ => Safe.seqOfExcept fun lease _ => ?_
  refine Safe.transaction (ReferenceTask.Does.refl _ _) (fun u result t _ hinv _ h => ?_)
    fun _ _ _ _ _ => trivial
  obtain ⟨hkeeps, hdoes⟩ := leaseTransaction_keeps hinv h
  exact ⟨hkeeps, hdoes, trivial⟩

/-- A release keeps the invariant, and leaves no lease under the identifier. -/
theorem releaseLease_safe (leaseId : Uuid) : referenceRules.SafeCall task now (releaseLease leaseId)
      (fun _ t => ReferenceMoves s t ∧ t.get (.lease (.byId leaseId)) = none) s := by
  refine Safe.transaction (ReferenceTask.Does.refl _ _) (fun u result t hrely hinv _ h => ?_)
    fun _ _ _ _ _ => trivial
  obtain ⟨hrewrites, hhistory, -, hnone, hmatched⟩ := releaseLeaseFromView_ok h
  have hmoves : ReferenceMoves u t := by
    refine ⟨⟨[], by rw [hhistory, List.append_nil]⟩, fun _ other _ habsent => ?_⟩
    by_cases hother : other = leaseId
    · subst hother
      exact hnone
    · rw [hrewrites _ (by simpa [leaseOwner] using hother) (by simp), habsent]
  refine ⟨hrewrites.keeps hinv (by rw [hhistory, List.append_nil]) (fun _ => hmatched)
    fun lease hl => ?_, hrewrites.step hmoves task, ReferenceMoves.trans hrely hmoves, hnone⟩
  rw [hnone] at hl
  cases hl

/-- An entry read from the index is one of a lease that was created, while no identifier is used
    twice. -/
def Dated (w : World) (entry : LeaseReference) : Prop :=
  LeasedOnce w.history → .leased entry.leaseId ∈ w.history

variable {entry : LeaseReference}

theorem Dated.of_moves (h : Dated u entry) (hmoves : ReferenceMoves u t) : Dated t entry := by
  obtain ⟨events, hevents⟩ := hmoves.history
  intro honce
  rw [hevents] at honce ⊢
  exact List.mem_append_left _ (h honce.of_append)

theorem dated_of_mem_dueLeases {limit : Nat} (hu : ReferencesMatch u)
    (h : entry ∈ dueLeases limit u) : Dated u entry := by
  intro honce
  obtain ⟨⟨expiresAt, leaseId, payload⟩, hmem, rfl⟩ := List.mem_map.mp h
  obtain ⟨k, v, hget, hselect⟩ := Store.mem_scan.mp (List.mem_of_mem_take hmem)
  split at hselect
  · next expiresAt' leaseId' found =>
    obtain ⟨rfl, rfl, rfl⟩ : expiresAt' = expiresAt ∧ leaseId' = leaseId ∧ found = payload := by
      simpa using hselect
    obtain ⟨lease, hstored, hcontent⟩ := (hu.leases honce leaseId').exists_primary
      (k := .lease (.byExpiry expiresAt' leaseId')) rfl hget
    change (if expiresAt' = lease.expiresAt then some lease.reference else none) = some found
      at hcontent
    obtain ⟨heq, hleased⟩ := hu.leased leaseId' lease hstored
    split at hcontent
    · obtain rfl := Option.some.inj hcontent
      show .leased lease.leaseId ∈ u.history
      rw [heq]
      exact hleased
    · cases hcontent
  · cases hselect

/-- An entry that has outlived its lease is removed after the lease was seen to be gone; as the
    lease does not come back, there is then no entry any more. -/
theorem removeExpiryEntry_keeps (task : ReferenceTask) (now : Nat) {v : World}
    (hdated : Dated v entry) (habsent : v.get (.lease (.byId entry.leaseId)) = none)
    (hmoves : ReferenceMoves v u) (hu : ReferencesMatch u) :
    ReferencesMatch (u.remove (.lease (.byExpiry entry.expiresAt entry.leaseId))) ∧
      task.Does now u (u.remove (.lease (.byExpiry entry.expiresAt entry.leaseId))) := by
  have hrewrites : RewritesLease entry.leaseId u
      (u.remove (.lease (.byExpiry entry.expiresAt entry.leaseId))) :=
    fun k hk _ => get_remove_of_ne (by rintro rfl; exact hk rfl) _
  have hprimary : ∀ leaseId, (u.remove
      (.lease (.byExpiry entry.expiresAt entry.leaseId))).get (.lease (.byId leaseId)) =
        u.get (.lease (.byId leaseId)) := fun leaseId => get_remove_of_ne (by simp) _
  refine ⟨hrewrites.keeps hu (List.append_nil _).symm (fun honce hmatched => ?_) ?_,
    hrewrites.step ⟨⟨[], (List.append_nil _).symm⟩, fun _ leaseId _ hnone => ?_⟩ task⟩
  · have hdated' : .leased entry.leaseId ∈ v.history := by
      obtain ⟨events, hevents⟩ := hmoves.history
      refine hdated ?_
      rw [World.history_remove, hevents] at honce
      exact honce.of_append
    have hgone := hmoves.released honce entry.leaseId hdated' habsent
    refine .of_absent fun k hk => ?_
    by_cases heq : k = .lease (.byExpiry entry.expiresAt entry.leaseId)
    · subst heq
      exact get_remove_self _ _
    · rw [get_remove_of_ne heq]
      exact hmatched.get_of_absent hgone hk
  · intro lease hl
    rw [hprimary] at hl
    exact hu.leased _ lease hl
  · rw [hprimary, hnone]

theorem cleanupExpiredLease_safe (hdated : Dated s entry) :
    referenceRules.SafeCall task now (cleanupExpiredLease entry)
      (fun _ t => ReferenceMoves s t) s := by
  refine Safe.seq _ (releaseLease_safe entry.leaseId) fun released v hv => ?_
  obtain ⟨hmoves, habsent⟩ := hv
  split
  · exact hmoves
  · intro u hrely hinv _
    obtain ⟨hkeeps, hdoes⟩ :=
      removeExpiryEntry_keeps task now (hdated.of_moves hmoves) habsent hrely hinv
    exact ⟨hkeeps, hdoes, (hmoves.trans hrely).trans hdoes.1.toReferenceMoves⟩

theorem sweepLeases_safe (due : List LeaseReference) :
    ∀ (sweep : LeaseSweep) (s : World), (∀ entry ∈ due, Dated s entry) →
      referenceRules.SafeCall task now (sweepLeases now sweep due) (fun _ _ => True) s := by
  induction due with
  | nil => exact fun sweep s _ => trivial
  | cons entry rest ih =>
    intro sweep s hdated
    rw [sweepLeases]
    split
    · trivial
    · refine Safe.seq _ (cleanupExpiredLease_safe (hdated entry List.mem_cons_self))
        fun released v hmoves => ?_
      exact ih _ _ fun other hother =>
        (hdated other (List.mem_cons_of_mem _ hother)).of_moves hmoves

theorem cleanupExpiredLeases_safe (limit : Nat) :
    referenceRules.SafeCall task now (cleanupExpiredLeases now limit) (fun _ _ => True) s := by
  refine Safe.seqOfExcept fun now' hnow => ?_
  obtain rfl : now = now' := timestamp_ok hnow
  refine Safe.seqOfExcept fun limit' _ => ?_
  refine Safe.seq (fun due t => ∀ entry ∈ due, Dated t entry)
    (Safe.read (ReferenceTask.Does.refl _ _) fun u _ hinv entry hentry =>
      dated_of_mem_dueLeases hinv hentry) fun due v hdue => ?_
  exact Safe.seq _ (sweepLeases_safe due _ _ hdue) fun _ _ _ => trivial

end Calls

/-! ## The system -/

/-- The calls that write protections and leases, with the time at which they start. -/
inductive ReferenceCall : ReferenceTask → Nat → Prog Unit → Prop
  | protect (n now : Nat) (request : ProtectionRequest) (project : Option String) :
      ReferenceCall (.caller n) now (protectEvidence request project now).void
  | releaseProtection (n now : Nat) (ownerId : String) :
      ReferenceCall (.caller n) now (releaseProtection ownerId).void
  | lease (n now : Nat) (request : LeaseRequest) :
      ReferenceCall (.caller n) now (createRetrievalLease request now).void
  | releaseLease (n now : Nat) (leaseId : Uuid) :
      ReferenceCall (.caller n) now (releaseLease leaseId).void
  | cleanupProtections (n now limit workLimit : Nat) :
      ReferenceCall (.cleaner n) now (cleanupExpiredProtections now limit workLimit).void
  | cleanupLeases (n now limit : Nat) :
      ReferenceCall (.cleaner n) now (cleanupExpiredLeases now limit).void

/-- Cleanup progress stands on expired protections only. -/
def ProgressExpired (s : Clocked World) : Prop :=
  ∀ (ownerId : String) (protection : Protection),
    s.state.get (.retention (.protection ownerId)) = some protection →
      protection.cleanupProgress ≠ none → protection.expiresAt ≤ s.now

/-- Any set of stored protections and leases that matches its references. -/
def referenceSystem : System (Clocked World) (Option ReferenceTask) StoreError Unit :=
  clockedSystem (fun s => ReferencesMatch s.state ∧ ProgressExpired s) ReferenceCall

theorem referenceCalls_covered : referenceRules.Covers
    (fun s => ReferencesMatch s.state ∧ ProgressExpired s) ReferenceCall := by
  refine ⟨fun s hs => hs.1, fun task now p s hp _ => ?_⟩
  have hvoid : ∀ {α : Type} {q : Prog α}, referenceRules.SafeCall task now q (fun _ _ => True) s →
      referenceRules.SafeCall task now q.void (fun _ _ => True) s := fun h => Safe.mapResult h
  cases hp with
  | protect n _ request project => exact hvoid (protectEvidence_safe request project n)
  | releaseProtection n _ ownerId => exact hvoid (releaseProtection_safe ownerId n)
  | lease n _ request => exact hvoid (createRetrievalLease_safe request)
  | releaseLease n _ leaseId =>
    exact hvoid ((releaseLease_safe leaseId).mono fun _ _ _ => trivial)
  | cleanupProtections n _ limit workLimit =>
    exact hvoid (cleanupExpiredProtections_safe limit workLimit)
  | cleanupLeases n _ limit => exact hvoid (cleanupExpiredLeases_safe limit)

/-- In every reachable state the references match the protections and leases, and a step of a
    cleanup touches no record of a protection that has not expired. -/
theorem references_match_primaries
    {c : Config (Clocked World) (Option ReferenceTask) StoreError Unit}
    (hc : Reachable referenceSystem c) :
    (∀ ownerId, protectionIndex.Matches c.shared.state.get ownerId) ∧ ProgressExpired c.shared ∧
      (LeasedOnce c.shared.state.history →
        ∀ leaseId, leaseIndex.Matches c.shared.state.get leaseId) ∧
      ∀ n act next, c.processes (some (.cleaner n)) = some (.atomic act next) →
        Spares c.shared.now c.shared.state (act c.shared).state := by
  obtain ⟨⟨hinv, hprogress⟩, hlive⟩ := Timed.sound referenceCalls_covered ProgressExpired
    (fun s hs => hs.2)
    (fun s n hs ownerId protection hp hne =>
      Nat.le_trans (hs ownerId protection hp hne) (Nat.le_add_right _ _))
    (fun t now s u _ hs hnow hg ownerId protection hp hne => by
      rcases hg.1.progress ownerId protection hp hne with hp | hle
      · exact hs ownerId protection hp hne
      · exact Nat.le_trans hle hnow) hc
  refine ⟨fun ownerId => (hinv.protections ownerId).index, hprogress, hinv.leases, ?_⟩
  intro n act next hp ownerId protection hstored hlater k hk
  obtain ⟨⟨now, hnow, hdoes⟩, _⟩ := (hlive _ _ hp).advance hinv
  exact hdoes.2 n rfl ownerId protection hstored (Nat.lt_of_le_of_lt hnow hlater) k hk

/-! ## A partial cleanup, and an identifier used twice -/

abbrev ReferenceConfig : Type := Config (Clocked World) (Option ReferenceTask) StoreError Unit

def emptyWorld : World := ⟨Store.empty, 0, []⟩

theorem emptyWorld_matches : ReferencesMatch emptyWorld where
  protections ownerId := ⟨.of_absent fun _ _ => rfl, fun protection hp => by cases hp⟩
  leases _ _ := .of_absent fun _ _ => rfl
  leased leaseId lease hl := by cases hl

def sampleStart : ReferenceConfig := ⟨⟨emptyWorld, 0⟩, fun _ => none⟩

theorem sampleStart_reachable : Reachable referenceSystem sampleStart :=
  .initial ⟨emptyWorld_matches, fun _ _ hp => by cases hp⟩

def sampleProtection : ProtectionRequest where
  ownerId := "agent"
  sessionIds := ["first", "second"]
  documentVersions := []
  ttlMs := 5

/-- A protection of two sessions expires, and a cleanup may remove one reference. -/
def partialMoves : List (Move (Clocked World) (Option ReferenceTask) StoreError Unit) :=
  [.start (some (.caller 0)) (protectEvidence sampleProtection none 0).void.clocked,
    .advance (some (.caller 0)), .start none (elapse 10), .advance none,
    .start (some (.cleaner 0)) (cleanupExpiredProtections 10 100 1).void.clocked,
    .advance (some (.cleaner 0)), .advance (some (.cleaner 0))]

def partialRun : ReferenceConfig := sampleStart.playAll partialMoves

theorem partialRun_reachable : Reachable referenceSystem partialRun := by
  refine sampleStart_reachable.playAll ?_
  exact ⟨⟨_, .protect 0 0 sampleProtection none, rfl⟩, trivial, ⟨10, rfl⟩, trivial,
    ⟨_, .cleanupProtections 0 10 100 1, rfl⟩, trivial, trivial, trivial⟩

def sampleLease : LeaseRequest where
  leaseId := some ⟨7⟩
  documentId := "document"
  documentVersion := 1
  ttlMs := 1

/-- Two calls lease a document under one identifier: the second commits after the first lease has
    expired and was released, while a cleanup is about to remove its entry. -/
def reusedMoves : List (Move (Clocked World) (Option ReferenceTask) StoreError Unit) :=
  [.start (some (.caller 0)) (createRetrievalLease sampleLease 0).void.clocked,
    .start (some (.caller 1)) (createRetrievalLease sampleLease 0).void.clocked,
    .advance (some (.caller 0)), .start none (elapse 10), .advance none,
    .start (some (.cleaner 0)) (cleanupExpiredLeases 10 100).void.clocked,
    .advance (some (.cleaner 0)),
    .start (some (.caller 0)) (releaseLease ⟨7⟩).void.clocked, .advance (some (.caller 0)),
    .advance (some (.cleaner 0)), .advance (some (.caller 1)), .advance (some (.cleaner 0))]

def reusedRun : ReferenceConfig := sampleStart.playAll reusedMoves

theorem reusedRun_reachable : Reachable referenceSystem reusedRun := by
  refine sampleStart_reachable.playAll ?_
  exact ⟨⟨_, .lease 0 0 sampleLease, rfl⟩, ⟨_, .lease 1 0 sampleLease, rfl⟩, trivial,
    ⟨10, rfl⟩, trivial, ⟨_, .cleanupLeases 0 10 100, rfl⟩, trivial,
    ⟨_, .releaseLease 0 10 ⟨7⟩, rfl⟩, trivial, trivial, trivial, trivial, trivial⟩

def partialProtection : Protection where
  ownerId := "agent"
  project := none
  issuedAt := 0
  expiresAt := 5
  sessionIds := ["first", "second"]
  documentVersions := []
  cleanupProgress := some { sessionOffset := 1, documentOffset := 0 }

def reusedLease : Lease where
  leaseId := ⟨7⟩
  ownerId := "retrieval"
  documentId := "document"
  documentVersion := 1
  issuedAt := 0
  expiresAt := 1

/-- After the partial cleanup the protection still names the session whose reference is gone. After
    the second lease under one identifier that lease has no expiry entry. -/
theorem references_can_be_missing :
    (Reachable referenceSystem partialRun ∧ ∃ protection : Protection,
      partialRun.shared.state.get (.retention (.protection "agent")) = some protection ∧
      "first" ∈ protection.sessionIds ∧
      partialRun.shared.state.get (.retention (.protectionSession "first" "agent" none)) = none) ∧
    (Reachable referenceSystem reusedRun ∧ ∃ lease : Lease,
      reusedRun.shared.state.get (.lease (.byId ⟨7⟩)) = some lease ∧
      reusedRun.shared.state.get (.lease (.byExpiry lease.expiresAt ⟨7⟩)) = none) := by
  refine ⟨⟨partialRun_reachable, ?_⟩, ⟨reusedRun_reachable, ?_⟩⟩
  · exact ⟨partialProtection, by decide +kernel, by decide, by decide +kernel⟩
  · exact ⟨reusedLease, by decide +kernel, by decide +kernel⟩

/-- The same two runs: up to the recorded progress everything is in place. -/
theorem references_match_primaries_partialRun :
    LeasedOnce partialRun.shared.state.history ∧
    partialRun.shared.state.get (.retention (.protectionExpiry 5 "agent")) ≠ none ∧
    partialRun.shared.state.get (.retention (.protectionSession "second" "agent" none)) ≠ none ∧
    protectionIndex.Matches partialRun.shared.state.get "agent" ∧
    leaseIndex.Matches partialRun.shared.state.get ⟨7⟩ ∧
    protectionIndex.Matches reusedRun.shared.state.get "agent" := by
  have h := references_match_primaries partialRun_reachable
  have honce : LeasedOnce partialRun.shared.state.history := by
    unfold LeasedOnce
    decide +kernel
  exact ⟨honce, by decide +kernel, by decide +kernel, h.1 "agent", h.2.2.1 honce ⟨7⟩,
    (references_match_primaries reusedRun_reachable).1 "agent"⟩

end ContextStore
