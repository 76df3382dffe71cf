import Mathlib.Data.List.Dedup
import ContextStore.Store.Commit

/-! # What a canonical commit does

The fingerprint of a request determines its encoded content (`fingerprintBytes_injective`), since
every hashed field is preceded by its length. A commit that takes effect does so from a state in
which its preconditions hold, and `Commits` says all it does there: the batch it writes, the
sequence and the ordinal it allocates, and the marker it leaves. -/

namespace ContextStore

open Concurrent
open Transaction (run_bind_eq_ok run_require_eq_ok run_pure_eq_ok forEach)
open World (get_put_of_ne)

variable (codec : CommitCodec)

/-! ## Fingerprints -/

/-- A content as the store sees it: encoded keys and values. -/
def encodeContent (content : List ContentEntry) : List (List UInt8 × List UInt8) :=
  content.map fun entry => (entry.keyBytes codec, entry.valueBytes codec)

variable {prepared : PreparedCommit} {u t : World} {events : List Event} {committedAt : Nat}
  {view : DerivedViewAdmission} {commit : CanonicalCommit} {bytes : List UInt8}
  {transition : Transition} {k : Key} {entries : List Entry} {keys : List GuardKey}
  {ordinal : Option Nat} {a : Unit} {n : Nat}

theorem hashLength_injective {m : Nat} (hm : hashLength m = .ok bytes)
    (hn : hashLength n = .ok bytes) : m = n := by
  unfold hashLength at hm hn
  split at hm
  · next hm' =>
    split at hn
    · next hn' =>
      cases hm
      simp only [Except.ok.injEq, List.cons.injEq, and_true, ← UInt8.toNat_inj,
        UInt8.toNat_ofNat'] at hn
      omega
    · cases hn
  · cases hm

theorem length_of_hashLength (h : hashLength n = .ok bytes) : bytes.length = 4 := by
  unfold hashLength at h
  split at h
  · cases h
    rfl
  · cases h

/-- A length-prefixed field can be read back from the front of a byte string. -/
theorem hashField_append_injective {a b x y r s : List UInt8} (ha : hashField a = .ok x)
    (hb : hashField b = .ok y) (h : x ++ r = y ++ s) : a = b ∧ r = s := by
  obtain ⟨la, hla, rfl⟩ := map_ok_iff.mp ha
  obtain ⟨lb, hlb, rfl⟩ := map_ok_iff.mp hb
  rw [List.append_assoc, List.append_assoc] at h
  obtain ⟨hprefixes, hrest⟩ := List.append_inj h
    ((length_of_hashLength hla).trans (length_of_hashLength hlb).symm)
  have hlength : a.length = b.length := hashLength_injective hla (hprefixes ▸ hlb)
  exact List.append_inj hrest hlength

theorem fingerprintBytes_injective {content content' : List ContentEntry}
    (h : fingerprintBytes codec content = .ok bytes)
    (h' : fingerprintBytes codec content' = .ok bytes) :
    encodeContent codec content = encodeContent codec content' := by
  have hcons : ∀ (entry : ContentEntry) (rest : List ContentEntry) (bytes : List UInt8),
      fingerprintBytes codec (entry :: rest) = .ok bytes → ∃ key value others,
        hashField (entry.keyBytes codec) = .ok key ∧
        hashField (entry.valueBytes codec) = .ok value ∧
        fingerprintBytes codec rest = .ok others ∧ key ++ (value ++ others) = bytes := by
    intro entry rest bytes h
    simp only [fingerprintBytes, bind_ok_iff] at h
    obtain ⟨key, hkey, value, hvalue, others, hothers, heq⟩ := h
    exact ⟨key, value, others, hkey, hvalue, hothers, Except.ok.inj heq⟩
  have hnil : ∀ (entry : ContentEntry) (rest : List ContentEntry),
      fingerprintBytes codec (entry :: rest) ≠ .ok [] := by
    intro entry rest h
    obtain ⟨key, value, others, hkey, _, _, heq⟩ := hcons _ _ _ h
    obtain ⟨length, hlength, rfl⟩ := map_ok_iff.mp hkey
    have hfour := length_of_hashLength hlength
    simp only [List.append_eq_nil_iff] at heq
    simp [heq.1.1] at hfour
  induction content generalizing content' bytes with
  | nil =>
    cases content' with
    | nil => rfl
    | cons entry rest =>
      cases h
      exact absurd h' (hnil entry rest)
  | cons entry rest ih =>
    cases content' with
    | nil =>
      cases h'
      exact absurd h (hnil entry rest)
    | cons entry' rest' =>
      obtain ⟨key, value, others, hkey, hvalue, hothers, rfl⟩ := hcons _ _ _ h
      obtain ⟨key', value', others', hkey', hvalue', hothers', heq⟩ := hcons _ _ _ h'
      obtain ⟨hkeys, htail⟩ := hashField_append_injective hkey' hkey heq
      obtain ⟨hvalues, hrest⟩ := hashField_append_injective hvalue' hvalue htail
      have hencoded := ih hothers (hrest ▸ hothers')
      unfold encodeContent at hencoded ⊢
      rw [List.map_cons, List.map_cons, hkeys, hvalues, hencoded]

/-! ## Prepared requests -/

theorem prepareCommit_eq_ok (h : prepareCommit codec commit = .ok prepared) :
    prepared.requestId = commit.requestId ∧
    prepared.records = sortEntries codec commit.records ∧
    prepared.transitions = sortTransitions codec commit.transitions ∧
    prepared.guards = sortGuards codec commit.guards ∧
    prepared.absentKeys = sortKeys codec commit.mustBeAbsent ∧
    prepared.matchingRecords = sortEntries codec commit.mustMatch ∧
    prepared.outboxPayload = commit.outboxPayload codec ∧
    prepared.derivedView = commit.derivedView ∧ prepared.content = commit.content codec ∧
    requestFingerprint codec (commit.content codec) = .ok prepared.fingerprint := by
  simp only [prepareCommit] at h
  split at h
  · cases h
  · split at h
    · cases h
    · simp only [bind_ok_iff] at h
      obtain ⟨_, _, _, _, fingerprint, hfingerprint, heq⟩ := h
      cases heq
      exact ⟨rfl, rfl, rfl, rfl, rfl, rfl, rfl, rfl, rfl, hfingerprint⟩

theorem mem_sortEntries {entry : Entry} : entry ∈ sortEntries codec entries ↔ entry ∈ entries :=
  List.mem_insertionSort _

theorem mem_sortTransitions {transitions : List Transition} :
    transition ∈ sortTransitions codec transitions ↔ transition ∈ transitions :=
  List.mem_insertionSort _

theorem mem_sortKeys {keys : List Key} : k ∈ sortKeys codec keys ↔ k ∈ keys := by
  rw [sortKeys, List.mem_insertionSort, List.mem_dedup]

theorem mem_sortGuards {guards : List GuardKey} {k : GuardKey} :
    k ∈ sortGuards codec guards ↔ k ∈ guards := by
  rw [sortGuards, List.mem_insertionSort, List.mem_dedup]

/-! ## Preconditions -/

/-- What a commit requires of the state it takes effect in. -/
structure PreparedCommit.PreconditionsHold (prepared : PreparedCommit) (w : World) : Prop where
  absent : ∀ k ∈ prepared.absentKeys, w.get k = none
  matching : ∀ entry ∈ prepared.matchingRecords, w.get entry.1 = some entry.2
  previous : ∀ transition ∈ prepared.transitions, w.get transition.key = transition.previous
  immutable : ∀ entry ∈ prepared.records, w.get entry.1 = none ∨ w.get entry.1 = some entry.2

/-- The records that are not there yet. -/
def PreparedCommit.inserts (prepared : PreparedCommit) (w : World) : List Entry :=
  prepared.records.filter fun entry => w.get entry.1 = none

theorem run_requireAbsent_eq_ok (k : Key) (u : World) (a : Unit) (t : World) :
    (requireAbsent k).run u = .ok (a, t) ↔ u.get k = none ∧ u = t := by
  simp only [requireAbsent, run_bind_eq_ok, Txn.run_get_eq_ok, Prod.mk.injEq,
    run_require_eq_ok, true_and]
  constructor
  · rintro ⟨_, _, ⟨rfl, rfl⟩, hget, rfl⟩
    exact ⟨hget, rfl⟩
  · rintro ⟨hget, rfl⟩
    exact ⟨_, _, ⟨rfl, rfl⟩, hget, rfl⟩

theorem run_requireMatch_eq_ok (entry : Entry) (u : World) (a : Unit) (t : World) :
    (requireMatch entry).run u = .ok (a, t) ↔ u.get entry.1 = some entry.2 ∧ u = t := by
  simp only [requireMatch, run_bind_eq_ok, Txn.run_get_eq_ok, Prod.mk.injEq,
    run_require_eq_ok, true_and]
  constructor
  · rintro ⟨_, _, ⟨rfl, rfl⟩, hget, rfl⟩
    exact ⟨hget, rfl⟩
  · rintro ⟨hget, rfl⟩
    exact ⟨_, _, ⟨rfl, rfl⟩, hget, rfl⟩

theorem run_requirePrevious_eq_ok (transition : Transition) (u : World) (a : Unit) (t : World) :
    (requirePrevious transition).run u = .ok (a, t) ↔
      u.get transition.key = transition.previous ∧ u = t := by
  simp only [requirePrevious, run_bind_eq_ok, Txn.run_get_eq_ok, Prod.mk.injEq,
    run_require_eq_ok, true_and]
  constructor
  · rintro ⟨_, _, ⟨rfl, rfl⟩, hget, rfl⟩
    exact ⟨hget, rfl⟩
  · rintro ⟨hget, rfl⟩
    exact ⟨_, _, ⟨rfl, rfl⟩, hget, rfl⟩

theorem run_recordsToInsert_ok {records inserts : List Entry}
    (h : (recordsToInsert records).run u = .ok (inserts, t)) :
    u = t ∧ inserts = records.filter (fun entry => u.get entry.1 = none) ∧
      ∀ entry ∈ records, u.get entry.1 = none ∨ u.get entry.1 = some entry.2 := by
  induction records generalizing inserts with
  | nil =>
    simp only [recordsToInsert, run_pure_eq_ok, Prod.mk.injEq] at h
    obtain ⟨rfl, rfl⟩ := h
    exact ⟨rfl, rfl, by simp⟩
  | cons entry rest ih =>
    simp only [recordsToInsert, recordToInsert, run_bind_eq_ok, Txn.run_get_eq_ok,
      run_require_eq_ok, run_pure_eq_ok, Prod.mk.injEq] at h
    obtain ⟨insert, v, ⟨_, _, ⟨rfl, rfl⟩, _, _, ⟨hfits, _, rfl⟩, rfl, rfl⟩, others, w, hrest,
      rfl, rfl⟩ := h
    obtain ⟨rfl, rfl, hothers⟩ := ih hrest
    refine ⟨rfl, ?_, List.forall_mem_cons.mpr ⟨hfits, hothers⟩⟩
    rw [List.filter_cons]

theorem run_checkPreconditions_ok {inserts : List Entry}
    (h : (checkPreconditions prepared).run u = .ok (inserts, t)) :
    u = t ∧ prepared.PreconditionsHold u ∧ inserts = prepared.inserts u := by
  simp only [checkPreconditions, run_bind_eq_ok] at h
  obtain ⟨_, _, hrunAbsent, _, _, hrunMatch, _, _, hrunPrevious, hrecords⟩ := h
  obtain ⟨habsent, rfl⟩ := (Transaction.run_forEach_check run_requireAbsent_eq_ok).mp hrunAbsent
  obtain ⟨hmatch, rfl⟩ := (Transaction.run_forEach_check run_requireMatch_eq_ok).mp hrunMatch
  obtain ⟨hprevious, rfl⟩ :=
    (Transaction.run_forEach_check run_requirePrevious_eq_ok).mp hrunPrevious
  obtain ⟨rfl, rfl, himmutable⟩ := run_recordsToInsert_ok hrecords
  exact ⟨rfl, ⟨habsent, hmatch, hprevious, himmutable⟩, rfl⟩

/-! ## The batch -/

/-- `bumpGuard` as a function. -/
def World.bump (w : World) (key : GuardKey) : World :=
  w.put (.guard key) { revision := ((w.get (.guard key)).map (·.revision)).getD 0 + 1 }

def World.bumpAll (w : World) (keys : List GuardKey) : World := keys.foldl World.bump w

/-- The state once guards, records and transitions of a request are written. -/
def PreparedCommit.written (prepared : PreparedCommit) (w : World) : World :=
  ((w.bumpAll prepared.guards).putAll (prepared.inserts w)).putAll
    (prepared.transitions.map (·.entry))

theorem run_bumpGuard_ok {key : GuardKey} (h : (bumpGuard key).run u = .ok (a, t)) :
    t = u.bump key := by
  simp only [bumpGuard, run_bind_eq_ok, Txn.run_get_eq_ok, Txn.run_put_eq_ok,
    run_require_eq_ok, Prod.mk.injEq] at h
  obtain ⟨_, _, ⟨rfl, rfl⟩, _, _, ⟨_, _, rfl⟩, _, rfl⟩ := h
  rfl

theorem run_forEach_bumpGuard_ok (h : (forEach bumpGuard keys).run u = .ok (a, t)) :
    t = u.bumpAll keys := by
  induction keys generalizing u with
  | nil => exact (Prod.mk.inj (Transaction.run_pure_eq_ok.mp h)).2.symm
  | cons key rest ih =>
    obtain ⟨_, v, hkey, hrest⟩ := Transaction.run_bind_eq_ok.mp h
    obtain rfl := run_bumpGuard_ok hkey
    exact ih hrest

theorem run_forEach_putEntry_ok (h : (forEach putEntry entries).run u = .ok (a, t)) :
    t = u.putAll entries := by
  induction entries generalizing u with
  | nil => exact (Prod.mk.inj (Transaction.run_pure_eq_ok.mp h)).2.symm
  | cons entry rest ih =>
    obtain ⟨_, v, hput, hrest⟩ := Transaction.run_bind_eq_ok.mp h
    obtain ⟨_, rfl⟩ := Prod.mk.inj (Txn.run_put_eq_ok.mp hput)
    exact ih hrest

theorem run_forEach_emit_ok (h : (forEach Txn.emit events).run u = .ok (a, t)) :
    (∀ k, t.get k = u.get k) ∧ t.history = u.history ++ events ∧ t.uuids = u.uuids := by
  induction events generalizing u with
  | nil =>
    obtain ⟨_, rfl⟩ := Prod.mk.inj (Transaction.run_pure_eq_ok.mp h)
    exact ⟨fun _ => rfl, (List.append_nil _).symm, rfl⟩
  | cons event rest ih =>
    obtain ⟨_, v, hemit, hrest⟩ := Transaction.run_bind_eq_ok.mp h
    obtain ⟨_, rfl⟩ := Prod.mk.inj (Txn.run_emit_eq_ok.mp hemit)
    obtain ⟨hget, hhistory, huuids⟩ := ih hrest
    refine ⟨hget, ?_, huuids⟩
    rw [hhistory, World.history_emit, List.append_assoc, List.singleton_append]

theorem bumpAll_changesOnly {K : Key → Prop} (h : ∀ key ∈ keys, K (.guard key)) (w : World) :
    World.ChangesOnly K w (w.bumpAll keys) := by
  induction keys generalizing w with
  | nil => exact .refl K w
  | cons key rest ih =>
    exact (World.ChangesOnly.put (h _ List.mem_cons_self) w _).trans
      (ih (fun key' hkey' => h key' (List.mem_cons_of_mem _ hkey')) _)

/-- The keys a request names itself. -/
def PreparedCommit.Names (prepared : PreparedCommit) (k : Key) : Prop :=
  (∃ guard ∈ prepared.guards, k = .guard guard) ∨ (∃ entry ∈ prepared.records, k = entry.1) ∨
    ∃ transition ∈ prepared.transitions, k = transition.key

def CanonicalCommit.Names (commit : CanonicalCommit) (k : Key) : Prop :=
  (∃ guard ∈ commit.guards, k = .guard guard) ∨ (∃ entry ∈ commit.records, k = entry.1) ∨
    ∃ transition ∈ commit.transitions, k = transition.key

theorem names_of_prepareCommit (h : prepareCommit codec commit = .ok prepared) (k : Key) :
    prepared.Names k ↔ commit.Names k := by
  obtain ⟨-, hrecords, htransitions, hguards, -⟩ := prepareCommit_eq_ok codec h
  simp only [PreparedCommit.Names, CanonicalCommit.Names, hrecords, htransitions, hguards,
    mem_sortEntries, mem_sortTransitions, mem_sortGuards]

theorem PreparedCommit.written_changesOnly (prepared : PreparedCommit) (w : World) :
    World.ChangesOnly prepared.Names w (prepared.written w) := by
  refine ((bumpAll_changesOnly (fun guard hguard => ?_) w).trans
    (World.putAll_changesOnly (fun entry hentry => ?_) _)).trans
    (World.putAll_changesOnly (fun entry hentry => ?_) _)
  · exact Or.inl ⟨guard, hguard, rfl⟩
  · exact Or.inr (Or.inl ⟨entry, List.mem_of_mem_filter hentry, rfl⟩)
  · obtain ⟨transition, htransition, rfl⟩ := List.mem_map.mp hentry
    exact Or.inr (Or.inr ⟨transition, htransition, rfl⟩)

/-! ## Ordinals -/

def assignmentOf (w : World) (document : DocumentIdentity) : Option DocumentOrdinal :=
  w.get (.derivedView (.document document.project document.documentId document.documentVersion))

def ordinalCounter (w : World) : Nat := (w.get (.counter .documentOrdinal)).getD 0

structure KeepsOrdinals (u t : World) : Prop where
  counter : t.get (.counter .documentOrdinal) = u.get (.counter .documentOrdinal)
  documents : ∀ document, assignmentOf t document = assignmentOf u document
  ordinals : ∀ n, t.get (.derivedView (.ordinal n)) = u.get (.derivedView (.ordinal n))

/-- A document without ordinal has received the next one. -/
structure AssignsOrdinal (view : DerivedViewAdmission) (n : Nat) (u t : World) : Prop where
  unassigned : assignmentOf u view.identity = none
  next : n = ordinalCounter u + 1
  counter : t.get (.counter .documentOrdinal) = some n
  document : assignmentOf t view.identity = some (createDocumentOrdinal view n)
  ordinal : t.get (.derivedView (.ordinal n)) = some (createDocumentOrdinal view n)
  documents : ∀ document, document ≠ view.identity → assignmentOf t document = assignmentOf u document
  ordinals : ∀ m, m ≠ n → t.get (.derivedView (.ordinal m)) = u.get (.derivedView (.ordinal m))

/-- What a commit does to the ordinals, and the ordinal it reports. -/
inductive OrdinalStep (u t : World) : Option DerivedViewAdmission → Option Nat → Prop
  | none (h : KeepsOrdinals u t) : OrdinalStep u t none none
  | existing {view : DerivedViewAdmission} {assignment : DocumentOrdinal}
      (hget : assignmentOf u view.identity = some assignment)
      (hfits : createDocumentOrdinal view assignment.ordinal = assignment)
      (h : KeepsOrdinals u t) : OrdinalStep u t (some view) (some assignment.ordinal)
  | fresh {view : DerivedViewAdmission} {n : Nat} (h : AssignsOrdinal view n u t) :
      OrdinalStep u t (some view) (some n)

/-- The records of the derived view that summarise the assignments. -/
def Bookkeeping (k : Key) : Prop :=
  (∃ project n, k = .derivedView (.tombstone project n)) ∨
    (∃ project, k = .derivedView (.active project)) ∨ k = .derivedView .upgradeState

theorem KeepsOrdinals.of_changesOnly {K : Key → Prop}
    (h : World.ChangesOnly K u t) (hcounter : ¬ K (.counter .documentOrdinal))
    (hdocument : ∀ project documentId version,
      ¬ K (.derivedView (.document project documentId version)))
    (hordinal : ∀ n, ¬ K (.derivedView (.ordinal n))) : KeepsOrdinals u t :=
  ⟨h.frame _ hcounter, fun _ => h.frame _ (hdocument _ _ _), fun n => h.frame _ (hordinal n)⟩

theorem OrdinalStep.trans_keeps {v w : World} {view : Option DerivedViewAdmission}
    (hbefore : KeepsOrdinals u v) (h : OrdinalStep v w view ordinal) (hafter : KeepsOrdinals w t) :
    OrdinalStep u t view ordinal := by
  cases h with
  | none h =>
    exact .none ⟨(hafter.counter.trans h.counter).trans hbefore.counter,
      fun d => ((hafter.documents d).trans (h.documents d)).trans (hbefore.documents d),
      fun n => ((hafter.ordinals n).trans (h.ordinals n)).trans (hbefore.ordinals n)⟩
  | existing hget hfits h =>
    exact .existing ((hbefore.documents _).symm.trans hget) hfits
      ⟨(hafter.counter.trans h.counter).trans hbefore.counter,
      fun d => ((hafter.documents d).trans (h.documents d)).trans (hbefore.documents d),
      fun n => ((hafter.ordinals n).trans (h.ordinals n)).trans (hbefore.ordinals n)⟩
  | fresh h =>
    refine .fresh ⟨(hbefore.documents _).symm.trans h.unassigned, ?_,
      hafter.counter.trans h.counter, (hafter.documents _).trans h.document,
      (hafter.ordinals _).trans h.ordinal, fun d hd => ?_, fun m hm => ?_⟩
    · rw [h.next, ordinalCounter, ordinalCounter, hbefore.counter]
    · exact ((hafter.documents d).trans (h.documents d hd)).trans (hbefore.documents d)
    · exact ((hafter.ordinals m).trans (h.ordinals m hm)).trans (hbefore.ordinals m)

/-- The keys that an assignment of `n` to the document of `view` writes. -/
def AssignmentKey (view : DerivedViewAdmission) (n : Nat) (k : Key) : Prop :=
  k = .counter .documentOrdinal ∨
    k = .derivedView (.document view.project view.documentId view.documentVersion) ∨
    k = .derivedView (.ordinal n) ∨ k = .derivedView (.projectDocument view.project n) ∨
    k = .derivedView (.sessionDocument view.project view.sessionId n)

theorem run_allocateOrdinal_ok (hunassigned : assignmentOf u view.identity = none)
    (h : (allocateOrdinal view).run u = .ok (n, t)) :
    AssignsOrdinal view n u t ∧ World.ChangesOnly (AssignmentKey view n) u t := by
  simp only [allocateOrdinal, run_bind_eq_ok, Txn.run_get_eq_ok, Txn.run_put_eq_ok,
    run_require_eq_ok, run_pure_eq_ok, Prod.mk.injEq] at h
  obtain ⟨_, _, ⟨rfl, rfl⟩, _, _, ⟨_, _, rfl⟩, _, _, ⟨_, rfl⟩, _, _, ⟨_, rfl⟩, _, v, hordinal, _,
    v', hproject, _, v'', hsession, rfl, rfl⟩ := h
  obtain ⟨hframe₁, hhistory₁, huuids₁⟩ := Txn.frame_of_putImmutable hordinal
  obtain ⟨hframe₂, hhistory₂, huuids₂⟩ := Txn.frame_of_putImmutable hproject
  obtain ⟨hframe₃, hhistory₃, huuids₃⟩ := Txn.frame_of_putImmutable hsession
  have hget := Txn.get_of_putImmutable hordinal
  refine ⟨⟨hunassigned, rfl, ?_, ?_, ?_, fun d hd => ?_, fun m hm => ?_⟩, ?_, ?_, ?_⟩
  · rw [hframe₃ _ (by simp), hframe₂ _ (by simp), hframe₁ _ (by simp),
      get_put_of_ne (by simp), World.get_put_self]
  · rw [assignmentOf, hframe₃ _ (by simp), hframe₂ _ (by simp), hframe₁ _ (by simp)]
    exact World.get_put_self _ _ _
  · rw [hframe₃ _ (by simp), hframe₂ _ (by simp)]
    exact hget
  · have hne : Key.derivedView (.document d.project d.documentId d.documentVersion) ≠
        .derivedView (.document view.project view.documentId view.documentVersion) := by
      intro heq
      simp only [Key.derivedView.injEq, DerivedViewKey.document.injEq] at heq
      exact hd (by cases d; simpa [DerivedViewAdmission.identity] using heq)
    rw [assignmentOf, hframe₃ _ (by simp), hframe₂ _ (by simp), hframe₁ _ (by simp),
      get_put_of_ne hne, get_put_of_ne (by simp)]
    rfl
  · rw [hframe₃ _ (by simp), hframe₂ _ (by simp), hframe₁ _ (by simpa using hm),
      get_put_of_ne (by simp), get_put_of_ne (by simp)]
  · intro k hk
    simp only [AssignmentKey, not_or] at hk
    rw [hframe₃ _ hk.2.2.2.2, hframe₂ _ hk.2.2.2.1, hframe₁ _ hk.2.2.1,
      get_put_of_ne hk.2.1, get_put_of_ne hk.1]
  · rw [hhistory₃, hhistory₂, hhistory₁]
    rfl
  · rw [huuids₃, huuids₂, huuids₁]
    rfl

/-- What the derived view may change in a commit. -/
def ViewKey (k : Key) : Prop := k = .counter .documentOrdinal ∨ ∃ key, k = .derivedView key

theorem AssignmentKey.viewKey (h : AssignmentKey view n k) : ViewKey k := by
  rcases h with rfl | rfl | rfl | rfl | rfl
  · exact Or.inl rfl
  all_goals exact Or.inr ⟨_, rfl⟩

theorem Bookkeeping.viewKey (h : Bookkeeping k) : ViewKey k := by
  rcases h with ⟨_, _, rfl⟩ | ⟨_, rfl⟩ | rfl <;> exact Or.inr ⟨_, rfl⟩

theorem KeepsOrdinals.of_bookkeeping (h : World.ChangesOnly Bookkeeping u t) : KeepsOrdinals u t :=
  .of_changesOnly h (by simp [Bookkeeping]) (by simp [Bookkeeping]) (by simp [Bookkeeping])

theorem KeepsOrdinals.refl (u : World) : KeepsOrdinals u u :=
  ⟨rfl, fun _ => rfl, fun _ => rfl⟩

theorem run_assignOrdinal_ok {isNew : Bool} (h : (assignOrdinal view).run u = .ok ((n, isNew), t)) :
    OrdinalStep u t (some view) (some n) ∧ World.ChangesOnly ViewKey u t := by
  simp only [assignOrdinal, run_bind_eq_ok, Txn.run_get_eq_ok, Prod.mk.injEq] at h
  obtain ⟨existing, v, ⟨hget, rfl⟩, h⟩ := h
  cases existing with
  | some assignment =>
    simp only [run_bind_eq_ok, run_require_eq_ok, run_pure_eq_ok, Prod.mk.injEq] at h
    obtain ⟨_, _, ⟨hfits, _, rfl⟩, ⟨rfl, _⟩, rfl⟩ := h
    exact ⟨.existing hget hfits (.refl u), .refl _ _⟩
  | none =>
    simp only [run_bind_eq_ok, run_pure_eq_ok, Prod.mk.injEq] at h
    obtain ⟨ordinal, _, hrun, ⟨rfl, _⟩, rfl⟩ := h
    obtain ⟨hassigns, hchanges⟩ := run_allocateOrdinal_ok hget hrun
    exact ⟨.fresh hassigns, hchanges.mono fun _ => AssignmentKey.viewKey⟩

theorem retireOrdinals_changesOnly {project : String} {markers : List Tombstone} {count : Nat}
    (h : (retireOrdinals project markers).run u = .ok (count, t)) :
    World.ChangesOnly Bookkeeping u t := by
  induction markers generalizing u count with
  | nil =>
    obtain ⟨_, rfl⟩ := Prod.mk.inj (Transaction.run_pure_eq_ok.mp h)
    exact .refl _ _
  | cons marker rest ih =>
    simp only [retireOrdinals, retireOrdinal, run_bind_eq_ok, Txn.run_get_eq_ok,
      run_pure_eq_ok, Prod.mk.injEq] at h
    obtain ⟨inserted, v, ⟨target, _, ⟨_, rfl⟩, htarget⟩, others, _, hrest, _, rfl⟩ := h
    cases target with
    | none => simp at htarget
    | some target =>
      simp only [run_bind_eq_ok, run_pure_eq_ok, Prod.mk.injEq] at htarget
      obtain ⟨status, _, hput, _, rfl⟩ := htarget
      exact (Txn.changesOnly_of_putImmutable (Or.inl ⟨_, _, rfl⟩) hput).trans (ih hrest)

theorem run_advanceView_ok {derivedView : Option DerivedViewAdmission}
    {outboxSequence : Nat}
    (h : (advanceView derivedView outboxSequence committedAt).run u = .ok (ordinal, t)) :
    OrdinalStep u t derivedView ordinal ∧ World.ChangesOnly ViewKey u t := by
  cases derivedView with
  | none =>
    obtain ⟨rfl, rfl⟩ := Prod.mk.inj (Transaction.run_pure_eq_ok.mp h)
    exact ⟨.none (.refl u), .refl _ _⟩
  | some view =>
    simp only [advanceView, advanceDerivedView, advanceUpgradeState, run_bind_eq_ok,
      Txn.run_get_eq_ok, Txn.run_put_eq_ok, Transaction.run_ofExcept_eq_ok,
      run_pure_eq_ok, Prod.mk.injEq] at h
    obtain ⟨n, w, ⟨⟨m, isNew⟩, v, hassign, count, v', hretire, _, _, ⟨_, rfl⟩, active, _,
      ⟨_, rfl⟩, _, _, ⟨_, rfl⟩, _, _, ⟨_, _, ⟨_, rfl⟩, upgrade, _, ⟨_, rfl⟩, _, rfl⟩, rfl, rfl⟩,
      rfl, rfl⟩ := h
    obtain ⟨hstep, hchanges⟩ := run_assignOrdinal_ok hassign
    have hbooks := ((retireOrdinals_changesOnly hretire).trans
      (World.ChangesOnly.put (k := .derivedView (.active view.project))
        (Or.inr (Or.inl ⟨_, rfl⟩)) _ active)).trans
      (World.ChangesOnly.put (k := .derivedView .upgradeState) (Or.inr (Or.inr rfl)) _ upgrade)
    exact ⟨hstep.trans_keeps (.refl u) (.of_bookkeeping hbooks),
      hchanges.trans (hbooks.mono fun _ => Bookkeeping.viewKey)⟩

/-! ## The transaction -/

/-- The keys that only the store itself writes. -/
def Key.storeOwned : Key → Bool
  | .counter .outbox => true
  | .counter .documentOrdinal => true
  | .idempotency _ => true
  | .outbox (.entry _) => true
  | .derivedView _ => true
  | _ => false

/-- A request that names none of them. -/
def PreparedCommit.Ordinary (prepared : PreparedCommit) : Prop :=
  ∀ k, prepared.Names k → k.storeOwned = false

def outboxCounter (w : World) : Nat := (w.get (.counter .outbox)).getD 0

/-- The result of a commit that takes effect. -/
def PreparedCommit.result (prepared : PreparedCommit) (outboxSequence : Nat)
    (documentOrdinal : Option Nat) : CommitResult where
  requestId := prepared.requestId
  duplicate := false
  fingerprint := prepared.fingerprint
  recordKeys := prepared.recordKeys
  outboxKey := .outbox (.entry outboxSequence)
  outboxSequence
  documentOrdinal

def CommitResult.marker (result : CommitResult) (committedAt : Nat) : IdempotencyMarker where
  requestId := result.requestId
  fingerprint := result.fingerprint
  recordKeys := result.recordKeys
  outboxKey := result.outboxKey
  outboxSequence := result.outboxSequence
  committedAt
  documentOrdinal := result.documentOrdinal

/-- The commit takes effect between `u` and `t`. -/
structure Commits (prepared : PreparedCommit) (committedAt : Nat) (events : List Event)
    (u t : World) (result : CommitResult) : Prop where
  unmarked : u.get (.idempotency prepared.requestId) = none
  preconditions : prepared.PreconditionsHold u
  content : ∀ k, k.storeOwned = false → t.get k = (prepared.written u).get k
  shape : result = prepared.result (outboxCounter u + 1) result.documentOrdinal
  counter : t.get (.counter .outbox) = some (outboxCounter u + 1)
  entry : t.get (.outbox (.entry (outboxCounter u + 1))) =
    some { prepared.outboxPayload with sequence := outboxCounter u + 1 }
  entries : ∀ sequence, sequence ≠ outboxCounter u + 1 →
    t.get (.outbox (.entry sequence)) = u.get (.outbox (.entry sequence))
  ordinals : OrdinalStep u t prepared.derivedView result.documentOrdinal
  marker : t.get (.idempotency prepared.requestId) = some (result.marker committedAt)
  markers : ∀ requestId, requestId ≠ prepared.requestId →
    t.get (.idempotency requestId) = u.get (.idempotency requestId)
  history : t.history = u.history ++
    .committed prepared.content (prepared.derivedView.map (·.identity)) result :: events
  uuids : t.uuids = u.uuids

/-! ### What a commit leaves under a key -/

/-- An ordinary key that the request does not name is left alone. -/
theorem Commits.frame {result : CommitResult} (h : Commits prepared committedAt events u t result)
    (hk : k.storeOwned = false) (hnames : ¬ prepared.Names k) : t.get k = u.get k :=
  (h.content k hk).trans ((prepared.written_changesOnly u).frame k hnames)

theorem Commits.get_transition {result : CommitResult}
    (h : Commits prepared committedAt events u t result) (hmem : transition ∈ prepared.transitions)
    (hk : transition.key.storeOwned = false) :
    ∃ v, (⟨transition.key, v⟩ : Entry) ∈ prepared.transitions.map (·.entry) ∧
      t.get transition.key = some v := by
  rw [h.content _ hk]
  exact World.get_putAll_of_mem (v := transition.next) (List.mem_map.mpr ⟨transition, hmem, rfl⟩) _

theorem Commits.get_record {result : CommitResult}
    (h : Commits prepared committedAt events u t result) {v : k.Record}
    (hmem : ⟨k, v⟩ ∈ prepared.records)
    (hunique : ∀ v', (⟨k, v'⟩ : Entry) ∈ prepared.records → v' = v)
    (hguard : ∀ guard, k ≠ .guard guard)
    (htransition : ∀ transition ∈ prepared.transitions, transition.key ≠ k)
    (hk : k.storeOwned = false) : t.get k = some v := by
  have hbump : (u.bumpAll prepared.guards).get k = u.get k :=
    (bumpAll_changesOnly (K := fun k => ∃ guard, k = .guard guard)
      (fun guard _ => ⟨guard, rfl⟩) u).frame k (by simpa using hguard)
  have hrest : (prepared.written u).get k =
      ((u.bumpAll prepared.guards).putAll (prepared.inserts u)).get k := by
    refine World.get_putAll_of_not_mem (fun v' hv' => ?_) _
    obtain ⟨transition, hmem', heq⟩ := List.mem_map.mp hv'
    exact htransition transition hmem' (congrArg Sigma.fst heq)
  rw [h.content k hk, hrest]
  rcases h.preconditions.immutable _ hmem with habsent | hpresent
  · have hinsert : (⟨k, v⟩ : Entry) ∈ prepared.inserts u :=
      List.mem_filter.mpr ⟨hmem, decide_eq_true habsent⟩
    obtain ⟨v', hv', hget⟩ := World.get_putAll_of_mem hinsert (u.bumpAll prepared.guards)
    rw [hget, hunique v' (List.mem_of_mem_filter hv')]
  · rw [World.get_putAll_of_not_mem, hbump]
    · exact hpresent
    · intro v' hv'
      have := (List.mem_filter.mp hv').2
      simp only [decide_eq_true_eq] at this
      rw [hpresent] at this
      cases this

theorem run_nextOutboxSequence_ok {sequence : Nat}
    (h : nextOutboxSequence.run u = .ok (sequence, t)) :
    sequence = outboxCounter u + 1 ∧ t = u.put (.counter .outbox) (outboxCounter u + 1) := by
  simp only [nextOutboxSequence, run_bind_eq_ok, Txn.run_get_eq_ok, Txn.run_put_eq_ok,
    run_require_eq_ok, run_pure_eq_ok, Prod.mk.injEq] at h
  obtain ⟨_, _, ⟨rfl, rfl⟩, _, _, ⟨_, _, rfl⟩, _, _, ⟨_, rfl⟩, rfl, rfl⟩ := h
  exact ⟨rfl, rfl⟩

theorem run_writeCommit_ok {result : CommitResult} (hordinary : prepared.Ordinary)
    (hunmarked : u.get (.idempotency prepared.requestId) = none)
    (h : (writeCommit prepared committedAt events).run u = .ok (result, t)) :
    Commits prepared committedAt events u t result := by
  simp only [writeCommit, run_bind_eq_ok, Txn.run_put_eq_ok, run_pure_eq_ok, Prod.mk.injEq] at h
  obtain ⟨inserts, _, hchecks, _, _, hguards, _, _, hinserts, _, v, htransitions, sequence, v₁,
    hsequence, _, v₂, hentry, ordinal, v₃, hview, _, _, ⟨_, rfl⟩, _, t', hemit, hresult, hfinal⟩ := h
  obtain rfl : t = t' := hfinal.symm
  obtain ⟨rfl, hpreconditions, rfl⟩ := run_checkPreconditions_ok hchecks
  obtain rfl := run_forEach_bumpGuard_ok hguards
  obtain rfl := run_forEach_putEntry_ok hinserts
  obtain rfl := run_forEach_putEntry_ok htransitions
  change nextOutboxSequence.run (prepared.written u) = _ at hsequence
  -- The batch leaves the store's own keys as they were.
  have howned : ∀ k, k.storeOwned = true → (prepared.written u).get k = u.get k := by
    intro k hk
    refine (prepared.written_changesOnly u).frame k fun hnames => ?_
    rw [hordinary k hnames] at hk
    cases hk
  have hcounter : outboxCounter (prepared.written u) = outboxCounter u := by
    rw [outboxCounter, outboxCounter, howned _ rfl]
  obtain ⟨rfl, rfl⟩ := run_nextOutboxSequence_ok hsequence
  rw [hcounter] at hentry hview hemit hresult
  obtain ⟨hframe₂, hhistory₂, huuids₂⟩ := Txn.frame_of_putImmutable hentry
  obtain ⟨hordinals, hview⟩ := run_advanceView_ok hview
  obtain ⟨hget, hhistory, huuids⟩ := run_forEach_emit_ok hemit
  -- From the batch to the end, key by key.
  have hother : ∀ k, k ≠ .counter .outbox → k ≠ .outbox (.entry (outboxCounter u + 1)) →
      ¬ ViewKey k → k ≠ .idempotency prepared.requestId → t.get k = (prepared.written u).get k := by
    intro k hk₁ hk₂ hk₃ hk₄
    rw [hget, get_put_of_ne hk₄, hview.frame k hk₃, hframe₂ k hk₂, get_put_of_ne hk₁]
  have hwritten := prepared.written_changesOnly u
  have hkeeps : KeepsOrdinals u v₂ :=
    ⟨(hframe₂ _ (by simp)).trans ((get_put_of_ne (by simp) _ _).trans (howned _ rfl)),
      fun _ => (hframe₂ _ (by simp)).trans ((get_put_of_ne (by simp) _ _).trans (howned _ rfl)),
      fun _ => (hframe₂ _ (by simp)).trans
        ((get_put_of_ne (by simp) _ _).trans (howned _ rfl))⟩
  have hkeeps' : KeepsOrdinals v₃ t :=
    ⟨(hget _).trans (get_put_of_ne (by simp) _ _),
      fun _ => (hget _).trans (get_put_of_ne (by simp) _ _),
      fun _ => (hget _).trans (get_put_of_ne (by simp) _ _)⟩
  subst hresult
  refine ⟨hunmarked, hpreconditions, fun k hk => ?_, rfl, ?_, ?_, fun s hs => ?_,
    OrdinalStep.trans_keeps hkeeps hordinals hkeeps', ?_, fun id hid => ?_, ?_, ?_⟩
  · refine hother k ?_ ?_ ?_ ?_
    · rintro rfl
      cases hk
    · rintro rfl
      cases hk
    · rintro (rfl | ⟨_, rfl⟩) <;> cases hk
    · rintro rfl
      cases hk
  · rw [hget, get_put_of_ne (by simp), hview.frame _ (by simp [ViewKey]), hframe₂ _ (by simp)]
    exact World.get_put_self _ _ _
  · rw [hget, get_put_of_ne (by simp), hview.frame _ (by simp [ViewKey])]
    exact Txn.get_of_putImmutable hentry
  · rw [hother _ (by simp) (by simpa using hs) (by simp [ViewKey]) (by simp)]
    exact howned _ rfl
  · rw [hget]
    exact World.get_put_self _ _ _
  · rw [hother _ (by simp) (by simp) (by simp [ViewKey]) (by simpa using hid)]
    exact howned _ rfl
  · rw [hhistory, World.history_put, hview.history, hhistory₂, World.history_put, hwritten.history]
  · rw [huuids, World.uuids_put, hview.uuids, huuids₂, World.uuids_put, hwritten.uuids]

/-- A commit that is not refused is a replay or takes effect. -/
theorem run_commitTransaction_ok {result : CommitResult} (hordinary : prepared.Ordinary)
    (h : (commitTransaction prepared committedAt events).run u = .ok (result, t)) :
    (∃ marker, u.get (.idempotency prepared.requestId) = some marker ∧
      marker.fingerprint = prepared.fingerprint ∧ t = u ∧
      result = marker.duplicateResult prepared.requestId prepared.fingerprint) ∨
    Commits prepared committedAt events u t result := by
  obtain ⟨marker, v, hget, h⟩ := Transaction.run_bind_eq_ok.mp h
  obtain ⟨hmarker, rfl⟩ := Prod.mk.inj (Txn.run_get_eq_ok.mp hget)
  cases marker with
  | none => exact Or.inr (run_writeCommit_ok hordinary hmarker h)
  | some marker =>
    simp only [run_bind_eq_ok, run_require_eq_ok, run_pure_eq_ok, Prod.mk.injEq] at h
    obtain ⟨_, _, ⟨hfingerprint, _, rfl⟩, rfl, rfl⟩ := h
    exact Or.inl ⟨marker, hmarker, hfingerprint, rfl, rfl⟩

/-- Against a marker, only the fingerprint decides, and nothing is written. -/
theorem run_commitTransaction_of_marker {w : World} {marker : IdempotencyMarker}
    (hmarker : w.get (.idempotency prepared.requestId) = some marker) :
    (commitTransaction prepared committedAt events).run w =
      if marker.fingerprint = prepared.fingerprint then
        .ok (marker.duplicateResult prepared.requestId prepared.fingerprint, w)
      else .error (.idempotencyConflict prepared.requestId) := by
  unfold commitTransaction Transaction.run
  simp only [Bind.bind, Txn.get, hmarker, Transaction.require]
  split
  · next h =>
    split at h
    · next heq =>
      cases h
      rw [if_pos heq]
      rfl
    · cases h
  · next h =>
    split at h
    · cases h
    · next hne =>
      cases h
      rw [if_neg hne]

theorem runAlone_commitCanonical (h : prepareCommit codec commit = .ok prepared) (committedAt : Nat)
    (events : List Event) (w : World) :
    (commitCanonical codec commit committedAt events).runAlone w =
      (Program.transaction (commitTransaction prepared committedAt events)).runAlone w := by
  rw [commitCanonical, h]
  rfl

end ContextStore
