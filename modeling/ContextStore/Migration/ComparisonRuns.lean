import ContextStore.Migration.Comparisons
import ContextStore.Migration.CutoverSafety

/-! # Runs of comparisons

Whatever is recorded and wherever a call is cut off, the stored comparisons are those of the listed
runs (`comparisons_follow_history`). Comparisons, verifications and copies run one at a time: a
comparison writes back the checkpoint that it read, so with a verification in between it would undo
the pin. -/

namespace ContextStore

open Concurrent

variable {db : String} {run : ComparisonRun} {records : List ComparisonRecord} {u t : World}

/-! ## What the transactions do -/

section

variable {cp : Checkpoint} {status : MigrationStatus} {events : List Event} {a : Unit}

theorem run_writeState_frame (h : (writeState cp status events).run u = .ok (a, t)) :
    (∀ k, k ≠ .migration (.checkpoint cp.sourceDatabaseId) → k ≠ .migration .status →
      t.get k = u.get k) ∧ t.uuids = u.uuids := by
  simp only [writeState, Transaction.run_bind_eq_ok, Txn.run_put_eq_ok, Prod.mk.injEq] at h
  obtain ⟨_, _, ⟨_, rfl⟩, _, _, ⟨_, rfl⟩, hemit⟩ := h
  obtain ⟨hget, -, huuids⟩ := run_forEach_emit_ok hemit
  refine ⟨fun k hcheckpoint hstatus => ?_, huuids⟩
  rw [hget, World.get_put_of_ne hstatus, World.get_put_of_ne hcheckpoint]

theorem run_clearSqliteClaim_frame (h : clearSqliteClaim.run u = .ok (a, t)) :
    (∀ k, k ≠ .migration .backendAuthority → t.get k = u.get k) ∧ t.uuids = u.uuids := by
  rcases run_clearSqliteClaim_ok h with ⟨-, rfl⟩ | ⟨-, rfl⟩
  · exact ⟨fun k hk => World.get_remove_of_ne hk _, rfl⟩
  · exact ⟨fun _ _ => rfl, rfl⟩

/-- The checkpoint of one source is written, and no comparison record. -/
structure WritesCheckpoint (cp : Checkpoint) (u t : World) : Prop where
  records : ∀ db, SameRecords db u t
  checkpoint : t.checkpointOf cp.sourceDatabaseId = some cp
  checkpoints : ∀ db, db ≠ cp.sourceDatabaseId → t.checkpointOf db = u.checkpointOf db

theorem writesCheckpoint_of_writeState {v : World} (huv : LeavesComparisons u v)
    (h : (writeState cp status events).run v = .ok (a, t)) : WritesCheckpoint cp u t := by
  obtain ⟨hget, huuids⟩ := run_writeState_frame h
  have hwrites := run_writeState_ok h
  refine ⟨fun db => ?_, hwrites.checkpoint, fun db hdb =>
    (hwrites.checkpoints db hdb).trans (huv db).checkpoint⟩
  refine ⟨fun id index => (hget _ (by simp) (by simp)).trans ((huv db).comparison id index),
    fun id => (hget _ (by simp) (by simp)).trans ((huv db).run id),
    (hget _ (by simp) (by simp)).trans (huv db).history, ?_⟩
  rw [huuids]
  exact (huv db).uuids

theorem WritesCheckpoint.inv (h : WritesCheckpoint cp u t) (hu : ComparisonInv u)
    (hpinned : ∀ verification, cp.verification = some verification →
      ∃ listed ∈ u.listedRuns cp.sourceDatabaseId, listed.runId = verification.runId) :
    ComparisonInv t := by
  refine ⟨fun db => ?_, fun db cp' hcp' => ?_⟩
  · by_cases heq : db = cp.sourceDatabaseId
    · subst heq
      refine .pin (hu.kept _).toComparisonsListed (h.records _) fun id hid => ?_
      rw [World.pinnedRun, h.checkpoint, Option.bind_some] at hid
      obtain ⟨verification, hverification, rfl⟩ := Option.map_eq_some_iff.mp hid
      exact hpinned verification hverification
    · exact (hu.kept db).of_same ⟨h.records db, h.checkpoints db heq⟩
  · by_cases heq : db = cp.sourceDatabaseId
    · subst heq
      rw [h.checkpoint] at hcp'
      exact (Option.some.inj hcp') ▸ rfl
    · rw [h.checkpoints db heq] at hcp'
      exact hu.own db cp' hcp'

theorem ComparisonInv.of_leaves (hu : ComparisonInv u) (h : LeavesComparisons u t) :
    ComparisonInv t := by
  refine ⟨fun db => (hu.kept db).of_same (h db), fun db cp hcp => ?_⟩
  rw [(h db).checkpoint] at hcp
  exact hu.own db cp hcp

/-- An identifier that no history lists and that will not be drawn again. -/
structure Unlisted (id : Uuid) (w : World) : Prop where
  drawn : id.serial < w.uuids
  fresh : ∀ db, ∀ listed ∈ w.listedRuns db, listed.runId ≠ id

theorem Unlisted.of_leaves {id : Uuid} (hu : Unlisted id u) (h : LeavesComparisons u t) :
    Unlisted id t := by
  refine ⟨Nat.lt_of_lt_of_le hu.drawn (h "").uuids, fun db listed hlisted => ?_⟩
  rw [(h db).listedRuns] at hlisted
  exact hu.fresh db listed hlisted

theorem run_randomUUID_unlisted {id : Uuid} (hu : ComparisonInv u)
    (h : Txn.randomUUID.run u = .ok (id, t)) : LeavesComparisons u t ∧ Unlisted id t := by
  obtain ⟨rfl, rfl⟩ := Prod.mk.inj (Txn.run_randomUUID_eq_ok.mp h)
  refine ⟨.of_frame (fun _ _ => rfl) (Nat.le_succ _), Nat.lt_succ_self _, ?_⟩
  intro db listed hlisted heq
  have hlt := (hu.kept db).drawn listed hlisted
  rw [heq] at hlt
  exact Nat.lt_irrefl _ hlt

/-- The transaction of `persistComparisonRun` keeps the invariant and lists the run. -/
theorem run_writeComparisonRun_inv (hu : ComparisonInv u) (hrun : Unlisted run.runId u)
    (hcount : run.persistedDifferenceCount = records.length)
    (hlimit : records.length ≤ comparisonDetailLimit)
    (h : (writeComparisonRun db run records).run u = .ok (a, t)) :
    ComparisonInv t ∧ run.toListedRun ∈ t.listedRuns db ∧
      ∀ source, t.checkpointOf source = u.checkpointOf source := by
  obtain ⟨previous, hprevious, rfl⟩ := run_writeComparisonRun_eq_ok.mp h
  rw [(hu.kept db).comparisonHistory_eq_ok] at hprevious
  obtain rfl := Except.ok.inj hprevious
  have hcheckpoint : ∀ source, (recordedComparisons db run records (u.listedRuns db) u).checkpointOf
      source = u.checkpointOf source := fun source =>
    recordedComparisons_frame (by simp) (by simp) (by simp)
  refine ⟨⟨fun source => ?_, fun source cp hcp => ?_⟩, ?_, hcheckpoint⟩
  · by_cases heq : source = db
    · subst heq
      exact (hu.kept source).recorded hrun.drawn (hrun.fresh source) hcount hlimit
    · refine (hu.kept source).of_same ⟨⟨fun id index => ?_, fun id => ?_, ?_, ?_⟩,
        hcheckpoint source⟩
      · exact recordedComparisons_frame (by simp [heq]) (by simp) (by simp)
      · exact recordedComparisons_frame (by simp) (by simp [heq]) (by simp)
      · exact recordedComparisons_frame (by simp) (by simp) (by simp [heq])
      · rw [uuids_recordedComparisons]
  · rw [hcheckpoint] at hcp
    exact hu.own source cp hcp
  · rw [listedRuns_recordedComparisons]
    exact self_mem_listedWith

end

theorem length_boundedComparisonDetails_le (codec : MigrationCodec) (runId : Uuid)
    (detectedAt : Nat) (differences : List Difference)
    (persistedBytes : Nat) (h : records.length ≤ comparisonDetailLimit) :
    (boundedComparisonDetails codec runId detectedAt differences records
      persistedBytes).1.length ≤ comparisonDetailLimit := by
  induction differences generalizing records persistedBytes with
  | nil => exact h
  | cons difference rest ih =>
    unfold boundedComparisonDetails
    dsimp only
    split
    · exact h
    · next hroom =>
      split
      · exact ih _ h
      · refine ih _ ?_
        rw [List.length_append, List.length_singleton]
        omega

/-! ## Calls -/

/-- Comparisons, verifications and copies come one after the other; the rest of the daemon goes on
    meanwhile. -/
inductive ComparisonParty where
  | comparing
  | other (n : Nat)
deriving DecidableEq

def comparisonDiscipline : Discipline World ComparisonParty where
  inv := ComparisonInv
  promise _ _ := True
  rely
    | .comparing => LeavesComparisons
    | .other _ => fun _ _ => True
  promise_refl _ := trivial
  rely_refl party s := by
    cases party
    · exact fun db => .refl db s
    · trivial
  rely_trans party s u v h h' := by
    cases party
    · exact fun db => (h db).trans (h' db)
    · trivial

theorem guar_comparing (u v : World) : comparisonDiscipline.guar .comparing u v := by
  refine ⟨trivial, fun party hparty => ?_⟩
  cases party with
  | comparing => exact absurd rfl hparty
  | other n => trivial

variable {codec : MigrationCodec} {α β : Type}

/-- The rest of a call that has to do with comparisons is safe from `s` on. -/
def SafeComparing (p : Prog α) (q : α → World → Prop) (s : World) : Prop :=
  Safe (fun _ => True) ComparisonInv LeavesComparisons
    (comparisonDiscipline.guar .comparing) p (OnOk q) s

/-- A fact that the rest of the daemon cannot change. -/
def Unmoved (φ : World → Prop) : Prop := ∀ u v, φ u → LeavesComparisons u v → φ v

theorem unmoved_checkpoint (db : String) (cp : Checkpoint) :
    Unmoved fun w => w.checkpointOf db = some cp :=
  fun _ _ h hleaves => (hleaves db).checkpoint.trans h

theorem unmoved_listed (db : String) (listed : ListedRun) :
    Unmoved fun w => listed ∈ w.listedRuns db := by
  intro u v h hleaves
  rw [(hleaves db).listedRuns]
  exact h

namespace SafeComparing

variable {s : World}

theorem bind {p : Prog α} {f : α → Prog β} {q : β → World → Prop} (mid : α → World → Prop)
    (h : SafeComparing p mid s) (hf : ∀ a t, mid a t → SafeComparing (f a) q t) :
    SafeComparing (p.bind f) q s :=
  Safe.seq mid h hf

theorem read {f : World → α} {q : α → World → Prop}
    (h : ∀ u, LeavesComparisons s u → ComparisonInv u → q (f u) u) :
    SafeComparing (Program.read f) q s :=
  Safe.read (comparisonDiscipline.guar_refl _) h

/-- A read of which nothing is remembered. -/
theorem look {f : World → α} : SafeComparing (Program.read f) (fun _ _ => True) s :=
  read fun _ _ _ => trivial

theorem throwIf (error : Option StoreError) :
    SafeComparing (throwIf error) (fun _ _ => True) s := by
  cases error <;> trivial

theorem beside {body : Txn α} (hbody : ∀ u a t, body.run u = .ok (a, t) → LeavesComparisons u t) :
    SafeComparing (Program.transaction body) (fun _ _ => True) s :=
  Safe.transaction (comparisonDiscipline.guar_refl _)
    (fun u a t _ hinv _ hrun => ⟨hinv.of_leaves (hbody u a t hrun), guar_comparing _ _, trivial⟩)
    fun _ _ _ _ _ => trivial

/-- The lists of runs are as they were at `s`. -/
def ListsAs (s t : World) : Prop := ∀ db, t.listedRuns db = s.listedRuns db

theorem writing (cp : Checkpoint) (status : MigrationStatus) (events : List Event)
    {body : Txn Unit}
    (hbody : ∀ u a t, body.run u = .ok (a, t) → ∃ v, LeavesComparisons u v ∧
      (writeState cp status events).run v = .ok ((), t))
    (hpinned : ∀ u, LeavesComparisons s u → ComparisonInv u → ∀ verification,
      cp.verification = some verification →
        ∃ listed ∈ u.listedRuns cp.sourceDatabaseId, listed.runId = verification.runId) :
    SafeComparing (Program.transaction body) (fun _ t => ListsAs s t) s := by
  refine Safe.transaction (comparisonDiscipline.guar_refl _) (fun u a t hrely hinv _ hrun => ?_)
    fun _ _ _ _ _ => trivial
  obtain ⟨v, hleaves, hwrite⟩ := hbody u a t hrun
  have hwrites := writesCheckpoint_of_writeState hleaves hwrite
  exact ⟨hwrites.inv hinv (hpinned u hrely hinv), guar_comparing _ _,
    fun db => (hwrites.records db).listedRuns.trans (hrely db).listedRuns⟩

theorem persistState {cp : Checkpoint} (status : MigrationStatus) (clearSqliteAuthority : Bool)
    (events : List Event)
    (hpinned : ∀ u, LeavesComparisons s u → ComparisonInv u → ∀ verification,
      cp.verification = some verification →
        ∃ listed ∈ u.listedRuns cp.sourceDatabaseId, listed.runId = verification.runId) :
    SafeComparing (persistState cp status clearSqliteAuthority events)
      (fun _ t => ListsAs s t) s := by
  cases clearSqliteAuthority with
  | true =>
    refine writing cp status events (fun u a t hrun => ?_) hpinned
    obtain ⟨_, v, hclear, hwrite⟩ := Transaction.run_bind_eq_ok.mp hrun
    obtain ⟨hget, huuids⟩ := run_clearSqliteClaim_frame hclear
    refine ⟨v, .of_frame (fun k hk => hget k ?_) (Nat.le_of_eq huuids.symm), hwrite⟩
    rintro rfl
    obtain ⟨_, ⟨_, _, h⟩ | ⟨_, h⟩ | h | h⟩ := hk <;> cases h
  | false =>
    exact writing cp status events (fun u a t hrun => ⟨u, fun db => .refl db u, hrun⟩) hpinned

/-! ### Recording a run -/

theorem persistComparisonRun {source : String} {cp : Checkpoint}
    (hs : s.checkpointOf source = some cp) (db : String) (comparison : DifferenceAccumulator)
    (detectedAt : Nat) :
    SafeComparing (persistComparisonRun codec db comparison detectedAt)
      (fun run t => run.toListedRun ∈ t.listedRuns db ∧ t.checkpointOf source = some cp) s := by
  refine bind (fun id t => Unlisted id t ∧ t.checkpointOf source = some cp) ?_
    fun runId t hunlisted => bind (fun _ t => _ ∧ t.checkpointOf source = some cp) ?_
      fun _ _ hlisted => hlisted
  · refine Safe.transaction (comparisonDiscipline.guar_refl _)
      (fun u id t hrely hinv _ hrun => ?_) fun _ _ _ _ _ => trivial
    obtain ⟨hleaves, hunlisted⟩ := run_randomUUID_unlisted hinv hrun
    refine ⟨hinv.of_leaves hleaves, guar_comparing _ _, hunlisted, ?_⟩
    rw [(hleaves source).checkpoint, (hrely source).checkpoint, hs]
  · refine Safe.transaction (comparisonDiscipline.guar_refl _)
      (fun u _ v hrely hinv _ hrun => ?_) fun _ _ _ _ _ => trivial
    obtain ⟨hinv', hlisted, hcheckpoint⟩ := run_writeComparisonRun_inv hinv
      (hunlisted.1.of_leaves hrely) rfl
      (length_boundedComparisonDetails_le codec _ _ _ _ (Nat.zero_le _)) hrun
    refine ⟨hinv', guar_comparing _ _, hlisted, ?_⟩
    rw [hcheckpoint, (hrely source).checkpoint, hunlisted.2]

theorem persistVerified {cp : Checkpoint} (status : MigrationStatus) {verification : Verification}
    (hcp : cp.verification = some verification) {listed : ListedRun}
    (hs : listed ∈ s.listedRuns cp.sourceDatabaseId) (hid : listed.runId = verification.runId) :
    SafeComparing (ContextStore.persistState cp status false []) (fun _ t => ListsAs s t) s := by
  refine persistState _ _ _ fun u hleaves _ verification' hverification' => ?_
  obtain rfl := Option.some.inj (hcp.symm.trans hverification')
  exact ⟨listed, unmoved_listed _ _ _ _ hs hleaves, hid⟩

theorem recordShadowDifferences (around : Surroundings) (sourceId kind : String)
    (differences : List Difference) (allowlist : List Allowance) :
    SafeComparing (recordShadowDifferences codec around sourceId kind differences allowlist)
      (fun result t => result.run.toListedRun ∈ t.listedRuns sourceId) s := by
  refine Safe.seqRequire fun _ => Safe.seqRequire fun _ => bind _ look fun status _ _ =>
    bind (fun stored t => ComparisonInv t ∧ t.checkpointOf sourceId = stored)
      (read fun _ _ hinv => ⟨hinv, rfl⟩) fun stored t hstored =>
    Safe.seqOfExcept fun checkpoint hcheckpoint => ?_
  cases stored with
  | none => cases hcheckpoint
  | some stored =>
    obtain rfl := Except.ok.inj hcheckpoint
    have hown := hstored.1.own sourceId stored hstored.2
    refine bind _ (persistComparisonRun hstored.2 _ _ _) fun run v hv => ?_
    refine bind _ (persistState _ _ _ fun u hleaves hinv verification hverification => ?_)
      fun _ t ht => ?_
    · rw [hown]
      refine (hinv.kept sourceId).pinned _ ?_
      rw [World.pinnedRun, unmoved_checkpoint _ _ _ _ hv.2 hleaves, Option.bind_some,
        hverification, Option.map_some]
    · rw [← ht] at hv
      exact hv.1

/-! ### The verification -/

variable {state : CopyState} {checkpoint : Checkpoint}

theorem recordVerification (around : Surroundings) (source : SqliteSource) (info : SourceDescriptor)
    (comparison : DifferenceAccumulator) (artifact : Option ArtifactOutcome)
    (hown : checkpoint.sourceDatabaseId = info.sourceDatabaseId)
    (hs : s.checkpointOf info.sourceDatabaseId = some checkpoint) :
    SafeComparing (recordVerification codec around source info checkpoint comparison artifact)
      (fun _ _ => True) s := by
  refine bind _ (persistComparisonRun hs _ _ _) fun run t ht => Safe.seqOfExcept fun _ _ =>
    bind _ (persistVerified _ rfl ?_ rfl) fun _ _ _ => trivial
  change _ ∈ t.listedRuns checkpoint.sourceDatabaseId
  rw [hown]
  exact ht.1

theorem verifyMigration (around : Surroundings) (options : VerifyOptions) (pageSize : Nat) :
    SafeComparing (verifyMigration codec around options pageSize) (fun _ _ => True) s := by
  refine bind _ look fun _ _ _ => Safe.seqRequire fun _ => Safe.seqOfExcept fun _ _ =>
    Safe.seqOfExcept fun source _ =>
    bind (fun stored t => ComparisonInv t ∧
        t.checkpointOf (source.info codec true).sourceDatabaseId = stored)
      (read fun _ _ hinv => ⟨hinv, rfl⟩) fun stored t hstored =>
    Safe.seqOfExcept fun checkpoint hcheckpoint => Safe.seqOfExcept fun _ _ => ?_
  obtain ⟨rfl, -⟩ := assertVerifiable_eq_ok hcheckpoint
  refine bind (fun _ v => v.checkpointOf (source.info codec true).sourceDatabaseId =
      some checkpoint) (read fun u hleaves _ => unmoved_checkpoint _ _ _ _ hstored.2 hleaves)
    fun _ v hv => Safe.seqOfExcept fun _ _ => Safe.seqOfExcept fun _ _ => ?_
  exact recordVerification around source _ _ _ (hstored.1.own _ _ hstored.2) hv

/-! ### The copy

Every checkpoint that a copy writes is without a verification. -/

/-- What a copy may write. -/
def Unverified (state : CopyState) (_ : World) : Prop := state.checkpoint.verification = none

theorem persistUnverified (h : Unverified state s) (clearSqliteAuthority : Bool)
    (events : List Event) :
    SafeComparing (state.persist clearSqliteAuthority events) (fun _ _ => True) s := by
  refine Safe.mono (persistState _ _ _ fun _ _ _ verification hverification => ?_)
    fun _ _ _ => trivial
  rw [h] at hverification
  cases hverification

theorem commitMigrated {migrated : MigratedDocument}
    (h : migrated.prepared.state.SubjectOnly) (committedAt : Nat) (db : String) (n : Nat) :
    SafeComparing (commitCanonical codec.toCommitCodec (migrated.commit codec) committedAt
      [.migrated db n]) (fun _ _ => True) s := by
  refine Safe.seqOfExcept fun prepared hprepared => beside fun u result t hrun => ?_
  have hnames : ∀ k, prepared.Names k → k.storeOwned = false ∧ ¬ ComparisonKey k := by
    intro k hk
    have hbeside : ∀ k', (∃ db n, k' = .migration (.source db n)) ∨ (∃ text, k' = .derived text) ∨
        (∃ guard, k' = .guard guard) → k'.storeOwned = false ∧ ¬ ComparisonKey k' := by
      rintro _ (⟨_, _, rfl⟩ | ⟨_, rfl⟩ | ⟨_, rfl⟩) <;>
        exact ⟨rfl, by rintro ⟨_, ⟨_, _, h⟩ | ⟨_, h⟩ | h | h⟩ <;> cases h⟩
    rcases names_migrated h ((names_of_prepareCommit _ hprepared k).mp hk) with
      (hguard | hdocument) | hsource | hderived
    · exact hbeside k (.inr (.inr hguard))
    · refine ⟨hdocument.storeOwned, ?_⟩
      rintro ⟨_, ⟨_, _, rfl⟩ | ⟨_, rfl⟩ | rfl | rfl⟩ <;> cases hdocument
    · exact hbeside k (.inl hsource)
    · exact hbeside k (.inr (.inl hderived))
  rcases run_commitTransaction_ok (fun k hk => (hnames k hk).1) hrun with
    ⟨_, _, _, rfl, _⟩ | hcommits
  · exact fun db => .refl db _
  · refine .of_frame (fun k hk => hcommits.frame ?_ fun hn => (hnames k hn).2 hk)
      (Nat.le_of_eq hcommits.uuids.symm)
    obtain ⟨_, ⟨_, _, rfl⟩ | ⟨_, rfl⟩ | rfl | rfl⟩ := hk <;> rfl

theorem migrateRow (options : CopyOptions) (info : SourceDescriptor) (row : SourceRow)
    (startedAt committedAt : Nat) :
    SafeComparing (migrateRow codec options info row startedAt committedAt) (fun _ _ => True) s :=
  Safe.seqOfExcept fun _ hmigrated => bind _ (throwIf _) fun _ _ _ =>
    bind _ (commitMigrated (subjectOnly_prepareMigratedDocument hmigrated) _ _ _) fun _ _ _ =>
      Safe.seqOfExcept fun _ _ => throwIf _

/-- Writing a failure record, or removing one, and then the state. -/
theorem besideFailure (checkpoint : Checkpoint) (row : SourceRow) {next : CopyState}
    {body : Txn Unit} (h : Unverified next s)
    (hbody : ∀ u a t, body.run u = .ok (a, t) → ∃ v,
      World.ChangesOnly (· = .migration (failureKey checkpoint row)) u v ∧
        (writeState next.checkpoint next.status []).run v = .ok ((), t)) :
    SafeComparing (Program.transaction body) (fun _ _ => True) s := by
  refine Safe.mono (writing next.checkpoint next.status [] (fun u a t hrun => ?_)
    fun _ _ _ verification hverification => ?_) fun _ _ _ => trivial
  · obtain ⟨v, hchanges, hwrite⟩ := hbody u a t hrun
    refine ⟨v, .of_frame (fun k hk => hchanges.frame k ?_) (Nat.le_of_eq hchanges.uuids.symm),
      hwrite⟩
    rintro rfl
    obtain ⟨_, ⟨_, _, h⟩ | ⟨_, h⟩ | h | h⟩ := hk <;> cases h
  · rw [h] at hverification
    cases hverification

theorem recordFailure {row : SourceRow} {failure : MigrationFailure} {next : CopyState}
    (h : Unverified next s) :
    SafeComparing (Program.transaction (recordFailure checkpoint row failure next))
      (fun _ _ => True) s := by
  refine besideFailure checkpoint row h fun u a t hrun => ?_
  obtain ⟨_, v, hput, hwrite⟩ := Transaction.run_bind_eq_ok.mp hrun
  obtain ⟨_, rfl⟩ := Prod.mk.inj (Txn.run_put_eq_ok.mp hput)
  exact ⟨_, .put (K := (· = .migration (failureKey checkpoint row))) rfl _ _, hwrite⟩

theorem removeFailure {row : SourceRow} {next : CopyState} (h : Unverified next s) :
    SafeComparing (Program.transaction (removeFailure checkpoint row next))
      (fun _ _ => True) s := by
  refine besideFailure checkpoint row h fun u a t hrun => ?_
  obtain ⟨_, v, hremove, hwrite⟩ := Transaction.run_bind_eq_ok.mp hrun
  obtain ⟨_, rfl⟩ := Prod.mk.inj (Txn.run_remove_eq_ok.mp hremove)
  exact ⟨_, .remove (K := (· = .migration (failureKey checkpoint row))) rfl _, hwrite⟩

theorem copyRow (around : Surroundings) (options : CopyOptions) (info : SourceDescriptor)
    (h : Unverified state s) (row : SourceRow) :
    SafeComparing (copyRow codec around options info state row) Unverified s := by
  have hblock : ∀ t error clock, SafeComparing (blockOnFailure state row error clock)
      (fun _ _ => True) t := fun t error clock =>
    bind _ look fun _ v _ => bind _ (recordFailure (s := v) h) fun _ _ _ => trivial
  refine bind (fun _ _ => True) ?_ fun _ t _ => bind Unverified ?_ fun state' _ h' =>
    bind _ (throwIf _) fun _ _ _ => h'
  · refine Safe.tryCatch (Safe.weaken (migrateRow options info row _ _) fun r t _ => ?_)
    cases r with
    | ok _ => trivial
    | error e => exact hblock t e _
  · refine bind _ look fun previous v _ => ?_
    split
    · exact bind _ (removeFailure (s := v) h) fun _ _ _ => h
    · exact h

theorem copyRows (around : Surroundings) (options : CopyOptions) (source : SqliteSource)
    (info : SourceDescriptor) (limit through : Nat) (h : Unverified state s) :
    SafeComparing (copyRows codec around options source info limit through state)
      (fun result t => Unverified result.1 t) s := by
  induction limit generalizing through state s with
  | zero => exact h
  | succ limit ih =>
    unfold ContextStore.copyRows
    split
    · exact h
    · next row _ =>
      exact bind _ (copyRow around options info h row) fun state' _ h' =>
        bind _ (ih row.sourceOrderingKey h') fun result _ hresult => hresult

theorem completedUnverified (h : Unverified state s) (info : SourceDescriptor) (clock : Nat → Nat)
    (t : World) : Unverified (completedState state info clock) t := h

theorem completeOfflineCopy (around : Surroundings) (source : SqliteSource)
    (info : SourceDescriptor) (h : Unverified state s) :
    SafeComparing (completeOfflineCopy codec around source info state) (fun _ _ => True) s :=
  Safe.seqOfExcept fun _ _ => bind _ look fun _ t _ => Safe.seqOfExcept fun info _ =>
    bind _ (persistUnverified (completedUnverified h info _ t) _ _) fun _ _ _ => trivial

theorem copyBatches (around : Surroundings) (options : CopyOptions) (source : SqliteSource)
    (info : SourceDescriptor) (limit batches : Nat) (h : Unverified state s) :
    SafeComparing (copyBatches codec around options source info limit batches state)
      (fun _ _ => True) s := by
  induction batches generalizing state s with
  | zero =>
    unfold ContextStore.copyBatches
    split
    · exact completeOfflineCopy around source info h
    · trivial
  | succ batches ih =>
    refine bind _ (copyRows around options source info limit _ h) fun result t hresult => ?_
    obtain ⟨state', rows⟩ := result
    cases rows with
    | nil => exact completeOfflineCopy around source info hresult
    | cons row rest =>
      have hadvanced : ∀ now v, Unverified (advancedState codec state' row rest now) v :=
        fun _ _ => hresult
      refine bind Unverified ?_ fun _ _ hnext => ih hnext
      exact bind _ (throwIf _) fun _ v _ => bind _ (persistUnverified (hadvanced _ v) _ _)
        fun _ _ _ => bind _ (throwIf _) fun _ _ _ => hresult

theorem beginCopy (source : SqliteSource) (checkpoint : Option Checkpoint)
    (status : Option MigrationStatus) (info : SourceDescriptor) (now : Nat) :
    SafeComparing (beginCopy codec source checkpoint status info now) Unverified s := by
  cases checkpoint with
  | none =>
    have h : ∀ v, Unverified (.ofCheckpoint (initialCheckpoint info now) .offlineCopy 0) v :=
      fun _ => rfl
    exact Safe.seqRequire fun _ => bind _ look fun _ t _ => Safe.seqRequire fun _ =>
      bind _ (persistUnverified (h t) _ _) fun _ _ _ => rfl
  | some checkpoint =>
    have h : ∀ v, Unverified (resumedState checkpoint status info now) v := fun _ => rfl
    exact Safe.seqOfExcept fun _ _ => bind _ look fun _ t _ => Safe.seqOfExcept fun _ _ =>
      bind _ (persistUnverified (h t) _ _) fun _ _ _ => rfl

theorem startMigration (around : Surroundings) (options : CopyOptions) :
    SafeComparing (startMigration codec around options) (fun _ _ => True) s :=
  Safe.seqOfExcept fun source _ =>
    bind _ (bind _ look fun _ _ _ => Safe.ofExcept fun _ _ => trivial) fun _ _ _ =>
    Safe.seqOfExcept fun _ _ => Safe.seqOfExcept fun _ _ => Safe.seqOfExcept fun _ _ =>
    bind _ look fun checkpoint _ _ => bind _ look fun status _ _ => Safe.seqRequire fun _ =>
    bind _ (beginCopy source checkpoint status _ _) fun _ _ h =>
    bind _ (copyBatches around options source _ _ _ h) fun _ _ _ => trivial

end SafeComparing

/-! ## Every run -/

theorem SafeComparing.finished {p : Prog α} {s : World}
    {sys : System World ComparisonParty StoreError Unit} (hallowed : sys.allowed = fun _ => True)
    (h : SafeComparing p (fun _ _ => True) s) :
    comparisonDiscipline.SafeCall sys .comparing p.void (fun _ _ => True) s := by
  have hvoid : SafeComparing p.void (fun _ _ => True) s :=
    Safe.mapResult (Safe.mono h fun _ _ _ => trivial)
  rw [Discipline.SafeCall, hallowed]
  exact Safe.weaken hvoid fun _ _ _ => trivial

variable (codec)

/-- Shadow comparisons, verifications and copies, one at a time, over a destination on which no
    migration has begun; besides them any calls that leave the comparisons alone. -/
def comparisonSystem : System World ComparisonParty StoreError Unit where
  initial w := ∀ key, w.get (.migration key) = none
  calls
    | .comparing, _, p =>
      (∃ around sourceId kind differences allowlist,
        p = (recordShadowDifferences codec around sourceId kind differences allowlist).void) ∨
      (∃ around options, p = (verifyMigration codec around options verificationPageSize).void) ∨
      ∃ around options, p = (startMigration codec around options).void
    | .other _, _, p => p.Always LeavesComparisons

/-- What the comparison records of a source are at any moment. -/
structure ComparisonsSafe (w : World) (db : String) : Prop where
  /-- The comparisons stored are those of the listed runs, -/
  comparisons : ∀ id index, (w.comparisonAt db id index).isSome ↔
    ∃ listed ∈ w.listedRuns db, listed.runId = id ∧ index < listed.persistedDifferenceCount
  /-- and so are the runs. -/
  runs : ∀ id, (w.comparisonRunAt db id).isSome ↔ ∃ listed ∈ w.listedRuns db, listed.runId = id
  bounded : (w.listedRuns db).length ≤ comparisonRunLimit + 1
  /-- The run that the checkpoint was verified by is there with all of its comparisons. -/
  pinned : ∀ id, w.pinnedRun db = some id → ∃ run : ComparisonRun,
    w.comparisonRunAt db id = some run ∧
      ∀ index < run.persistedDifferenceCount, (w.comparisonAt db id index).isSome

variable {codec}

theorem ComparisonsKept.safe (hu : ComparisonsKept u db) : ComparisonsSafe u db := by
  refine ⟨hu.comparisons, fun id => ⟨fun hid => ?_, ?_⟩, hu.length, fun id hid => ?_⟩
  · obtain ⟨record, hrecord⟩ := Option.isSome_iff_exists.mp hid
    obtain ⟨rfl, hlisted⟩ := hu.runs id record hrecord
    exact ⟨_, hlisted, rfl⟩
  · rintro ⟨listed, hlisted, rfl⟩
    exact hu.stored listed hlisted
  · obtain ⟨listed, hlisted, rfl⟩ := hu.pinned id hid
    obtain ⟨record, hrecord⟩ := Option.isSome_iff_exists.mp (hu.stored listed hlisted)
    obtain ⟨hid', hmem⟩ := hu.runs _ record hrecord
    refine ⟨record, hrecord, fun index hindex => (hu.comparisons _ _).mpr ?_⟩
    exact ⟨_, hmem, hid', hindex⟩

theorem comparisonInv_initial {w : World} (h : ∀ key, w.get (.migration key) = none) :
    ComparisonInv w := by
  have hlisted : ∀ db, w.listedRuns db = [] := fun db => by rw [World.listedRuns, h]; rfl
  have hcheckpoint : ∀ db, w.checkpointOf db = none := fun db => h _
  refine ⟨fun db => ⟨⟨?_, ?_, ?_, ?_, ?_, ?_, ?_, ?_⟩, ?_⟩, fun db cp hcp => ?_⟩
  · intro history hhistory
    rw [h] at hhistory
    cases hhistory
  · intro id record hrecord
    rw [World.comparisonRunAt, h] at hrecord
    cases hrecord
  · simp [hlisted]
  · simp [hlisted, World.comparisonAt, h]
  · simp [hlisted]
  · simp [hlisted]
  · simp [hlisted]
  · simp [hlisted]
  · simp [World.pinnedRun, hcheckpoint]
  · rw [hcheckpoint] at hcp
    cases hcp

theorem covers_comparison :
    comparisonDiscipline.Covers (comparisonSystem codec) fun _ _ _ => True := by
  refine ⟨fun s hs => comparisonInv_initial hs, fun party s p _ hcall => ?_⟩
  cases party with
  | comparing =>
    rcases hcall with ⟨around, sourceId, kind, differences, allowlist, rfl⟩ |
      ⟨around, options, rfl⟩ | ⟨around, options, rfl⟩
    · exact SafeComparing.finished rfl (Safe.mono
        (SafeComparing.recordShadowDifferences around sourceId kind differences allowlist)
          fun _ _ _ => trivial)
    · exact SafeComparing.finished rfl (.verifyMigration around options _)
    · exact SafeComparing.finished rfl (.startMigration around options)
  | other n =>
    refine Safe.weaken (.of_always LeavesComparisons (fun _ _ => True) (fun _ _ _ _ _ => trivial)
      (fun _ => trivial) (fun _ _ _ => trivial) (fun u t hstep hinv => ?_) hcall s)
      fun _ _ _ => trivial
    refine ⟨hinv.of_leaves hstep, ⟨trivial, fun party _ => ?_⟩, trivial⟩
    cases party with
    | comparing => exact hstep
    | other m => trivial

theorem recordShadowDifferences_ok (hu : ComparisonInv u) (around : Surroundings)
    {sourceId kind : String} (differences : List Difference) (allowlist : List Allowance)
    (hsource : sourceId ≠ "") (hkind : kind ≠ "") (hcp : (u.checkpointOf sourceId).isSome) :
    ∃ result t, (recordShadowDifferences codec around sourceId kind differences allowlist).runAlone
      u = (.ok result, t) := by
  obtain ⟨cp, hcp⟩ := Option.isSome_iff_exists.mp hcp
  have hget : u.get (.migration (.checkpoint sourceId)) = some cp := hcp
  have hhistory : ∀ n, comparisonHistory sourceId
      (World.get { u with uuids := n } (.migration (.comparisonHistory sourceId))) =
      .ok (u.listedRuns sourceId) :=
    fun _ => (hu.kept sourceId).comparisonHistory_eq_ok
  have hwrite : ∀ n run records, (writeComparisonRun sourceId run records).run
      { u with uuids := n } =
      .ok ((), recordedComparisons sourceId run records (u.listedRuns sourceId)
        { u with uuids := n }) :=
    fun n run records => run_writeComparisonRun_eq_ok.mpr ⟨_, hhistory n, rfl⟩
  have hdraw : Txn.randomUUID.run u = .ok (⟨u.uuids⟩, { u with uuids := u.uuids + 1 }) := rfl
  unfold recordShadowDifferences
  simp only [Program.bind_eq, Program.require, hsource, hkind, ne_eq, not_false_eq_true, if_true,
    Program.bind_ok, getMigrationStatus, Prog.get, Program.runAlone_bind, Program.runAlone_read,
    hget, comparedCheckpoint, Program.ofExcept, persistComparisonRun, Program.runAlone_transaction,
    hdraw, hwrite, Program.pure_eq, Program.runAlone_done]
  exact ⟨_, _, rfl⟩

/-- Whatever sequence of shadow comparisons, verifications and copies has run, and wherever calls
    were cut off: the comparison records stored are those of the listed runs, of which there are at
    most nine, and the run that the checkpoint was verified by is complete. The next comparison
    finds nothing to object to, is listed, and leaves the records so. -/
theorem comparisons_follow_history {c : Config World ComparisonParty StoreError Unit}
    (hc : Reachable (comparisonSystem codec) c) :
    (∀ db, ComparisonsSafe c.shared db) ∧
      ∀ (around : Surroundings) (sourceId kind : String) (differences : List Difference)
        (allowlist : List Allowance), sourceId ≠ "" → kind ≠ "" →
        (c.shared.checkpointOf sourceId).isSome → ∃ result t,
          (recordShadowDifferences codec around sourceId kind differences allowlist).runAlone
            c.shared = (.ok result, t) ∧
          result.run.toListedRun ∈ t.listedRuns sourceId ∧ ∀ db, ComparisonsSafe t db := by
  have hinv := comparisonDiscipline.invariant covers_comparison hc
  refine ⟨fun db => (hinv.kept db).safe, fun around sourceId kind differences allowlist hsource
    hkind hcp => ?_⟩
  obtain ⟨result, t, hrun⟩ := recordShadowDifferences_ok hinv around differences allowlist
    hsource hkind hcp
  obtain ⟨hinv', hpost⟩ := Safe.runAlone (fun u db => .refl db u) (fun _ => trivial) hinv
    (SafeComparing.recordShadowDifferences around sourceId kind differences allowlist)
  rw [hrun] at hinv' hpost
  exact ⟨result, t, hrun, hpost, fun db => (hinv'.kept db).safe⟩

/-! ## A run -/

def sampleShadow : Prog Unit :=
  (recordShadowDifferences sampleMigrationCodec (sampleSurroundings "A") "A" "search" [{
      type := .recallEvidence
      documentId := "doc"
      expected := .null
      actual := .null }] []).void

/-- A copy and its verification, and shadow comparisons, one of which is cut off once its run is
    recorded. -/
def comparedMoves (comparisons : Nat) : List (Move World ComparisonParty StoreError Unit) :=
  Move.call .comparing (sampleCopy "A") 20 ++ Move.call .comparing (sampleVerify "A") 7 ++
    Move.call .comparing sampleShadow 4 ++
    (List.replicate comparisons (Move.call .comparing sampleShadow 5)).flatten

def comparedStart : Config World ComparisonParty StoreError Unit := ⟨freshWorld, fun _ => none⟩

theorem comparedMoves_playable (comparisons : Nat) :
    comparedStart.Playable (comparisonSystem sampleMigrationCodec) (comparedMoves comparisons) := by
  refine Config.playable_of_calls (fun _ => trivial) (fun party p hp s => ?_) _
  have hcall : party = .comparing ∧
      (p = sampleCopy "A" ∨ p = sampleVerify "A" ∨ p = sampleShadow) := by
    simp only [comparedMoves, Move.call, List.mem_append, List.mem_cons, Move.start.injEq,
      List.mem_replicate, reduceCtorEq, and_false, or_false, List.mem_flatten] at hp
    obtain ((⟨rfl, rfl⟩ | ⟨rfl, rfl⟩) | ⟨rfl, rfl⟩) | ⟨_, ⟨-, rfl⟩, hp⟩ := hp
    · exact ⟨rfl, .inl rfl⟩
    · exact ⟨rfl, .inr (.inl rfl)⟩
    · exact ⟨rfl, .inr (.inr rfl)⟩
    · simp only [List.mem_cons, Move.start.injEq, List.mem_replicate, reduceCtorEq, and_false,
        or_false] at hp
      exact ⟨hp.1, .inr (.inr hp.2)⟩
  obtain ⟨rfl, rfl | rfl | rfl⟩ := hcall
  · exact .inr (.inr ⟨_, _, rfl⟩)
  · exact .inr (.inl ⟨_, _, rfl⟩)
  · exact .inl ⟨_, _, _, _, _, rfl⟩

/-- After nine comparisons the verified run is listed with the last eight. -/
theorem comparisons_follow_history_nine :
    ((comparedStart.playAll (comparedMoves 8)).shared.listedRuns "A").map (·.runId.serial) =
      [0, 2, 3, 4, 5, 6, 7, 8, 9] ∧
    (comparedStart.playAll (comparedMoves 8)).shared.pinnedRun "A" = some ⟨0⟩ ∧
    ∀ db, ComparisonsSafe (comparedStart.playAll (comparedMoves 8)).shared db := by
  refine ⟨by decide +kernel, by decide +kernel, (comparisons_follow_history (.playAll
    (.initial fun key => ?_) (comparedMoves_playable 8))).1⟩
  exact World.get_put_of_ne (fun h => by cases h) ⟨KeyValue.Store.empty, 0, []⟩ _

end ContextStore
