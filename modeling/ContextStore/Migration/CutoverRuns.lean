import ContextStore.Migration.Cutover
import ContextStore.Migration.RowFacts

/-! # Runs of migrations and admissions

Every call keeps the invariant of the cutover, whatever the others do in between: the four
maintenance calls, which are alone in their exclusive section but for admissions, and the
admissions. `cutover_is_safe` adds the calls up. -/

namespace ContextStore

open Concurrent
open Safe (seqOfExcept seqRequire)

variable {codec : MigrationCodec} {α : Type}

/-! ## Maintenance calls -/

/-- The rest of a maintenance call is safe from `s` on. -/
def SafeMaintenance (p : Prog α) (q : α → World → Prop) (s : World) : Prop :=
  Safe World.TracksOneSource CutoverInv LeavesMigration (cutoverDiscipline.guar .maintenance) p
    (OnOk q) s

/-- A fact about the migration that admissions cannot change. -/
def Settled (φ : World → Prop) : Prop := ∀ u v, φ u → LeavesMigration u v → φ v

theorem settled_true : Settled fun _ => True := fun _ _ _ _ => trivial

theorem Neutral.leaves {u v : World} (h : Neutral u v) : LeavesMigration u v :=
  ⟨h.status, h.checkpoint, fun _ ha => h.authority.trans ha, h.claims⟩

theorem guar_neutral {u v : World} (h : Neutral u v) : cutoverDiscipline.guar .maintenance u v :=
  guar_maintenance h.keeps

namespace SafeMaintenance

variable {s : World}

theorem read {f : World → α} {q : α → World → Prop}
    (h : ∀ u, LeavesMigration s u → CutoverInv u → q (f u) u) :
    SafeMaintenance (Program.read f) q s :=
  Safe.read (cutoverDiscipline.guar_refl _) h

theorem neutral {body : Txn α} {φ : World → Prop} (hφ : Settled φ)
    (hbody : ∀ u a t, body.run u = .ok (a, t) → Neutral u t) (hs : φ s) :
    SafeMaintenance (Program.transaction body) (fun _ t => φ t) s := by
  refine Safe.transaction (cutoverDiscipline.guar_refl _) (fun u a t hrely hinv _ hrun => ?_)
    fun _ _ _ _ _ => trivial
  have hneutral := hbody u a t hrun
  exact ⟨hneutral.inv hinv, guar_neutral hneutral, hφ _ _ (hφ _ _ hs hrely) hneutral.leaves⟩

variable {status : MigrationStatus} {cp : Checkpoint} {events : List Event}

/-- A transaction that writes beside the deciding records and then writes the state of the
    migration, without ending a claim. -/
theorem writing {body : Txn Unit}
    (hbody : ∀ u a t, body.run u = .ok (a, t) → ∃ v, Neutral u v ∧
      (writeState cp status events).run v = .ok ((), t))
    (hevents : events = [] ∨ events = [.copyCompleted])
    (hcleared : ∀ u, LeavesMigration s u → CutoverInv u → claimState u.history = .cleared →
      events = [.copyCompleted] ∨ Recopies cp status) :
    SafeMaintenance (Program.transaction body) (fun _ _ => True) s := by
  refine Safe.transaction (cutoverDiscipline.guar_refl _) (fun u a t hrely hinv hone hrun => ?_)
    fun _ _ _ _ _ => trivial
  obtain ⟨v, hneutral, hwrite⟩ := hbody u a t hrun
  have hwrites := run_writeState_ok hwrite
  have hinv' := hwrites.inv (hneutral.inv hinv) hone hevents fun hc =>
    hcleared v (hrely.trans hneutral.leaves) (hneutral.inv hinv) hc
  exact ⟨hinv', guar_maintenance (hneutral.keeps.trans hwrites.keeps), trivial⟩

/-- Writing the state of a copy under way, which ends a claim of SQLite. -/
theorem persistClearing (h : Recopies cp status) :
    SafeMaintenance (persistState cp status true []) (fun _ _ => True) s := by
  refine Safe.transaction (cutoverDiscipline.guar_refl _) (fun u a t _ hinv hone hrun => ?_)
    fun _ _ _ _ _ => trivial
  obtain ⟨_, v, hclear, hwrite⟩ := Transaction.run_bind_eq_ok.mp hrun
  have hwrites := run_writeState_ok hwrite
  rcases run_clearSqliteClaim_ok hclear with ⟨hsqlite, rfl⟩ | ⟨_, rfl⟩
  · refine ⟨hinv.clearing hsqlite hone h hwrites, guar_maintenance fun b hb hrocksdb => ?_, trivial⟩
    exact absurd hsqlite (World.OwnedByRocksdb.not_sqlite ⟨b, hb, hrocksdb⟩)
  · exact ⟨hwrites.inv hinv hone (Or.inl rfl) fun _ => Or.inr h, guar_maintenance hwrites.keeps,
      trivial⟩

/-- `persistState` without ending a claim. -/
theorem persist
    (hevents : events = [] ∨ events = [.copyCompleted])
    (hcleared : ∀ u, LeavesMigration s u → CutoverInv u → claimState u.history = .cleared →
      events = [.copyCompleted] ∨ Recopies cp status) :
    SafeMaintenance (persistState cp status false events) (fun _ _ => True) s := by
  refine writing (fun u a t hrun => ⟨u, .refl u, ?_⟩) hevents hcleared
  obtain ⟨_, v, hskip, hwrite⟩ := Transaction.run_bind_eq_ok.mp hrun
  obtain ⟨_, rfl⟩ := Prod.mk.inj (Transaction.run_pure_eq_ok.mp hskip)
  exact hwrite

end SafeMaintenance

/-! ### Commits beside the migration -/

variable {prepared : PreparedCommit} {result : CommitResult}

/-- A commit that names no deciding record, and admits nothing. -/
theorem neutral_commitTransaction {committedAt : Nat} {events : List Event}
    (hnames : ∀ k, prepared.Names k → k.storeOwned = false ∧ ¬ Neutral.Deciding k)
    (hevents : ∀ e ∈ events, e.isOrdinary = true ∧ e.isAdmission = false) {u t : World}
    (h : (commitTransaction prepared committedAt events).run u = .ok (result, t)) :
    Neutral u t := by
  rcases run_commitTransaction_ok (fun k hk => (hnames k hk).1) h with
    ⟨_, _, _, rfl, _⟩ | hcommits
  · exact .refl _
  · refine .of_frame (fun k hk => hcommits.frame ?_ fun hn => (hnames k hn).2 hk)
      ⟨_, hcommits.history, ?_⟩
    · rcases hk with rfl | rfl | ⟨_, rfl⟩ | ⟨_, rfl⟩ <;> rfl
    · intro e he
      rcases List.mem_cons.mp he with rfl | he
      · exact ⟨rfl, rfl⟩
      · exact hevents e he

theorem DocumentKey.not_deciding {k : Key} (h : DocumentKey k) : ¬ Neutral.Deciding k := by
  rintro (rfl | rfl | ⟨_, rfl⟩ | ⟨_, rfl⟩) <;> cases h

theorem neutral_migratedCommit {migrated : MigratedDocument}
    (hsubject : migrated.prepared.state.SubjectOnly)
    (hprepared : prepareCommit codec.toCommitCodec (migrated.commit codec) = .ok prepared)
    {committedAt : Nat} {db : String} {n : Nat} {u t : World}
    (h : (commitTransaction prepared committedAt [.migrated db n]).run u = .ok (result, t)) :
    Neutral u t := by
  refine neutral_commitTransaction (fun k hk => ?_) (by simp [Event.isOrdinary, Event.isAdmission])
    h
  rcases names_migrated hsubject ((names_of_prepareCommit _ hprepared k).mp hk) with
    (⟨_, rfl⟩ | hdocument) | ⟨_, _, rfl⟩ | ⟨_, rfl⟩
  · exact ⟨rfl, by simp [Neutral.Deciding]⟩
  · exact ⟨hdocument.storeOwned, hdocument.not_deciding⟩
  · exact ⟨rfl, by simp [Neutral.Deciding]⟩
  · exact ⟨rfl, by simp [Neutral.Deciding]⟩

/-! ### The copy -/

namespace SafeMaintenance

variable {β : Type} {s : World}

theorem bind {p : Prog α} {f : α → Prog β} {q : β → World → Prop} (mid : α → World → Prop)
    (h : SafeMaintenance p mid s) (hf : ∀ a t, mid a t → SafeMaintenance (f a) q t) :
    SafeMaintenance (p.bind f) q s :=
  Safe.seq mid h hf

theorem throwIf (error : Option StoreError) :
    SafeMaintenance (throwIf error) (fun _ _ => True) s := by
  cases error <;> trivial

theorem commitMigrated {migrated : MigratedDocument}
    (h : migrated.prepared.state.SubjectOnly) (committedAt : Nat) (db : String) (n : Nat) :
    SafeMaintenance (commitCanonical codec.toCommitCodec (migrated.commit codec) committedAt
      [.migrated db n]) (fun _ _ => True) s :=
  seqOfExcept fun _ hprepared => neutral settled_true
    (fun _ _ _ hrun => neutral_migratedCommit h hprepared hrun) trivial

theorem migrateRow (options : CopyOptions) (info : SourceDescriptor) (row : SourceRow)
    (startedAt committedAt : Nat) :
    SafeMaintenance (migrateRow codec options info row startedAt committedAt) (fun _ _ => True) s :=
  seqOfExcept fun _ hmigrated => bind _ (throwIf _) fun _ _ _ =>
    bind _ (commitMigrated (subjectOnly_prepareMigratedDocument hmigrated) _ _ _) fun _ _ _ =>
      seqOfExcept fun _ _ => throwIf _

variable {checkpoint : Checkpoint}

theorem recordFailure {row : SourceRow} {failure : MigrationFailure} {next : CopyState}
    (h : Recopies next.checkpoint next.status) :
    SafeMaintenance (Program.transaction (recordFailure checkpoint row failure next))
      (fun _ _ => True) s := by
  refine writing (fun u a t hrun => ?_) (Or.inl rfl) fun _ _ _ _ => Or.inr h
  obtain ⟨_, v, hput, hwrite⟩ := Transaction.run_bind_eq_ok.mp hrun
  obtain ⟨_, rfl⟩ := Prod.mk.inj (Txn.run_put_eq_ok.mp hput)
  refine ⟨_, .of_changesOnly (.put (K := (· = .migration (failureKey checkpoint row))) rfl _ _) ?_,
    hwrite⟩
  rintro _ (rfl | rfl | ⟨_, rfl⟩ | ⟨_, rfl⟩) <;> simp [failureKey]

theorem removeFailure {row : SourceRow} {next : CopyState}
    (h : Recopies next.checkpoint next.status) :
    SafeMaintenance (Program.transaction (removeFailure checkpoint row next))
      (fun _ _ => True) s := by
  refine writing (fun u a t hrun => ?_) (Or.inl rfl) fun _ _ _ _ => Or.inr h
  obtain ⟨_, v, hremove, hwrite⟩ := Transaction.run_bind_eq_ok.mp hrun
  obtain ⟨_, rfl⟩ := Prod.mk.inj (Txn.run_remove_eq_ok.mp hremove)
  refine ⟨_, .of_changesOnly (.remove (K := (· = .migration (failureKey checkpoint row))) rfl _) ?_,
    hwrite⟩
  rintro _ (rfl | rfl | ⟨_, rfl⟩ | ⟨_, rfl⟩) <;> simp [failureKey]

/-- A state that the copy may write: its checkpoint is not complete. -/
def Resumable (state : CopyState) (_ : World) : Prop := Recopies state.checkpoint state.status

variable {state : CopyState}

theorem blockOnFailure (h : state.checkpoint.completed = false) (row : SourceRow)
    (error : StoreError) (clock : Nat → Nat) :
    SafeMaintenance (blockOnFailure state row error clock) (fun _ _ => True) s :=
  bind _ (read (q := fun _ _ => True) fun _ _ _ => trivial) fun _ _ _ =>
    bind _ (recordFailure ⟨h, Or.inr rfl⟩) fun _ _ _ => trivial

theorem resolveFailure (h : Recopies state.checkpoint state.status) (row : SourceRow) (now : Nat) :
    SafeMaintenance (resolveFailure state row now) Resumable s := by
  refine bind _ (read (q := fun _ _ => True) fun _ _ _ => trivial) fun previous _ _ => ?_
  split
  · have hnext : Recopies (resolvedState state now).checkpoint (resolvedState state now).status :=
      ⟨h.1, Or.inl rfl⟩
    exact bind _ (removeFailure hnext) fun _ _ _ => hnext
  · exact h

theorem copyRow (around : Surroundings) (options : CopyOptions) (info : SourceDescriptor)
    (h : Recopies state.checkpoint state.status) (row : SourceRow) :
    SafeMaintenance (copyRow codec around options info state row) Resumable s := by
  refine bind (fun _ _ => True) ?_ fun _ _ _ => bind _ (resolveFailure h row _) fun state' _ h' =>
    bind _ (throwIf _) fun _ _ _ => h'
  refine Safe.tryCatch (Safe.weaken (migrateRow options info row _ _) fun r t _ => ?_)
  cases r with
  | ok _ => trivial
  | error e => exact blockOnFailure h.1 row e _

theorem copyRows (around : Surroundings) (options : CopyOptions) (source : SqliteSource)
    (info : SourceDescriptor) (limit through : Nat) (h : Recopies state.checkpoint state.status) :
    SafeMaintenance (copyRows codec around options source info limit through state)
      (fun result t => Resumable result.1 t) s := by
  induction limit generalizing through state s with
  | zero => exact h
  | succ limit ih =>
    unfold ContextStore.copyRows
    split
    · exact h
    · next row _ =>
      exact bind _ (copyRow around options info h row) fun state' _ h' =>
        bind _ (ih row.sourceOrderingKey h') fun result _ hresult => hresult

theorem completeOfflineCopy (around : Surroundings) (source : SqliteSource)
    (info : SourceDescriptor) (state : CopyState) :
    SafeMaintenance (completeOfflineCopy codec around source info state) (fun _ _ => True) s :=
  seqOfExcept fun _ _ => bind _ (read (q := fun _ _ => True) fun _ _ _ => trivial)
    fun _ _ _ => seqOfExcept fun _ _ =>
      bind _ (persist (Or.inr rfl) fun _ _ _ _ => Or.inl rfl) fun _ _ _ => trivial

theorem checkpointBatch (options : CopyOptions) {next : CopyState}
    (h : Recopies next.checkpoint next.status) :
    SafeMaintenance (checkpointBatch options next) Resumable s :=
  bind _ (throwIf _) fun _ _ _ => bind _ (persist (Or.inl rfl) fun _ _ _ _ => Or.inr h)
    fun _ _ _ => bind _ (throwIf _) fun _ _ _ => h

theorem copyBatches (around : Surroundings) (options : CopyOptions) (source : SqliteSource)
    (info : SourceDescriptor) (limit batches : Nat) (h : Recopies state.checkpoint state.status) :
    SafeMaintenance (copyBatches codec around options source info limit batches state)
      (fun _ _ => True) s := by
  induction batches generalizing state s with
  | zero =>
    unfold ContextStore.copyBatches
    split
    · exact completeOfflineCopy around source info state
    · trivial
  | succ batches ih =>
    refine bind _ (copyRows around options source info limit _ h) fun result _ hresult => ?_
    obtain ⟨state', rows⟩ := result
    cases rows with
    | nil => exact completeOfflineCopy around source info state'
    | cons row rest =>
      have hadvanced : ∀ now, Recopies (advancedState codec state' row rest now).checkpoint
          (advancedState codec state' row rest now).status :=
        fun _ => ⟨hresult.1, Or.inl rfl⟩
      exact bind _ (checkpointBatch options (hadvanced _)) fun _ _ hnext => ih hnext

theorem beginCopy (source : SqliteSource) (checkpoint : Option Checkpoint)
    (status : Option MigrationStatus) (info : SourceDescriptor) (now : Nat) :
    SafeMaintenance (beginCopy codec source checkpoint status info now) Resumable s := by
  cases checkpoint with
  | none =>
    have h : Recopies (initialCheckpoint info now)
        (CopyState.ofCheckpoint (initialCheckpoint info now) .offlineCopy 0).status :=
      ⟨rfl, Or.inl rfl⟩
    exact seqRequire fun _ => bind _ (read (q := fun _ _ => True) fun _ _ _ => trivial)
      fun _ _ _ => seqRequire fun _ => bind _ (persistClearing h) fun _ _ _ => h
  | some checkpoint =>
    have h : Recopies (resumedState checkpoint status info now).checkpoint
        (resumedState checkpoint status info now).status := ⟨rfl, Or.inl rfl⟩
    exact seqOfExcept fun _ _ => bind _ (read (q := fun _ _ => True) fun _ _ _ => trivial)
      fun _ _ _ => seqOfExcept fun _ _ => bind _ (persistClearing h) fun _ _ _ => h

theorem startMigration (around : Surroundings) (options : CopyOptions) :
    SafeMaintenance (startMigration codec around options) (fun _ _ => True) s :=
  seqOfExcept fun source _ => bind _ (bind _ (read (q := fun _ _ => True) fun _ _ _ => trivial)
    fun _ _ _ => Safe.ofExcept fun _ _ => trivial) fun _ _ _ => seqOfExcept fun _ _ =>
    seqOfExcept fun _ _ => seqOfExcept fun _ _ =>
    bind _ (read (q := fun _ _ => True) fun _ _ _ => trivial) fun checkpoint _ _ =>
    bind _ (read (q := fun _ _ => True) fun _ _ _ => trivial) fun status _ _ =>
    seqRequire fun _ => bind _ (beginCopy source checkpoint status _ _) fun _ _ h =>
    bind _ (copyBatches around options source _ _ _ h) fun _ _ _ => trivial

end SafeMaintenance

/-! ### The verification -/

theorem run_writeComparisonRun_neutral {db : String} {run : ComparisonRun}
    {records : List ComparisonRecord} {u t : World} {a : Unit}
    (h : (writeComparisonRun db run records).run u = .ok (a, t)) : Neutral u t := by
  simp only [writeComparisonRun, Transaction.run_bind_eq_ok, Txn.run_get_eq_ok,
    Transaction.run_ofExcept_eq_ok, Txn.run_put_eq_ok, Prod.mk.injEq] at h
  obtain ⟨_, _, ⟨_, rfl⟩, _, _, ⟨_, rfl⟩, _, _, ⟨_, rfl⟩, _, v, hrecords, _, _, ⟨_, rfl⟩, _, _,
    ⟨_, rfl⟩, hremove⟩ := h
  obtain rfl := run_forEach_putEntry_ok hrecords
  rw [Txn.run_forEach_remove fun k => k] at hremove
  obtain ⟨_, rfl⟩ := Prod.mk.inj (Except.ok.inj hremove)
  refine .of_changesOnly (K := fun k => (∃ id n, k = .migration (.comparison db id n)) ∨
    (∃ id, k = .migration (.comparisonRun db id)) ∨ k = .migration (.comparisonHistory db))
    ((((World.putAll_changesOnly (fun entry hentry => ?_) u).trans
      (.put (Or.inr (Or.inl ⟨_, rfl⟩)) _ _)).trans (.put (Or.inr (Or.inr rfl)) _ _)).trans
      (World.removeAll_changesOnly (fun k hk => ?_) _)) ?_
  · obtain ⟨record, _, rfl⟩ := List.mem_map.mp hentry
    exact Or.inl ⟨_, _, rfl⟩
  · rw [List.map_id'] at hk
    obtain ⟨evicted, _, hk⟩ := List.mem_flatMap.mp hk
    rcases List.mem_append.mp hk with hk | hk
    · obtain ⟨index, _, rfl⟩ := List.mem_map.mp hk
      exact Or.inl ⟨_, _, rfl⟩
    · exact Or.inr (Or.inl ⟨_, List.mem_singleton.mp hk⟩)
  · rintro _ (rfl | rfl | ⟨_, rfl⟩ | ⟨_, rfl⟩) <;> simp

theorem neutral_randomUUID {u t : World} {id : Uuid} (h : Txn.randomUUID.run u = .ok (id, t)) :
    Neutral u t := by
  obtain ⟨_, rfl⟩ := Prod.mk.inj (Txn.run_randomUUID_eq_ok.mp h)
  exact .of_frame (fun _ _ => rfl) ⟨[], (List.append_nil _).symm, by simp⟩

theorem assertVerifiable_eq_ok {stored : Option Checkpoint} {info : SourceDescriptor}
    {checkpoint : Checkpoint} (h : assertVerifiable stored info = .ok checkpoint) :
    stored = some checkpoint ∧ checkpoint.completed = true ∧
      assertSameDatabase checkpoint info = .ok () ∧
      checkpoint.sourceFileFingerprint = info.sourceFileFingerprint := by
  cases stored with
  | none => cases h
  | some stored =>
    simp only [assertVerifiable] at h
    split at h
    · cases h
    · next hcompleted =>
      obtain ⟨_, hsame, h⟩ := bind_ok_iff.mp h
      split at h
      · cases h
      · next hfiles =>
        cases h
        exact ⟨rfl, by simpa using hcompleted, hsame, by simpa using hfiles⟩

/-- The stored checkpoint of a source. -/
def Tracks (checkpoint : Checkpoint) (db : String) (w : World) : Prop :=
  w.checkpointOf db = some checkpoint

theorem settled_tracks (checkpoint : Checkpoint) (db : String) : Settled (Tracks checkpoint db) :=
  fun _ _ h hleaves => (hleaves.checkpoint db).trans h

namespace SafeMaintenance

variable {s : World}

theorem persistComparisonRun {φ : World → Prop} (hφ : Settled φ) (hs : φ s) (db : String)
    (comparison : DifferenceAccumulator) (detectedAt : Nat) :
    SafeMaintenance (persistComparisonRun codec db comparison detectedAt) (fun _ t => φ t) s :=
  bind _ (neutral hφ (fun _ _ _ h => neutral_randomUUID h) hs) fun _ _ h =>
    bind _ (neutral hφ (fun _ _ _ h => run_writeComparisonRun_neutral h) h) fun _ _ h => h

/-- The checkpoint is complete, so that no cleared claim waits for a copy. -/
theorem recordVerification (around : Surroundings) (source : SqliteSource)
    (info : SourceDescriptor) {checkpoint : Checkpoint} (comparison : DifferenceAccumulator)
    (artifact : Option ArtifactOutcome) {db : String} (hs : Tracks checkpoint db s)
    (hcompleted : checkpoint.completed = true) :
    SafeMaintenance (recordVerification codec around source info checkpoint comparison artifact)
      (fun _ _ => True) s := by
  refine bind _ (persistComparisonRun (settled_tracks checkpoint db) hs _ _ _) fun run t ht =>
    seqOfExcept fun _ _ => bind _ (persist (Or.inl rfl) fun u hleaves hinv hc => ?_)
      fun _ _ _ => trivial
  have hincomplete := (hinv.cleared hc).incomplete db checkpoint
    (settled_tracks _ _ _ _ ht hleaves)
  rw [hcompleted] at hincomplete
  cases hincomplete

theorem verifyMigration (around : Surroundings) (options : VerifyOptions) (pageSize : Nat) :
    SafeMaintenance (verifyMigration codec around options pageSize) (fun _ _ => True) s := by
  refine bind _ (read (q := fun _ _ => True) fun _ _ _ => trivial) fun status _ _ =>
    seqRequire fun _ => seqOfExcept fun path _ => seqOfExcept fun source _ =>
    bind (fun stored t => t.checkpointOf (source.info codec true).sourceDatabaseId = stored)
      (read fun _ _ _ => rfl) fun stored t hstored => seqOfExcept fun checkpoint hcheckpoint =>
    seqOfExcept fun _ _ => ?_
  obtain ⟨rfl, hcompleted, -⟩ := assertVerifiable_eq_ok hcheckpoint
  refine bind (fun _ => Tracks checkpoint (source.info codec true).sourceDatabaseId)
    (read fun u hleaves _ => settled_tracks _ _ _ _ hstored hleaves) fun _ _ h =>
    seqOfExcept fun _ _ => seqOfExcept fun _ _ => ?_
  exact recordVerification around source _ _ _ h hcompleted

end SafeMaintenance

/-! ### Activation and claim -/

/-- A backend takes over an archive without owner while no cleared claim waits for a copy. -/
theorem CutoverInv.own {u : World} (hu : CutoverInv u) (hnone : u.backendAuthority = none)
    (hcopying : ¬ u.Copying) (a : BackendAuthority) :
    CutoverInv (u.put (.migration .backendAuthority) a) := by
  have hunowned : ¬ u.OwnedByRocksdb := by
    rintro ⟨b, hb, _⟩
    rw [hnone] at hb
    cases hb
  refine ⟨fun db b hb => ?_, fun hc => ?_, fun hc => ?_, fun hadm => ?_, fun x y cp cp' hx hy => ?_,
    hu.respects⟩
  · rw [World.sealOf, World.get_put_of_ne (by simp)] at hb
    exact absurd (hu.sealed db b hb) hunowned
  · obtain ⟨b, hb, _⟩ := hu.claimed hc
    rw [hnone] at hb
    cases hb
  · exact absurd (hu.cleared hc).copying hcopying
  · exact absurd (hu.admitted hadm) hunowned
  · rw [World.checkpointOf, World.get_put_of_ne (by simp)] at hx hy
    exact hu.oneSource x y cp cp' hx hy

theorem backendAuthorityRecord_eq_ok {value authority : Option BackendAuthority}
    (h : backendAuthorityRecord value = .ok authority) : value = authority := by
  unfold backendAuthorityRecord at h
  split at h
  · cases h
  · exact Except.ok.inj h

theorem run_claimAuthority_ok {payload selected : BackendAuthority} {u t : World}
    (h : (claimAuthority payload).run u = .ok (selected, t)) :
    (u.backendAuthority = some selected ∧ selected.backend = payload.backend ∧ t = u) ∨
      (u.backendAuthority = none ∧ selected = payload ∧
        t = u.put (.migration .backendAuthority) payload) := by
  simp only [claimAuthority, Transaction.run_bind_eq_ok, Txn.run_get_eq_ok,
    Transaction.run_ofExcept_eq_ok, Prod.mk.injEq] at h
  obtain ⟨_, _, ⟨rfl, rfl⟩, current, v, ⟨hcurrent, rfl⟩, h⟩ := h
  obtain rfl := backendAuthorityRecord_eq_ok hcurrent
  split at h
  · next current hstored =>
    split at h
    · simp only [Transaction.run_fail_eq_ok] at h
    · next hsame =>
      obtain ⟨rfl, rfl⟩ := Prod.mk.inj (Transaction.run_pure_eq_ok.mp h)
      simp only [not_or, ne_eq, not_not] at hsame
      exact Or.inl ⟨hstored, hsame.1, rfl⟩
  · next hstored =>
    simp only [Transaction.run_bind_eq_ok, Txn.run_putImmutable_eq_ok,
      Transaction.run_pure_eq_ok, Prod.mk.injEq] at h
    obtain ⟨_, w, ⟨_, _, rfl⟩ | ⟨hsome, _⟩, rfl, rfl⟩ := h
    · exact Or.inr ⟨hstored, rfl, rfl⟩
    · exact absurd (hstored.symm.trans hsome) (by simp)

theorem settled_owned (c : BackendAuthority → Bool) :
    Settled fun w => ∃ a, w.backendAuthority = some a ∧ c a = true :=
  fun _ _ ⟨a, ha, hc⟩ hleaves => ⟨a, hleaves.authority a ha, hc⟩

theorem settled_notCopying : Settled fun w => ¬ w.Copying :=
  fun _ _ h hleaves ⟨status, hstatus, hphase⟩ => h ⟨status, hleaves.status.symm.trans hstatus, hphase⟩

/-- While a copy is under way the status does not read as anything else. -/
theorem phaseOf_copying {w : World} (h : w.Copying) (files : Files) :
    phaseOf (readMigrationStatus codec files w) = .rocksdbAuthority ∨
      phaseOf (readMigrationStatus codec files w) = .offlineCopy ∨
      phaseOf (readMigrationStatus codec files w) = .blocked := by
  obtain ⟨status, hstatus, hphase⟩ := h
  unfold readMigrationStatus
  rw [show w.get (.migration .status) = some status from hstatus]
  simp only [Option.map_some, phaseOf, Option.getD_some]
  split
  · exact Or.inl rfl
  · right
    unfold unsealedStatus
    rcases hphase with hphase | hphase
    · rw [if_neg (by simp [hphase]), if_neg (by simp [hphase])]
      exact Or.inl hphase
    · rw [if_neg (by simp [hphase]), if_neg (by simp [hphase])]
      exact Or.inr hphase

theorem sealed_of_phase {w : World} {files : Files}
    (h : phaseOf (readMigrationStatus codec files w) = .rocksdbAuthority) :
    ∃ db a, w.sealOf db = some a := by
  unfold readMigrationStatus at h
  cases hstatus : w.get (.migration .status) with
  | none =>
    rw [hstatus] at h
    cases h
  | some status =>
    simp only [hstatus, Option.map_some, phaseOf, Option.getD_some] at h
    split at h
    · next a ha => exact ⟨_, a, ha⟩
    · unfold unsealedStatus at h
      split at h
      · cases h
      · next hphase =>
        dsimp only at h
        split at h
        · cases h
        · exact absurd h hphase

/-- What a status that was read says of the records that decide. -/
structure ReadAs (status : Option MigrationStatus) (w : World) : Prop where
  sealed : phaseOf status = .rocksdbAuthority → w.OwnedByRocksdb
  idle : phaseOf status = .notStarted ∨ phaseOf status = .offlineReady → ¬ w.Copying

theorem readAs {w : World} (hw : CutoverInv w) (files : Files) :
    ReadAs (readMigrationStatus codec files w) w := by
  refine ⟨fun h => ?_, fun h hcopying => ?_⟩
  · obtain ⟨db, a, ha⟩ := sealed_of_phase h
    exact hw.sealed db a ha
  · rcases @phaseOf_copying codec w hcopying files with heq | heq | heq <;>
      rw [heq] at h <;> simp at h

theorem phaseOf_verifiedOfflineReady {status : Option MigrationStatus} {path : String}
    (h : verifiedOfflineReady status path = true) : phaseOf status = .offlineReady := by
  cases status with
  | none => simp [verifiedOfflineReady] at h
  | some status =>
    simp only [verifiedOfflineReady, Option.any_some, Bool.and_eq_true, decide_eq_true_eq] at h
    exact h.1.1

namespace SafeMaintenance

variable {s : World}

theorem persistBackendAuthority {payload : BackendAuthority} (h : s.OwnedByRocksdb ∨ ¬ s.Copying) :
    SafeMaintenance (persistBackendAuthority payload) (fun selected t =>
      t.backendAuthority = some selected ∧ selected.backend = payload.backend) s := by
  refine Safe.transaction (cutoverDiscipline.guar_refl _) (fun u a t hrely hinv _ hrun => ?_)
    fun _ _ _ _ _ => trivial
  rcases run_claimAuthority_ok hrun with ⟨hstored, hsame, rfl⟩ | ⟨hnone, rfl, rfl⟩
  · exact ⟨hinv, cutoverDiscipline.guar_refl _ _, hstored, hsame⟩
  · have hidle : ¬ u.Copying := by
      rcases h with howned | hidle
      · obtain ⟨b, hb, _⟩ := hrely.keeps.owned howned
        rw [hnone] at hb
        cases hb
      · exact settled_notCopying _ _ hidle hrely
    refine ⟨hinv.own hnone hidle _, guar_maintenance fun b hb _ => ?_, World.get_put_self _ _ _, rfl⟩
    rw [hnone] at hb
    cases hb

theorem getBackendAuthority :
    SafeMaintenance getBackendAuthority (fun authority t => t.backendAuthority = authority) s :=
  bind (fun stored t => t.backendAuthority = stored) (read fun _ _ _ => rfl) fun _ _ h =>
    Safe.ofExcept fun _ heq => h.trans (backendAuthorityRecord_eq_ok heq)

theorem getMigrationStatus (files : Files) :
    SafeMaintenance (getMigrationStatus codec files) ReadAs s :=
  read fun _ _ hinv => readAs hinv files

variable {status : Option MigrationStatus}

theorem activateUnowned (h : ReadAs status s) (configuredSource : String) (sourceExists : Bool)
    (now : Nat) :
    SafeMaintenance (activateUnowned status configuredSource sourceExists now)
      (fun _ _ => True) s := by
  unfold ContextStore.activateUnowned
  split
  · next hsealed =>
    obtain ⟨hstatus, hphase⟩ := Option.filter_eq_some_iff.mp hsealed
    have howned := h.sealed (by simpa [hstatus, phaseOf] using hphase)
    exact seqRequire fun _ => bind _ (persistBackendAuthority (Or.inl howned))
      fun _ _ _ => trivial
  · split
    · exact Safe.ofExcept fun _ _ => trivial
    · exact seqRequire fun hphase =>
        bind _ (persistBackendAuthority (Or.inr (h.idle (Or.inl hphase)))) fun _ _ _ => trivial

theorem activateRocksBackend (around : Surroundings) (sourcePath : String) :
    SafeMaintenance (activateRocksBackend codec around sourcePath) (fun _ _ => True) s := by
  refine seqOfExcept fun _ _ => bind _ getBackendAuthority fun authority _ _ =>
    seqRequire fun _ => bind _ (getMigrationStatus _) fun status _ h => ?_
  cases authority with
  | some existing => exact Safe.ofExcept fun _ _ => trivial
  | none => exact activateUnowned h _ _ _

/-- Whoever gets past a claim leaves SQLite as the owner. -/
theorem claimSelection {authority : Option BackendAuthority}
    (hauthority : ∀ a, authority = some a → s.OwnedBySqlite) (h : ReadAs status s)
    (configuredSource : String) (now : Nat) :
    SafeMaintenance (claimSelection authority status configuredSource now)
      (fun _ t => t.OwnedBySqlite) s := by
  cases authority with
  | some existing =>
    unfold ContextStore.claimSelection
    dsimp only
    split
    · trivial
    · exact hauthority existing rfl
  | none =>
    refine seqRequire fun hphase => seqRequire fun _ =>
      bind _ (persistBackendAuthority (Or.inr (h.idle ?_))) fun selected _ hselected => ?_
    · exact hphase.imp id phaseOf_verifiedOfflineReady
    · exact ⟨selected, hselected.1, by simp [BackendAuthority.isSqlite, hselected.2]⟩

end SafeMaintenance

/-- SQLite is acknowledged: it owns the archive, so no document has been admitted. -/
theorem CutoverInv.acknowledge {u : World} (hu : CutoverInv u) (h : u.OwnedBySqlite) :
    CutoverInv (u.emit .sqliteClaimed) := by
  have hunadmitted : ∀ e ∈ u.history, e.isAdmission = false := by
    intro e he
    cases hadm : e.isAdmission with
    | false => rfl
    | true => exact absurd h (hu.admitted ⟨e, he, hadm⟩).not_sqlite
  have hclaimed : claimState (u.emit .sqliteClaimed).history = .claimed := by
    rw [World.history_emit, claimState_append]
    cases claimState u.history <;> rfl
  refine ⟨hu.sealed, fun _ => h, fun hc => ?_, ?_, hu.oneSource,
    hu.respects.snoc (fun hadm => by cases hadm) fun _ => hunadmitted⟩
  · rw [hclaimed] at hc
    cases hc
  · rintro ⟨e, he, hadm⟩
    rcases List.mem_append.mp he with he | he
    · rw [hunadmitted e he] at hadm
      cases hadm
    · rw [List.mem_singleton.mp he] at hadm
      cases hadm

theorem SafeMaintenance.claimSqliteBackend {s : World} (around : Surroundings)
    (sourcePath : String) :
    SafeMaintenance (claimSqliteBackend codec around sourcePath) (fun _ _ => True) s := by
  refine seqOfExcept fun _ _ => bind (fun authority t => t.backendAuthority = authority)
    getBackendAuthority fun authority t hstored => ?_
  have hsettled : Settled fun w => ∀ a, authority = some a → w.backendAuthority = some a :=
    fun u v h hleaves a ha => hleaves.authority a (h a ha)
  refine bind (fun status v => ReadAs status v ∧ ∀ a, authority = some a →
      v.backendAuthority = some a)
    (read fun u hleaves hinv => ⟨readAs hinv _, hsettled _ _ (fun a ha => hstored.trans ha) hleaves⟩)
    fun status v h => seqRequire fun hrequired => ?_
  refine bind _ (claimSelection (fun a ha => ?_) h.1 _ _) fun selection w hsqlite =>
    bind (fun _ _ => True) (fun u hleaves hinv _ => ⟨hinv.acknowledge ?_, ?_, trivial⟩)
      fun _ _ _ => trivial
  · subst ha
    rcases World.owned_cases (h.2 a rfl) with ⟨b, hb, hrocksdb⟩ | hsqlite
    · obtain rfl := Option.some.inj ((h.2 a rfl).symm.trans hb)
      have := hrequired.1
      simp [hrocksdb] at this
    · exact hsqlite
  · exact settled_owned _ _ _ hsqlite hleaves
  · exact guar_maintenance fun _ ha _ => ha

/-! ## Admissions -/

/-- The rest of an admission is safe from `s` on. -/
def SafeAdmission (n : Nat) (p : Prog α) (q : α → World → Prop) (s : World) : Prop :=
  Safe World.TracksOneSource CutoverInv KeepsRocksdb (cutoverDiscipline.guar (.admission n)) p
    (OnOk q) s

/-- What makes a commit through the gate right: RocksDB already owns the archive, or the commit
    takes it over and is refused unless no copy is under way. -/
inductive GateSound (gate : AdmissionGate) (w : World) : Prop
  | owned (h : w.OwnedByRocksdb)
  | taking (a : BackendAuthority) (hmem : authorityTransition a ∈ gate.transitions)
      (hready : .migration .status ∈ gate.mustBeAbsent ∨
        ∃ status : MigrationStatus, status.phase = .offlineReady ∧
          (⟨.migration .status, status⟩ : Entry) ∈ gate.mustMatch)

/-- The gate's transitions claim the authority for RocksDB, or seal it. -/
def AdmissionGate.Claims (gate : AdmissionGate) : Prop :=
  ∀ transition ∈ gate.transitions, (∃ a, a.isRocksdb = true ∧ transition = authorityTransition a) ∨
      ∃ authorityWrite db, transition = sealTransition authorityWrite db

theorem stored_of_offlineReady {w : World} {files : Files} {status : MigrationStatus}
    (h : readMigrationStatus codec files w = some status) (hphase : status.phase = .offlineReady) :
    ∃ stored, w.migrationStatus = some stored ∧ stored.phase = .offlineReady := by
  obtain ⟨stored, hstored, hread⟩ := Option.map_eq_some_iff.mp h
  refine ⟨stored, hstored, ?_⟩
  subst hread
  split at hphase
  · cases hphase
  · unfold unsealedStatus at hphase
    split at hphase
    · cases hphase
    · dsimp only at hphase
      split at hphase
      · cases hphase
      · exact hphase

theorem gateSound {w : World} (hw : CutoverInv w) {files : Files} {state : GateState}
    (hstate : readGateState codec files w = .ok state) {requestId documentId : String} {now : Nat}
    {gate : AdmissionGate} (hgate : admissionGate state requestId documentId now = .ok gate) :
    GateSound gate w ∧ gate.Claims := by
  obtain ⟨authority, hauthority, heq⟩ := bind_ok_iff.mp hstate
  obtain rfl := backendAuthorityRecord_eq_ok hauthority
  cases heq
  unfold admissionGate at hgate
  dsimp only at hgate
  split at hgate
  · cases hgate
  have hrocksdb : ∀ {a}, (w.get (.migration .backendAuthority)).filter (·.isRocksdb) = some a →
      w.OwnedByRocksdb ∧ a.isRocksdb = true := by
    intro a ha
    obtain ⟨hget, hr⟩ := Option.filter_eq_some_iff.mp ha
    exact ⟨⟨a, hget, hr⟩, hr⟩
  split at hgate
  · cases hgate
    unfold directGate
    split
    · next a ha =>
      refine ⟨.owned (hrocksdb ha).1, fun transition hmem => ?_⟩
      dsimp only at hmem
      split at hmem
      · exact Or.inl ⟨a, (hrocksdb ha).2, List.mem_singleton.mp hmem⟩
      · cases hmem
    · refine ⟨.taking _ List.mem_cons_self (Or.inl List.mem_cons_self), fun transition hmem =>
        Or.inl ⟨_, ?_, List.mem_singleton.mp hmem⟩⟩
      rfl
  · next status hstatus =>
    split at hgate
    · next hphase =>
      cases hgate
      have howned : w.OwnedByRocksdb :=
        (@readAs codec w hw files).sealed (by rw [hstatus]; exact hphase)
      refine ⟨.owned howned, fun transition hmem => ?_⟩
      unfold sealedGate at hmem
      split at hmem
      · rcases List.mem_cons.mp hmem with rfl | hmem
        · exact Or.inr ⟨_, _, rfl⟩
        · obtain ⟨a, ha, rfl⟩ := List.mem_map.mp hmem
          exact Or.inl ⟨a, (hrocksdb (Option.mem_toList.mp ha)).2, rfl⟩
      · cases hmem
    · split at hgate
      · cases hgate
      · next hready =>
        simp only [ne_eq, not_or, not_not] at hready
        obtain ⟨stored, hstored, hphase⟩ := stored_of_offlineReady hstatus hready.1
        unfold sealingGate at hgate
        split at hgate
        · next hpersisted _ =>
          cases hgate
          obtain rfl := Option.some.inj (hstored.symm.trans hpersisted)
          refine ⟨.taking _ (List.mem_cons_of_mem _ List.mem_cons_self)
            (Or.inr ⟨stored, hphase, List.mem_cons_self⟩), fun transition hmem => ?_⟩
          rcases List.mem_cons.mp hmem with rfl | hmem
          · exact Or.inr ⟨_, _, rfl⟩
          · refine Or.inl ⟨_, ?_, List.mem_singleton.mp hmem⟩
            rfl
        · cases hgate

/-! ### Commits through the gate -/

theorem DocumentKey.ne_migration {k : Key} (h : DocumentKey k) (key : MigrationKey) :
    k ≠ .migration key := by
  rintro rfl
  cases h

theorem ordinary_events (prepared : PreparedAdmission) :
    ∀ e ∈ prepared.events, e.isOrdinary = true := by
  intro e he
  rcases List.mem_cons.mp he with rfl | he
  · rfl
  · obtain ⟨marker, _, rfl⟩ := List.mem_map.mp he
    rfl

section Gated

variable {prepared : PreparedAdmission} {gate : AdmissionGate} {commit : PreparedCommit}
  {committedAt : Nat} {events : List Event} {u t : World} {result : CommitResult}

theorem names_gated (hsubject : prepared.state.SubjectOnly) (hclaims : gate.Claims)
    (hcommit : prepareCommit codec.toCommitCodec (gatedCommit prepared gate) = .ok commit) {k : Key}
    (hk : commit.Names k) : ((∃ guard, k = .guard guard) ∨ DocumentKey k) ∨
      ((∃ transition ∈ commit.transitions, transition.key = .migration .backendAuthority ∧
          transition.previous.isNone) ∧ k = .migration .backendAuthority) ∨
        ∃ db, k = .migration (.authority db) := by
  obtain ⟨-, -, htransitions, -⟩ := prepareCommit_eq_ok _ hcommit
  rcases (names_of_prepareCommit _ hcommit k).mp hk with hguard | hrecord | ⟨transition, hmem, rfl⟩
  · exact Or.inl (PreparedAdmission.names_commit hsubject (Or.inl hguard))
  · exact Or.inl (PreparedAdmission.names_commit hsubject (Or.inr (Or.inl hrecord)))
  · have hprepared : transition ∈ commit.transitions := by
      rw [htransitions]
      exact (mem_sortTransitions _).mpr hmem
    rcases List.mem_append.mp hmem with hmem | hmem
    · exact Or.inl (PreparedAdmission.names_commit hsubject
        (Or.inr (Or.inr ⟨transition, hmem, rfl⟩)))
    · rcases hclaims transition hmem with ⟨a, _, rfl⟩ | ⟨_, db, rfl⟩
      · exact Or.inr (Or.inl ⟨⟨_, hprepared, rfl, rfl⟩, rfl⟩)
      · exact Or.inr (Or.inr ⟨db, rfl⟩)

theorem ordinary_gated (hsubject : prepared.state.SubjectOnly) (hclaims : gate.Claims)
    (hcommit : prepareCommit codec.toCommitCodec (gatedCommit prepared gate) = .ok commit) :
    commit.Ordinary := by
  intro k hk
  rcases names_gated hsubject hclaims hcommit hk with
    (⟨_, rfl⟩ | hdocument) | ⟨_, rfl⟩ | ⟨_, rfl⟩
  · rfl
  · exact hdocument.storeOwned
  · rfl
  · rfl

variable {a : BackendAuthority}

/-- Under an owner the gate's commit does not touch the authority: its transition would need that
    there is none. -/
theorem authority_of_owned (hsubject : prepared.state.SubjectOnly) (hclaims : gate.Claims)
    (hcommit : prepareCommit codec.toCommitCodec (gatedCommit prepared gate) = .ok commit)
    (h : Commits commit committedAt events u t result) (ha : u.backendAuthority = some a) :
    t.backendAuthority = some a := by
  rw [World.backendAuthority, h.frame rfl fun hnames => ?_]
  · exact ha
  · rcases names_gated hsubject hclaims hcommit hnames with
      (⟨_, heq⟩ | hdocument) | ⟨⟨transition, hmem, hkey, hprevious⟩, -⟩ | ⟨_, heq⟩
    · cases heq
    · exact hdocument.ne_migration _ rfl
    · have hget := h.preconditions.previous transition hmem
      obtain ⟨key, previous, next⟩ := transition
      subst hkey
      dsimp only at hget hprevious
      rw [World.backendAuthority] at ha
      rw [← hget, ha] at hprevious
      cases hprevious
    · cases heq

/-- A commit that takes the archive over leaves RocksDB as its owner. -/
theorem owned_of_taking (hsubject : prepared.state.SubjectOnly) (hclaims : gate.Claims)
    (hcommit : prepareCommit codec.toCommitCodec (gatedCommit prepared gate) = .ok commit)
    (h : Commits commit committedAt events u t result)
    (ha : authorityTransition a ∈ gate.transitions) : t.OwnedByRocksdb := by
  obtain ⟨-, -, htransitions, -⟩ := prepareCommit_eq_ok _ hcommit
  have hmem : authorityTransition a ∈ commit.transitions := by
    rw [htransitions]
    exact (mem_sortTransitions _).mpr (List.mem_append_right _ ha)
  obtain ⟨v, hv, hget⟩ := h.get_transition hmem rfl
  obtain ⟨transition, htransition, heq⟩ := List.mem_map.mp hv
  rw [htransitions, mem_sortTransitions] at htransition
  have hkey : transition.key = .migration .backendAuthority := congrArg Sigma.fst heq
  rcases List.mem_append.mp htransition with hdocument | hgate
  · exact absurd hkey
      ((PreparedAdmission.transitions_documentKey hsubject _ hdocument).ne_migration _)
  · rcases hclaims transition hgate with ⟨b, hb, rfl⟩ | ⟨_, _, rfl⟩
    · cases heq
      exact ⟨b, hget, hb⟩
    · cases hkey

/-- A commit that takes the archive over finds no owner and no copy under way. -/
theorem unowned_of_taking
    (hcommit : prepareCommit codec.toCommitCodec (gatedCommit prepared gate) = .ok commit)
    (h : Commits commit committedAt events u t result)
    (ha : authorityTransition a ∈ gate.transitions)
    (hready : .migration .status ∈ gate.mustBeAbsent ∨
      ∃ status : MigrationStatus, status.phase = .offlineReady ∧
        (⟨.migration .status, status⟩ : Entry) ∈ gate.mustMatch) :
    u.backendAuthority = none ∧ ¬ u.Copying := by
  obtain ⟨-, -, htransitions, -, habsent, hmatching, -⟩ := prepareCommit_eq_ok _ hcommit
  constructor
  · have hmem : authorityTransition a ∈ commit.transitions := by
      rw [htransitions]
      exact (mem_sortTransitions _).mpr (List.mem_append_right _ ha)
    exact h.preconditions.previous _ hmem
  · rintro ⟨status, hstatus, hphase⟩
    rcases hready with hmem | ⟨ready, hready, hmem⟩
    · have hnone := h.preconditions.absent (.migration .status) (by
        rw [habsent]
        exact (mem_sortKeys _).mpr (List.mem_append_right _ hmem))
      rw [World.migrationStatus, hnone] at hstatus
      cases hstatus
    · have hsome := h.preconditions.matching ⟨.migration .status, ready⟩ (by
        rw [hmatching]
        exact (mem_sortEntries _).mpr (List.mem_append_right _ hmem))
      obtain rfl := Option.some.inj (hsome.symm.trans hstatus)
      rw [hready] at hphase
      simp at hphase

/-- An admission through the gate takes effect under an authority of RocksDB, with no claim of
    SQLite in force, and leaves the migration alone. -/
theorem gated_commit_ok (hsubject : prepared.state.SubjectOnly) (hclaims : gate.Claims)
    (hcommit : prepareCommit codec.toCommitCodec (gatedCommit prepared gate) = .ok commit)
    (hu : CutoverInv u) (hgate : GateSound gate u ∨ u.OwnedByRocksdb)
    (h : Commits commit committedAt prepared.events u t result) :
    CutoverInv t ∧ LeavesMigration u t := by
  have howned : t.OwnedByRocksdb ∧ claimState u.history = .free := by
    rcases hgate with (howned | ⟨a, hmem, hready⟩) | howned
    on_goal 2 =>
      obtain ⟨hnone, hidle⟩ := unowned_of_taking hcommit h hmem hready
      refine ⟨owned_of_taking hsubject hclaims hcommit h hmem, ?_⟩
      cases hc : claimState u.history with
      | free => rfl
      | claimed =>
        obtain ⟨b, hb, _⟩ := hu.claimed hc
        rw [hnone] at hb
        cases hb
      | cleared => exact absurd (hu.cleared hc).copying hidle
    all_goals
      obtain ⟨a, ha, hrocksdb⟩ := howned
      refine ⟨⟨a, authority_of_owned hsubject hclaims hcommit h ha, hrocksdb⟩, ?_⟩
      cases hc : claimState u.history with
      | free => rfl
      | claimed => exact absurd (hu.claimed hc) (World.OwnedByRocksdb.not_sqlite ⟨a, ha, hrocksdb⟩)
      | cleared =>
        have hnone := (hu.cleared hc).unowned
        rw [ha] at hnone
        cases hnone
  have hframe : ∀ key, (∀ db, key ≠ .authority db) → key ≠ .backendAuthority →
      t.get (.migration key) = u.get (.migration key) := by
    intro key hseal hauthority
    refine h.frame rfl fun hnames => ?_
    rcases names_gated hsubject hclaims hcommit hnames with
      (⟨_, heq⟩ | hdocument) | ⟨_, heq⟩ | ⟨db, heq⟩
    · cases heq
    · exact hdocument.ne_migration _ rfl
    · exact hauthority (Key.migration.inj heq)
    · exact hseal db (Key.migration.inj heq)
  have hcheckpoint : ∀ db, t.checkpointOf db = u.checkpointOf db :=
    fun db => hframe _ (by simp) (by simp)
  have hordinary : ∀ e ∈ (.committed commit.content (commit.derivedView.map (·.identity)) result ::
      prepared.events : List Event), e.isOrdinary = true :=
    List.forall_mem_cons.mpr ⟨rfl, ordinary_events prepared⟩
  have hclaimsSame : claimState t.history = claimState u.history := by
    rw [h.history]
    exact claimState_ordinary hordinary _
  refine ⟨⟨fun _ _ _ => howned.1, fun hc => ?_, fun hc => ?_, fun _ => howned.1,
    fun a b cp cp' ha hb => hu.oneSource a b cp cp' ((hcheckpoint a).symm.trans ha)
      ((hcheckpoint b).symm.trans hb), ?_⟩, ⟨hframe _ (by simp) (by simp), hcheckpoint,
    fun a ha => authority_of_owned hsubject hclaims hcommit h ha, hclaimsSame⟩⟩
  · rw [hclaimsSame, howned.2] at hc
    cases hc
  · rw [hclaimsSame, howned.2] at hc
    cases hc
  · rw [h.history]
    exact hu.respects.append hordinary fun _ => howned.2

end Gated

end ContextStore
