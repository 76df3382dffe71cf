import ContextStore.Migration.CopyProgress

/-! # Runs of the offline copy

A copy is alone in its exclusive section and sees the same source throughout. Every transaction it
makes keeps what the stored checkpoint promises, so whatever interrupts it, the next copy finds a
checkpoint it can trust. -/

namespace ContextStore

open Concurrent KeyValue

variable (codec : MigrationCodec) (source : SqliteSource)

/-! ## The system -/

/-- A destination on which no migration has begun. Whatever was committed was counted. -/
structure Unmigrated (w : World) : Prop where
  migration : ∀ key, key ≠ .backendAuthority → w.get (.migration key) = none
  requests : acknowledgedWrites w = 0 → ∀ requestId, w.get (.idempotency requestId) = none

/-- Whatever archive the call finds is the source. -/
def Surroundings.SeesOnly (around : Surroundings) : Prop :=
  ∀ look path found, (around.files look).openArchive path = some found → found = source

/-- Copies of one source, one after the other: each is interrupted or runs to its end, with
    whatever options and faults. -/
def copySystem : System World Unit StoreError MigrationStatus where
  initial := Unmigrated
  calls _ _ p := ∃ around options, around.SeesOnly source ∧ p = startMigration codec around options
  allowed _ := True

/-- The destination as it was, or with a checkpoint that keeps its promise. -/
def CopyInv (w : World) : Prop :=
  Unmigrated w ∨ ∃ cp, w.get (.migration (.checkpoint (source.databaseId codec))) = some cp ∧
    Progress codec source cp w

/-- Nothing happens beside a copy. -/
def copyDiscipline : Discipline World Unit where
  inv := CopyInv codec source
  promise _ _ := True
  rely _ u v := u = v
  promise_refl _ := trivial
  rely_refl _ _ := rfl
  rely_trans _ _ _ _ h h' := h.trans h'

theorem guar_copy (u v : World) : (copyDiscipline codec source).guar () u v :=
  ⟨trivial, fun _ h => absurd rfl h⟩

variable {α β : Type}

/-- The rest of a copy is safe from `s` on. -/
def SafeCopy (p : Prog α) (post : Except StoreError α → World → Prop) (s : World) : Prop :=
  Safe (fun _ => True) (CopyInv codec source) Eq ((copyDiscipline codec source).guar ()) p post s

variable {codec source} {s : World}

namespace SafeCopy

theorem read {f : World → α} {q : α → World → Prop} (h : q (f s) s) :
    SafeCopy codec source (Program.read f) (OnOk q) s :=
  Safe.read (fun u => guar_copy codec source u u) fun u hu _ => by
    subst hu
    exact h

/-- A transaction that leaves a checkpoint which keeps its promise. -/
theorem transaction {body : Txn α} {post : Except StoreError α → World → Prop}
    (hok : ∀ a t, body.run s = .ok (a, t) → CopyInv codec source t ∧ post (.ok a) t)
    (herr : ∀ e, body.run s = .error e → post (.error e) s) :
    SafeCopy codec source (Program.transaction body) post s := by
  refine Safe.transaction (fun u => guar_copy codec source u u) (fun u a t hu _ _ hrun => ?_)
    fun u e hu _ hrun => ?_
  · subst hu
    obtain ⟨hinv, hpost⟩ := hok a t hrun
    exact ⟨hinv, guar_copy codec source _ _, hpost⟩
  · subst hu
    exact herr e hrun

theorem bind {p : Prog α} {f : α → Prog β} {q : β → World → Prop} (mid : α → World → Prop)
    (h : SafeCopy codec source p (OnOk mid) s)
    (hf : ∀ a t, mid a t → SafeCopy codec source (f a) (OnOk q) t) :
    SafeCopy codec source (p.bind f) (OnOk q) s :=
  Safe.seq mid h hf

theorem throwIf {q : World → Prop} (h : q s) (error : Option StoreError) :
    SafeCopy codec source (throwIf error) (OnOk fun _ t => q t) s := by
  cases error with
  | none => exact h
  | some _ => trivial

end SafeCopy

/-! ## Writing the state -/

/-- Writing the state changes the checkpoint, and nothing that decides about the progress. -/
theorem run_writeState_progress {cp : Checkpoint} {status : MigrationStatus} {events : List Event}
    {u t : World} {a : Unit} (h : (writeState cp status events).run u = .ok (a, t)) :
    t.get (.migration (.checkpoint cp.sourceDatabaseId)) = some cp ∧
      ∀ k, ProgressKey k → t.get k = u.get k := by
  simp only [writeState, Transaction.run_bind_eq_ok, Txn.run_put_eq_ok, Prod.mk.injEq] at h
  obtain ⟨_, _, ⟨_, rfl⟩, _, _, ⟨_, rfl⟩, hemit⟩ := h
  obtain ⟨hget, -, -⟩ := run_forEach_emit_ok hemit
  refine ⟨(hget _).trans ?_, fun k hk => (hget k).trans ?_⟩
  · rw [World.get_put_of_ne (by simp)]
    exact World.get_put_self _ _ _
  · rcases hk with (⟨_, rfl⟩ | ⟨_, rfl⟩ | ⟨_, _, rfl⟩) | ⟨_, _, rfl⟩ <;>
      rw [World.get_put_of_ne (by simp), World.get_put_of_ne (by simp)]

theorem run_clearSqliteClaim_progress {u t : World} {a : Unit}
    (h : clearSqliteClaim.run u = .ok (a, t)) : ∀ k, ProgressKey k → t.get k = u.get k := by
  simp only [clearSqliteClaim, Transaction.run_bind_eq_ok, Txn.run_get_eq_ok,
    Transaction.run_ofExcept_eq_ok, Prod.mk.injEq, Transaction.run_ite] at h
  obtain ⟨_, _, ⟨rfl, rfl⟩, authority, v, ⟨_, rfl⟩, h⟩ := h
  intro k hk
  split at h
  · simp only [Transaction.run_bind_eq_ok, Txn.run_remove_eq_ok, Txn.run_emit_eq_ok,
      Prod.mk.injEq] at h
    obtain ⟨_, _, ⟨_, rfl⟩, _, rfl⟩ := h
    rw [World.get_emit]
    rcases hk with (⟨_, rfl⟩ | ⟨_, rfl⟩ | ⟨_, _, rfl⟩) | ⟨_, _, rfl⟩ <;>
      exact World.get_remove_of_ne (by simp) _
  · obtain ⟨_, rfl⟩ := Prod.mk.inj (Transaction.run_pure_eq_ok.mp h)
    rfl

/-- A checkpoint with a promise that the written state keeps may be persisted. -/
theorem SafeCopy.persist {cp : Checkpoint} {status : MigrationStatus} {clear : Bool}
    {events : List Event}
    (h : ∀ t, (∀ k, ProgressKey k → t.get k = s.get k) → Progress codec source cp t) :
    SafeCopy codec source (persistState cp status clear events) (OnOk fun _ t =>
      t.get (.migration (.checkpoint (source.databaseId codec))) = some cp ∧
        Progress codec source cp t) s := by
  refine SafeCopy.transaction (fun a t hrun => ?_) fun _ _ => trivial
  have hsteps : ∃ v, (∀ k, ProgressKey k → v.get k = s.get k) ∧
      (writeState cp status events).run v = .ok (a, t) := by
    cases clear with
    | true =>
      obtain ⟨_, v, hclear, hwrite⟩ := Transaction.run_bind_eq_ok.mp hrun
      exact ⟨v, run_clearSqliteClaim_progress hclear, hwrite⟩
    | false => exact ⟨s, fun _ _ => rfl, hrun⟩
  obtain ⟨v, hcleared, hwrite⟩ := hsteps
  obtain ⟨hstored, hframe⟩ := run_writeState_progress hwrite
  have hprogress := h t fun k hk => (hframe k hk).trans (hcleared k hk)
  rw [hprogress.database] at hstored
  exact ⟨Or.inr ⟨cp, hstored, hprogress⟩, hstored, hprogress⟩

/-! ## A copy under way -/

variable (codec source) in
/-- Where a copy stands: its state is what is stored, and the rows up to `through` are copied. -/
structure AtCopy (stable through : Nat) (state : CopyState) (w : World) : Prop where
  stored : w.get (.migration (.checkpoint (source.databaseId codec))) = some state.checkpoint
  progress : Progress codec source state.checkpoint w
  incomplete : state.checkpoint.completed = false
  stable : state.checkpoint.lastStableSourceOrderingKey = stable
  copied : ∀ row ∈ source.rows, row.sourceOrderingKey ≤ through → Copied codec source w row
  status : state.status.checkpoint = state.checkpoint
  phase : state.status.phase = .offlineCopy

variable {stable through : Nat} {state : CopyState} {row : SourceRow}

theorem AtCopy.inv {w : World} (h : AtCopy codec source stable through state w) :
    CopyInv codec source w :=
  Or.inr ⟨_, h.stored, h.progress⟩

/-- The commit of a row leaves the copy where it stands. -/
theorem AtCopy.takesEffect {u t : World} (h : AtCopy codec source stable through state u)
    (hrow : row ∈ source.rows) {migrated : MigratedDocument}
    (hprepared : prepareMigratedDocument codec row (source.info codec true)
      state.checkpoint.retentionStartedAt = .ok migrated)
    (heffect : migrated.TakesEffect u t) :
    AtCopy codec source stable through state t ∧ Copied codec source t row := by
  have hcopied := copied_of_takesEffect hprepared heffect
  have hmore : ∀ other, Copied codec source u other → Copied codec source t other :=
    fun other hc => (hcopied other).mpr (Or.inl hc)
  have hcheckpoint := heffect.migration (.checkpoint (source.databaseId codec)) nofun
  have hfailure := fun n =>
    heffect.migration (.failure state.checkpoint.sourceDatabaseId n) nofun
  refine ⟨⟨hcheckpoint.trans h.stored, ⟨h.progress.database,
    h.progress.holds.takesEffect hrow hprepared heffect,
    fun other hmem hle => hmore other (h.progress.stable other hmem hle), h.progress.migrated,
    h.progress.failed.of_frame hfailure, fun hdone => ?_⟩, h.incomplete, h.stable,
    fun other hmem hle => hmore other (h.copied other hmem hle), h.status, h.phase⟩,
    (hcopied row).mpr (Or.inr rfl)⟩
  rw [h.incomplete] at hdone
  cases hdone

namespace SafeCopy

/-- A row is committed, or the attempt is rejected; either way the copy stands where it stood. -/
theorem migrateRow (options : CopyOptions) (h : AtCopy codec source stable through state s)
    (hrow : row ∈ source.rows) (committedAt : Nat) :
    SafeCopy codec source (migrateRow codec options (source.info codec true) row
        state.checkpoint.retentionStartedAt committedAt)
      (fun r t => AtCopy codec source stable through state t ∧
        OnOk (fun _ t => Copied codec source t row) r t) s := by
  refine Safe.bind ?_
  cases hprepared : prepareMigratedDocument codec row (source.info codec true)
      state.checkpoint.retentionStartedAt with
  | error e => exact ⟨h, trivial⟩
  | ok migrated =>
    refine Safe.bind ?_
    cases options.commitFault row with
    | some e => exact ⟨h, trivial⟩
    | none =>
      refine Safe.bind (Safe.bind ?_)
      cases hcommit : prepareCommit codec.toCommitCodec (migrated.commit codec) with
      | error e => exact ⟨h, trivial⟩
      | ok prepared =>
        refine SafeCopy.transaction (fun result t hrun => ?_) fun e _ => ⟨h, trivial⟩
        obtain ⟨_, _, _, _, hid, _, hstate⟩ := prepareMigratedDocument_eq_ok hprepared
        have hcommitted : AtCopy codec source stable through state t ∧
            Copied codec source t row := by
          rcases MigratedDocument.run_commit_ok hstate hcommit hrun with
            ⟨hmarked, rfl⟩ | heffect
          · rw [hid] at hmarked
            exact ⟨h, hmarked⟩
          · exact h.takesEffect hrow hprepared heffect
        refine ⟨hcommitted.1.inv, ?_⟩
        refine Safe.bind ?_
        cases migrationSourceBytes row with
        | error e => exact ⟨hcommitted.1, trivial⟩
        | ok bytes =>
          change SafeCopy codec source (ContextStore.throwIf _) _ t
          unfold ContextStore.throwIf
          split
          · exact hcommitted
          · exact ⟨hcommitted.1, trivial⟩

end SafeCopy

theorem imageKey_ne_failure {k : Key} (h : ImageKey k) (db : String) (n : Nat) :
    k ≠ .migration (.failure db n) := by
  rcases h with ⟨_, rfl⟩ | ⟨_, rfl⟩ | ⟨_, _, rfl⟩ <;> nofun

/-- What the two transactions about a failure share: the failure is written or removed, and then
    the state. -/
theorem AtCopy.writeFailure {u v t : World} (h : AtCopy codec source stable through state u)
    {next : CopyState} {a : Unit}
    (hfailure : ∀ k, ImageKey k → v.get k = u.get k)
    (hfailed : CountsFailures state.checkpoint.sourceDatabaseId next.checkpoint.failedCount v)
    (hwrite : (writeState next.checkpoint next.status []).run v = .ok (a, t))
    (hnext : ∃ count now phase, next = .ofCheckpoint
      { state.checkpoint with failedCount := count, updatedAt := now } phase
      state.status.comparisonFailures) :
    t.get (.migration (.checkpoint (source.databaseId codec))) = some next.checkpoint ∧
      Progress codec source next.checkpoint t ∧ ∀ k, ImageKey k → t.get k = u.get k := by
  obtain ⟨count, now, phase, rfl⟩ := hnext
  obtain ⟨hstored, hframe⟩ := run_writeState_progress hwrite
  have himage : ∀ k, ImageKey k → t.get k = u.get k :=
    fun k hk => (hframe k (Or.inl hk)).trans (hfailure k hk)
  have hprogress : Progress codec source
      { state.checkpoint with failedCount := count, updatedAt := now } t := by
    refine h.progress.of_frame himage
      (hfailed.of_frame fun n => hframe _ (Or.inr ⟨_, n, rfl⟩)) h.progress.database rfl rfl rfl
      fun hdone => ?_
    have hdone' : state.checkpoint.completed = true := hdone
    rw [h.incomplete] at hdone'
    cases hdone'
  refine ⟨?_, hprogress, himage⟩
  rw [← h.progress.database]
  exact hstored

namespace SafeCopy

/-- A failed row leaves a checkpoint that keeps its promise, and the copy is rejected. -/
theorem blockOnFailure (h : AtCopy codec source stable through state s) (row : SourceRow)
    (error : StoreError) (clock : Nat → Nat) {q : Unit → World → Prop} :
    SafeCopy codec source (blockOnFailure state row error clock) (OnOk q) s := by
  refine bind (fun previous u => u = s ∧
    previous = s.get (.migration (failureKey state.checkpoint row))) (read ⟨rfl, rfl⟩)
    fun previous u hread => ?_
  obtain ⟨rfl, rfl⟩ := hread
  refine bind (fun _ _ => True) (transaction (fun a t hrun => ?_) fun _ _ => trivial)
    fun _ _ _ => trivial
  obtain ⟨_, v, hput, hwrite⟩ := Transaction.run_bind_eq_ok.mp hrun
  obtain ⟨_, rfl⟩ := Prod.mk.inj (Txn.run_put_eq_ok.mp hput)
  have hwritten := h.writeFailure
    (fun k hk => World.get_put_of_ne (imageKey_ne_failure hk _ _) _ _)
    (h.progress.failed.record row.sourceOrderingKey rfl) hwrite
    ⟨_, _, .blocked, rfl⟩
  exact ⟨Or.inr ⟨_, hwritten.1, hwritten.2.1⟩, trivial⟩

/-- A row that got through is no longer counted as a failure. -/
theorem resolveFailure (h : AtCopy codec source stable through state s) (row : SourceRow)
    (now : Nat) :
    SafeCopy codec source (resolveFailure state row now)
      (OnOk fun state' t => AtCopy codec source stable through state' t ∧
        ∀ other, Copied codec source s other → Copied codec source t other) s := by
  refine bind (fun previous u => u = s ∧
    previous = s.get (.migration (failureKey state.checkpoint row))) (read ⟨rfl, rfl⟩)
    fun previous u hread => ?_
  obtain ⟨rfl, rfl⟩ := hread
  split
  · next hpending =>
    refine bind (fun _ t => AtCopy codec source stable through (resolvedState state now) t ∧
      ∀ other, Copied codec source u other → Copied codec source t other)
      (transaction (fun a t hrun => ?_) fun _ _ => trivial) fun _ _ hdone => hdone
    obtain ⟨_, v, hremove, hwrite⟩ := Transaction.run_bind_eq_ok.mp hrun
    obtain ⟨_, rfl⟩ := Prod.mk.inj (Txn.run_remove_eq_ok.mp hremove)
    obtain ⟨hstored, hprogress, himage⟩ := h.writeFailure
      (fun k hk => World.get_remove_of_ne (imageKey_ne_failure hk _ _) _)
      (h.progress.failed.resolve hpending) hwrite
      ⟨_, now, .offlineCopy, rfl⟩
    have hcopied : ∀ other, Copied codec source t other ↔ Copied codec source u other :=
      fun other => copied_congr himage
    exact ⟨Or.inr ⟨_, hstored, hprogress⟩, ⟨hstored, hprogress, h.incomplete, h.stable,
      fun other hmem hle => (hcopied other).mpr (h.copied other hmem hle), rfl, rfl⟩,
      fun other => (hcopied other).mpr⟩
  · exact ⟨h, fun _ hc => hc⟩

/-- The next row is copied, and a failure of it is resolved. -/
theorem copyRow (around : Surroundings) (options : CopyOptions) {rest : List SourceRow}
    (h : AtCopy codec source stable through state s)
    (hnext : source.rowsAfter through = row :: rest) :
    SafeCopy codec source (copyRow codec around options (source.info codec true) state row)
      (OnOk fun state' t => AtCopy codec source stable row.sourceOrderingKey state' t) s := by
  have hrow : row ∈ source.rows :=
    List.mem_of_mem_filter (hnext ▸ List.mem_cons_self : row ∈ source.rowsAfter through)
  -- a row up to this one is up to the one before it, or this one
  have hbetween : ∀ other ∈ source.rows, other.sourceOrderingKey ≤ row.sourceOrderingKey →
      other.sourceOrderingKey ≤ through ∨ other = row := by
    intro other hmem hle
    by_cases hthrough : other.sourceOrderingKey ≤ through
    · exact Or.inl hthrough
    · have hafter : other ∈ source.rowsAfter through :=
        List.mem_filter.mpr ⟨hmem, by simpa using hthrough⟩
      rw [hnext] at hafter
      refine Or.inr ((List.mem_cons.mp hafter).resolve_right fun hrest => ?_)
      have hbehind : other ∈ source.rowsAfter row.sourceOrderingKey := by
        rw [SqliteSource.rowsAfter_next hnext]
        exact hrest
      have hlt := (List.mem_filter.mp hbehind).2
      simp only [decide_eq_true_eq] at hlt
      omega
  refine bind (fun _ t => AtCopy codec source stable through state t ∧ Copied codec source t row)
    ?_ fun _ t ht => ?_
  · refine Safe.tryCatch (Safe.weaken (migrateRow options h hrow _) fun r t hr => ?_)
    cases r with
    | ok _ => exact hr
    | error e => exact blockOnFailure hr.1 row e _
  · refine bind _ (resolveFailure ht.1 row _) fun state' u hu => ?_
    have hcopied := hu.2 row ht.2
    have hat : AtCopy codec source stable row.sourceOrderingKey state' u := {
      hu.1 with
      copied := fun other hmem hle => (hbetween other hmem hle).elim
        (hu.1.copied other hmem) fun heq => heq ▸ hcopied }
    exact bind _ (throwIf hat _) fun _ _ hat => hat

/-- The rows of a batch are the next ones, as many as it takes. -/
theorem copyRows (around : Surroundings) (options : CopyOptions) (limit : Nat)
    (h : AtCopy codec source stable through state s) :
    SafeCopy codec source
      (copyRows codec around options source (source.info codec true) limit through state)
      (OnOk fun result t => result.2 = (source.rowsAfter through).take limit ∧
        AtCopy codec source stable
          ((result.2.getLast?.map (·.sourceOrderingKey)).getD through) result.1 t) s := by
  induction limit generalizing through state s with
  | zero => exact ⟨by simp, h⟩
  | succ limit ih =>
    unfold ContextStore.copyRows
    rw [SqliteSource.head_readBatch]
    cases hrest : source.rowsAfter through with
    | nil => exact ⟨rfl, h⟩
    | cons row rest =>
      refine bind _ (copyRow around options h hrest) fun state' t hat => ?_
      refine bind _ (ih hat) fun result u hresult => ?_
      obtain ⟨hrows, hat'⟩ := hresult
      have hbehind := SqliteSource.rowsAfter_next hrest
      refine ⟨?_, ?_⟩
      · rw [List.take_succ_cons, ← hbehind, ← hrows]
      · cases hlast : result.2.getLast? with
        | none =>
          rw [List.getLast?_eq_none_iff] at hlast
          rw [hlast] at hat' ⊢
          exact hat'
        | some last =>
          rw [hlast] at hat'
          rw [List.getLast?_cons, hlast]
          exact hat'

end SafeCopy

/-! ## Batches and completion -/

variable (codec source) in
/-- What a copy returns: the state that is stored, complete if it says so. -/
structure Settles (state : CopyState) (w : World) : Prop where
  stored : w.get (.migration (.checkpoint (source.databaseId codec))) = some state.checkpoint
  status : state.status.checkpoint = state.checkpoint
  completed : state.status.phase = .offlineVerification → state.checkpoint.completed = true

theorem AtCopy.settles {w : World} (h : AtCopy codec source stable through state w) :
    Settles codec source state w :=
  ⟨h.stored, h.status, fun hphase => by
    rw [h.phase] at hphase
    cases hphase⟩

/-- The checkpoint that advances over a batch counts its rows. -/
theorem AtCopy.progress_advanced {u t : World} {rest post : List SourceRow} {now : Nat}
    (hrows : source.rowsAfter stable = (row :: rest) ++ post)
    (h : AtCopy codec source stable
      ((row :: rest).getLast (List.cons_ne_nil _ _)).sourceOrderingKey state u)
    (hframe : ∀ k, ProgressKey k → t.get k = u.get k) :
    Progress codec source (advancedState codec state row rest now).checkpoint t := by
  have himage : ∀ k, ImageKey k → t.get k = u.get k := fun k hk => hframe k (Or.inl hk)
  refine ⟨h.progress.database, h.progress.holds.of_frame himage, fun other hmem hle => ?_, ?_,
    h.progress.failed.of_frame fun n => hframe _ (Or.inr ⟨_, n, rfl⟩), fun hdone => ?_⟩
  · exact (copied_congr himage).mpr (h.copied other hmem hle)
  · have hcount := SqliteSource.length_rowsThrough_batch (List.cons_ne_nil row rest) hrows
    have hbefore := h.progress.migrated
    rw [h.stable] at hbefore
    change state.checkpoint.migratedCount + (row :: rest).length = _
    rw [hbefore, ← hcount]
    rfl
  · have hdone' : state.checkpoint.completed = true := hdone
    rw [h.incomplete] at hdone'
    cases hdone'

namespace SafeCopy

theorem checkpointBatch (options : CopyOptions) {rest post : List SourceRow} {now : Nat}
    (hrows : source.rowsAfter stable = (row :: rest) ++ post)
    (h : AtCopy codec source stable
      ((row :: rest).getLast (List.cons_ne_nil _ _)).sourceOrderingKey state s) :
    SafeCopy codec source (checkpointBatch options (advancedState codec state row rest now))
      (OnOk fun next t => AtCopy codec source next.checkpoint.lastStableSourceOrderingKey
        next.checkpoint.lastStableSourceOrderingKey next t) s := by
  have hat : ∀ t, t.get (.migration (.checkpoint (source.databaseId codec))) =
        some (advancedState codec state row rest now).checkpoint →
      Progress codec source (advancedState codec state row rest now).checkpoint t →
      AtCopy codec source
        (advancedState codec state row rest now).checkpoint.lastStableSourceOrderingKey
        (advancedState codec state row rest now).checkpoint.lastStableSourceOrderingKey
        (advancedState codec state row rest now) t := fun t hstored hprogress =>
    ⟨hstored, hprogress, h.incomplete, rfl, hprogress.stable, rfl, rfl⟩
  refine bind (fun _ t => s = t) (throwIf (Eq.refl s) _) fun _ u hu => ?_
  subst hu
  refine bind _ (persist fun t hframe => h.progress_advanced hrows hframe) fun _ t ht => ?_
  exact bind _ (throwIf (hat t ht.1 ht.2) _) fun _ _ hnext => hnext

theorem completeOfflineCopy (around : Surroundings)
    (h : AtCopy codec source stable through state s) (hnone : source.rowsAfter stable = []) :
    SafeCopy codec source
      (completeOfflineCopy codec around source (source.info codec true) state)
      (OnOk fun next t => Settles codec source next t) s := by
  have hall : ∀ row ∈ source.rows, Copied codec source s row := fun row hrow =>
    h.progress.stable row hrow (by rw [h.stable]; exact SqliteSource.le_of_rowsAfter_nil hnone hrow)
  refine Safe.seqOfExcept fun _ _ => bind (fun records u => u = s ∧
    records = destinationSourceRecords (source.databaseId codec) verificationPageSize s)
    (read ⟨rfl, rfl⟩) fun records u hread => ?_
  obtain ⟨rfl, rfl⟩ := hread
  refine Safe.seqOfExcept fun info hinfo => ?_
  obtain rfl := completedSourceInfo_eq_ok h.progress.holds hall hinfo
  refine bind _ (persist fun t hframe => ?_) fun _ t ht => ⟨ht.1, rfl, fun _ => rfl⟩
  have hfailed := h.progress.failed
  rw [h.progress.database] at hfailed
  exact h.progress.of_frame (fun k hk => hframe k (Or.inl hk))
    (hfailed.of_frame fun n => hframe _ (Or.inr ⟨_, n, rfl⟩)) rfl rfl rfl rfl
    fun _ => ⟨rfl, hall⟩

theorem copyBatches (around : Surroundings) (options : CopyOptions) {limit : Nat}
    (hlimit : 0 < limit) (batches : Nat)
    (h : AtCopy codec source stable stable state s) :
    SafeCopy codec source
      (copyBatches codec around options source (source.info codec true) limit batches state)
      (OnOk fun next t => Settles codec source next t) s := by
  induction batches generalizing stable state s with
  | zero =>
    unfold ContextStore.copyBatches
    split
    · next hempty =>
      refine completeOfflineCopy around h ?_
      have hnone : (source.readBatch state.checkpoint.lastStableSourceOrderingKey 1).head? =
          none := by
        rw [List.isEmpty_iff.mp hempty]
        rfl
      rwa [SqliteSource.head_readBatch, h.stable, List.head?_eq_none_iff] at hnone
    · exact h.settles
  | succ batches ih =>
    unfold ContextStore.copyBatches
    have hstart := h
    rw [← h.stable] at hstart
    refine bind _ (copyRows around options limit hstart) fun result t hresult => ?_
    obtain ⟨state', rows⟩ := result
    obtain ⟨hrows, hat⟩ := hresult
    rw [h.stable] at hrows hat
    have hstable' : state'.checkpoint.lastStableSourceOrderingKey = stable := hat.stable
    cases rows with
    | nil =>
      refine completeOfflineCopy around hat ?_
      cases hafter : source.rowsAfter stable with
      | nil => rfl
      | cons row rest =>
        rw [hafter, List.take_cons hlimit] at hrows
        cases hrows
    | cons row rest =>
      have hsplit : source.rowsAfter stable =
          (row :: rest) ++ (source.rowsAfter stable).drop limit := by
        have hrows' : row :: rest = (source.rowsAfter stable).take limit := hrows
        rw [hrows', List.take_append_drop]
      have hat' : AtCopy codec source stable
          ((row :: rest).getLast (List.cons_ne_nil _ _)).sourceOrderingKey state' t := by
        have hlast := hat
        rw [List.getLast?_eq_some_getLast (List.cons_ne_nil row rest)] at hlast
        exact hlast
      exact bind _ (checkpointBatch options hsplit hat') fun next u hnext => ih hnext

end SafeCopy

end ContextStore
