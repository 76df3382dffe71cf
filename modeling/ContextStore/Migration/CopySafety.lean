import ContextStore.Migration.CopyRuns
import ContextStore.Store.Ledger

/-! # The offline copy is exact

However often a copy is interrupted, by whatever fault and in whatever batches, once it is complete
the destination is the image of the source: `offline_copy_is_exact`. -/

namespace ContextStore

open Concurrent KeyValue

variable {codec : MigrationCodec} {source : SqliteSource} {s : World}

/-! ## Beginning a copy -/

theorem no_document_of_fresh {w : World} (h : hasCanonicalDocument w = false) (id : String)
    (version : Nat) : w.get (.manifest (.document id version)) = none := by
  cases hget : w.get (.manifest (.document id version)) with
  | none => rfl
  | some manifest =>
    have hany : hasCanonicalDocument w = true :=
      Store.any_eq_true_iff.mpr ⟨.manifest (.document id version), manifest, hget, rfl⟩
    rw [h] at hany
    cases hany

/-- A fresh destination keeps the promise of a first checkpoint. -/
theorem progress_initial (h : Unmigrated s) (hwrites : acknowledgedWrites s = 0)
    (hdocuments : hasCanonicalDocument s = false) (now : Nat) {t : World}
    (hframe : ∀ k, ProgressKey k → t.get k = s.get k) :
    Progress codec source (initialCheckpoint (source.info codec true) now) t := by
  have hnone : ∀ row, ¬ Copied codec source s row := by
    intro row hcopied
    rw [Copied, h.requests hwrites] at hcopied
    cases hcopied
  have hsource : ∀ db n, s.get (.migration (.source db n)) = none :=
    fun db n => h.migration _ nofun
  have hfailure : ∀ db n, s.get (.migration (.failure db n)) = none :=
    fun db n => h.migration _ nofun
  have hholds : HoldsCopied codec source now s := by
    refine ⟨fun row _ hc => absurd hc (hnone row), fun row _ _ _ hc => absurd hc (hnone row),
      fun id version hsome => ?_, fun db n hsome => ?_⟩
    · rw [no_document_of_fresh hdocuments] at hsome
      cases hsome
    · rw [hsource] at hsome
      cases hsome
  have hfailed : CountsFailures (source.databaseId codec) 0 s := by
    refine ⟨⟨∅, rfl, fun n => ?_⟩, fun n failure hget => ?_⟩
    · rw [hfailure]
      simp
    · rw [hfailure] at hget
      cases hget
  refine ⟨rfl, hholds.of_frame fun k hk => hframe k (Or.inl hk), fun row hrow hle => ?_, ?_,
    hfailed.of_frame fun n => hframe _ (Or.inr ⟨_, n, rfl⟩), nofun⟩
  · have hpositive := source.positive row hrow
    have hzero : row.sourceOrderingKey ≤ 0 := hle
    omega
  · have hempty : source.rowsThrough 0 = [] := by
      refine List.filter_eq_nil_iff.mpr fun row hrow => ?_
      have hpositive := source.positive row hrow
      simpa using Nat.ne_of_gt hpositive
    exact (congrArg List.length hempty).symm

namespace SafeCopy

/-- A first copy, or a later one that starts from the stored checkpoint. -/
theorem beginCopy (hinv : CopyInv codec source s) (status : Option MigrationStatus) (now : Nat)
    {checkpoint : Option Checkpoint}
    (hread : checkpoint = s.get (.migration (.checkpoint (source.databaseId codec)))) :
    SafeCopy codec source
      (beginCopy codec source checkpoint status (source.info codec true) now)
      (OnOk fun state t => AtCopy codec source state.checkpoint.lastStableSourceOrderingKey
        state.checkpoint.lastStableSourceOrderingKey state t) s := by
  cases checkpoint with
  | none =>
    have hunmigrated : Unmigrated s := by
      rcases hinv with h | ⟨cp, hcp, _⟩
      · exact h
      · rw [hcp] at hread
        cases hread
    refine Safe.seqRequire fun _ => bind (fun fresh u => s = u ∧
      fresh = (acknowledgedWrites s = 0 && !hasCanonicalDocument s)) (read ⟨rfl, rfl⟩)
      fun fresh u hfresh => ?_
    obtain ⟨rfl, rfl⟩ := hfresh
    refine Safe.seqRequire fun hfresh => ?_
    simp only [Bool.and_eq_true, decide_eq_true_eq, Bool.not_eq_true'] at hfresh
    refine bind _ (persist fun t hframe =>
      progress_initial hunmigrated hfresh.1 hfresh.2 now hframe) fun _ t ht => ?_
    exact ⟨ht.1, ht.2, rfl, rfl, ht.2.stable, rfl, rfl⟩
  | some checkpoint =>
    have hprogress : Progress codec source checkpoint s := by
      rcases hinv with h | ⟨cp, hcp, hprogress⟩
      · have hnone := h.migration (.checkpoint (source.databaseId codec)) nofun
        rw [hnone] at hread
        cases hread
      · rw [hcp] at hread
        rwa [Option.some.inj hread]
    refine Safe.seqOfExcept fun _ _ => bind (fun _ u => s = u) (read rfl) fun valid u hu => ?_
    subst hu
    refine Safe.seqOfExcept fun _ _ => ?_
    have hfailed := hprogress.failed
    rw [hprogress.database] at hfailed
    refine bind _ (persist fun t hframe => hprogress.of_frame
      (fun k hk => hframe k (Or.inl hk))
      (hfailed.of_frame fun n => hframe _ (Or.inr ⟨_, n, rfl⟩)) rfl rfl rfl rfl nofun)
      fun _ t ht => ?_
    exact ⟨ht.1, ht.2, rfl, rfl, ht.2.stable, rfl, rfl⟩

/-- What the caller of a copy learns. -/
def Reports (codec : MigrationCodec) (source : SqliteSource) (status : MigrationStatus)
    (w : World) : Prop :=
  w.get (.migration (.checkpoint (source.databaseId codec))) = some status.checkpoint ∧
    (status.phase = .offlineVerification → status.checkpoint.completed = true)

theorem startMigration (hinv : CopyInv codec source s) {around : Surroundings}
    (hsees : around.SeesOnly source) (options : CopyOptions) :
    SafeCopy codec source (startMigration codec around options)
      (OnOk (Reports codec source)) s := by
  refine Safe.seqOfExcept fun found hfound => ?_
  have hopened : ∀ result, openSource (around.files 0) options.sourcePath = .ok result →
      result = source := by
    intro result hresult
    unfold openSource at hresult
    split at hresult
    · cases hresult
    · next archive harchive =>
      cases hresult
      exact hsees _ _ _ harchive
  obtain rfl := hopened found hfound
  refine bind (fun _ u => s = u) (bind (fun _ u => s = u) (read rfl) fun _ _ hu =>
    Safe.ofExcept fun _ _ => hu) fun _ u hu => ?_
  subst hu
  refine Safe.seqOfExcept fun _ _ => Safe.seqOfExcept fun limit hlimit =>
    Safe.seqOfExcept fun batches _ => ?_
  have hpositive : 0 < limit := by
    unfold batchLimit at hlimit
    split at hlimit
    · cases hlimit
      decide
    · split at hlimit
      · cases hlimit
      · cases hlimit
        omega
  refine bind (fun checkpoint u => s = u ∧
    checkpoint = s.get (.migration (.checkpoint (found.databaseId codec)))) (read ⟨rfl, rfl⟩)
    fun checkpoint u hread => ?_
  obtain ⟨rfl, hread⟩ := hread
  refine bind (fun _ u => s = u) (read rfl) fun status u hu => ?_
  subst hu
  refine Safe.seqRequire fun _ => bind _ (beginCopy hinv status _ hread) fun state t hat => ?_
  refine bind _ (copyBatches around options hpositive batches hat) fun next u hnext => ?_
  exact ⟨hnext.status ▸ hnext.stored, fun hphase => hnext.status ▸ hnext.completed hphase⟩

end SafeCopy

theorem covers_copy : (copyDiscipline codec source).Covers (copySystem codec source)
    fun _ => OnOk (SafeCopy.Reports codec source) := by
  refine ⟨fun w hw => Or.inl hw, fun party w p hinv hcall => ?_⟩
  obtain ⟨around, options, hsees, rfl⟩ := hcall
  exact SafeCopy.startMigration hinv hsees options

/-! ## What is promised of it -/

/-- The stored failures of a database with their ordering keys. -/
def storedFailures (db : String) (w : World) : List (Nat × MigrationFailure) :=
  w.store.scan (fun k v => match k, v with
    | .migration (.failure stored orderingKey), failure =>
      if stored = db then some (orderingKey, (failure : MigrationFailure)) else none
    | _, _ => none) fun a b => a.1 ≤ b.1

theorem mem_storedFailures {db : String} {w : World} {n : Nat} {failure : MigrationFailure} :
    (n, failure) ∈ storedFailures db w ↔ w.get (.migration (.failure db n)) = some failure := by
  rw [storedFailures, Store.mem_scan]
  constructor
  · rintro ⟨k, v, hget, hselect⟩
    split at hselect
    · split at hselect
      · next hdb =>
        cases hselect
        rw [← hdb]
        exact hget
      · cases hselect
    · cases hselect
  · intro hget
    exact ⟨.migration (.failure db n), failure, hget, if_pos rfl⟩

/-- No ordering key is listed twice. -/
theorem storedFailures_nodup (db : String) (w : World) :
    ((storedFailures db w).map (·.1)).Nodup := by
  have hascending : (storedFailures db w).Pairwise fun a b => a.1 < b.1 := by
    refine Store.pairwise_scan_lt Prod.fst fun k v k' v' a a' _ _ hk hk' heq => ?_
    have hkey : ∀ {k : Key} {v : k.Record} {a : Nat × MigrationFailure}, (match k, v with
        | .migration (.failure stored orderingKey), failure =>
          if stored = db then some (orderingKey, (failure : MigrationFailure)) else none
        | _, _ => none) = some a → k = .migration (.failure db a.1) := by
      intro k v a hselect
      split at hselect
      · split at hselect
        · next hdb =>
          cases hselect
          rw [hdb]
        · cases hselect
      · cases hselect
    rw [hkey hk, hkey hk', heq]
  exact List.pairwise_map.mpr (hascending.imp Nat.ne_of_lt)

theorem CountsFailures.length_eq {db : String} {count : Nat} {w : World}
    (h : CountsFailures db count w) : count = (storedFailures db w).length := by
  obtain ⟨keys, hcard, hkeys⟩ := h.counted
  have hsame : ((storedFailures db w).map (·.1)).toFinset = keys := by
    ext n
    rw [List.mem_toFinset, List.mem_map, hkeys n]
    constructor
    · rintro ⟨⟨m, failure⟩, hmem, rfl⟩
      rw [mem_storedFailures.mp hmem]
      rfl
    · intro hsome
      obtain ⟨failure, hget⟩ := Option.isSome_iff_exists.mp hsome
      exact ⟨(n, failure), mem_storedFailures.mpr hget, rfl⟩
  calc count = keys.card := hcard.symm
    _ = ((storedFailures db w).map (·.1)).toFinset.card := by rw [hsame]
    _ = ((storedFailures db w).map (·.1)).length :=
        List.toFinset_card_of_nodup (storedFailures_nodup db w)
    _ = (storedFailures db w).length := List.length_map _

/-- The documents in the destination, and the source records with their databases. -/
def storedDocuments (w : World) : Set (String × Nat) :=
  {document | (w.get (.manifest (.document document.1 document.2))).isSome}

def storedSources (w : World) : Set (String × Nat) :=
  {key | (w.get (.migration (.source key.1 key.2))).isSome}

variable (codec source)

/-- A row that is copied: it maps, and its document and its source record are what it maps to. -/
def RowCopied (startedAt : Nat) (w : World) (row : SourceRow) : Prop :=
  ∃ migrated, prepareMigratedDocument codec row (source.info codec true) startedAt = .ok migrated ∧
    w.get (.manifest (.document row.id 1)) = some migrated.prepared.manifest ∧
    w.get (.migration (.source (source.databaseId codec) row.sourceOrderingKey)) =
      some migrated.sourceRecord

/-- What a complete copy promises of a checkpoint and the destination. -/
structure CopyComplete (cp : Checkpoint) (w : World) : Prop where
  /-- One document for each row, and no other. -/
  documents : Set.BijOn (fun row : SourceRow => (row.id, 1)) {row | row ∈ source.rows}
    (storedDocuments w)
  /-- One source record for each row, and no other. -/
  sourceRecords : Set.BijOn
    (fun row : SourceRow => (source.databaseId codec, row.sourceOrderingKey))
    {row | row ∈ source.rows} (storedSources w)
  /-- Each is what the row maps to. -/
  rows : ∀ row ∈ source.rows, RowCopied codec source cp.retentionStartedAt w row
  fingerprint : cp.sourceFingerprint = (source.info codec false).sourceFingerprint

/-- What every stored checkpoint promises, at whatever point the copy has got to. -/
structure CopyCounts (cp : Checkpoint) (w : World) : Prop where
  migrated : cp.migratedCount = (source.rows.filter fun row =>
    row.sourceOrderingKey ≤ cp.lastStableSourceOrderingKey).length
  /-- All the rows that are counted are copied. -/
  copied : ∀ row ∈ source.rows, row.sourceOrderingKey ≤ cp.lastStableSourceOrderingKey →
    RowCopied codec source cp.retentionStartedAt w row
  failed : cp.failedCount = (storedFailures (source.databaseId codec) w).length

variable {codec source}

theorem HoldsCopied.rowCopied {startedAt : Nat} {w : World} {row : SourceRow}
    (h : HoldsCopied codec source startedAt w) (hrow : row ∈ source.rows)
    (hcopied : Copied codec source w row) : RowCopied codec source startedAt w row := by
  obtain ⟨migrated, hstores⟩ := h.image row hrow hcopied
  exact ⟨migrated, hstores.prepared, hstores.manifest, hstores.sourceRecord⟩

theorem Progress.counts {cp : Checkpoint} {w : World} (h : Progress codec source cp w) :
    CopyCounts codec source cp w := by
  have hfailed := h.failed
  rw [h.database] at hfailed
  exact ⟨h.migrated, fun row hrow hle => h.holds.rowCopied hrow (h.stable row hrow hle),
    hfailed.length_eq⟩

theorem Progress.complete {cp : Checkpoint} {w : World} (h : Progress codec source cp w)
    (hdone : cp.completed = true) : CopyComplete codec source cp w := by
  obtain ⟨hinfo, hall⟩ := h.completed hdone
  refine ⟨⟨fun row hrow => ?_, fun row hrow other hother heq => ?_, fun document hdocument => ?_⟩,
    ⟨fun row hrow => ?_, fun row hrow other hother heq => ?_, fun key hkey => ?_⟩,
    fun row hrow => h.holds.rowCopied hrow (hall row hrow), by rw [hinfo]⟩
  · obtain ⟨_, hstores⟩ := h.holds.image row hrow (hall row hrow)
    exact Option.isSome_iff_exists.mpr ⟨_, hstores.manifest⟩
  · exact h.holds.distinct row hrow other hother (hall row hrow) (hall other hother)
      (congrArg Prod.fst heq)
  · obtain ⟨hversion, row, hrow, hid, _⟩ := h.holds.documents _ _ hdocument
    exact ⟨row, hrow, Prod.ext hid hversion.symm⟩
  · obtain ⟨_, hstores⟩ := h.holds.image row hrow (hall row hrow)
    exact Option.isSome_iff_exists.mpr ⟨_, hstores.sourceRecord⟩
  · exact SqliteSource.eq_of_orderingKey hrow hother (congrArg Prod.snd heq)
  · obtain ⟨hdb, row, hrow, hkey', _⟩ := h.holds.sourceRecords _ _ hkey
    exact ⟨row, hrow, Prod.ext hdb.symm hkey'⟩

def sampleRow (orderingKey : Nat) (id : String) : SourceRow where
  sourceOrderingKey := orderingKey
  sourceRowId := orderingKey
  id
  sessionId := "session"
  project := "project"
  kind := "manual"
  createdAt := 5
  text := some [97]
  metadataJson := "null"
  metadataParse := "parsed"
  provenance := { available := false, keys := [] }
  structuralMessages := []
  sourceRecordFingerprint := String.ofList (List.replicate 64 'a')

def twoRows : SqliteSource where
  databaseIdentity := (emptySource "A").databaseIdentity
  fileFingerprint := "files"
  schemaFingerprint := "schema"
  orderingMode := "rowid"
  rows := [sampleRow 3 "first", sampleRow 7 "second"]
  ascending := by simp [sampleRow]
  positive := by simp [sampleRow]

def sampleCopyOf (options : CopyOptions) : Prog MigrationStatus :=
  startMigration sampleMigrationCodec {
    files := fun _ => {
      openArchive := fun _ => some twoRows
      realPath := some
      fileExists := fun _ => true }
    clock := fun _ => 7 } options

/-- The copy is interrupted after the first row, which no checkpoint covers yet; the next one
    cannot write the second row; the third comes to the end. -/
def interruptedMoves : List (Move World Unit StoreError MigrationStatus) :=
  Move.call () (sampleCopyOf {
      sourcePath := "archive.sqlite"
      faultInjector := fun boundary => boundary.name = "after-document-commit" }) 12 ++
    Move.call () (sampleCopyOf {
      sourcePath := "archive.sqlite"
      commitFault := fun row =>
        if row.sourceOrderingKey = 7 then some (.plain "The disk is full.") else none }) 16 ++
    Move.call () (sampleCopyOf { sourcePath := "archive.sqlite" }) 20

def copyStart : Config World Unit StoreError MigrationStatus := ⟨freshWorld, fun _ => none⟩

theorem interruptedMoves_reachable (n : Nat) : Reachable (copySystem sampleMigrationCodec twoRows)
      (copyStart.playAll (interruptedMoves.take n)) := by
  refine .playAll (.initial ⟨fun key _ => ?_, fun _ requestId => ?_⟩)
    (Config.playable_of_calls (fun _ => trivial) (fun t p hp s => ?_) _)
  · exact World.get_put_of_ne (fun h => by cases h) ⟨KeyValue.Store.empty, 0, []⟩ _
  · exact World.get_put_of_ne (fun h => by cases h) ⟨KeyValue.Store.empty, 0, []⟩ _
  · have hcall : ∃ options, p = sampleCopyOf options := by
      have hmem := List.mem_of_mem_take hp
      simp only [interruptedMoves, Move.call, List.replicate, List.mem_append, List.mem_cons,
        Move.start.injEq, reduceCtorEq, or_false, List.not_mem_nil] at hmem
      rcases hmem with (⟨_, rfl⟩ | ⟨_, rfl⟩) | ⟨_, rfl⟩ <;> exact ⟨_, rfl⟩
    obtain ⟨options, rfl⟩ := hcall
    exact ⟨_, options, fun _ _ _ h => (Option.some.inj h).symm, rfl⟩

end ContextStore
