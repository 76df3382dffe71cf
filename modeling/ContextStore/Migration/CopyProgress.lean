import ContextStore.Migration.Copy
import ContextStore.Migration.RowFacts
import Mathlib.Data.Finset.Card

/-! # Progress of the offline copy

What a checkpoint promises: every row up to the stable ordering key is copied, as many as counted,
the destination holds the image of the copied rows and nothing else, and the failures are counted.
Nothing but the stored records carries this from one call to the next, so that a crash between two
transactions needs no repair of its own. -/

namespace ContextStore

open Concurrent KeyValue

variable (codec : MigrationCodec) (source : SqliteSource)

/-! ## Rows of a source -/

def SqliteSource.databaseId : String := codec.databaseId source.databaseIdentity

namespace SqliteSource

def rowsAfter (orderingKey : Nat) : List SourceRow :=
  source.rows.filter fun row => orderingKey < row.sourceOrderingKey

def rowsThrough (orderingKey : Nat) : List SourceRow :=
  source.rows.filter fun row => row.sourceOrderingKey ≤ orderingKey

variable {source}

theorem head_readBatch (orderingKey : Nat) :
    (source.readBatch orderingKey 1).head? = (source.rowsAfter orderingKey).head? := by
  unfold readBatch rowsAfter maxResultRows
  generalize source.rows.filter (fun row => orderingKey < row.sourceOrderingKey) = rows
  cases rows <;> rfl

theorem eq_of_orderingKey {a b : SourceRow} (ha : a ∈ source.rows) (hb : b ∈ source.rows)
    (h : a.sourceOrderingKey = b.sourceOrderingKey) : a = b := by
  have hdistinct : (source.rows.map (·.sourceOrderingKey)).Nodup :=
    List.pairwise_map.mpr (source.ascending.imp fun h => Nat.ne_of_lt h)
  exact List.inj_on_of_nodup_map hdistinct ha hb h

/-- Behind the last row of a part of the rest comes the other part. -/
theorem rowsAfter_behind {orderingKey : Nat} {pre post : List SourceRow} {row : SourceRow}
    (h : source.rowsAfter orderingKey = pre ++ row :: post) :
    source.rowsAfter row.sourceOrderingKey = post := by
  have hfilter : source.rows.filter (fun row => (some orderingKey).all
      (· < row.sourceOrderingKey)) = pre ++ row :: post := h
  exact Paging.filter_behind source.ascending hfilter

theorem rowsAfter_next {orderingKey : Nat} {rest : List SourceRow} {row : SourceRow}
    (h : source.rowsAfter orderingKey = row :: rest) :
    source.rowsAfter row.sourceOrderingKey = rest := by
  have hsplit : source.rowsAfter orderingKey = [] ++ row :: rest := h
  exact rowsAfter_behind hsplit

variable (source) in
theorem length_rowsThrough_add (orderingKey : Nat) :
    (source.rowsThrough orderingKey).length + (source.rowsAfter orderingKey).length =
      source.rows.length := by
  unfold rowsThrough rowsAfter
  induction source.rows with
  | nil => rfl
  | cons row rest ih =>
    by_cases h : row.sourceOrderingKey ≤ orderingKey
    · have h' : ¬ orderingKey < row.sourceOrderingKey := by omega
      simp [h, h']
      omega
    · have h' : orderingKey < row.sourceOrderingKey := by omega
      simp [h, h']
      omega

/-- The rows of a batch are counted by advancing over the last one. -/
theorem length_rowsThrough_batch {orderingKey : Nat} {rows post : List SourceRow}
    (hrows : rows ≠ []) (h : source.rowsAfter orderingKey = rows ++ post) :
    (source.rowsThrough (rows.getLast hrows).sourceOrderingKey).length =
      (source.rowsThrough orderingKey).length + rows.length := by
  have hsplit : source.rowsAfter orderingKey = rows.dropLast ++ rows.getLast hrows :: post := by
    rw [h, ← List.singleton_append, ← List.append_assoc, List.dropLast_concat_getLast]
  have hbehind := rowsAfter_behind hsplit
  have hbefore := length_rowsThrough_add source orderingKey
  have hafter := length_rowsThrough_add source (rows.getLast hrows).sourceOrderingKey
  rw [hbehind] at hafter
  rw [h, List.length_append] at hbefore
  omega

/-- When nothing is left behind an ordering key, every row is up to it. -/
theorem le_of_rowsAfter_nil {orderingKey : Nat} (h : source.rowsAfter orderingKey = [])
    {row : SourceRow} (hrow : row ∈ source.rows) : row.sourceOrderingKey ≤ orderingKey := by
  by_contra hlt
  have hmem : row ∈ source.rowsAfter orderingKey := List.mem_filter.mpr ⟨hrow, by simpa using hlt⟩
  rw [h] at hmem
  cases hmem

end SqliteSource

theorem migrationRequestId_injective {db : String} {m n : Nat}
    (h : migrationRequestId db m = migrationRequestId db n) : m = n := by
  have hrepr : m.repr = n.repr := (String.append_right_inj _).mp h
  have hdigits : Nat.toDigits 10 m = Nat.toDigits 10 n := by
    rw [← Nat.toList_repr, ← Nat.toList_repr, hrepr]
  rw [← Nat.ofDigitChars_ten_toDigits (n := m), hdigits, Nat.ofDigitChars_ten_toDigits]

/-! ## The image of the copied rows -/

/-- The commit of a row has taken effect. -/
def Copied (w : World) (row : SourceRow) : Prop :=
  (w.get (.idempotency
    (migrationRequestId (source.databaseId codec) row.sourceOrderingKey))).isSome

/-- The row's document, its source record and the history of the document are stored. -/
structure StoresRow (startedAt : Nat) (w : World) (row : SourceRow)
    (migrated : MigratedDocument) : Prop where
  prepared : prepareMigratedDocument codec row (source.info codec true) startedAt = .ok migrated
  manifest : w.get (.manifest (.document row.id 1)) = some migrated.prepared.manifest
  sourceRecord : w.get (.migration
    (.source (source.databaseId codec) row.sourceOrderingKey)) = some migrated.sourceRecord
  admitted : (w.get (.manifest (.documentHistory row.id))).isSome

/-- The destination holds the image of the copied rows, and nothing else. -/
structure HoldsCopied (startedAt : Nat) (w : World) : Prop where
  image : ∀ row ∈ source.rows, Copied codec source w row →
    ∃ migrated, StoresRow codec source startedAt w row migrated
  distinct : ∀ row ∈ source.rows, ∀ other ∈ source.rows, Copied codec source w row →
    Copied codec source w other → row.id = other.id → row = other
  documents : ∀ id version, (w.get (.manifest (.document id version))).isSome →
    version = 1 ∧ ∃ row ∈ source.rows, row.id = id ∧ Copied codec source w row
  sourceRecords : ∀ db n, (w.get (.migration (.source db n))).isSome →
    db = source.databaseId codec ∧
      ∃ row ∈ source.rows, row.sourceOrderingKey = n ∧ Copied codec source w row

/-- The keys that decide about the image. -/
def ImageKey (k : Key) : Prop :=
  (∃ requestId, k = .idempotency requestId) ∨ (∃ key, k = .manifest key) ∨
    ∃ db n, k = .migration (.source db n)

variable {codec source} {startedAt : Nat} {u t : World}
  {migrated : MigratedDocument} {row : SourceRow}

theorem copied_congr (h : ∀ k, ImageKey k → t.get k = u.get k) :
    Copied codec source t row ↔ Copied codec source u row := by
  unfold Copied
  rw [h _ (Or.inl ⟨_, rfl⟩)]

theorem HoldsCopied.of_frame (h : HoldsCopied codec source startedAt u)
    (hframe : ∀ k, ImageKey k → t.get k = u.get k) : HoldsCopied codec source startedAt t := by
  have hcopied : ∀ row, Copied codec source t row ↔ Copied codec source u row :=
    fun row => copied_congr hframe
  have hmanifest : ∀ key, t.get (.manifest key) = u.get (.manifest key) :=
    fun key => hframe _ (Or.inr (Or.inl ⟨key, rfl⟩))
  have hsource : ∀ db n, t.get (.migration (.source db n)) = u.get (.migration (.source db n)) :=
    fun db n => hframe _ (Or.inr (Or.inr ⟨db, n, rfl⟩))
  refine ⟨fun row hrow hc => ?_, fun row hrow other hother hc hc' => ?_, fun id version hsome => ?_,
    fun db n hsome => ?_⟩
  · obtain ⟨migrated, hstores⟩ := h.image row hrow ((hcopied row).mp hc)
    exact ⟨migrated, hstores.prepared, (hmanifest _).trans hstores.manifest,
      (hsource _ _).trans hstores.sourceRecord, by rw [hmanifest]; exact hstores.admitted⟩
  · exact h.distinct row hrow other hother ((hcopied row).mp hc) ((hcopied other).mp hc')
  · obtain ⟨hversion, row, hrow, hid, hc⟩ := h.documents id version (by rwa [← hmanifest])
    exact ⟨hversion, row, hrow, hid, (hcopied row).mpr hc⟩
  · obtain ⟨hdb, row, hrow, hkey, hc⟩ := h.sourceRecords db n (by rwa [← hsource])
    exact ⟨hdb, row, hrow, hkey, (hcopied row).mpr hc⟩

theorem copied_of_takesEffect
    (hprepared : prepareMigratedDocument codec row (source.info codec true) startedAt =
      .ok migrated)
    (heffect : migrated.TakesEffect u t) (other : SourceRow) :
    Copied codec source t other ↔
      Copied codec source u other ∨ other.sourceOrderingKey = row.sourceOrderingKey := by
  obtain ⟨_, _, _, _, hid, _⟩ := prepareMigratedDocument_eq_ok hprepared
  have hrequest : migrated.prepared.request.idempotencyKey =
      migrationRequestId (source.databaseId codec) row.sourceOrderingKey := hid
  unfold Copied
  by_cases hkey : other.sourceOrderingKey = row.sourceOrderingKey
  · rw [hkey, ← hrequest]
    exact ⟨fun _ => Or.inr rfl, fun _ => heffect.marked⟩
  · have hne : migrationRequestId (source.databaseId codec) other.sourceOrderingKey ≠
        migrated.prepared.request.idempotencyKey := by
      rw [hrequest]
      exact fun h => hkey (migrationRequestId_injective h)
    rw [heffect.markers _ hne]
    exact ⟨Or.inl, fun h => h.resolve_right hkey⟩

theorem HoldsCopied.takesEffect
    (h : HoldsCopied codec source startedAt u) (hrow : row ∈ source.rows)
    (hprepared : prepareMigratedDocument codec row (source.info codec true) startedAt =
      .ok migrated)
    (heffect : migrated.TakesEffect u t) : HoldsCopied codec source startedAt t := by
  obtain ⟨text, createdAt, _, hrecord, hid, hdocument, _⟩ :=
    prepareMigratedDocument_eq_ok hprepared
  have hcopied := copied_of_takesEffect hprepared heffect
  have hdocumentId : migrated.prepared.document.documentId = row.id := by rw [hdocument]; rfl
  have hversion : migrated.prepared.document.version = 1 := by rw [hdocument]; rfl
  have hdb : migrated.sourceRecord.sourceDatabaseId = source.databaseId codec := by
    rw [hrecord]
    rfl
  have hkey : migrated.sourceRecord.sourceOrderingKey = row.sourceOrderingKey := by
    rw [hrecord]
    rfl
  -- a copied row has a history of its document, and this row's document had none
  have hother : ∀ other ∈ source.rows, Copied codec source u other → other.id ≠ row.id := by
    intro other hmem hc hsame
    obtain ⟨_, hstores⟩ := h.image other hmem hc
    have hnone := heffect.unadmitted
    have hsome := hstores.admitted
    rw [hdocumentId, ← hsame] at hnone
    rw [hnone] at hsome
    cases hsome
  have hnew : ∀ other ∈ source.rows, Copied codec source t other →
      Copied codec source u other ∨ other = row := fun other hmem hc =>
    ((hcopied other).mp hc).imp_right (SqliteSource.eq_of_orderingKey hmem hrow)
  have hself : Copied codec source t row := (hcopied row).mpr (Or.inr rfl)
  refine ⟨fun other hmem hc => ?_, fun a ha b hb hca hcb hsame => ?_, fun id version hsome => ?_,
    fun db n hsome => ?_⟩
  · rcases hnew other hmem hc with hc | rfl
    · obtain ⟨found, hstores⟩ := h.image other hmem hc
      have hid' := hother other hmem hc
      refine ⟨found, hstores.prepared, ?_, ?_, ?_⟩
      · rw [heffect.manifests _ _ (Or.inl (by rwa [hdocumentId]))]
        exact hstores.manifest
      · have hne : other.sourceOrderingKey ≠ row.sourceOrderingKey := fun heq =>
          hid' (by rw [SqliteSource.eq_of_orderingKey hmem hrow heq])
        rw [heffect.migration _ (fun heq => ?_)]
        · exact hstores.sourceRecord
        · injection heq with _ hkey'
          exact hne (hkey'.trans hkey)
      · rw [heffect.histories _ (by rwa [hdocumentId])]
        exact hstores.admitted
    · refine ⟨migrated, hprepared, ?_, ?_, ?_⟩
      · rw [← hdocumentId, ← hversion]
        exact heffect.manifest
      · rw [← hdb, ← hkey]
        exact heffect.sourceRecord
      · rw [← hdocumentId]
        exact heffect.admitted
  · rcases hnew a ha hca with hca | rfl <;> rcases hnew b hb hcb with hcb | rfl
    · exact h.distinct a ha b hb hca hcb hsame
    · exact absurd hsame (hother a ha hca)
    · exact absurd hsame.symm (hother b hb hcb)
    · rfl
  · by_cases hours : id = row.id ∧ version = 1
    · exact ⟨hours.2, row, hrow, hours.1.symm, hself⟩
    · rw [heffect.manifests _ _ (by rw [hdocumentId, hversion]; tauto)] at hsome
      obtain ⟨hv, other, hmem, hid', hc⟩ := h.documents id version hsome
      exact ⟨hv, other, hmem, hid', (hcopied other).mpr (Or.inl hc)⟩
  · by_cases hours : db = source.databaseId codec ∧ n = row.sourceOrderingKey
    · exact ⟨hours.1, row, hrow, hours.2.symm, hself⟩
    · rw [heffect.migration _ (fun heq => ?_)] at hsome
      · obtain ⟨hdb', other, hmem, hkey', hc⟩ := h.sourceRecords db n hsome
        exact ⟨hdb', other, hmem, hkey', (hcopied other).mpr (Or.inl hc)⟩
      · injection heq with hdb' hkey'
        exact hours ⟨hdb'.trans hdb, hkey'.trans hkey⟩

/-! ## The checkpoint -/

/-- The stored failures of a database, none of which is resolved, are as many. -/
structure CountsFailures (db : String) (count : Nat) (w : World) : Prop where
  counted : ∃ keys : Finset Nat, keys.card = count ∧ ∀ n,
    n ∈ keys ↔ (w.get (.migration (.failure db n))).isSome
  pending : ∀ n (failure : MigrationFailure), w.get (.migration (.failure db n)) = some failure →
      failure.resolvedAt = none

namespace CountsFailures

variable {db : String} {count : Nat}

theorem of_frame (h : CountsFailures db count u) (hframe : ∀ n, t.get (.migration (.failure db n)) =
      u.get (.migration (.failure db n))) :
    CountsFailures db count t := by
  obtain ⟨keys, hcard, hkeys⟩ := h.counted
  refine ⟨⟨keys, hcard, fun n => by rw [hkeys n, hframe n]⟩, fun n failure hget => ?_⟩
  rw [hframe n] at hget
  exact h.pending n failure hget

theorem unresolved_get (h : CountsFailures db count u) (n : Nat) :
    unresolved (u.get (.migration (.failure db n))) =
      (u.get (.migration (.failure db n))).isSome := by
  cases hget : u.get (.migration (.failure db n)) with
  | none => rfl
  | some failure =>
    have hnone := h.pending n failure hget
    simp [unresolved, hnone]

theorem record (h : CountsFailures db count u) (n : Nat) {failure : MigrationFailure}
    (hfailure : failure.resolvedAt = none) :
    CountsFailures db
      (if unresolved (u.get (.migration (.failure db n))) then count else count + 1)
      (u.put (.migration (.failure db n)) failure) := by
  obtain ⟨keys, hcard, hkeys⟩ := h.counted
  rw [h.unresolved_get]
  refine ⟨⟨insert n keys, ?_, fun m => ?_⟩, fun m found hget => ?_⟩
  · split
    · next hsome => rw [Finset.insert_eq_of_mem ((hkeys n).mpr hsome), hcard]
    · next hnone =>
      rw [Finset.card_insert_of_notMem fun hmem => hnone ((hkeys n).mp hmem), hcard]
  · rw [Finset.mem_insert]
    by_cases hm : m = n
    · rw [hm, World.get_put_self]
      simp
    · rw [World.get_put_of_ne (by simpa using hm), hkeys m]
      simp [hm]
  · by_cases hm : m = n
    · subst hm
      rw [World.get_put_self] at hget
      rwa [← Option.some.inj hget]
    · rw [World.get_put_of_ne (by simpa using hm)] at hget
      exact h.pending m found hget

theorem resolve (h : CountsFailures db count u) {n : Nat}
    (hfailed : unresolved (u.get (.migration (.failure db n)))) :
    CountsFailures db (count - 1) (u.remove (.migration (.failure db n))) := by
  obtain ⟨keys, hcard, hkeys⟩ := h.counted
  have hsome := (h.unresolved_get n).symm.trans hfailed
  refine ⟨⟨keys.erase n, ?_, fun m => ?_⟩, fun m found hget => ?_⟩
  · rw [Finset.card_erase_of_mem ((hkeys n).mpr hsome), hcard]
  · rw [Finset.mem_erase]
    by_cases hm : m = n
    · rw [hm, World.get_remove_self]
      simp
    · rw [World.get_remove_of_ne (by simpa using hm), hkeys m]
      simp [hm]
  · by_cases hm : m = n
    · subst hm
      rw [World.get_remove_self] at hget
      cases hget
    · rw [World.get_remove_of_ne (by simpa using hm)] at hget
      exact h.pending m found hget

end CountsFailures

variable (codec source) in
/-- What a checkpoint of the source promises about the destination. -/
structure Progress (cp : Checkpoint) (w : World) : Prop where
  database : cp.sourceDatabaseId = source.databaseId codec
  holds : HoldsCopied codec source cp.retentionStartedAt w
  stable : ∀ row ∈ source.rows, row.sourceOrderingKey ≤ cp.lastStableSourceOrderingKey →
    Copied codec source w row
  migrated : cp.migratedCount = (source.rowsThrough cp.lastStableSourceOrderingKey).length
  failed : CountsFailures cp.sourceDatabaseId cp.failedCount w
  completed : cp.completed = true → cp.toSourceDescriptor = source.info codec false ∧
    ∀ row ∈ source.rows, Copied codec source w row

/-- The keys that decide about the progress. -/
def ProgressKey (k : Key) : Prop := ImageKey k ∨ ∃ db n, k = .migration (.failure db n)

/-- A checkpoint as far advanced keeps its promise as long as the image stays. -/
theorem Progress.of_frame {cp cp' : Checkpoint} (h : Progress codec source cp u)
    (hframe : ∀ k, ImageKey k → t.get k = u.get k)
    (hfailed : CountsFailures cp'.sourceDatabaseId cp'.failedCount t)
    (hdatabase : cp'.sourceDatabaseId = source.databaseId codec)
    (hstarted : cp'.retentionStartedAt = cp.retentionStartedAt)
    (hstable : cp'.lastStableSourceOrderingKey = cp.lastStableSourceOrderingKey)
    (hmigrated : cp'.migratedCount = cp.migratedCount)
    (hcompleted : cp'.completed = true → cp'.toSourceDescriptor = source.info codec false ∧
      ∀ row ∈ source.rows, Copied codec source u row) : Progress codec source cp' t := by
  have hcopied : ∀ row, Copied codec source t row ↔ Copied codec source u row :=
    fun row => copied_congr hframe
  refine ⟨hdatabase, ?_, fun row hrow hle => ?_, ?_, hfailed, fun hdone =>
    ⟨(hcompleted hdone).1, fun row hrow => (hcopied row).mpr ((hcompleted hdone).2 row hrow)⟩⟩
  · rw [hstarted]
    exact h.holds.of_frame hframe
  · rw [hstable] at hle
    exact (hcopied row).mpr (h.stable row hrow hle)
  · rw [hmigrated, hstable]
    exact h.migrated

/-! ## The corpus of the copied rows -/

/-- The source records of a database come in the order of their keys. -/
theorem sourceRecordsOf_ascending (db : String) (w : World) :
    (sourceRecordsOf db w).Pairwise fun a b => a.1 < b.1 := by
  refine Store.pairwise_scan_lt Prod.fst fun k v k' v' a a' _ _ hk hk' heq => ?_
  have hfirst : k = .migration (.source db a.1) := by
    split at hk
    · split at hk
      · next hdb =>
        cases hk
        rw [hdb]
      · cases hk
    · cases hk
  have hsecond : k' = .migration (.source db a'.1) := by
    split at hk'
    · split at hk'
      · next hdb =>
        cases hk'
        rw [hdb]
      · cases hk'
    · cases hk'
  rw [hfirst, hsecond, heq]

variable {w : World}

theorem mem_sourceRecordsOf {db : String} {n : Nat} {record : SourceRecord} :
    (n, record) ∈ sourceRecordsOf db w ↔ w.get (.migration (.source db n)) = some record := by
  rw [sourceRecordsOf, Store.mem_scan]
  constructor
  · rintro ⟨k, v, hget, hselect⟩
    split at hselect
    · split at hselect
      · next hdb =>
        cases hselect
        rw [← hdb]
        exact hget
      · cases hselect
    · cases hselect
  · intro hget
    exact ⟨.migration (.source db n), record, hget, if_pos rfl⟩

/-- Read in pages, they are the same. -/
theorem destinationSourceRecords_eq (db : String) {pageSize : Nat} (h : 0 < pageSize)
    (w : World) : destinationSourceRecords db pageSize w = sourceRecordsOf db w :=
  Paging.readPages_eq (sourceRecordsOf_ascending db w) h (fun _ hlast => by simpa using hlast)
    (by simpa using h) (Nat.lt_succ_self _)

theorem migratedCorpus_eq_ok {last : Nat} {records : List (Nat × SourceRecord)}
    {corpus : List (Nat × Digest)} (h : migratedCorpus last records = .ok corpus) :
    corpus = records.map fun record => (record.1, record.2.sourceRecordFingerprint) := by
  induction records generalizing last corpus with
  | nil =>
    cases h
    rfl
  | cons record rest ih =>
    simp only [migratedCorpus] at h
    split at h
    · cases h
    · simp only [bind_ok_iff] at h
      obtain ⟨others, hothers, heq⟩ := h
      cases heq
      rw [ih hothers]
      rfl

theorem corpus_of_holdsCopied (h : HoldsCopied codec source startedAt w)
    (hall : ∀ row ∈ source.rows, Copied codec source w row) :
    ((sourceRecordsOf (source.databaseId codec) w).map fun record =>
      (record.1, record.2.sourceRecordFingerprint)) = source.corpus := by
  have hirrefl : Std.Irrefl fun a b : Nat × Digest => a.1 < b.1 := ⟨fun a => Nat.lt_irrefl _⟩
  have hasymm : Std.Asymm fun a b : Nat × Digest => a.1 < b.1 :=
    ⟨fun a b => fun hab hba => Nat.lt_asymm hab hba⟩
  have hrecord : ∀ row ∈ source.rows, ∃ record : SourceRecord,
      w.get (.migration (.source (source.databaseId codec) row.sourceOrderingKey)) =
        some record ∧ record.sourceRecordFingerprint = row.sourceRecordFingerprint := by
    intro row hrow
    obtain ⟨migrated, hstores⟩ := h.image row hrow (hall row hrow)
    obtain ⟨_, _, _, hmapped, -⟩ := prepareMigratedDocument_eq_ok hstores.prepared
    exact ⟨_, hstores.sourceRecord, by rw [hmapped]; rfl⟩
  have hstored : ((sourceRecordsOf (source.databaseId codec) w).map fun record =>
      (record.1, record.2.sourceRecordFingerprint)).Pairwise fun a b => a.1 < b.1 :=
    List.pairwise_map.mpr (sourceRecordsOf_ascending _ w)
  have hcorpus : source.corpus.Pairwise fun a b => a.1 < b.1 :=
    List.pairwise_map.mpr source.ascending
  refine List.Pairwise.eq_of_mem_iff hstored hcorpus fun ⟨n, digest⟩ => ?_
  constructor
  · intro hmem
    obtain ⟨⟨m, record⟩, hrecordMem, heq⟩ := List.mem_map.mp hmem
    cases heq
    have hget := mem_sourceRecordsOf.mp hrecordMem
    obtain ⟨_, row, hrow, rfl, _⟩ := h.sourceRecords _ m (by rw [hget]; rfl)
    obtain ⟨found, hfound, hfingerprint⟩ := hrecord row hrow
    obtain rfl := Option.some.inj (hget.symm.trans hfound)
    exact List.mem_map.mpr ⟨row, hrow, by rw [hfingerprint]⟩
  · intro hmem
    obtain ⟨row, hrow, heq⟩ := List.mem_map.mp hmem
    cases heq
    obtain ⟨record, hget, hfingerprint⟩ := hrecord row hrow
    exact List.mem_map.mpr ⟨(row.sourceOrderingKey, record), mem_sourceRecordsOf.mpr hget,
      by rw [hfingerprint]⟩

theorem completedSourceInfo_eq_ok {info : SourceDescriptor}
    (h : HoldsCopied codec source startedAt w)
    (hall : ∀ row ∈ source.rows, Copied codec source w row)
    (hinfo : completedSourceInfo codec (source.info codec true)
      (destinationSourceRecords (source.databaseId codec) verificationPageSize w) = .ok info) :
    info = source.info codec false := by
  simp only [completedSourceInfo, bind_ok_iff] at hinfo
  obtain ⟨corpus, hcorpus, heq⟩ := hinfo
  cases heq
  have hpage : 0 < verificationPageSize := Nat.one_pos
  rw [destinationSourceRecords_eq _ hpage] at hcorpus
  rw [migratedCorpus_eq_ok hcorpus, corpus_of_holdsCopied h hall]
  rfl

end ContextStore
