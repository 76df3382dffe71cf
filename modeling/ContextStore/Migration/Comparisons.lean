import ContextStore.Migration.CutoverRuns

/-! # The records of comparisons

Each shadow comparison and each verification records a run with a sample of its differences, and a
history lists the runs that are still stored: the most recent ones, and the one that the checkpoint
of the source was verified by. The run, its sample, the list and the removal of what leaves the list
are one transaction. -/

namespace ContextStore

open Concurrent

/-! ## The records of a source -/

namespace World

variable (w : World) (db : String)

/-- The runs that the history of a source lists. -/
def listedRuns : List ListedRun :=
  ((w.get (.migration (.comparisonHistory db))).map fun (history : ComparisonHistory) =>
    history.runs).getD []

/-- The run that the checkpoint of a source was verified by. -/
def pinnedRun : Option Uuid :=
  (w.checkpointOf db).bind fun checkpoint => checkpoint.verification.map (·.runId)

def comparisonAt (id : Uuid) (index : Nat) : Option ComparisonRecord :=
  w.get (.migration (.comparison db id index))

def comparisonRunAt (id : Uuid) : Option ComparisonRun :=
  w.get (.migration (.comparisonRun db id))

end World

/-- The comparison records of a source and what says which of them there are. -/
def ComparisonKey (k : Key) : Prop :=
  ∃ db, (∃ id index, k = .migration (.comparison db id index)) ∨
    (∃ id, k = .migration (.comparisonRun db id)) ∨ k = .migration (.comparisonHistory db) ∨
    k = .migration (.checkpoint db)

/-! ## What recording a run writes -/

section

variable (db : String) (run : ComparisonRun) (records : List ComparisonRecord)
  (previous : List ListedRun) (u : World)

/-- The runs that are listed once `run` is. -/
def listedWith : List ListedRun := retainedRuns (previous ++ [run.toListedRun]) (u.pinnedRun db)

def evictedWith : List ListedRun :=
  (previous ++ [run.toListedRun]).filter fun candidate =>
    candidate.runId ∉ (listedWith db run previous u).map (·.runId)

def writtenComparisons : World :=
  ((u.putAll ((records.zipIdx.map fun record => (record.2, record.1)).map
    (comparisonEntry db run.runId))).put (.migration (.comparisonRun db run.runId)) run).put
    (.migration (.comparisonHistory db)) {
      sourceDatabaseId := db
      runs := listedWith db run previous u
      updatedAt := run.detectedAt }

/-- The state that the transaction of `persistComparisonRun` commits. -/
def recordedComparisons : World :=
  (writtenComparisons db run records previous u).removeAll
    ((evictedWith db run previous u).flatMap (comparisonKeys db))

end

variable {db : String} {run : ComparisonRun} {records : List ComparisonRecord} {u t : World}

theorem run_forEach_putEntry (entries : List Entry) (u : World) :
    (Transaction.forEach putEntry entries).run u = .ok ((), u.putAll entries) := by
  induction entries generalizing u with
  | nil => rfl
  | cons entry rest ih => exact ih (u.put entry.1 entry.2)

theorem run_writeComparisonRun_eq_ok {a : Unit} :
    (writeComparisonRun db run records).run u = .ok (a, t) ↔
      ∃ previous, comparisonHistory db (u.get (.migration (.comparisonHistory db))) = .ok previous ∧
        t = recordedComparisons db run records previous u := by
  simp only [writeComparisonRun, Transaction.run_bind_eq_ok, Txn.run_get_eq_ok,
    Transaction.run_ofExcept_eq_ok, Txn.run_put_eq_ok, Prod.mk.injEq]
  constructor
  · rintro ⟨_, _, ⟨rfl, rfl⟩, previous, _, ⟨hprevious, rfl⟩, _, _, ⟨rfl, rfl⟩, _, v, hrecords, _, _,
      ⟨_, rfl⟩, _, _, ⟨_, rfl⟩, hremove⟩
    obtain rfl := run_forEach_putEntry_ok hrecords
    rw [Txn.run_forEach_remove fun k => k, List.map_id'] at hremove
    exact ⟨previous, hprevious, (Prod.mk.inj (Except.ok.inj hremove)).2.symm⟩
  · rintro ⟨previous, hprevious, rfl⟩
    refine ⟨_, _, ⟨rfl, rfl⟩, previous, _, ⟨hprevious, rfl⟩, _, _, ⟨rfl, rfl⟩, (), _,
      run_forEach_putEntry _ _, (), _, ⟨trivial, rfl⟩, (), _, ⟨trivial, rfl⟩, ?_⟩
    rw [Txn.run_forEach_remove fun k => k, List.map_id']
    rfl

section

variable {previous : List ListedRun} {id : Uuid} {index : Nat}

theorem mem_comparisonKeys {listed : ListedRun} {k : Key} : k ∈ comparisonKeys db listed ↔
    (∃ index < listed.persistedDifferenceCount,
      k = .migration (.comparison db listed.runId index)) ∨
      k = .migration (.comparisonRun db listed.runId) := by
  simp [comparisonKeys, eq_comm]

theorem mem_evictedKeys {evicted : List ListedRun} {k : Key} :
    k ∈ evicted.flatMap (comparisonKeys db) ↔ ∃ listed ∈ evicted,
      (∃ index < listed.persistedDifferenceCount,
        k = .migration (.comparison db listed.runId index)) ∨
        k = .migration (.comparisonRun db listed.runId) := by
  simp only [List.mem_flatMap, mem_comparisonKeys]

theorem mem_comparisonEntries {k : Key} {v : k.Record} :
    (⟨k, v⟩ : Entry) ∈ (records.zipIdx.map fun record => (record.2, record.1)).map
        (comparisonEntry db run.runId) ↔
      ∃ index record, records[index]? = some record ∧
        (⟨k, v⟩ : Entry) = comparisonEntry db run.runId (index, record) := by
  simp only [List.map_map, List.mem_map, Prod.exists, Function.comp_apply,
    List.mem_zipIdx_iff_getElem?]
  constructor
  · rintro ⟨record, index, hrecord, heq⟩
    exact ⟨index, record, hrecord, heq.symm⟩
  · rintro ⟨index, record, hrecord, heq⟩
    exact ⟨record, index, hrecord, heq.symm⟩

/-- Nothing but the comparison records of the source is written. -/
theorem recordedComparisons_frame {k : Key}
    (hcomparison : ∀ id index, k ≠ .migration (.comparison db id index))
    (hrun : ∀ id, k ≠ .migration (.comparisonRun db id))
    (hhistory : k ≠ .migration (.comparisonHistory db)) :
    (recordedComparisons db run records previous u).get k = u.get k := by
  rw [recordedComparisons, World.get_removeAll_of_not_mem, writtenComparisons,
    World.get_put_of_ne hhistory, World.get_put_of_ne (hrun _), World.get_putAll_of_not_mem]
  · intro v hv
    obtain ⟨index, record, -, heq⟩ := mem_comparisonEntries.mp hv
    exact hcomparison _ _ (congrArg Sigma.fst heq)
  · intro hk
    obtain ⟨listed, -, ⟨index, -, heq⟩ | heq⟩ := mem_evictedKeys.mp hk
    · exact hcomparison _ _ heq
    · exact hrun _ heq

@[simp] theorem uuids_recordedComparisons :
    (recordedComparisons db run records previous u).uuids = u.uuids := by
  have hremoved : (recordedComparisons db run records previous u).uuids =
      (writtenComparisons db run records previous u).uuids :=
    (World.removeAll_changesOnly (K := fun _ => True) (fun _ _ => trivial) _).uuids
  have hput : (writtenComparisons db run records previous u).uuids = u.uuids :=
    (World.putAll_changesOnly (K := fun _ => True) (fun _ _ => trivial) u).uuids
  exact hremoved.trans hput

theorem listedRuns_recordedComparisons :
    (recordedComparisons db run records previous u).listedRuns db =
      listedWith db run previous u := by
  rw [World.listedRuns, recordedComparisons, World.get_removeAll_of_not_mem, writtenComparisons,
    World.get_put_self]
  · rfl
  · intro hk
    obtain ⟨listed, -, ⟨index, -, heq⟩ | heq⟩ := mem_evictedKeys.mp hk <;> cases heq

theorem get_comparisonHistory_recordedComparisons :
    (recordedComparisons db run records previous u).get (.migration (.comparisonHistory db)) =
      some {
        sourceDatabaseId := db
        runs := listedWith db run previous u
        updatedAt := run.detectedAt } := by
  rw [recordedComparisons, World.get_removeAll_of_not_mem, writtenComparisons, World.get_put_self]
  intro hk
  obtain ⟨listed, -, ⟨index, -, heq⟩ | heq⟩ := mem_evictedKeys.mp hk <;> cases heq

theorem comparisonRunAt_recordedComparisons :
    (recordedComparisons db run records previous u).comparisonRunAt db id =
      if ∃ listed ∈ evictedWith db run previous u, listed.runId = id then none
      else if id = run.runId then some run else u.comparisonRunAt db id := by
  have hwritten : (writtenComparisons db run records previous u).get
      (.migration (.comparisonRun db id)) =
      if id = run.runId then some run else u.comparisonRunAt db id := by
    rw [writtenComparisons, World.get_put_of_ne (by simp)]
    split
    · next heq =>
      subst heq
      exact World.get_put_self _ _ _
    · next hne =>
      rw [World.get_put_of_ne (by simpa using hne), World.get_putAll_of_not_mem]
      · rfl
      · intro v hv
        obtain ⟨index, record, -, heq⟩ := mem_comparisonEntries.mp hv
        cases congrArg Sigma.fst heq
  rw [World.comparisonRunAt, recordedComparisons, World.get_removeAll, hwritten]
  congr 1
  rw [mem_evictedKeys]
  simp [eq_comm]

theorem isSome_comparisonAt_recordedComparisons :
    ((recordedComparisons db run records previous u).comparisonAt db id index).isSome ↔
      (¬ ∃ listed ∈ evictedWith db run previous u, listed.runId = id ∧
        index < listed.persistedDifferenceCount) ∧
      ((id = run.runId ∧ index < records.length) ∨ (u.comparisonAt db id index).isSome) := by
  have hwritten : ((writtenComparisons db run records previous u).get
      (.migration (.comparison db id index))).isSome ↔
      (id = run.runId ∧ index < records.length) ∨ (u.comparisonAt db id index).isSome := by
    rw [writtenComparisons, World.get_put_of_ne (by simp), World.get_put_of_ne (by simp)]
    by_cases hmem : id = run.runId ∧ index < records.length
    · obtain ⟨rfl, hindex⟩ := hmem
      obtain ⟨found, -, hget⟩ := World.get_putAll_of_mem (mem_comparisonEntries.mpr
        ⟨index, records[index], List.getElem?_eq_getElem hindex, rfl⟩) u
      rw [hget]
      simp [hindex]
    · rw [World.get_putAll_of_not_mem]
      · simp only [hmem, false_or]
        rfl
      · intro v hv
        obtain ⟨index', record, hrecord, heq⟩ := mem_comparisonEntries.mp hv
        have hkey := congrArg Sigma.fst heq
        simp only [comparisonEntry, Key.migration.injEq, MigrationKey.comparison.injEq, true_and]
          at hkey
        obtain ⟨rfl, rfl⟩ := hkey
        exact hmem ⟨rfl, (List.getElem?_eq_some_iff.mp hrecord).1⟩
  rw [World.comparisonAt, recordedComparisons, World.get_removeAll]
  split
  · next hmem =>
    obtain ⟨listed, hlisted, ⟨index', hindex, heq⟩ | heq⟩ := mem_evictedKeys.mp hmem
    · cases heq
      simp only [Option.isSome_none, Bool.false_eq_true, false_iff, not_and]
      exact fun hnot => absurd ⟨listed, hlisted, rfl, hindex⟩ hnot
    · cases heq
  · next hmem =>
    rw [hwritten]
    refine (and_iff_right ?_).symm
    rintro ⟨listed, hlisted, rfl, hindex⟩
    exact hmem (mem_evictedKeys.mpr ⟨listed, hlisted, .inl ⟨index, hindex, rfl⟩⟩)

end

/-! ## Who stays listed -/

section

variable {previous : List ListedRun}

/-- A candidate stays by its identifier alone. -/
def Stays (db : String) (run : ComparisonRun) (previous : List ListedRun) (u : World)
    (id : Uuid) : Prop :=
  id ∈ ((previous ++ [run.toListedRun]).drop ((previous ++ [run.toListedRun]).length -
    comparisonRunLimit)).map (·.runId) ∨ some id = u.pinnedRun db

theorem mem_listedWith {listed : ListedRun} : listed ∈ listedWith db run previous u ↔
    listed ∈ previous ++ [run.toListedRun] ∧ Stays db run previous u listed.runId := by
  simp only [listedWith, retainedRuns, Stays, List.mem_filter, decide_eq_true_eq]

theorem mem_evictedWith {listed : ListedRun} : listed ∈ evictedWith db run previous u ↔
    listed ∈ previous ++ [run.toListedRun] ∧ ¬ Stays db run previous u listed.runId := by
  rw [evictedWith, List.mem_filter, decide_eq_true_eq]
  refine and_congr_right fun hmem => not_congr ?_
  rw [List.mem_map]
  constructor
  · rintro ⟨other, hother, heq⟩
    exact heq ▸ (mem_listedWith.mp hother).2
  · exact fun hstays => ⟨listed, mem_listedWith.mpr ⟨hmem, hstays⟩, rfl⟩

theorem stays_self : Stays db run previous u run.runId := by
  refine .inl (List.mem_map_of_mem (a := run.toListedRun) ?_)
  rw [List.drop_append, List.mem_append]
  right
  rw [show (previous ++ [run.toListedRun]).length - comparisonRunLimit - previous.length = 0 by
    simp [comparisonRunLimit]]
  exact List.mem_singleton_self _

theorem self_mem_listedWith : run.toListedRun ∈ listedWith db run previous u :=
  mem_listedWith.mpr ⟨List.mem_append_right _ (List.mem_singleton_self _), stays_self⟩

theorem nodup_listedWith (h : ((previous ++ [run.toListedRun]).map (·.runId)).Nodup) :
    ((listedWith db run previous u).map (·.runId)).Nodup :=
  h.sublist (List.filter_sublist.map _)

theorem countP_or_le {α : Type} (p q : α → Bool) (l : List α) :
    (l.countP fun a => p a || q a) ≤ l.countP p + l.countP q := by
  induction l with
  | nil => simp
  | cons a rest ih =>
    simp only [List.countP_cons]
    cases p a <;> cases q a <;> simp <;> omega

/-- At most one of the runs that stay is not among the most recent ones. -/
theorem length_listedWith_le (h : ((previous ++ [run.toListedRun]).map (·.runId)).Nodup) :
    (listedWith db run previous u).length ≤ comparisonRunLimit + 1 := by
  rw [listedWith, retainedRuns]
  generalize previous ++ [run.toListedRun] = candidates at h ⊢
  set cut := candidates.length - comparisonRunLimit with hcut
  set recentIds := (candidates.drop cut).map (·.runId) with hrecentIds
  have hrecent : (candidates.countP fun candidate => decide (candidate.runId ∈ recentIds)) ≤
      comparisonRunLimit := by
    have hold : ((candidates.take cut).countP fun candidate =>
        decide (candidate.runId ∈ recentIds)) = 0 := by
      rw [← List.take_append_drop cut candidates, List.map_append, List.nodup_append] at h
      refine List.countP_eq_zero.mpr fun candidate hmem hin => ?_
      exact h.2.2 _ (List.mem_map_of_mem hmem) _ (of_decide_eq_true hin) rfl
    rw [← List.take_append_drop cut candidates, List.countP_append, hold, Nat.zero_add]
    refine Nat.le_trans List.countP_le_length ?_
    rw [List.length_drop]
    omega
  have hpinned : (candidates.countP fun candidate => decide (some candidate.runId = u.pinnedRun db))
      ≤ 1 := by
    cases u.pinnedRun db with
    | none => simp
    | some id =>
      have hcount := List.nodup_iff_count_le_one.mp h id
      rw [List.count, List.countP_map] at hcount
      refine Nat.le_trans (List.countP_mono_left fun candidate _ hid => ?_) hcount
      simpa using hid
  have hor := countP_or_le (fun candidate => decide (candidate.runId ∈ recentIds))
    (fun candidate => decide (some candidate.runId = u.pinnedRun db)) candidates
  rw [← List.countP_eq_length_filter]
  simp only [Bool.decide_or]
  omega

end

/-! ## The invariant -/

/-- The comparison records of a source are those of the listed runs, of which there are few. -/
structure ComparisonsListed (w : World) (db : String) : Prop where
  owner : ∀ history : ComparisonHistory,
    w.get (.migration (.comparisonHistory db)) = some history → history.sourceDatabaseId = db
  runs : ∀ id (record : ComparisonRun), w.comparisonRunAt db id = some record →
    record.runId = id ∧ record.toListedRun ∈ w.listedRuns db
  stored : ∀ listed ∈ w.listedRuns db, (w.comparisonRunAt db listed.runId).isSome
  comparisons : ∀ id index, (w.comparisonAt db id index).isSome ↔
    ∃ listed ∈ w.listedRuns db, listed.runId = id ∧ index < listed.persistedDifferenceCount
  details : ∀ listed ∈ w.listedRuns db, listed.persistedDifferenceCount ≤ comparisonDetailLimit
  length : (w.listedRuns db).length ≤ comparisonRunLimit + 1
  distinct : ((w.listedRuns db).map (·.runId)).Nodup
  drawn : ∀ listed ∈ w.listedRuns db, listed.runId.serial < w.uuids

/-- Besides, the run that the checkpoint was verified by is listed. -/
structure ComparisonsKept (w : World) (db : String) : Prop extends ComparisonsListed w db where
  pinned : ∀ id, w.pinnedRun db = some id → ∃ listed ∈ w.listedRuns db, listed.runId = id

structure ComparisonInv (w : World) : Prop where
  kept : ∀ db, ComparisonsKept w db
  own : ∀ db cp, w.checkpointOf db = some cp → cp.sourceDatabaseId = db

/-- The comparison records of a source are the same. -/
structure SameRecords (db : String) (u v : World) : Prop where
  comparison : ∀ id index, v.comparisonAt db id index = u.comparisonAt db id index
  run : ∀ id, v.comparisonRunAt db id = u.comparisonRunAt db id
  history : v.get (.migration (.comparisonHistory db)) = u.get (.migration (.comparisonHistory db))
  uuids : u.uuids ≤ v.uuids

/-- And so is the checkpoint. -/
structure SameComparisons (db : String) (u v : World) : Prop extends SameRecords db u v where
  checkpoint : v.checkpointOf db = u.checkpointOf db

theorem SameRecords.listedRuns {v : World} (h : SameRecords db u v) :
    v.listedRuns db = u.listedRuns db := by
  rw [World.listedRuns, h.history]
  rfl

namespace SameComparisons

variable {v w : World}

theorem refl (db : String) (u : World) : SameComparisons db u u :=
  ⟨⟨fun _ _ => rfl, fun _ => rfl, rfl, Nat.le_refl _⟩, rfl⟩

theorem trans (h : SameComparisons db u v) (h' : SameComparisons db v w) : SameComparisons db u w :=
  ⟨⟨fun id index => (h'.comparison id index).trans (h.comparison id index),
    fun id => (h'.run id).trans (h.run id), h'.history.trans h.history,
    Nat.le_trans h.uuids h'.uuids⟩, h'.checkpoint.trans h.checkpoint⟩

theorem pinnedRun (h : SameComparisons db u v) : v.pinnedRun db = u.pinnedRun db := by
  rw [World.pinnedRun, h.checkpoint]
  rfl

end SameComparisons

/-- What the rest of the daemon does to the comparisons: nothing. -/
def LeavesComparisons (u v : World) : Prop := ∀ db, SameComparisons db u v

theorem LeavesComparisons.of_frame {v : World} (h : ∀ k, ComparisonKey k → v.get k = u.get k)
    (huuids : u.uuids ≤ v.uuids) : LeavesComparisons u v := fun db =>
  ⟨⟨fun id index => h _ ⟨db, .inl ⟨id, index, rfl⟩⟩, fun id => h _ ⟨db, .inr (.inl ⟨id, rfl⟩)⟩,
    h _ ⟨db, .inr (.inr (.inl rfl))⟩, huuids⟩, h _ ⟨db, .inr (.inr (.inr rfl))⟩⟩

namespace ComparisonsListed

variable {v : World}

theorem of_same (hu : ComparisonsListed u db) (h : SameRecords db u v) :
    ComparisonsListed v db := by
  refine ⟨?_, ?_, ?_, ?_, ?_, ?_, ?_, ?_⟩
  · rw [h.history]
    exact hu.owner
  · intro id record hrecord
    rw [h.run] at hrecord
    rw [h.listedRuns]
    exact hu.runs id record hrecord
  · intro listed hlisted
    rw [h.listedRuns] at hlisted
    rw [h.run]
    exact hu.stored listed hlisted
  · intro id index
    rw [h.comparison, h.listedRuns]
    exact hu.comparisons id index
  · rw [h.listedRuns]
    exact hu.details
  · rw [h.listedRuns]
    exact hu.length
  · rw [h.listedRuns]
    exact hu.distinct
  · rw [h.listedRuns]
    exact fun listed hlisted => Nat.lt_of_lt_of_le (hu.drawn listed hlisted) h.uuids

/-- The history is never found malformed. -/
theorem comparisonHistory_eq_ok (hu : ComparisonsListed u db) :
    comparisonHistory db (u.get (.migration (.comparisonHistory db))) = .ok (u.listedRuns db) := by
  have howner := hu.owner
  have hdetails := hu.details
  have hlength := hu.length
  rw [World.listedRuns] at hdetails hlength ⊢
  cases hhistory : u.get (.migration (.comparisonHistory db)) with
  | none => rfl
  | some history =>
    rw [hhistory] at hdetails hlength
    simp only [Option.map_some, Option.getD_some] at hdetails hlength ⊢
    have hany : (history.runs.any fun run =>
        decide (comparisonDetailLimit < run.persistedDifferenceCount)) = false := by
      rw [List.any_eq_false]
      intro run hrun
      simpa using hdetails run hrun
    rw [comparisonHistory, if_neg (by simpa using howner history hhistory),
      if_neg (by simp [hany]), if_neg (by omega)]

theorem candidates_nodup (hu : ComparisonsListed u db)
    (hfresh : ∀ listed ∈ u.listedRuns db, listed.runId ≠ run.runId) :
    ((u.listedRuns db ++ [run.toListedRun]).map (·.runId)).Nodup := by
  rw [List.map_append, List.nodup_append]
  refine ⟨hu.distinct, List.nodup_singleton _, ?_⟩
  intro id hid id' hid'
  obtain ⟨listed, hlisted, rfl⟩ := List.mem_map.mp hid
  rw [List.map_singleton, List.mem_singleton] at hid'
  rw [hid']
  exact hfresh listed hlisted

end ComparisonsListed

namespace ComparisonsKept

variable {v : World}

theorem of_same (hu : ComparisonsKept u db) (h : SameComparisons db u v) :
    ComparisonsKept v db := by
  refine ⟨hu.toComparisonsListed.of_same h.toSameRecords, ?_⟩
  rw [h.listedRuns, h.pinnedRun]
  exact hu.pinned

/-- Recording a run with a new identifier keeps the records in step with the list. -/
theorem recorded (hu : ComparisonsKept u db) (hdrawn : run.runId.serial < u.uuids)
    (hfresh : ∀ listed ∈ u.listedRuns db, listed.runId ≠ run.runId)
    (hcount : run.persistedDifferenceCount = records.length)
    (hlimit : records.length ≤ comparisonDetailLimit) :
    ComparisonsKept (recordedComparisons db run records (u.listedRuns db) u) db := by
  set t := recordedComparisons db run records (u.listedRuns db) u with ht
  have hlisted : t.listedRuns db = listedWith db run (u.listedRuns db) u :=
    listedRuns_recordedComparisons
  have hnodup := hu.candidates_nodup hfresh
  have hpinned : t.pinnedRun db = u.pinnedRun db := by
    have hcheckpoint : t.checkpointOf db = u.checkpointOf db :=
      recordedComparisons_frame (by simp) (by simp) (by simp)
    rw [World.pinnedRun, hcheckpoint]
    rfl
  have hcandidate : ∀ listed ∈ u.listedRuns db ++ [run.toListedRun],
      listed ∈ u.listedRuns db ∨ listed = run.toListedRun := by
    intro listed hmem
    simpa using hmem
  -- An identifier stays or goes as a whole, so what is evicted is not listed any more.
  have hkeeps : ∀ listed ∈ listedWith db run (u.listedRuns db) u,
      ¬ ∃ evicted ∈ evictedWith db run (u.listedRuns db) u, evicted.runId = listed.runId := by
    rintro listed hmem ⟨evicted, hevicted, hid⟩
    have hgone := (mem_evictedWith.mp hevicted).2
    rw [hid] at hgone
    exact hgone (mem_listedWith.mp hmem).2
  have hstays : ∀ listed ∈ u.listedRuns db, listed ∉ evictedWith db run (u.listedRuns db) u →
        listed ∈ listedWith db run (u.listedRuns db) u := by
    intro listed hmem hnot
    have hmem' := List.mem_append_left [run.toListedRun] hmem
    by_contra hgone
    exact hnot (mem_evictedWith.mpr ⟨hmem', fun h => hgone (mem_listedWith.mpr ⟨hmem', h⟩)⟩)
  refine ⟨⟨?_, ?_, ?_, ?_, ?_, ?_, ?_, ?_⟩, ?_⟩
  · intro history hhistory
    rw [ht, get_comparisonHistory_recordedComparisons] at hhistory
    exact (Option.some.inj hhistory) ▸ rfl
  · intro id record hrecord
    rw [ht, comparisonRunAt_recordedComparisons] at hrecord
    rw [hlisted]
    split at hrecord
    · cases hrecord
    · next hnot =>
      split at hrecord
      · next heq =>
        obtain rfl := Option.some.inj hrecord
        exact ⟨heq.symm, self_mem_listedWith⟩
      · obtain ⟨rfl, hmem⟩ := hu.runs id record hrecord
        exact ⟨rfl, hstays _ hmem fun hevicted => hnot ⟨_, hevicted, rfl⟩⟩
  · intro listed hmem
    rw [hlisted] at hmem
    rw [ht, comparisonRunAt_recordedComparisons, if_neg (hkeeps listed hmem)]
    split
    · rfl
    · next hne =>
      rcases hcandidate listed (mem_listedWith.mp hmem).1 with hold | rfl
      · exact hu.stored listed hold
      · exact absurd rfl hne
  · intro id index
    rw [ht, isSome_comparisonAt_recordedComparisons, hlisted]
    constructor
    · rintro ⟨hnot, ⟨rfl, hindex⟩ | hstored⟩
      · exact ⟨_, self_mem_listedWith, rfl, hcount ▸ hindex⟩
      · obtain ⟨listed, hmem, rfl, hindex⟩ := (hu.comparisons id index).mp hstored
        exact ⟨listed, hstays _ hmem fun hevicted => hnot ⟨_, hevicted, rfl, hindex⟩, rfl, hindex⟩
    · rintro ⟨listed, hmem, rfl, hindex⟩
      have hnot : ¬ ∃ evicted ∈ evictedWith db run (u.listedRuns db) u,
          evicted.runId = listed.runId ∧ index < evicted.persistedDifferenceCount := by
        rintro ⟨evicted, hevicted, hid, -⟩
        exact hkeeps listed hmem ⟨evicted, hevicted, hid⟩
      refine ⟨hnot, ?_⟩
      rcases hcandidate listed (mem_listedWith.mp hmem).1 with hold | rfl
      · exact .inr ((hu.comparisons _ _).mpr ⟨listed, hold, rfl, hindex⟩)
      · exact .inl ⟨rfl, hcount ▸ hindex⟩
  · intro listed hmem
    rw [hlisted] at hmem
    rcases hcandidate listed (mem_listedWith.mp hmem).1 with hold | rfl
    · exact hu.details listed hold
    · exact hcount ▸ hlimit
  · rw [hlisted]
    exact length_listedWith_le hnodup
  · rw [hlisted]
    exact nodup_listedWith hnodup
  · intro listed hmem
    rw [hlisted] at hmem
    rw [ht, uuids_recordedComparisons]
    rcases hcandidate listed (mem_listedWith.mp hmem).1 with hold | rfl
    · exact hu.drawn listed hold
    · exact hdrawn
  · intro id hid
    rw [hpinned] at hid
    obtain ⟨listed, hmem, rfl⟩ := hu.pinned id hid
    rw [hlisted]
    exact ⟨listed, mem_listedWith.mpr ⟨List.mem_append_left _ hmem, .inr hid.symm⟩, rfl⟩

/-- A checkpoint may be written when the run that it was verified by is listed. -/
theorem pin (hu : ComparisonsListed u db) (h : SameRecords db u v)
    (hpinned : ∀ id, v.pinnedRun db = some id → ∃ listed ∈ u.listedRuns db, listed.runId = id) :
    ComparisonsKept v db := by
  refine ⟨hu.of_same h, ?_⟩
  rw [h.listedRuns]
  exact hpinned

end ComparisonsKept

end ContextStore
