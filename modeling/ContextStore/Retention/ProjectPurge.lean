import ContextStore.Foundation.OrderedScan
import ContextStore.Store.KeyFields
import ContextStore.Store.World

/-! # Project purge

`purgeProjectRecords` sweeps every keyspace in a fixed order, page by page, and deletes the records
one of whose key fields is the project. It refuses while a document version of the project is still
readable. A call sweeps at most `limit` records and returns the cursor to continue from. -/

namespace ContextStore

open KeyValue Concurrent
open Program (require runAlone_bind bind_eq)

def PROJECT_PURGE_PAGE_SIZE : Nat := 10000

def DELETE_BATCH : Nat := 256

/-- Swept in a fixed order so a cursor can resume mid-purge across restarts. -/
def PURGE_KEYSPACES : List String := KEYSPACE.values

variable (codec : KeyCodec)

/-- Whether a field of the key is the project. -/
def keyNamesProject (project : String) (k : Key) : Bool :=
  (k.fields codec).any fun field => decide (field = .string project)

/-! ## The refusal -/

def isDocumentKey : Key → Bool
  | .manifest (.document _ _) => true
  | _ => false

def manifestOf : Entry → Option Manifest
  | ⟨.manifest (.document _ _), manifest⟩ => some manifest
  | _ => none

/-- The stored manifests in key order. -/
def documentManifests (w : World) : List Manifest :=
  (w.store.entriesAfter (Key.sortKey codec) isDocumentKey none).filterMap manifestOf

/-- How many manifests the scan for a readable version looks at. -/
def UNRETIRED_SCAN_LIMIT : Nat := 100000

/-- The first of the listed versions of the project that has no supersession record. -/
def findUnretired (project : String) : List Manifest → Prog (Option DocumentVersionRef)
  | [] => return none
  | manifest :: rest =>
    if manifest.project ≠ project then findUnretired project rest
    else do
      -- Retirement writes a supersession record; the manifest lives on until its cleanup.
      let retired ← Prog.get (.manifest (.supersession manifest.documentId manifest.version))
      if retired = none then
        return some { documentId := manifest.documentId, version := manifest.version }
      else findUnretired project rest

def firstUnretiredDocument (project : String) : Prog (Option DocumentVersionRef) := do
  let manifests ← Program.read fun w => (documentManifests codec w).take UNRETIRED_SCAN_LIMIT
  findUnretired project manifests

/-! ## The sweep -/

structure PurgeCursor where
  keyspace : String
  after : Option Key

structure PurgeProgress where
  scannedKeys : Nat := 0
  deletedKeys : Nat := 0

structure PurgeReport extends PurgeProgress where
  complete : Bool
  cursor : Option PurgeCursor

/-- Groups of at most `size`, in order; the first argument is fuel. -/
def batchesOf {α : Type} (size : Nat) : Nat → List α → List (List α)
  | 0, _ => []
  | _ + 1, [] => []
  | fuel + 1, a :: rest => (a :: rest).take size :: batchesOf size fuel ((a :: rest).drop size)

/-- Delete keys, a transaction for each batch. -/
def deleteKeys (keys : List Key) : Prog Unit :=
  Program.forEach
    (fun batch => Program.transaction (Transaction.forEach (fun k => Txn.remove k) batch))
    (batchesOf DELETE_BATCH keys.length keys)

/-- The stored records of a keyspace behind a cursor, in key order. -/
def keyspaceAfter (keyspace : String) (after : Option Key) (w : World) : List Entry :=
  w.store.entriesAfter (Key.sortKey codec) (fun k => decide (k.keyspace codec = some keyspace))
    after

/-- How the sweep of a keyspace ends. -/
inductive KeyspaceEnd where
  | exhausted (progress : PurgeProgress)
  | limitReached (progress : PurgeProgress) (after : Option Key)

def doomedKeys (project : String) (page : List Entry) : List Key :=
  (page.map (·.1)).filter (keyNamesProject codec project)

/-- The inner loop: one keyspace, page by page. Every page has a record, so with the limit as fuel
    the limit is reached first. -/
def sweepKeyspace (project keyspace : String) (limit : Nat) (reportOnly : Bool) :
    Nat → Option Key → PurgeProgress → Prog KeyspaceEnd
  | 0, after, progress => return .limitReached progress after
  | fuel + 1, after, progress =>
    if limit ≤ progress.scannedKeys then return .limitReached progress after
    else do
      require (∀ a ∈ after, a.keyspace codec = some keyspace)
        (.rangeError "scan.after must identify a key inside the requested prefix.")
      let page ← Program.read fun w => (keyspaceAfter codec keyspace after w).take
        (min (limit - progress.scannedKeys) PROJECT_PURGE_PAGE_SIZE)
      match page.getLast? with
      | none => return .exhausted progress
      | some last => do
        let doomed := doomedKeys codec project page
        if reportOnly then
          sweepKeyspace project keyspace limit reportOnly fuel (some last.1)
            { progress with scannedKeys := progress.scannedKeys + page.length }
        else do
          deleteKeys doomed
          sweepKeyspace project keyspace limit reportOnly fuel (some last.1) {
            scannedKeys := progress.scannedKeys + page.length
            deletedKeys := progress.deletedKeys + doomed.length }

/-- The outer loop, over the keyspaces from the cursor's on. -/
def sweepKeyspaces (project : String) (limit : Nat) (reportOnly : Bool) :
    List String → Option Key → PurgeProgress → Prog PurgeReport
  | [], _, progress => return { progress with complete := true, cursor := none }
  | keyspace :: rest, after, progress => do
    let ended ← sweepKeyspace codec project keyspace limit reportOnly (limit + 1) after progress
    match ended with
    | .exhausted progress => sweepKeyspaces project limit reportOnly rest none progress
    | .limitReached progress after =>
      return { progress with complete := false, cursor := some { keyspace, after } }

def keyspacesFrom (cursor : Option PurgeCursor) : List String :=
  match cursor with
  | none => PURGE_KEYSPACES
  | some cursor => PURGE_KEYSPACES.dropWhile fun keyspace => decide (keyspace ≠ cursor.keyspace)

def unretiredConflict (project : String) (unretired : DocumentVersionRef) : StoreError :=
  .coded "CONFLICT" (s!"Project purge requires every document to be retired; {project} still has "
    ++ s!"{unretired.documentId}@{unretired.version}.")

/-- Delete every record keyed to a project whose documents are all retired. -/
def purgeProjectRecords (project : String) (limit : Nat) (cursor : Option PurgeCursor)
    (reportOnly : Bool) : Prog PurgeReport := do
  require (project ≠ "") (.typeError "Project purge requires a non-empty project.")
  require (0 < limit ∧ limit ≤ 100000) (.rangeError
    "Project purge limit must be a positive safe integer no greater than 100000.")
  let unretired ← firstUnretiredDocument codec project
  match unretired with
  | some unretired => Program.fail (unretiredConflict project unretired)
  | none =>
    sweepKeyspaces codec project limit reportOnly (keyspacesFrom cursor) (cursor.bind (·.after)) {}

/-- Repeat `purgeProjectRecords` until the sweep reports completion. -/
def purgeUntilComplete (project : String) (limit : Nat) (reportOnly : Bool) :
    Nat → Option PurgeCursor → PurgeProgress → Prog PurgeProgress
  | 0, _, _ => Program.fail (.plain "Project purge did not converge.")
  | pages + 1, cursor, progress => do
    let report ← purgeProjectRecords codec project limit cursor reportOnly
    let progress : PurgeProgress := {
      scannedKeys := progress.scannedKeys + report.scannedKeys
      deletedKeys := progress.deletedKeys + report.deletedKeys }
    if report.complete then return progress
    else purgeUntilComplete project limit reportOnly pages report.cursor progress

def purgeProjectRecordsUntilComplete (project : String) (limit : Nat) (reportOnly : Bool) :
    Prog PurgeProgress :=
  purgeUntilComplete codec project limit reportOnly 100000 none {}

/-! ## Deleting a list of keys -/

theorem flatten_batchesOf {α : Type} {size fuel : Nat} {l : List α} (hsize : 0 < size)
    (hfuel : l.length ≤ fuel) : (batchesOf size fuel l).flatten = l := by
  induction fuel generalizing l with
  | zero =>
    obtain rfl : l = [] := List.length_eq_zero_iff.mp (by omega)
    rfl
  | succ fuel ih =>
    cases l with
    | nil => rfl
    | cons a rest =>
      rw [batchesOf, List.flatten_cons, ih, List.take_append_drop]
      rw [List.length_drop]
      omega

theorem runAlone_deleteKeys (keys : List Key) (w : World) :
    (deleteKeys keys).runAlone w = (.ok (), w.removeAll keys) := by
  have hbatches : ∀ (batches : List (List Key)) (w : World), (Program.forEach (fun batch =>
        Program.transaction (Transaction.forEach (fun k => Txn.remove k) batch)) batches
          : Prog Unit).runAlone w = (.ok (), w.removeAll batches.flatten) := by
    intro batches
    induction batches with
    | nil => exact fun w => rfl
    | cons batch rest ih =>
      intro w
      rw [Program.forEach, runAlone_bind, Program.runAlone_transaction, Txn.run_forEach_remove]
      simp only [ih, List.map_id', List.flatten_cons, World.removeAll_append]
  rw [deleteKeys, hbatches, flatten_batchesOf (by decide) (le_refl _)]

/-! ## What a sweep has ahead of it -/

variable {codec} {w : World} {project keyspace : String} {after : Option Key}
  {keyspaces : List String} {e : Entry}

theorem mem_keyspaceAfter : e ∈ keyspaceAfter codec keyspace after w ↔
    w.get e.1 = some e.2 ∧ e.1.keyspace codec = some keyspace ∧
      ∀ a, after = some a → a.sortKey codec < e.1.sortKey codec := by
  rw [keyspaceAfter, Store.mem_entriesAfter, decide_eq_true_iff]
  rfl

theorem keysDistinct_removeAll (h : w.store.KeysDistinct (Key.sortKey codec)) (keys : List Key) :
    (w.removeAll keys).store.KeysDistinct (Key.sortKey codec) := by
  have hget : ∀ k v, (w.removeAll keys).get k = some v → w.get k = some v := by
    intro k v hk
    rw [World.get_removeAll] at hk
    split at hk
    · cases hk
    · exact hk
  exact fun k k' v v' hk hk' => h k k' v v' (hget k v hk) (hget k' v' hk')

theorem mem_doomedKeys {page : List Entry} {k : Key} : k ∈ doomedKeys codec project page ↔
    (∃ v, ⟨k, v⟩ ∈ page) ∧ keyNamesProject codec project k = true := by
  simp only [doomedKeys, List.mem_filter, List.mem_map]
  constructor
  · rintro ⟨⟨e, he, rfl⟩, hnames⟩
    exact ⟨⟨e.2, he⟩, hnames⟩
  · rintro ⟨⟨v, hv⟩, hnames⟩
    exact ⟨⟨⟨k, v⟩, hv, rfl⟩, hnames⟩

theorem doomedKeys_append (page page' : List Entry) :
    doomedKeys codec project (page ++ page') =
      doomedKeys codec project page ++ doomedKeys codec project page' := by
  simp only [doomedKeys, List.map_append, List.filter_append]

/-- Deleting in another keyspace leaves a keyspace as it was. -/
theorem keyspaceAfter_removeAll (h : w.store.KeysDistinct (Key.sortKey codec)) {keys : List Key}
    (hkeys : ∀ k ∈ keys, k.keyspace codec ≠ some keyspace) :
    keyspaceAfter codec keyspace after (w.removeAll keys) =
      keyspaceAfter codec keyspace after w := by
  refine (Store.ascending_entriesAfter (keysDistinct_removeAll h keys)).eq_of_mem_iff
    (Store.ascending_entriesAfter h) fun e => ?_
  change e ∈ keyspaceAfter codec keyspace after _ ↔ e ∈ keyspaceAfter codec keyspace after w
  rw [mem_keyspaceAfter, mem_keyspaceAfter]
  constructor
  · rintro ⟨hget, hks, hafter⟩
    rw [World.get_removeAll_of_not_mem fun hk => hkeys _ hk hks] at hget
    exact ⟨hget, hks, hafter⟩
  · rintro ⟨hget, hks, hafter⟩
    rw [World.get_removeAll_of_not_mem fun hk => hkeys _ hk hks]
    exact ⟨hget, hks, hafter⟩

/-- Behind the last record swept, a keyspace still has what it had there. -/
theorem keyspaceAfter_rest (project : String) (h : w.store.KeysDistinct (Key.sortKey codec))
    {pre post : List Entry} (hlist : keyspaceAfter codec keyspace after w = pre ++ e :: post) :
    keyspaceAfter codec keyspace (some e.1)
      (w.removeAll (doomedKeys codec project (pre ++ [e]))) = post := by
  refine Store.entriesAfter_eq_rest h (keysDistinct_removeAll h _) hlist fun k v hlt => ?_
  have hk : k ∉ doomedKeys codec project (pre ++ [e]) := by
    intro hk
    obtain ⟨⟨v', hv'⟩, -⟩ := mem_doomedKeys.mp hk
    have hasc : Store.Ascending (Key.sortKey codec) (keyspaceAfter codec keyspace after w) :=
      Store.ascending_entriesAfter h
    rw [hlist] at hasc
    rcases List.mem_append.mp hv' with hpre | hlast
    · exact lt_asymm hlt ((List.pairwise_append.mp hasc).2.2 _ hpre e List.mem_cons_self)
    · obtain rfl : ⟨k, v'⟩ = e := List.mem_singleton.mp hlast
      exact lt_irrefl _ hlt
  exact iff_of_eq (congrArg (· = some v) (World.get_removeAll_of_not_mem hk w))

/-! ## One call -/

/-- The counts after sweeping some more records. -/
def PurgeProgress.swept (codec : KeyCodec) (project : String) (progress : PurgeProgress)
    (records : List Entry) : PurgeProgress where
  scannedKeys := progress.scannedKeys + records.length
  deletedKeys := progress.deletedKeys + (doomedKeys codec project records).length

/-- Where the next page starts after sweeping some records from `after` on. -/
def lastKey (after : Option Key) (records : List Entry) : Option Key :=
  (records.getLast?.map (·.1)).or after

@[simp] theorem PurgeProgress.swept_scannedKeys (progress : PurgeProgress) (records : List Entry) :
    (progress.swept codec project records).scannedKeys =
      progress.scannedKeys + records.length := rfl

theorem PurgeProgress.swept_append (progress : PurgeProgress) (page page' : List Entry) :
    (progress.swept codec project page).swept codec project page' =
      progress.swept codec project (page ++ page') := by
  simp only [swept, doomedKeys_append, List.length_append, Nat.add_assoc]

@[simp] theorem lastKey_append_singleton (pre : List Entry) (e : Entry) :
    lastKey after (pre ++ [e]) = some e.1 := by
  simp [lastKey]

theorem lastKey_append (page page' : List Entry) :
    lastKey (lastKey after page) page' = lastKey after (page ++ page') := by
  simp only [lastKey, List.getLast?_append]
  cases page'.getLast? <;> cases page.getLast? <;> rfl

/-- A nonempty page is what the scan has up to the page's last record. -/
theorem keyspaceAfter_eq_page {n : Nat} {last : Entry}
    (hlast : ((keyspaceAfter codec keyspace after w).take n).getLast? = some last) :
    ∃ pre, (keyspaceAfter codec keyspace after w).take n = pre ++ [last] ∧
      keyspaceAfter codec keyspace after w =
        pre ++ last :: (keyspaceAfter codec keyspace after w).drop n := by
  obtain ⟨pre, hpre⟩ := List.getLast?_eq_some_iff.mp hlast
  refine ⟨pre, hpre, ?_⟩
  conv_lhs => rw [← List.take_append_drop n (keyspaceAfter codec keyspace after w), hpre]
  rw [List.append_assoc, List.singleton_append]

/-- The sweep of a keyspace takes the next records up to the limit, deletes those that name the
    project, and reports whether the keyspace ended before the limit did. -/
theorem runAlone_sweepKeyspace (project : String) {limit fuel : Nat} {progress : PurgeProgress}
    (h : w.store.KeysDistinct (Key.sortKey codec))
    (hafter : ∀ a, after = some a → a.keyspace codec = some keyspace)
    (hscanned : progress.scannedKeys ≤ limit) (hfuel : limit - progress.scannedKeys < fuel) :
    (sweepKeyspace codec project keyspace limit false fuel after progress).runAlone w =
      let ahead := keyspaceAfter codec keyspace after w
      let records := ahead.take (limit - progress.scannedKeys)
      (.ok (if ahead.length < limit - progress.scannedKeys
          then .exhausted (progress.swept codec project records)
          else .limitReached (progress.swept codec project records) (lastKey after records)),
        w.removeAll (doomedKeys codec project records)) := by
  induction fuel generalizing after progress w with
  | zero => omega
  | succ fuel ih =>
    dsimp only
    rw [sweepKeyspace]
    by_cases hlimit : limit ≤ progress.scannedKeys
    · rw [if_pos hlimit, Nat.sub_eq_zero_of_le hlimit, if_neg (Nat.not_lt_zero _)]
      rfl
    have hrequire : ∀ a ∈ after, a.keyspace codec = some keyspace := fun a ha => hafter a ha
    rw [if_neg hlimit, require, if_pos hrequire]
    simp only [bind_eq, Program.bind_ok, runAlone_bind, Program.runAlone_read]
    generalize hn : min (limit - progress.scannedKeys) PROJECT_PURGE_PAGE_SIZE = n
    have hpos : 0 < n := by
      rw [← hn, PROJECT_PURGE_PAGE_SIZE]
      omega
    have hle : n ≤ limit - progress.scannedKeys := hn ▸ Nat.min_le_left _ _
    split
    · next hnone =>
      -- An empty page: the keyspace has nothing left.
      have hempty : keyspaceAfter codec keyspace after w = [] := by
        rcases List.take_eq_nil_iff.mp (List.getLast?_eq_none_iff.mp hnone) with h0 | hnil
        · omega
        · exact hnil
      have hleft : ([] : List Entry).length < limit - progress.scannedKeys :=
        Nat.lt_of_lt_of_le hpos hle
      rw [hempty, List.take_nil, if_pos hleft]
      rfl
    · next last hlast =>
      obtain ⟨pre, hpage, hsplit⟩ := keyspaceAfter_eq_page hlast
      have hlength : (pre ++ [last]).length ≤ n := hpage ▸ List.length_take_le _ _
      have hmore : 0 < (pre ++ [last]).length := by simp
      have hin : last.1.keyspace codec = some keyspace := by
        have hmem : last ∈ keyspaceAfter codec keyspace after w := by
          rw [hsplit]
          exact List.mem_append_right _ List.mem_cons_self
        exact (mem_keyspaceAfter.mp hmem).2.1
      have hrest := keyspaceAfter_rest project h hsplit
      -- What the limit leaves is the page and then what it leaves of the rest.
      have htake : (keyspaceAfter codec keyspace after w).take (limit - progress.scannedKeys) =
          (pre ++ [last]) ++ ((keyspaceAfter codec keyspace after w).drop n).take
            (limit - progress.scannedKeys - (pre ++ [last]).length) := by
        conv_lhs => rw [← List.take_append_drop n (keyspaceAfter codec keyspace after w), hpage,
          List.take_append, List.take_of_length_le (le_trans hlength hle)]
      have hcount : (keyspaceAfter codec keyspace after w).length =
          (pre ++ [last]).length + ((keyspaceAfter codec keyspace after w).drop n).length := by
        conv_lhs => rw [← List.take_append_drop n (keyspaceAfter codec keyspace after w), hpage,
          List.length_append]
      rw [if_neg (by decide), hpage, runAlone_bind, runAlone_deleteKeys]
      change (sweepKeyspace codec project keyspace limit false fuel (some last.1)
        (progress.swept codec project (pre ++ [last]))).runAlone _ = _
      have hscanned' : (progress.swept codec project (pre ++ [last])).scannedKeys ≤ limit := by
        rw [PurgeProgress.swept_scannedKeys]
        omega
      have hremaining : limit - (progress.swept codec project (pre ++ [last])).scannedKeys =
          limit - progress.scannedKeys - (pre ++ [last]).length := by
        rw [PurgeProgress.swept_scannedKeys]
        omega
      rw [ih (keysDistinct_removeAll h _) (fun a ha => Option.some.inj ha ▸ hin) hscanned'
        (by omega), hrest]
      dsimp only
      have hlastKey : some last.1 = lastKey after (pre ++ [last]) :=
        (lastKey_append_singleton pre last).symm
      rw [hremaining, ← World.removeAll_append, ← doomedKeys_append, hlastKey, lastKey_append,
        PurgeProgress.swept_append, htake, hcount]
      congr 3
      exact propext ⟨fun hlt => by omega, fun hlt => by omega⟩

/-- What is left to sweep, keyspace by keyspace. -/
def recordsAhead (codec : KeyCodec) : List String → Option Key → World → List Entry
  | [], _, _ => []
  | keyspace :: rest, after, w =>
    keyspaceAfter codec keyspace after w ++ recordsAhead codec rest none w

/-- What is left to sweep at a cursor. -/
def aheadOf (codec : KeyCodec) (cursor : Option PurgeCursor) (w : World) : List Entry :=
  recordsAhead codec (keyspacesFrom cursor) (cursor.bind (·.after)) w

/-- A cursor names a key of its own keyspace, as the cursors that calls return do. -/
def CursorOk (codec : KeyCodec) (cursor : Option PurgeCursor) : Prop :=
  ∀ a, cursor.bind (·.after) = some a → a.keyspace codec = (keyspacesFrom cursor).head?

theorem mem_recordsAhead :
    e ∈ recordsAhead codec keyspaces none w ↔
      w.get e.1 = some e.2 ∧ ∃ keyspace ∈ keyspaces, e.1.keyspace codec = some keyspace := by
  induction keyspaces with
  | nil => simp [recordsAhead]
  | cons keyspace rest ih =>
    rw [recordsAhead, List.mem_append, ih, mem_keyspaceAfter]
    simp only [List.mem_cons, exists_eq_or_imp, reduceCtorEq, false_implies, implies_true, and_true]
    exact and_or_left.symm

theorem stored_of_mem_recordsAhead (h : e ∈ recordsAhead codec keyspaces after w) :
    w.get e.1 = some e.2 := by
  cases keyspaces with
  | nil => cases h
  | cons keyspace rest =>
    rcases List.mem_append.mp h with hfirst | hrest
    · exact (mem_keyspaceAfter.mp hfirst).1
    · exact (mem_recordsAhead.mp hrest).1

/-- Deleting in other keyspaces leaves what is ahead as it was. -/
theorem recordsAhead_removeAll (h : w.store.KeysDistinct (Key.sortKey codec)) {keys : List Key}
    (hkeys : ∀ k ∈ keys, ∀ keyspace ∈ keyspaces, k.keyspace codec ≠ some keyspace) :
    recordsAhead codec keyspaces none (w.removeAll keys) = recordsAhead codec keyspaces none w := by
  induction keyspaces with
  | nil => rfl
  | cons keyspace rest ih =>
    rw [recordsAhead, recordsAhead,
      keyspaceAfter_removeAll h fun k hk => hkeys k hk keyspace List.mem_cons_self,
      ih fun k hk keyspace' hmem => hkeys k hk keyspace' (List.mem_cons_of_mem _ hmem)]

theorem keyspacesFrom_suffix (cursor : Option PurgeCursor) :
    keyspacesFrom cursor <:+ PURGE_KEYSPACES := by
  cases cursor with
  | none => exact List.suffix_refl _
  | some cursor => exact List.dropWhile_suffix _

/-- Each keyspace is swept once, so a cursor's keyspace says what is left. -/
theorem keyspacesFrom_eq {rest : List String} (h : keyspace :: rest <:+ PURGE_KEYSPACES) :
    keyspacesFrom (some { keyspace, after }) = keyspace :: rest := by
  obtain ⟨pre, hpre⟩ := h
  have hnodup : (pre ++ keyspace :: rest).Nodup := hpre ▸ (by decide : PURGE_KEYSPACES.Nodup)
  have hnot : ∀ k ∈ pre, k ≠ keyspace :=
    fun k hk => (List.nodup_append.mp hnodup).2.2 k hk keyspace List.mem_cons_self
  rw [keyspacesFrom, ← hpre]
  clear hpre hnodup
  induction pre with
  | nil => simp
  | cons k pre ih =>
    rw [List.cons_append, List.dropWhile_cons_of_pos (by simpa using hnot k List.mem_cons_self)]
    exact ih fun k' hk' => hnot k' (List.mem_cons_of_mem _ hk')

/-- A sweep of what is ahead, up to `remaining` records, from `w` to `t`. -/
structure SweepResult (codec : KeyCodec) (project : String) (remaining : Nat) (ahead : List Entry)
    (w : World) (report : PurgeReport) (t : World) : Prop where
  state : t = w.removeAll (doomedKeys codec project (ahead.take remaining))
  complete : report.complete = true ↔ ahead.length < remaining
  cursorOk : report.complete = false → CursorOk codec report.cursor
  rest : report.complete = false → aheadOf codec report.cursor t = ahead.drop remaining

theorem runAlone_sweepKeyspaces {limit : Nat} (project : String) (progress : PurgeProgress)
    (h : w.store.KeysDistinct (Key.sortKey codec)) (hsuffix : keyspaces <:+ PURGE_KEYSPACES)
    (hafter : ∀ a, after = some a → a.keyspace codec = keyspaces.head?)
    (hscanned : progress.scannedKeys < limit) :
    ∃ report t, (sweepKeyspaces codec project limit false keyspaces after progress).runAlone w =
        (.ok report, t) ∧
      SweepResult codec project (limit - progress.scannedKeys)
        (recordsAhead codec keyspaces after w) w report t := by
  induction keyspaces generalizing after progress w with
  | nil =>
    refine ⟨_, _, rfl, ⟨?_, ?_, nofun, nofun⟩⟩
    · rw [recordsAhead, List.take_nil]
      rfl
    · rw [recordsAhead, List.length_nil]
      exact ⟨fun _ => Nat.sub_pos_of_lt hscanned, fun _ => rfl⟩
  | cons keyspace rest ih =>
    have hsuffix' : rest <:+ PURGE_KEYSPACES := (List.suffix_cons _ _).trans hsuffix
    have hnodup : (keyspace :: rest).Nodup :=
      hsuffix.sublist.nodup (by decide : PURGE_KEYSPACES.Nodup)
    have hrun := runAlone_sweepKeyspace project h
      (fun a ha => (hafter a ha).trans List.head?_cons) hscanned.le
      (Nat.lt_succ_of_le (Nat.sub_le limit progress.scannedKeys))
    dsimp only at hrun
    generalize hfirst : keyspaceAfter codec keyspace after w = first at hrun
    -- What is deleted here does not show in the keyspaces to come.
    have hothers : ∀ n, recordsAhead codec rest none
        (w.removeAll (doomedKeys codec project (first.take n))) =
          recordsAhead codec rest none w := by
      intro n
      refine recordsAhead_removeAll h fun k hk keyspace' hmem heq => ?_
      obtain ⟨⟨v, hv⟩, -⟩ := mem_doomedKeys.mp hk
      have hin : (⟨k, v⟩ : Entry) ∈ keyspaceAfter codec keyspace after w :=
        hfirst ▸ List.mem_of_mem_take hv
      have hsame : k.keyspace codec = some keyspace := (mem_keyspaceAfter.mp hin).2.1
      rw [hsame] at heq
      obtain rfl := Option.some.inj heq
      exact (List.nodup_cons.mp hnodup).1 hmem
    rw [sweepKeyspaces, recordsAhead, hfirst, bind_eq, runAlone_bind, hrun]
    by_cases hshort : first.length < limit - progress.scannedKeys
    · rw [if_pos hshort]
      dsimp only
      have hall : first.take (limit - progress.scannedKeys) = first :=
        List.take_of_length_le hshort.le
      have hswept : (progress.swept codec project first).scannedKeys < limit := by
        rw [PurgeProgress.swept_scannedKeys]
        omega
      have hremaining : limit - (progress.swept codec project first).scannedKeys =
          limit - progress.scannedKeys - first.length := by
        rw [PurgeProgress.swept_scannedKeys]
        omega
      have hothers' := hothers (limit - progress.scannedKeys)
      rw [hall] at hothers' ⊢
      have hstart : ∀ a, (none : Option Key) = some a → a.keyspace codec = rest.head? := nofun
      obtain ⟨report, t, hrest, sweep⟩ := ih (progress.swept codec project first)
        (keysDistinct_removeAll h (doomedKeys codec project first)) hsuffix' hstart hswept
      rw [hothers', hremaining] at sweep
      refine ⟨report, t, hrest, ⟨?_, ?_, sweep.cursorOk, ?_⟩⟩
      · rw [sweep.state, ← World.removeAll_append, ← doomedKeys_append, List.take_append, hall]
      · rw [sweep.complete, List.length_append]
        omega
      · intro hincomplete
        rw [sweep.rest hincomplete, List.drop_append, List.drop_of_length_le hshort.le,
          List.nil_append]
    · rw [if_neg hshort]
      -- The limit falls into this keyspace: the cursor is the last record swept.
      obtain ⟨last, hlast⟩ : ∃ last, (first.take (limit - progress.scannedKeys)).getLast? =
          some last := by
        cases hlast : (first.take (limit - progress.scannedKeys)).getLast? with
        | some last => exact ⟨last, rfl⟩
        | none =>
          have hlength := List.length_take_of_le (Nat.le_of_not_lt hshort)
          rw [List.getLast?_eq_none_iff.mp hlast, List.length_nil] at hlength
          omega
      obtain ⟨pre, hpage, hsplit⟩ := keyspaceAfter_eq_page (hfirst ▸ hlast)
      rw [hfirst] at hpage hsplit
      have hin : last.1.keyspace codec = some keyspace := by
        have hmem : last ∈ keyspaceAfter codec keyspace after w := by
          rw [hfirst, hsplit]
          exact List.mem_append_right _ List.mem_cons_self
        exact (mem_keyspaceAfter.mp hmem).2.1
      have hrest := keyspaceAfter_rest project h (hfirst.trans hsplit)
      have htake : (first ++ recordsAhead codec rest none w).take
          (limit - progress.scannedKeys) = pre ++ [last] := by
        rw [List.take_append_of_le_length (Nat.le_of_not_lt hshort), hpage]
      rw [hpage, lastKey_append_singleton]
      have hothers' := hothers (limit - progress.scannedKeys)
      rw [hpage] at hothers'
      refine ⟨_, _, rfl, ⟨?_, ?_, ?_, ?_⟩⟩
      · rw [htake]
      · rw [List.length_append]
        exact ⟨nofun, fun hlt => by omega⟩
      · rintro - a ha
        rw [keyspacesFrom_eq hsuffix]
        exact Option.some.inj ha ▸ hin
      · rintro -
        dsimp only
        rw [aheadOf, keyspacesFrom_eq hsuffix, recordsAhead, Option.bind_some, hrest, hothers',
          List.drop_append_of_le_length (Nat.le_of_not_lt hshort)]

/-! ## The refusal of a call -/

/-- A manifest of the project whose version has no supersession record. -/
def UnretiredManifest (project : String) (w : World) (manifest : Manifest) : Prop :=
  manifest.project = project ∧
    w.get (.manifest (.supersession manifest.documentId manifest.version)) = none

instance (project : String) (w : World) (manifest : Manifest) :
    Decidable (UnretiredManifest project w manifest) :=
  inferInstanceAs (Decidable (_ ∧ _))

/-- Some version of the project is still readable. -/
def Unretired (project : String) (w : World) : Prop :=
  ∃ documentId version, ∃ manifest : Manifest,
    w.get (.manifest (.document documentId version)) = some manifest ∧
      UnretiredManifest project w manifest

/-- Some version of the project is still readable, and its manifest is among those the scan for it
    looks at. -/
def UnretiredSeen (codec : KeyCodec) (project : String) (w : World) : Prop :=
  ∃ manifest ∈ (documentManifests codec w).take UNRETIRED_SCAN_LIMIT,
    UnretiredManifest project w manifest

theorem mem_documentManifests {manifest : Manifest} : manifest ∈ documentManifests codec w ↔
    ∃ documentId version, w.get (.manifest (.document documentId version)) = some manifest := by
  simp only [documentManifests, List.mem_filterMap, Store.mem_entriesAfter]
  constructor
  · rintro ⟨⟨k, v⟩, ⟨hget, -⟩, hmanifest⟩
    unfold manifestOf at hmanifest
    split at hmanifest
    · next documentId version manifest' heq =>
      obtain ⟨rfl, hv⟩ := Sigma.mk.inj heq
      obtain rfl := eq_of_heq hv
      obtain rfl := Option.some.inj hmanifest
      exact ⟨documentId, version, hget⟩
    · cases hmanifest
  · rintro ⟨documentId, version, hget⟩
    refine ⟨⟨.manifest (.document documentId version), manifest⟩, ⟨hget, rfl, ?_⟩, rfl⟩
    intro _ hnone
    cases hnone

theorem UnretiredSeen.unretired (h : UnretiredSeen codec project w) : Unretired project w := by
  obtain ⟨manifest, hmem, hunretired⟩ := h
  obtain ⟨documentId, version, hget⟩ := mem_documentManifests.mp (List.mem_of_mem_take hmem)
  exact ⟨documentId, version, manifest, hget, hunretired⟩

theorem runAlone_findUnretired (manifests : List Manifest) (w : World) :
    (findUnretired project manifests).runAlone w =
      (.ok ((manifests.find? fun manifest => decide (UnretiredManifest project w manifest)).map
        fun manifest => { documentId := manifest.documentId, version := manifest.version }), w) := by
  induction manifests with
  | nil => rfl
  | cons manifest rest ih =>
    rw [findUnretired]
    by_cases hproject : manifest.project = project
    · rw [if_neg (not_not_intro hproject), bind_eq, Prog.get, runAlone_bind, Program.runAlone_read]
      dsimp only
      by_cases hretired :
          w.get (.manifest (.supersession manifest.documentId manifest.version)) = none
      · have hunretired : UnretiredManifest project w manifest := ⟨hproject, hretired⟩
        rw [if_pos hretired, List.find?_cons, decide_eq_true hunretired]
        rfl
      · have hnot : ¬ UnretiredManifest project w manifest := fun h => hretired h.2
        rw [if_neg hretired, ih, List.find?_cons, decide_eq_false hnot]
    · have hnot : ¬ UnretiredManifest project w manifest := fun h => hproject h.1
      rw [if_pos hproject, ih, List.find?_cons, decide_eq_false hnot]

/-- The first readable version, if the scan sees one. -/
theorem runAlone_firstUnretiredDocument (codec : KeyCodec) (project : String) (w : World) :
    ∃ found, (firstUnretiredDocument codec project).runAlone w = (.ok found, w) ∧
      (found = none ↔ ¬ UnretiredSeen codec project w) := by
  refine ⟨_, by
    rw [firstUnretiredDocument, bind_eq, runAlone_bind, Program.runAlone_read]
    exact runAlone_findUnretired _ w, ?_⟩
  rw [Option.map_eq_none_iff, List.find?_eq_none]
  simp only [decide_eq_true_eq, UnretiredSeen, not_exists, not_and]

/-- A limit that the call accepts. -/
def LimitOk (limit : Nat) : Prop := 0 < limit ∧ limit ≤ 100000

variable {limit : Nat} {cursor : Option PurgeCursor} {reportOnly : Bool}

/-- A call that is asked right either refuses or sweeps. -/
theorem runAlone_purgeProjectRecords (hproject : project ≠ "") (hlimit : LimitOk limit)
    {found : Option DocumentVersionRef}
    (hfound : (firstUnretiredDocument codec project).runAlone w = (.ok found, w)) :
    (purgeProjectRecords codec project limit cursor reportOnly).runAlone w = (match found with
        | some unretired => Program.fail (unretiredConflict project unretired)
        | none => sweepKeyspaces codec project limit reportOnly (keyspacesFrom cursor)
            (cursor.bind (·.after)) {} : Prog PurgeReport).runAlone w := by
  have hlimit' : 0 < limit ∧ limit ≤ 100000 := hlimit
  rw [purgeProjectRecords, require, if_pos hproject, require, if_pos hlimit']
  simp only [bind_eq, Program.bind_ok, runAlone_bind, hfound]
  cases found <;> rfl

/-- A call with bad arguments changes nothing. -/
theorem purgeProjectRecords_badArguments (codec : KeyCodec) (cursor : Option PurgeCursor)
    (reportOnly : Bool) (w : World) (h : ¬ (project ≠ "" ∧ LimitOk limit)) :
    ∃ e, (purgeProjectRecords codec project limit cursor reportOnly).runAlone w =
      (.error e, w) := by
  rw [purgeProjectRecords, require]
  by_cases hproject : project ≠ ""
  · have hlimit : ¬ (0 < limit ∧ limit ≤ 100000) := fun hlimit => h ⟨hproject, hlimit⟩
    rw [if_pos hproject, require, if_neg hlimit]
    exact ⟨_, rfl⟩
  · rw [if_neg hproject]
    exact ⟨_, rfl⟩

/-- A refused call changes nothing, and says which version is readable. -/
theorem purgeProjectRecords_refuses (cursor : Option PurgeCursor) (reportOnly : Bool)
    (hproject : project ≠ "") (hlimit : LimitOk limit)
    (h : UnretiredSeen codec project w) :
    ∃ unretired, (purgeProjectRecords codec project limit cursor reportOnly).runAlone w =
      (.error (unretiredConflict project unretired), w) := by
  obtain ⟨found, hrun, hfound⟩ := runAlone_firstUnretiredDocument codec project w
  cases found with
  | none => exact absurd h (hfound.mp rfl)
  | some unretired => exact ⟨unretired, runAlone_purgeProjectRecords hproject hlimit hrun⟩

theorem purgeProjectRecords_sweeps (hdistinct : w.store.KeysDistinct (Key.sortKey codec))
    (hproject : project ≠ "") (hlimit : LimitOk limit) (hcursor : CursorOk codec cursor)
    (h : ¬ UnretiredSeen codec project w) :
    ∃ report t, (purgeProjectRecords codec project limit cursor false).runAlone w =
        (.ok report, t) ∧
      SweepResult codec project limit (aheadOf codec cursor w) w report t := by
  obtain ⟨found, hrun, hfound⟩ := runAlone_firstUnretiredDocument codec project w
  obtain rfl := hfound.mpr h
  obtain ⟨report, t, hsweep, hresult⟩ :=
    runAlone_sweepKeyspaces project {} hdistinct (keyspacesFrom_suffix cursor) hcursor hlimit.1
  exact ⟨report, t, (runAlone_purgeProjectRecords hproject hlimit hrun).trans hsweep, hresult⟩

/-- A call whose cursor names a key of another keyspace changes nothing. -/
theorem purgeProjectRecords_badCursor (hcursor : ¬ CursorOk codec cursor) :
    ((purgeProjectRecords codec project limit cursor false).runAlone w).2 = w := by
  by_cases harguments : project ≠ "" ∧ LimitOk limit
  swap
  · obtain ⟨e, hrun⟩ := purgeProjectRecords_badArguments codec cursor false w harguments
    rw [hrun]
  obtain ⟨hproject, hlimit⟩ := harguments
  obtain ⟨found, hrun, -⟩ := runAlone_firstUnretiredDocument codec project w
  rw [runAlone_purgeProjectRecords hproject hlimit hrun]
  cases found with
  | some unretired => rfl
  | none =>
    cases hkeyspaces : keyspacesFrom cursor with
    | nil => rfl
    | cons keyspace rest =>
      have hbad : ¬ ∀ a ∈ cursor.bind (·.after), a.keyspace codec = some keyspace := by
        intro hgood
        refine hcursor fun a ha => ?_
        rw [hkeyspaces]
        exact hgood a ha
      have hpos : ¬ limit ≤ (0 : Nat) := Nat.not_le_of_lt hlimit.1
      dsimp only
      rw [sweepKeyspaces, sweepKeyspace, if_neg hpos, require, if_neg hbad]
      rfl

end ContextStore
