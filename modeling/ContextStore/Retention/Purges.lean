import ContextStore.Retention.ProjectPurge

/-! # Purges of a project

Calls that follow each other's cursors delete every record they are meant to. What they delete
beyond that, and when a call is refused, is compared with what a purge is for. -/

namespace ContextStore

open KeyValue Concurrent

variable {codec : KeyCodec} {w : World} {project : String} {limit : Nat}
variable {cursor : Option PurgeCursor}

/-! ## Whole purges -/

/-- A key of one of the keyspaces that are swept. -/
def Swept (codec : KeyCodec) (k : Key) : Prop :=
  ∃ keyspace ∈ PURGE_KEYSPACES, k.keyspace codec = some keyspace

theorem swept_of_mem_aheadOf {e : Entry} (h : e ∈ aheadOf codec cursor w) : Swept codec e.1 := by
  have hsub : ∀ keyspace ∈ keyspacesFrom cursor, keyspace ∈ PURGE_KEYSPACES :=
    fun _ hk => (keyspacesFrom_suffix cursor).subset hk
  unfold aheadOf at h
  cases hkeyspaces : keyspacesFrom cursor with
  | nil =>
    rw [hkeyspaces] at h
    cases h
  | cons keyspace rest =>
    rw [hkeyspaces] at h hsub
    rcases List.mem_append.mp h with hfirst | hrest
    · exact ⟨keyspace, hsub _ List.mem_cons_self, (mem_keyspaceAfter.mp hfirst).2.1⟩
    · obtain ⟨-, keyspace', hmem, hin⟩ := mem_recordsAhead.mp hrest
      exact ⟨keyspace', hsub _ (List.mem_cons_of_mem _ hmem), hin⟩

/-- A key that a call deletes is stored, in a swept keyspace, and names the project. -/
theorem doomed_of_ahead {k : Key} {n : Nat}
    (h : k ∈ doomedKeys codec project ((aheadOf codec cursor w).take n)) :
    (∃ v, w.get k = some v) ∧ Swept codec k ∧ keyNamesProject codec project k = true := by
  obtain ⟨⟨v, hv⟩, hnames⟩ := mem_doomedKeys.mp h
  have hmem := List.mem_of_mem_take hv
  exact ⟨⟨v, stored_of_mem_recordsAhead hmem⟩, swept_of_mem_aheadOf hmem, hnames⟩

/-- A call leaves the store as it was, or deletes what it sweeps. -/
theorem purgeProjectRecords_state (limit : Nat) (cursor : Option PurgeCursor) (project : String)
    (hdistinct : w.store.KeysDistinct (Key.sortKey codec)) :
    ((purgeProjectRecords codec project limit cursor false).runAlone w).2 = w ∨
      (¬ UnretiredSeen codec project w ∧
        ((purgeProjectRecords codec project limit cursor false).runAlone w).2 =
          w.removeAll (doomedKeys codec project ((aheadOf codec cursor w).take limit))) := by
  by_cases harguments : project ≠ "" ∧ LimitOk limit
  swap
  · obtain ⟨e, hrun⟩ := purgeProjectRecords_badArguments codec cursor false w harguments
    exact .inl (by rw [hrun])
  obtain ⟨hproject, hlimit⟩ := harguments
  by_cases hseen : UnretiredSeen codec project w
  · obtain ⟨_, hrun⟩ := purgeProjectRecords_refuses cursor false
      hproject hlimit hseen
    exact .inl (by rw [hrun])
  by_cases hcursor : CursorOk codec cursor
  · obtain ⟨report, t, hrun, hsweep⟩ := purgeProjectRecords_sweeps hdistinct hproject hlimit
      hcursor hseen
    refine .inr ⟨hseen, ?_⟩
    rw [hrun, hsweep.state]
  · exact .inl (purgeProjectRecords_badCursor hcursor)

/-- Calls that follow each other's cursors until one reports completion, with nothing else going
    on. -/
inductive PurgeCalls (codec : KeyCodec) (project : String) :
    Option PurgeCursor → World → World → Prop where
  | last {cursor : Option PurgeCursor} {w t : World} {limit : Nat} {report : PurgeReport}
      (hrun : (purgeProjectRecords codec project limit cursor false).runAlone w = (.ok report, t))
      (hcomplete : report.complete = true) : PurgeCalls codec project cursor w t
  | next {cursor : Option PurgeCursor} {w t u : World} {limit : Nat} {report : PurgeReport}
      (hrun : (purgeProjectRecords codec project limit cursor false).runAlone w = (.ok report, t))
      (hincomplete : report.complete = false)
      (hrest : PurgeCalls codec project report.cursor t u) : PurgeCalls codec project cursor w u

/-- A call that returns has swept. -/
theorem purgeProjectRecords_ok {report : PurgeReport} {t : World}
    (hdistinct : w.store.KeysDistinct (Key.sortKey codec)) (hcursor : CursorOk codec cursor)
    (hrun : (purgeProjectRecords codec project limit cursor false).runAlone w = (.ok report, t)) :
    SweepResult codec project limit (aheadOf codec cursor w) w report t := by
  by_cases harguments : project ≠ "" ∧ LimitOk limit
  swap
  · obtain ⟨e, hbad⟩ := purgeProjectRecords_badArguments codec cursor false w harguments
    rw [hrun] at hbad
    cases hbad
  obtain ⟨hproject, hlimit⟩ := harguments
  by_cases hseen : UnretiredSeen codec project w
  · obtain ⟨_, hrefused⟩ := purgeProjectRecords_refuses cursor false
      hproject hlimit hseen
    rw [hrun] at hrefused
    cases hrefused
  · obtain ⟨report', t', hrun', hsweep⟩ := purgeProjectRecords_sweeps hdistinct hproject hlimit
      hcursor hseen
    rw [hrun] at hrun'
    cases hrun'
    exact hsweep

theorem PurgeCalls.purged {t : World} (h : PurgeCalls codec project cursor w t)
    (hdistinct : w.store.KeysDistinct (Key.sortKey codec)) (hcursor : CursorOk codec cursor)
    (hahead : ∀ e : Entry, w.get e.1 = some e.2 → Swept codec e.1 →
      keyNamesProject codec project e.1 = true → e ∈ aheadOf codec cursor w) :
    ∀ e : Entry, t.get e.1 = some e.2 → w.get e.1 = some e.2 ∧
      ¬ (Swept codec e.1 ∧ keyNamesProject codec project e.1 = true) := by
  -- What a call leaves was there before, and is still ahead if it is to be deleted.
  have hleft : ∀ {n : Nat} {cursor : Option PurgeCursor} {w : World},
      (∀ e : Entry, w.get e.1 = some e.2 → Swept codec e.1 →
        keyNamesProject codec project e.1 = true → e ∈ aheadOf codec cursor w) →
      ∀ e : Entry, (w.removeAll (doomedKeys codec project
          ((aheadOf codec cursor w).take n))).get e.1 = some e.2 →
        w.get e.1 = some e.2 ∧ (Swept codec e.1 → keyNamesProject codec project e.1 = true →
          e ∈ (aheadOf codec cursor w).drop n) := by
    intro n cursor w hahead e hget
    rw [World.get_removeAll] at hget
    split at hget
    · cases hget
    · next hkept =>
      refine ⟨hget, fun hswept hnames => ?_⟩
      have hmem := hahead e hget hswept hnames
      rw [← List.take_append_drop n (aheadOf codec cursor w)] at hmem
      refine (List.mem_append.mp hmem).resolve_left fun htaken => hkept ?_
      exact mem_doomedKeys.mpr ⟨⟨e.2, htaken⟩, hnames⟩
  induction h with
  | @last cursor w t limit report hrun hcomplete =>
    intro e hget
    have hsweep := purgeProjectRecords_ok hdistinct hcursor hrun
    rw [hsweep.state] at hget
    obtain ⟨hbefore, hstill⟩ := hleft hahead e hget
    refine ⟨hbefore, fun ⟨hswept, hnames⟩ => ?_⟩
    have hmem := hstill hswept hnames
    rw [List.drop_of_length_le (hsweep.complete.mp hcomplete).le] at hmem
    cases hmem
  | @next cursor w t u limit report hrun hincomplete hrest ih =>
    intro e hget
    have hsweep := purgeProjectRecords_ok hdistinct hcursor hrun
    have hstep : ∀ e : Entry, t.get e.1 = some e.2 → w.get e.1 = some e.2 ∧
        (Swept codec e.1 → keyNamesProject codec project e.1 = true →
          e ∈ (aheadOf codec cursor w).drop limit) := by
      intro e hget
      rw [hsweep.state] at hget
      exact hleft hahead e hget
    have hdistinct' : t.store.KeysDistinct (Key.sortKey codec) :=
      hsweep.state ▸ keysDistinct_removeAll hdistinct _
    obtain ⟨hbefore, hgone⟩ := ih hdistinct' (hsweep.cursorOk hincomplete)
      (fun e hget hswept hnames => by
        rw [hsweep.rest hincomplete]
        exact (hstep e hget).2 hswept hnames) e hget
    exact ⟨(hstep e hbefore).1, hgone⟩

/-- A purge that is not refused and deletes no supersession record gets to its end, and leaves
    every keyspace alone that is not swept. -/
theorem exists_purgeCalls (hdistinct : w.store.KeysDistinct (Key.sortKey codec))
    (hproject : project ≠ "") (hcursor : CursorOk codec cursor) (hretired : ¬ Unretired project w)
    (hsupersession : ∀ documentId version,
      w.get (.manifest (.supersession documentId version)) ≠ none →
        keyNamesProject codec project (.manifest (.supersession documentId version)) = false) :
    ∃ t, PurgeCalls codec project cursor w t ∧ ∀ k, ¬ Swept codec k → t.get k = w.get k := by
  generalize hlength : (aheadOf codec cursor w).length = n
  induction n using Nat.strong_induction_on generalizing cursor w with
  | _ n ih =>
    have hseen : ¬ UnretiredSeen codec project w := fun hseen => hretired hseen.unretired
    obtain ⟨report, t, hrun, hsweep⟩ := purgeProjectRecords_sweeps hdistinct
      hproject (⟨by decide, le_refl _⟩ : LimitOk 100000) hcursor hseen
    have hframe : ∀ k, ¬ Swept codec k → t.get k = w.get k := by
      intro k hk
      rw [hsweep.state]
      refine World.get_removeAll_of_not_mem (fun hdoomed => ?_) w
      exact hk (doomed_of_ahead hdoomed).2.1
    have hkept : ∀ documentId version, t.get (.manifest (.supersession documentId version)) =
        w.get (.manifest (.supersession documentId version)) := by
      intro documentId version
      rw [hsweep.state]
      refine World.get_removeAll_of_not_mem (fun hdoomed => ?_) w
      obtain ⟨⟨v, hv⟩, -, hnames⟩ := doomed_of_ahead hdoomed
      rw [hsupersession documentId version (by rw [hv]; exact Option.some_ne_none v)] at hnames
      cases hnames
    have hretired' : ¬ Unretired project t := by
      rintro ⟨documentId, version, manifest, hget, hproject, hnone⟩
      rw [hsweep.state, World.get_removeAll] at hget
      split at hget
      · cases hget
      · exact hretired ⟨documentId, version, manifest, hget, hproject, (hkept _ _).symm.trans hnone⟩
    cases hcomplete : report.complete with
    | true => exact ⟨t, .last hrun hcomplete, hframe⟩
    | false =>
      have hmany : 100000 ≤ n := by
        have hnot := mt hsweep.complete.mpr (by rw [hcomplete]; decide)
        omega
      have hfewer : (aheadOf codec report.cursor t).length < n := by
        rw [hsweep.rest hcomplete, List.length_drop]
        omega
      obtain ⟨u, hcalls, hframe'⟩ := ih _ hfewer
        (hsweep.state ▸ keysDistinct_removeAll hdistinct _) (hsweep.cursorOk hcomplete) hretired'
        (fun documentId version hstored =>
          hsupersession documentId version (by rwa [← hkept documentId version])) rfl
      exact ⟨u, .next hrun hcomplete hcalls, fun k hk => (hframe' k hk).trans (hframe k hk)⟩

/-- A stored record of a swept keyspace is the next one to sweep at some cursor. -/
theorem exists_cursor_at (hdistinct : w.store.KeysDistinct (Key.sortKey codec)) {e : Entry}
    (hget : w.get e.1 = some e.2) (hswept : Swept codec e.1) :
    ∃ cursor, CursorOk codec cursor ∧ (aheadOf codec cursor w).take 1 = [e] := by
  obtain ⟨keyspace, hmem, hin⟩ := hswept
  obtain ⟨before, rest, hsplit⟩ := List.append_of_mem hmem
  have hsuffix : keyspace :: rest <:+ PURGE_KEYSPACES := ⟨before, hsplit.symm⟩
  have hscan : e ∈ keyspaceAfter codec keyspace none w := mem_keyspaceAfter.mpr ⟨hget, hin, nofun⟩
  obtain ⟨pre, post, hlist⟩ := List.append_of_mem hscan
  rcases List.eq_nil_or_concat pre with rfl | ⟨pre', p, rfl⟩
  · refine ⟨some { keyspace, after := none }, nofun, ?_⟩
    rw [aheadOf, keyspacesFrom_eq hsuffix, recordsAhead, Option.bind_some, hlist]
    rfl
  · rw [List.concat_eq_append, List.append_assoc, List.singleton_append] at hlist
    have hrest : keyspaceAfter codec keyspace (some p.1) w = e :: post :=
      Store.entriesAfter_eq_rest hdistinct hdistinct hlist fun _ _ _ => Iff.rfl
    have hp : p ∈ keyspaceAfter codec keyspace none w := by
      rw [hlist]
      exact List.mem_append_right _ List.mem_cons_self
    refine ⟨some { keyspace, after := some p.1 }, ?_, ?_⟩
    · intro a ha
      rw [keyspacesFrom_eq hsuffix]
      exact Option.some.inj ha ▸ (mem_keyspaceAfter.mp hp).2.1
    · rw [aheadOf, keyspacesFrom_eq hsuffix, recordsAhead, Option.bind_some, hrest]
      rfl

/-! ## What a purge is for

`owner` says which project a record belongs to, if it belongs to one. -/

/-- The record belongs to another project. -/
def OwnedByOther (owner : Entry → Option String) (project : String) (e : Entry) : Prop :=
  ∃ other, owner e = some other ∧ other ≠ project

/-- Purging a project leaves the records of other projects alone, gets rid of every key with the
    project in its project position, and is refused while a version of the project is readable. -/
structure PurgesExactly (codec : KeyCodec) (owner : Entry → Option String) (project : String)
    (w : World) : Prop where
  keepsOthers : ∀ (limit : Nat) (cursor : Option PurgeCursor) (e : Entry),
    w.get e.1 = some e.2 → OwnedByOther owner project e →
      ((purgeProjectRecords codec project limit cursor false).runAlone w).2.get e.1 = some e.2
  completes : ∀ t, PurgeCalls codec project none w t →
    ∀ k, k.project codec = some project → t.get k = none
  refuses : Unretired project w → ∀ (limit : Nat) (cursor : Option PurgeCursor), LimitOk limit →
    ∃ unretired, (purgeProjectRecords codec project limit cursor false).runAlone w =
      (.error (unretiredConflict project unretired), w)

/-- The scan sees a readable version; or there is none, no record of another project in a swept
    keyspace has a key field equal to the project, and every key with the project in its project
    position is in a swept keyspace. -/
def PurgeSafe (codec : KeyCodec) (owner : Entry → Option String) (project : String)
    (w : World) : Prop :=
  UnretiredSeen codec project w ∨
    (¬ Unretired project w ∧ (∀ e : Entry, w.get e.1 = some e.2 → Swept codec e.1 →
        keyNamesProject codec project e.1 = true → ¬ OwnedByOther owner project e) ∧
      ∀ k, w.get k ≠ none → k.project codec = some project → Swept codec k)

variable {owner : Entry → Option String}

theorem PurgeSafe.purgesExactly (hdistinct : w.store.KeysDistinct (Key.sortKey codec))
    (hproject : project ≠ "") (h : PurgeSafe codec owner project w) :
    PurgesExactly codec owner project w := by
  rcases h with hseen | ⟨hretired, hothers, hpositions⟩
  · refine ⟨fun limit cursor e hget _ => ?_, fun t hcalls => ?_, fun _ limit cursor hlimit => ?_⟩
    · rcases purgeProjectRecords_state limit cursor project hdistinct with hsame | ⟨hnot, -⟩
      · rw [hsame]
        exact hget
      · exact absurd hseen hnot
    · have hnever : ∀ {cursor limit report t}, (purgeProjectRecords codec project limit cursor
          false).runAlone w ≠ (.ok report, t) := by
        intro cursor limit report t hrun
        by_cases hlimit : LimitOk limit
        · obtain ⟨_, hrefused⟩ := purgeProjectRecords_refuses cursor false hproject hlimit hseen
          rw [hrun] at hrefused
          cases hrefused
        · have harguments : ¬ (project ≠ "" ∧ LimitOk limit) := fun h => hlimit h.2
          obtain ⟨_, hbad⟩ := purgeProjectRecords_badArguments codec cursor false w harguments
          rw [hrun] at hbad
          cases hbad
      cases hcalls with
      | last hrun => exact absurd hrun hnever
      | next hrun => exact absurd hrun hnever
    · exact purgeProjectRecords_refuses cursor false hproject hlimit hseen
  · refine ⟨fun limit cursor e hget hother => ?_, fun t hcalls k hk => ?_,
      fun hunretired => absurd hunretired hretired⟩
    · rcases purgeProjectRecords_state limit cursor project hdistinct with hsame | ⟨-, hstate⟩
      · rw [hsame]
        exact hget
      · rw [hstate, World.get_removeAll_of_not_mem fun hdoomed => ?_]
        · exact hget
        · obtain ⟨-, hswept, hnames⟩ := doomed_of_ahead hdoomed
          exact hothers e hget hswept hnames hother
    · by_contra hstill
      obtain ⟨v, hv⟩ := Option.ne_none_iff_exists'.mp hstill
      have hall : ∀ e : Entry, w.get e.1 = some e.2 → Swept codec e.1 →
          keyNamesProject codec project e.1 = true → e ∈ aheadOf codec none w :=
        fun e hget hswept _ => mem_recordsAhead.mpr ⟨hget, hswept⟩
      obtain ⟨hbefore, hgone⟩ := hcalls.purged hdistinct nofun hall ⟨k, v⟩ hv
      refine hgone ⟨hpositions k (by rw [hbefore]; exact Option.some_ne_none v) hk, ?_⟩
      rw [keyNamesProject, List.any_eq_true]
      exact ⟨_, Key.project_mem_fields codec hk, decide_eq_true rfl⟩

/-- A purge does what it is meant to where the store is safe to purge, and, where no stored
    supersession record has the project in its key, only there. -/
theorem purges_exactly_iff (hdistinct : w.store.KeysDistinct (Key.sortKey codec))
    (hproject : project ≠ "") :
    (PurgeSafe codec owner project w → PurgesExactly codec owner project w) ∧
      ((∀ documentId version, w.get (.manifest (.supersession documentId version)) ≠ none →
          keyNamesProject codec project (.manifest (.supersession documentId version)) = false) →
        PurgesExactly codec owner project w → PurgeSafe codec owner project w) := by
  refine ⟨PurgeSafe.purgesExactly hdistinct hproject, fun hsupersession h => ?_⟩
  by_cases hunretired : Unretired project w
  · -- Were the readable version out of the scan's sight, the call would not be refused.
    left
    by_contra hseen
    obtain ⟨_, hrefused⟩ := h.refuses hunretired 1 none ⟨by decide, by decide⟩
    have hstart : CursorOk codec none := nofun
    obtain ⟨_, _, hrun, -⟩ := purgeProjectRecords_sweeps hdistinct hproject
      (⟨by decide, by decide⟩ : LimitOk 1) hstart hseen
    rw [hrefused] at hrun
    cases hrun
  have hseen : ¬ UnretiredSeen codec project w := fun hseen => hunretired hseen.unretired
  refine .inr ⟨hunretired, fun e hget hswept hnames hother => ?_, fun k hk hposition => ?_⟩
  · -- A call with limit 1 at the record deletes it.
    obtain ⟨cursor, hcursor, htake⟩ := exists_cursor_at hdistinct hget hswept
    obtain ⟨report, t, hrun, hsweep⟩ := purgeProjectRecords_sweeps hdistinct hproject
      (⟨by decide, by decide⟩ : LimitOk 1) hcursor hseen
    have hkept := h.keepsOthers 1 cursor e hget hother
    have hdoomed : e.1 ∈ doomedKeys codec project [e] :=
      mem_doomedKeys.mpr ⟨⟨e.2, List.mem_cons_self⟩, hnames⟩
    rw [hrun, hsweep.state, htake, World.get_removeAll_of_mem hdoomed] at hkept
    cases hkept
  · by_contra hnot
    have hstart : CursorOk codec none := nofun
    obtain ⟨t, hcalls, hframe⟩ := exists_purgeCalls hdistinct hproject hstart hunretired
      hsupersession
    exact hk ((hframe k hnot).symm.trans (h.completes t hcalls k hposition))

/-! ## Two stores -/

/-- Decision evidence of a project; its keyspace is not swept. -/
def decisionFields (project : String) : List Field :=
  [.string "decision", .string "project", .string project, .number 9, .string "session",
    .string "plan", .number 1, .number 0]

def decisionCodec : KeyCodec where
  uuidText id := toString id.serial
  derivedFields := decisionFields
  derivedProject := some
  derivedProject_mem _ _ h := by cases h; simp [decisionFields]

/-- The project a key is laid out under. -/
def layoutOwner (e : Entry) : Option String := e.1.project decisionCodec

def sessionEntry (project sessionId : String) : Entry :=
  ⟨.manifest (.sessionDocumentReference project sessionId "note" 1),
    { project, sessionId, documentId := "note", documentVersion := 1 }⟩

def storeOf (entries : List Entry) : World :=
  World.putAll { store := Store.empty, uuids := 0, history := [] } entries

/-- A session of project `beta` has the name of project `alpha`, which has a decision on record. -/
def sharedNames : World := storeOf [sessionEntry "beta" "alpha", ⟨.derived "alpha", "evidence"⟩]

theorem purge_deletes_other_projects : ¬ PurgesExactly decisionCodec layoutOwner "alpha"
    sharedNames := by
  intro h
  have hkept := h.keepsOthers 10000 none (sessionEntry "beta" "alpha") (by decide +kernel)
    ⟨"beta", rfl, by decide⟩
  exact absurd hkept (by decide +kernel)

-- The same call reports completion, and the decision of the purged project is still there.
example :
    let call := (purgeProjectRecords decisionCodec "alpha" 10000 none false).runAlone sharedNames
    call.1.toOption.map (·.complete) = some true ∧
      call.2.get (.derived "alpha") = some "evidence" := by
  decide +kernel

def separateNames : World := storeOf [sessionEntry "beta" "work", sessionEntry "alpha" "work"]

theorem get_separateNames {k : Key} (h : separateNames.get k ≠ none) :
    k = (sessionEntry "beta" "work").1 ∨ k = (sessionEntry "alpha" "work").1 := by
  by_contra hnot
  refine h (World.get_putAll_of_not_mem (fun v hmem => hnot ?_) _)
  simp only [List.mem_cons, List.not_mem_nil, or_false] at hmem
  rcases hmem with heq | heq
  · exact .inl (congrArg Sigma.fst heq)
  · exact .inr (congrArg Sigma.fst heq)

theorem separateNames_keysDistinct :
    separateNames.store.KeysDistinct (Key.sortKey decisionCodec) := by
  intro k k' v v' h h' heq
  have hk := get_separateNames (k := k) fun hnone => by cases hnone.symm.trans h
  have hk' := get_separateNames (k := k') fun hnone => by cases hnone.symm.trans h'
  rcases hk with rfl | rfl <;> rcases hk' with rfl | rfl
  · rfl
  · exact absurd heq (by decide +kernel)
  · exact absurd heq (by decide +kernel)
  · rfl

theorem separateNames_purgeSafe : PurgeSafe decisionCodec layoutOwner "alpha" separateNames := by
  refine .inr ⟨?_, fun e hget _ hnames => ?_, fun k hk _ => ?_⟩
  · rintro ⟨documentId, version, manifest, hget, -⟩
    have hk := get_separateNames fun hnone => by cases hnone.symm.trans hget
    simp [sessionEntry] at hk
  · rintro ⟨other, hother, hne⟩
    have hk := get_separateNames fun hnone => by cases hnone.symm.trans hget
    obtain ⟨k, v⟩ := e
    rcases hk with rfl | rfl
    · change keyNamesProject decisionCodec "alpha" (sessionEntry "beta" "work").1 = true at hnames
      exact absurd hnames (by decide +kernel)
    · exact hne (Option.some.inj hother).symm
  · rcases get_separateNames hk with rfl | rfl
    · exact ⟨KEYSPACE.META, by decide, rfl⟩
    · exact ⟨KEYSPACE.META, by decide, rfl⟩

theorem purges_exactly_iff_separateNames :
    PurgesExactly decisionCodec layoutOwner "alpha" separateNames :=
  (purges_exactly_iff separateNames_keysDistinct (by decide)).1 separateNames_purgeSafe

end ContextStore
