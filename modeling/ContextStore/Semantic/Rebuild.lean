import ContextStore.Retrieval.Windows
import ContextStore.Semantic.IndexEntries
import ContextStore.Store.ScanRuns

/-! # Rebuilding the vectors of a project

A rebuild scans the stored versions, and for each that is live its windows, and embeds the spans
anew; the result takes the place of the project's vectors. Neither scan names a limit, so both stop
at the default one. -/

namespace ContextStore.SemanticIndex

open Unicode KeyEncoding
open StoreScan (NativeStore DEFAULT_SCAN_LIMIT)
open Recall (Window)

/-! ## The scans -/

/-- What the manifest of a version says here. -/
structure Manifest where
  documentId : Text
  version : Nat
  project : Text

inductive Record where
  | document (manifest : Manifest)
  | window (window : Window)
  | other

def Record.document? : Record → Option Manifest
  | .document manifest => some manifest
  | _ => none

def Record.window? : Record → Option Window
  | .window found => some found
  | _ => none

def documentsKey : List KeyField := [.string (text "document")]

def documentKey (documentId : Text) (version : Nat) : List KeyField :=
  [.string (text "document"), .string documentId, .number version]

def windowsKey (documentId : Text) (version : Nat) : List KeyField :=
  [.string (text "window"), .string documentId, .number version]

/-- A store in which the manifest of a version stands under the key of the version. -/
structure Corpus where
  dbi : NativeStore Record
  keyed : ∀ e ∈ dbi.entries, StoreScan.beginsWith documentsKey e.1 = true →
    ∃ manifest, e.2 = .document manifest ∧
      e.1 = tupleBytes (documentKey manifest.documentId manifest.version)

namespace Corpus

variable (corpus : Corpus)

/-- `view.get(key)` -/
def get (parts : List KeyField) : Option Record :=
  (corpus.dbi.entries.find? fun e => e.1 = tupleBytes parts).map Prod.snd

/-- `store.scan(prefix)`, when it does not throw. -/
def scan (parts : List KeyField) : Option (List Record) :=
  (StoreScan.iterate corpus.dbi parts {}).toOption.map (List.map Prod.snd)

/-- All records of a tuple, in the order of their keys. -/
def records (parts : List KeyField) : List Record :=
  (corpus.dbi.matching parts none none).map Prod.snd

/-- All stored versions. -/
def manifests : List Manifest := (corpus.records documentsKey).filterMap Record.document?

def windows (documentId : Text) (version : Nat) : List Window :=
  (corpus.records (windowsKey documentId version)).filterMap Record.window?

/-! ## The rebuild -/

variable (live : Manifest → Bool) (windowSpans : Manifest → Window → Option (List Span))

/-- The spans of a live version: `live` is what `#liveManifest` finds about a stored manifest, and
`windowSpans` reads the range of a window and cuts it into spans. -/
def documentSpans (documentId : Text) (version : Nat) : Option (Option (Manifest × List Span)) :=
  ((corpus.get (documentKey documentId version)).bind Record.document?).elim (some none)
    fun manifest =>
      if live manifest then do
        let records ← corpus.scan (windowsKey documentId version)
        let windows ← records.mapM Record.window?
        let spans ← windows.mapM (windowSpans manifest)
        return some (manifest, distinctSpans spans.flatten)
      else some none

/-- `#indexDocument` when the embedder and the library do their part; the batches only divide the
spans among their calls. -/
def indexDocument (config : Config) (rounds : Nat) (state : ProjectState) (manifest : Manifest) :
    Option ProjectState := do
  let source ← corpus.documentSpans live windowSpans manifest.documentId manifest.version
  source.elim (some state) fun source =>
    let indexing : Indexing :=
      ⟨source.1.project, manifest.documentId, manifest.version, source.2⟩
    if source.2 = [] ∨ indexing.document ∈ state.documents then some state
    else (addSpans config indexing rounds source.2 0
      { state with index := true, viewed := false }).map fun added =>
        { added.2.addDocument indexing.document with dirty := false }

/-- `#projectManifests` -/
def projectManifests (project : Text) : Option (List Manifest) := do
  let records ← corpus.scan documentsKey
  let manifests ← records.mapM Record.document?
  return manifests.filter fun manifest => manifest.project = project

def enqueueCurrent (config : Config) (rounds : Nat) (project : Text) (state : ProjectState) :
    Option ProjectState := do
  let manifests ← corpus.projectManifests project
  manifests.foldlM (corpus.indexDocument live windowSpans config rounds) state

/-- `#rebuildProject`: the new generation, after the first pass and the one that catches up. -/
def rebuildProject (config : Config) (rounds : Nat) (project : Text) : Option ProjectState := do
  let first ← corpus.enqueueCurrent live windowSpans config rounds project .empty
  corpus.enqueueCurrent live windowSpans config rounds project first

/-- `#warmExisting`: the versions that are enqueued. -/
def warmExisting : Option (List (Text × Nat)) := do
  let records ← corpus.scan documentsKey
  let manifests ← records.mapM Record.document?
  return manifests.map fun manifest => (manifest.documentId, manifest.version)

end Corpus

/-! ## What the scans read -/

theorem mapM_take_eq_some {α β : Type} {f : α → Option β} {l : List α} {n : Nat} {ys : List β}
    (h : (l.take n).mapM f = some ys) : ys = (l.filterMap f).take n := by
  induction l generalizing n ys with
  | nil =>
    rw [List.take_nil, List.mapM_nil] at h
    rw [← Option.some.inj h, List.filterMap_nil, List.take_nil]
  | cons a l ih =>
    cases n with
    | zero =>
      rw [List.take_zero, List.mapM_nil] at h
      rw [← Option.some.inj h, List.take_zero]
    | succ n =>
      rw [List.take_succ_cons, List.mapM_cons, Option.bind_eq_bind] at h
      obtain ⟨b, hb, h⟩ := Option.bind_eq_some_iff.mp h
      obtain ⟨bs, hbs, h⟩ := Option.bind_eq_some_iff.mp h
      rw [← Option.some.inj h, ih hbs, List.filterMap_cons_some hb, List.take_succ_cons]

/-- A key of a store leads to its record. -/
theorem find_of_mem {ν : Type} {dbi : NativeStore ν} {e : List UInt8 × ν} (he : e ∈ dbi.entries) :
    dbi.entries.find? (fun other => other.1 = e.1) = some e := by
  have hsorted := dbi.sorted
  revert he hsorted
  generalize dbi.entries = entries
  intro he hsorted
  induction entries with
  | nil => cases he
  | cons first rest ih =>
    obtain ⟨hbefore, hsorted⟩ := List.pairwise_cons.mp hsorted
    rcases List.mem_cons.mp he with rfl | he
    · exact List.find?_cons_of_pos (by simp)
    · have hne : first.1 ≠ e.1 := by
        intro heq
        have hlt := hbefore e he
        rw [heq] at hlt
        exact List.lt_irrefl _ hlt
      rw [List.find?_cons_of_neg (by simpa using hne)]
      exact ih he hsorted

namespace Corpus

variable {corpus : Corpus} {parts : List KeyField}

/-- A scan without a limit reads the first records of the tuple. -/
theorem scan_eq_some {records : List Record} (h : corpus.scan parts = some records) :
    records = (corpus.records parts).take DEFAULT_SCAN_LIMIT := by
  obtain ⟨found, hfound, rfl⟩ := Option.map_eq_some_iff.mp h
  have hlimit : StoreScan.scanLimit ({} : StoreScan.ScanOptions).limit = .ok DEFAULT_SCAN_LIMIT :=
    rfl
  have hexact := (StoreScan.iterate_page_iff hlimit (toOption_eq_some.mp hfound)).mpr
    (.inr (.inl rfl))
  rw [hexact, records, List.map_take]
  rfl

theorem mem_records {record : Record} :
    record ∈ corpus.records parts ↔ ∃ e ∈ corpus.dbi.entries,
      StoreScan.beginsWith parts e.1 = true ∧ e.2 = record := by
  rw [records, List.mem_map]
  constructor
  · rintro ⟨e, he, rfl⟩
    obtain ⟨hentry, hbegins, -⟩ := StoreScan.mem_matching.mp he
    exact ⟨e, hentry, hbegins, rfl⟩
  · rintro ⟨e, hentry, hbegins, rfl⟩
    exact ⟨e, StoreScan.mem_matching.mpr ⟨hentry, hbegins, by simp, by simp⟩, rfl⟩

/-- A stored manifest is found under the key of its version. -/
theorem get_of_mem {manifest : Manifest} (h : manifest ∈ corpus.manifests) :
    (corpus.get (documentKey manifest.documentId manifest.version)).bind Record.document? =
      some manifest := by
  obtain ⟨record, hrecord, hmanifest⟩ := List.mem_filterMap.mp h
  obtain ⟨e, hentry, hbegins, rfl⟩ := mem_records.mp hrecord
  obtain ⟨stored, hstored, hkey⟩ := corpus.keyed e hentry hbegins
  rw [hstored] at hmanifest
  obtain rfl := Option.some.inj hmanifest
  rw [get, ← hkey, find_of_mem hentry, Option.map_some, hstored]
  rfl

theorem eq_of_version {manifest other : Manifest} (h : manifest ∈ corpus.manifests)
    (hother : other ∈ corpus.manifests) (hdocument : manifest.documentId = other.documentId)
    (hversion : manifest.version = other.version) : manifest = other := by
  have hget := get_of_mem h
  rw [hdocument, hversion, get_of_mem hother] at hget
  exact (Option.some.inj hget).symm

theorem scanned_manifests {records : List Record} {manifests : List Manifest}
    (hrecords : corpus.scan documentsKey = some records)
    (hmanifests : records.mapM Record.document? = some manifests) :
    manifests = corpus.manifests.take DEFAULT_SCAN_LIMIT := by
  rw [scan_eq_some hrecords] at hmanifests
  exact mapM_take_eq_some hmanifests

theorem scanned_windows {documentId : Text} {version : Nat} {records : List Record}
    {windows : List Window} (hrecords : corpus.scan (windowsKey documentId version) = some records)
    (hwindows : records.mapM Record.window? = some windows) :
    windows = (corpus.windows documentId version).take DEFAULT_SCAN_LIMIT := by
  rw [scan_eq_some hrecords] at hwindows
  exact mapM_take_eq_some hwindows

theorem nodup_manifests (corpus : Corpus) : corpus.manifests.Nodup := by
  have hne : (corpus.dbi.matching documentsKey none none).Pairwise fun e other =>
      ∀ manifest, e.2.document? = some manifest → ∀ later, other.2.document? = some later →
        manifest ≠ later := by
    refine (StoreScan.sorted_matching corpus.dbi documentsKey none none).imp_of_mem ?_
    intro e other he hother hlt manifest hmanifest later hlater heq
    obtain ⟨hentry, hbegins, -⟩ := StoreScan.mem_matching.mp he
    obtain ⟨hentry', hbegins', -⟩ := StoreScan.mem_matching.mp hother
    obtain ⟨stored, hstored, hkey⟩ := corpus.keyed e hentry hbegins
    obtain ⟨stored', hstored', hkey'⟩ := corpus.keyed other hentry' hbegins'
    rw [hstored] at hmanifest
    rw [hstored'] at hlater
    obtain rfl := Option.some.inj hmanifest
    obtain rfl := Option.some.inj hlater
    rw [hkey, hkey', heq] at hlt
    exact List.lt_irrefl _ hlt
  rw [manifests, records, List.filterMap_map]
  exact List.Pairwise.filterMap _ (fun _ _ hdiffer _ hb _ hb' => hdiffer _ hb _ hb') hne

end Corpus

/-! ## What is indexed -/

/-- One of the windows has a span with the bytes. -/
def HasSpan (windowSpans : Manifest → Window → Option (List Span)) (manifest : Manifest)
    (windows : List Window) (startByte endByte : Nat) : Prop :=
  ∃ window ∈ windows, ∃ spans, windowSpans manifest window = some spans ∧
    ∃ span ∈ spans, span.startByte = startByte ∧ span.endByte = endByte

def ProjectState.HasEntry (state : ProjectState) (documentId : Text) (version startByte
    endByte : Nat) : Prop :=
  ∃ entry ∈ state.entries.values, entry.documentId = documentId ∧ entry.version = version ∧
    entry.startByte = startByte ∧ entry.endByte = endByte

theorem exists_mem_distinctSpans {spans : List Span} {startByte endByte : Nat} :
    (∃ span ∈ distinctSpans spans, span.startByte = startByte ∧ span.endByte = endByte) ↔
      ∃ span ∈ spans, span.startByte = startByte ∧ span.endByte = endByte := by
  constructor
  · rintro ⟨span, hmem, hbytes⟩
    exact ⟨span, mem_of_mem_distinctSpans hmem, hbytes⟩
  · rintro ⟨span, hmem, rfl, rfl⟩
    induction spans with
    | nil => cases hmem
    | cons first rest ih =>
      rw [distinctSpans]
      by_cases hsame : span.startByte = first.startByte ∧ span.endByte = first.endByte
      · exact ⟨first, List.mem_cons_self, hsame.1.symm, hsame.2.symm⟩
      · have hne : span ≠ first := fun heq => hsame (by rw [heq]; exact ⟨rfl, rfl⟩)
        obtain ⟨kept, hkept, hstart, hend⟩ := ih ((List.mem_cons.mp hmem).resolve_left hne)
        refine ⟨kept, List.mem_cons_of_mem _ (List.mem_filter.mpr ⟨hkept, ?_⟩), hstart, hend⟩
        simp only [hstart, hend, Bool.not_eq_true', Bool.and_eq_false_iff, beq_eq_false_iff_ne]
        exact not_and_or.mp hsame

theorem mapM_eq_some_mem {α β : Type} {f : α → Option β} {l : List α} {ys : List β}
    (h : l.mapM f = some ys) {y : β} : y ∈ ys ↔ ∃ x ∈ l, f x = some y := by
  induction l generalizing ys with
  | nil =>
    rw [List.mapM_nil] at h
    simp [← Option.some.inj h]
  | cons a l ih =>
    rw [List.mapM_cons, Option.bind_eq_bind] at h
    obtain ⟨b, hb, h⟩ := Option.bind_eq_some_iff.mp h
    obtain ⟨bs, hbs, h⟩ := Option.bind_eq_some_iff.mp h
    rw [← Option.some.inj h, List.mem_cons, ih hbs]
    simp only [List.mem_cons, exists_eq_or_imp, hb, Option.some.injEq]
    exact or_congr_left eq_comm

theorem exists_right_of_forall₂ {α β : Type} {r : α → β → Prop} {xs : List α} {ys : List β}
    (h : List.Forall₂ r xs ys) {x : α} (hx : x ∈ xs) : ∃ y ∈ ys, r x y := by
  obtain ⟨y, hy, hr⟩ := exists_left_of_forall₂ h.flip hx
  exact ⟨y, hy, hr⟩

/-- Added spans bring the entries of their bytes. -/
theorem Added.hasEntry_iff {indexing : Indexing} {spans : List Span} {state state' : ProjectState}
    (h : Added indexing spans state state') {documentId : Text} {version startByte endByte : Nat} :
    state'.HasEntry documentId version startByte endByte ↔
      state.HasEntry documentId version startByte endByte ∨
        (indexing.documentId = documentId ∧ indexing.version = version ∧
          ∃ span ∈ spans, span.startByte = startByte ∧ span.endByte = endByte) := by
  obtain ⟨entries, hvalues, hall⟩ := h.values
  constructor
  · rintro ⟨entry, hentry, hrest⟩
    rcases h.mem_cases hentry with hold | ⟨span, hspan, label, rfl⟩
    · exact .inl ⟨entry, hold, hrest⟩
    · obtain ⟨hid, hversion, hbytes⟩ := hrest
      exact .inr ⟨hid, hversion, span, hspan, hbytes⟩
  · rintro (⟨entry, hold, hrest⟩ | ⟨hid, hversion, span, hspan, hbytes⟩)
    · exact ⟨entry, hvalues ▸ List.mem_append_left _ hold, hrest⟩
    · obtain ⟨entry, hentry, label, rfl⟩ := exists_right_of_forall₂ hall hspan
      exact ⟨_, hvalues ▸ List.mem_append_right _ hentry, hid, hversion, hbytes⟩

section Rebuild

variable {corpus : Corpus} {live : Manifest → Bool}
  {windowSpans : Manifest → Window → Option (List Span)} {manifest : Manifest}

/-- A stored version is passed over when it is not live, and else has the spans of the windows that
are scanned. -/
theorem documentSpans_cases (hstored : manifest ∈ corpus.manifests)
    {source : Option (Manifest × List Span)}
    (h : corpus.documentSpans live windowSpans manifest.documentId manifest.version =
      some source) :
    (live manifest = false ∧ source = none) ∨
    (live manifest = true ∧ ∃ spans, source = some (manifest, spans) ∧ Apart spans ∧
      ∀ startByte endByte, (∃ span ∈ spans, span.startByte = startByte ∧ span.endByte = endByte) ↔
        HasSpan windowSpans manifest
          ((corpus.windows manifest.documentId manifest.version).take DEFAULT_SCAN_LIMIT)
          startByte endByte) := by
  rw [Corpus.documentSpans, Corpus.get_of_mem hstored, Option.elim_some] at h
  split at h
  · next hlive =>
    obtain ⟨records, hrecords, h⟩ := Option.bind_eq_some_iff.mp h
    obtain ⟨windows, hwindows, h⟩ := Option.bind_eq_some_iff.mp h
    obtain ⟨spans, hspans, h⟩ := Option.bind_eq_some_iff.mp h
    refine .inr ⟨hlive, _, (Option.some.inj h).symm, apart_distinctSpans _, ?_⟩
    intro startByte endByte
    rw [exists_mem_distinctSpans, ← Corpus.scanned_windows hrecords hwindows, HasSpan]
    simp only [List.mem_flatten, mapM_eq_some_mem hspans]
    constructor
    · rintro ⟨span, ⟨ofWindow, ⟨window, hwindow, hof⟩, hspan⟩, hbytes⟩
      exact ⟨window, hwindow, ofWindow, hof, span, hspan, hbytes⟩
    · rintro ⟨window, hwindow, ofWindow, hof, span, hspan, hbytes⟩
      exact ⟨span, ⟨ofWindow, ⟨window, hwindow, hof⟩, hspan⟩, hbytes⟩
  · next hlive => exact .inl ⟨Bool.eq_false_iff.mpr hlive, (Option.some.inj h).symm⟩

/-- What a rebuild that has come through some of the stored versions has made. -/
structure Rebuilt (corpus : Corpus) (live : Manifest → Bool)
    (windowSpans : Manifest → Window → Option (List Span)) (done : List Manifest)
    (state : ProjectState) : Prop where
  consistent : state.Consistent
  indexed : ∀ entry ∈ state.entries.values, entry.document ∈ state.documents
  entries : ∀ documentId version startByte endByte,
    state.HasEntry documentId version startByte endByte ↔
      ∃ manifest ∈ done, live manifest = true ∧ manifest.documentId = documentId ∧
        manifest.version = version ∧ HasSpan windowSpans manifest
          ((corpus.windows documentId version).take DEFAULT_SCAN_LIMIT) startByte endByte
  documents : ∀ manifest ∈ corpus.manifests,
    documentIdentity manifest.documentId manifest.version ∈ state.documents → manifest ∈ done

theorem rebuilt_empty (corpus : Corpus) (live : Manifest → Bool)
    (windowSpans : Manifest → Window → Option (List Span)) :
    Rebuilt corpus live windowSpans [] .empty where
  consistent := counts_empty
  indexed := by simp [ProjectState.empty]
  entries := by simp [ProjectState.HasEntry, ProjectState.empty]
  documents := by simp [ProjectState.empty]

variable {done : List Manifest}

/-- A version that brings nothing new leaves the state. -/
theorem Rebuilt.skip {state : ProjectState} (h : Rebuilt corpus live windowSpans done state)
    (hskip : live manifest = true → (∀ startByte endByte, ¬ HasSpan windowSpans manifest
      ((corpus.windows manifest.documentId manifest.version).take DEFAULT_SCAN_LIMIT) startByte
        endByte) ∨ manifest ∈ done) :
    Rebuilt corpus live windowSpans (done ++ [manifest]) state where
  consistent := h.consistent
  indexed := h.indexed
  documents other hother hdocument :=
    List.mem_append_left _ (h.documents other hother hdocument)
  entries := by
    intro documentId version startByte endByte
    rw [h.entries]
    constructor
    · rintro ⟨other, hother, hrest⟩
      exact ⟨other, List.mem_append_left _ hother, hrest⟩
    · rintro ⟨other, hother, hlive, rfl, rfl, hspan⟩
      rcases List.mem_append.mp hother with hother | hother
      · exact ⟨other, hother, hlive, rfl, rfl, hspan⟩
      · obtain rfl := List.mem_singleton.mp hother
        rcases hskip hlive with hnone | hdone
        · exact absurd hspan (hnone startByte endByte)
        · exact ⟨other, hdone, hlive, rfl, rfl, hspan⟩

theorem Rebuilt.add {state added : ProjectState} {project : Text}
    {spans : List Span} (h : Rebuilt corpus live windowSpans done state)
    (hstored : manifest ∈ corpus.manifests) (hlive : live manifest = true)
    (hspans : ∀ startByte endByte,
      (∃ span ∈ spans, span.startByte = startByte ∧ span.endByte = endByte) ↔
      HasSpan windowSpans manifest
        ((corpus.windows manifest.documentId manifest.version).take DEFAULT_SCAN_LIMIT)
        startByte endByte)
    (hadded : Added ⟨project, manifest.documentId, manifest.version, spans⟩ spans
      { state with index := true, viewed := false } added) :
    Rebuilt corpus live windowSpans (done ++ [manifest])
      { added.addDocument (documentIdentity manifest.documentId manifest.version) with
        dirty := false } := by
  obtain ⟨entries, hvalues, hall⟩ := hadded.values
  have hdocuments : added.documents = state.documents := by rw [hadded.frame]
  refine ⟨hadded.consistent, ?_, ?_, ?_⟩
  · intro entry hentry
    refine mem_addDocument.mpr ?_
    rcases hadded.mem_cases hentry with hold | ⟨span, -, label, rfl⟩
    · exact .inr (hdocuments ▸ h.indexed entry hold)
    · exact .inl rfl
  · intro documentId version startByte endByte
    have hsplit : ProjectState.HasEntry
        { added.addDocument (documentIdentity manifest.documentId manifest.version) with
          dirty := false } documentId version startByte endByte ↔
        state.HasEntry documentId version startByte endByte ∨
          (manifest.documentId = documentId ∧ manifest.version = version ∧
            ∃ span ∈ spans, span.startByte = startByte ∧ span.endByte = endByte) :=
      hadded.hasEntry_iff
    rw [hsplit, h.entries, hspans]
    constructor
    · rintro (⟨other, hother, hrest⟩ | ⟨rfl, rfl, hspan⟩)
      · exact ⟨other, List.mem_append_left _ hother, hrest⟩
      · exact ⟨manifest, by simp, hlive, rfl, rfl, hspan⟩
    · rintro ⟨other, hother, hother', rfl, rfl, hspan⟩
      rcases List.mem_append.mp hother with hother | hother
      · exact .inl ⟨other, hother, hother', rfl, rfl, hspan⟩
      · obtain rfl := List.mem_singleton.mp hother
        exact .inr ⟨rfl, rfl, hspan⟩
  · intro other hother hdocument
    rcases mem_addDocument.mp hdocument with hsame | hold
    · obtain ⟨hid, hversion⟩ := documentIdentity_inj hsame
      rw [Corpus.eq_of_version hother hstored hid hversion]
      simp
    · exact List.mem_append_left _ (h.documents other hother (hdocuments ▸ hold))

variable {config : Config} {rounds : Nat}
  {state state' : ProjectState} {project : Text} {done : List Manifest}

theorem Rebuilt.indexDocument (h : Rebuilt corpus live windowSpans done state)
    (hstored : manifest ∈ corpus.manifests)
    (hindexed : corpus.indexDocument live windowSpans config rounds state manifest = some state') :
    Rebuilt corpus live windowSpans (done ++ [manifest]) state' := by
  obtain ⟨source, hsource, hindexed⟩ := Option.bind_eq_some_iff.mp hindexed
  rcases documentSpans_cases hstored hsource with
    ⟨hdead, rfl⟩ | ⟨hlive, spans, rfl, hapart, hspans⟩
  · obtain rfl := Option.some.inj hindexed
    exact h.skip fun hlive => absurd hlive (by simp [hdead])
  · simp only [Option.elim_some] at hindexed
    split at hindexed
    · next hskip =>
      obtain rfl := Option.some.inj hindexed
      refine h.skip fun _ => ?_
      rcases hskip with hnil | hdocument
      · refine .inl fun startByte endByte hspan => ?_
        obtain ⟨span, hspan, -⟩ := (hspans startByte endByte).mpr hspan
        rw [hnil] at hspan
        cases hspan
      · exact .inr (h.documents manifest hstored hdocument)
    · next hnew =>
      obtain ⟨added, hadded, rfl⟩ := Option.map_eq_some_iff.mp hindexed
      have hfresh : Fresh ⟨manifest.project, manifest.documentId, manifest.version, spans⟩
          state.entries spans := by
        intro span hspan entry hentry heq
        refine hnew (.inr ?_)
        have hsame : entry.document = documentIdentity manifest.documentId manifest.version :=
          documentIdentity_of_vectorIdentity heq
        have hindexed := h.indexed entry hentry
        rw [hsame] at hindexed
        exact hindexed
      have hconsistent : ProjectState.Consistent { state with index := true, viewed := false } :=
        h.consistent
      exact h.add hstored hlive hspans (addSpans_spec hconsistent hapart hfresh hadded).2

theorem Rebuilt.foldlM {manifests : List Manifest} (h : Rebuilt corpus live windowSpans done state)
    (hstored : ∀ manifest ∈ manifests, manifest ∈ corpus.manifests)
    (hfold : manifests.foldlM (corpus.indexDocument live windowSpans config rounds) state =
      some state') :
    Rebuilt corpus live windowSpans (done ++ manifests) state' := by
  induction manifests generalizing done state with
  | nil =>
    obtain rfl := Option.some.inj hfold
    rwa [List.append_nil]
  | cons manifest rest ih =>
    rw [List.foldlM_cons] at hfold
    obtain ⟨next, hnext, hfold⟩ := Option.bind_eq_some_iff.mp hfold
    have hstep := h.indexDocument (hstored manifest List.mem_cons_self) hnext
    have hrest := ih hstep (fun other hother => hstored other (List.mem_cons_of_mem _ hother)) hfold
    rwa [List.append_assoc, List.singleton_append] at hrest

/-- The versions of the project that a scan reads. -/
def scannedManifests (corpus : Corpus) (project : Text) : List Manifest :=
  (corpus.manifests.take DEFAULT_SCAN_LIMIT).filter fun manifest => manifest.project = project

theorem Rebuilt.enqueueCurrent (h : Rebuilt corpus live windowSpans done state)
    (hpass : corpus.enqueueCurrent live windowSpans config rounds project state = some state') :
    Rebuilt corpus live windowSpans (done ++ scannedManifests corpus project) state' := by
  obtain ⟨manifests, hmanifests, hfold⟩ := Option.bind_eq_some_iff.mp hpass
  rw [Corpus.projectManifests] at hmanifests
  obtain ⟨records, hrecords, hmanifests⟩ := Option.bind_eq_some_iff.mp hmanifests
  obtain ⟨scanned, hscanned, hmanifests⟩ := Option.bind_eq_some_iff.mp hmanifests
  have hproject : manifests = scannedManifests corpus project := by
    rw [← Option.some.inj hmanifests, Corpus.scanned_manifests hrecords hscanned, scannedManifests]
  rw [← hproject]
  refine h.foldlM (fun manifest hmem => ?_) hfold
  rw [hproject] at hmem
  exact List.mem_of_mem_take (List.mem_filter.mp hmem).1

/-- A rebuild ends with the spans that its scans lead to. -/
theorem rebuilt_rebuildProject
    (h : corpus.rebuildProject live windowSpans config rounds project = some state) :
    Rebuilt corpus live windowSpans
      (scannedManifests corpus project ++ scannedManifests corpus project) state := by
  obtain ⟨first, hfirst, hsecond⟩ := Option.bind_eq_some_iff.mp h
  exact ((rebuilt_empty corpus live windowSpans).enqueueCurrent hfirst).enqueueCurrent hsecond

/-! ## Is anything left out? -/

/-- The entries are those of all spans of all windows of all live versions of the project. -/
def Complete (corpus : Corpus) (live : Manifest → Bool)
    (windowSpans : Manifest → Window → Option (List Span)) (project : Text)
    (state : ProjectState) : Prop :=
  ∀ documentId version startByte endByte, state.HasEntry documentId version startByte endByte ↔
      ∃ manifest ∈ corpus.manifests, manifest.project = project ∧ live manifest = true ∧
        manifest.documentId = documentId ∧ manifest.version = version ∧
        HasSpan windowSpans manifest (corpus.windows documentId version) startByte endByte

/-- Every stored version is enqueued. -/
def Warmed (corpus : Corpus) (enqueued : List (Text × Nat)) : Prop :=
  ∀ manifest ∈ corpus.manifests, (manifest.documentId, manifest.version) ∈ enqueued

/-- The live versions of the project lie in reach of the scans, with all their spans. -/
def WithinScans (corpus : Corpus) (live : Manifest → Bool)
    (windowSpans : Manifest → Window → Option (List Span)) (project : Text) : Prop :=
  ∀ manifest ∈ corpus.manifests, manifest.project = project → live manifest = true →
    ∀ startByte endByte,
      HasSpan windowSpans manifest (corpus.windows manifest.documentId manifest.version) startByte
        endByte →
      manifest ∈ corpus.manifests.take DEFAULT_SCAN_LIMIT ∧ HasSpan windowSpans manifest
          ((corpus.windows manifest.documentId manifest.version).take DEFAULT_SCAN_LIMIT)
          startByte endByte

theorem HasSpan.of_take {windows : List Window} {count startByte endByte : Nat}
    (h : HasSpan windowSpans manifest (windows.take count) startByte endByte) :
    HasSpan windowSpans manifest windows startByte endByte := by
  obtain ⟨window, hwindow, hrest⟩ := h
  exact ⟨window, List.mem_of_mem_take hwindow, hrest⟩

theorem complete_iff
    (h : corpus.rebuildProject live windowSpans config rounds project = some state) :
    Complete corpus live windowSpans project state ↔
      WithinScans corpus live windowSpans project := by
  have hentries := (rebuilt_rebuildProject h).entries
  constructor
  · intro hcomplete manifest hstored hproject hlive startByte endByte hspan
    obtain ⟨other, hother, -, hid, hversion, hscanned⟩ := (hentries _ _ _ _).mp
      ((hcomplete _ _ _ _).mpr ⟨manifest, hstored, hproject, hlive, rfl, rfl, hspan⟩)
    have hscan : other ∈ scannedManifests corpus project := by simpa using hother
    have htake := (List.mem_filter.mp hscan).1
    obtain rfl := Corpus.eq_of_version (List.mem_of_mem_take htake) hstored hid hversion
    exact ⟨htake, hscanned⟩
  · intro hwithin documentId version startByte endByte
    rw [hentries]
    constructor
    · rintro ⟨manifest, hmem, hlive, rfl, rfl, hspan⟩
      have hscan : manifest ∈ scannedManifests corpus project := by simpa using hmem
      obtain ⟨htake, hproject⟩ := List.mem_filter.mp hscan
      exact ⟨manifest, List.mem_of_mem_take htake, of_decide_eq_true hproject, hlive, rfl, rfl,
        hspan.of_take⟩
    · rintro ⟨manifest, hstored, hproject, hlive, rfl, rfl, hspan⟩
      obtain ⟨htake, hscanned⟩ := hwithin manifest hstored hproject hlive _ _ hspan
      have hscan : manifest ∈ scannedManifests corpus project :=
        List.mem_filter.mpr ⟨htake, decide_eq_true hproject⟩
      exact ⟨manifest, List.mem_append_left _ hscan, hlive, rfl, rfl, hscanned⟩

theorem warmed_iff {enqueued : List (Text × Nat)} (h : corpus.warmExisting = some enqueued) :
    Warmed corpus enqueued ↔ corpus.manifests.length ≤ DEFAULT_SCAN_LIMIT := by
  rw [Corpus.warmExisting] at h
  obtain ⟨records, hrecords, h⟩ := Option.bind_eq_some_iff.mp h
  obtain ⟨manifests, hmanifests, h⟩ := Option.bind_eq_some_iff.mp h
  obtain rfl := Corpus.scanned_manifests hrecords hmanifests
  obtain rfl := Option.some.inj h
  constructor
  · intro hwarmed
    by_contra hlong
    -- the first version that the scan does not reach
    have hlt : DEFAULT_SCAN_LIMIT < corpus.manifests.length := by omega
    obtain ⟨other, hother, hsame⟩ := List.mem_map.mp
      (hwarmed _ (List.getElem_mem hlt))
    obtain ⟨hid, hversion⟩ := Prod.mk.injEq .. ▸ hsame
    have heq := Corpus.eq_of_version (List.mem_of_mem_take hother) (List.getElem_mem hlt) hid
      hversion
    obtain ⟨i, hi, hget⟩ := List.mem_iff_getElem.mp hother
    rw [List.length_take] at hi
    rw [List.getElem_take, heq] at hget
    have hindex := (corpus.nodup_manifests.getElem_inj_iff).mp hget
    omega
  · intro hshort manifest hstored
    rw [List.take_of_length_le hshort]
    exact List.mem_map_of_mem hstored

/-- A rebuild keeps every span, and the first pass of a start reaches every version, exactly when
there are no more versions than a scan reads and no live version of the project has a span that only
later windows have. -/
theorem rebuild_complete_iff {project : Text} {state : ProjectState}
    {enqueued : List (Text × Nat)}
    (hrebuilt : corpus.rebuildProject live windowSpans config rounds project = some state)
    (hwarm : corpus.warmExisting = some enqueued) :
    (Complete corpus live windowSpans project state ∧ Warmed corpus enqueued) ↔
      corpus.manifests.length ≤ DEFAULT_SCAN_LIMIT ∧
      ∀ manifest ∈ corpus.manifests, manifest.project = project → live manifest = true →
        ∀ startByte endByte,
          HasSpan windowSpans manifest (corpus.windows manifest.documentId manifest.version)
            startByte endByte →
          HasSpan windowSpans manifest
            ((corpus.windows manifest.documentId manifest.version).take DEFAULT_SCAN_LIMIT)
            startByte endByte := by
  rw [complete_iff hrebuilt, warmed_iff hwarm, and_comm]
  refine and_congr_right fun hshort => ?_
  rw [WithinScans, List.take_of_length_le hshort]
  constructor
  · intro hwithin manifest hstored hproject hlive startByte endByte hspan
    exact (hwithin manifest hstored hproject hlive startByte endByte hspan).2
  · intro hwithin manifest hstored hproject hlive startByte endByte hspan
    exact ⟨hstored, hwithin manifest hstored hproject hlive startByte endByte hspan⟩

end Rebuild

/-! ## One version more than a scan reads -/

def versionKey (n : Nat) : List KeyField := documentKey (text "d") (n + 1)

def storedVersion (n : Nat) : Manifest := ⟨text "d", n + 1, text "p"⟩

theorem length_versionKey (n : Nat) : (tupleBytes (versionKey n)).length = 29 := by
  have htext : (utf8 (text "document")).length = 8 ∧ (utf8 (text "d")).length = 1 := by decide
  simp [tupleBytes, versionKey, documentKey, KeyField.word, length_bigEndian, htext]

theorem encodable_versionKey {n : Nat} (h : n < 2000) : Encodable (versionKey n) where
  nonempty := by simp [versionKey, documentKey]
  fits := by
    intro f hf
    simp only [versionKey, documentKey, List.mem_cons, List.not_mem_nil, or_false] at hf
    rcases hf with rfl | rfl | rfl
    · show (utf8 (text "document")).length < 2 ^ 32
      decide
    · show (utf8 (text "d")).length < 2 ^ 32
      decide
    · show 0 ≤ ((n + 1 : Nat) : Int) ∧ ((n + 1 : Nat) : Int) ≤ MAX_SAFE_INTEGER
      unfold MAX_SAFE_INTEGER
      omega
  size := by
    rw [length_versionKey]
    decide

theorem versionKey_lt {m n : Nat} (hmn : m < n) (hn : n < 2000) :
    tupleBytes (versionKey m) < tupleBytes (versionKey n) := by
  rw [tupleBytes_lt_iff (encodable_versionKey (by omega)) (encodable_versionKey hn)]
  refine .cons (.cons (.rel (.inr ⟨rfl, ?_⟩)))
  show ((m + 1 : Nat) : Int) < ((n + 1 : Nat) : Int)
  omega

def lastWindowKey (count : Nat) : List KeyField := windowsKey (text "d") count ++ [.number 0]

theorem length_lastWindowKey (count : Nat) : (tupleBytes (lastWindowKey count)).length = 36 := by
  have htext : (utf8 (text "window")).length = 6 ∧ (utf8 (text "d")).length = 1 := by decide
  simp [tupleBytes, lastWindowKey, windowsKey, KeyField.word, length_bigEndian, htext]

variable {count : Nat}

theorem encodable_lastWindowKey (h : count < 2000) :
    Encodable (lastWindowKey count) where
  nonempty := by simp [lastWindowKey, windowsKey]
  fits := by
    intro f hf
    simp only [lastWindowKey, windowsKey, List.cons_append, List.nil_append, List.mem_cons,
      List.not_mem_nil, or_false] at hf
    rcases hf with rfl | rfl | rfl | rfl
    · show (utf8 (text "window")).length < 2 ^ 32
      decide
    · show (utf8 (text "d")).length < 2 ^ 32
      decide
    · show 0 ≤ (count : Int) ∧ (count : Int) ≤ MAX_SAFE_INTEGER
      unfold MAX_SAFE_INTEGER
      omega
    · exact (by decide : (0 : Int) ≤ 0 ∧ (0 : Int) ≤ MAX_SAFE_INTEGER)
  size := by
    rw [length_lastWindowKey]
    decide

theorem lastWindowKey_lt {n : Nat} (hcount : count < 2000) (hn : n < 2000) :
    tupleBytes (lastWindowKey count) < tupleBytes (versionKey n) := by
  rw [tupleBytes_lt_iff (encodable_lastWindowKey hcount) (encodable_versionKey hn)]
  refine .rel (.inr ⟨rfl, ?_⟩)
  exact List.Shortlex.of_length_lt (by decide)

def versionEntry (n : Nat) : List UInt8 × Record :=
  (tupleBytes (versionKey n), .document (storedVersion n))

def windowEntry (count : Nat) : List UInt8 × Record :=
  (tupleBytes (lastWindowKey count), .window ⟨0, 0, 1⟩)

/-- One document with so many versions, of which the last has a window. -/
def versionsStore (count : Nat) (hcount : count < 2000) : NativeStore Record :=
  .ofEntries (windowEntry count :: (List.range count).map versionEntry) (by
      rw [List.pairwise_cons, List.pairwise_map]
      refine ⟨fun e he => ?_, List.pairwise_lt_range.imp_of_mem fun {m n} _ hn hmn => ?_⟩
      · obtain ⟨n, hn, rfl⟩ := List.mem_map.mp he
        have hlt := List.mem_range.mp hn
        exact lastWindowKey_lt hcount (by omega)
      · have hlt := List.mem_range.mp hn
        exact versionKey_lt hmn (by omega))
    (by
      intro e he
      rcases List.mem_cons.mp he with rfl | he
      · exact ⟨_, encodable_lastWindowKey hcount, rfl⟩
      · obtain ⟨n, hn, rfl⟩ := List.mem_map.mp he
        have hlt := List.mem_range.mp hn
        exact ⟨_, encodable_versionKey (by omega), rfl⟩)
    (by
      intro e he
      rcases List.mem_cons.mp he with rfl | he
      · show (tupleBytes (lastWindowKey count)).length ≤ _
        rw [length_lastWindowKey]
        decide
      · obtain ⟨n, -, rfl⟩ := List.mem_map.mp he
        show (tupleBytes (versionKey n)).length ≤ _
        rw [length_versionKey]
        decide)

theorem beginsWith_versionKey {n : Nat} (h : n < 2000) :
    StoreScan.beginsWith documentsKey (tupleBytes (versionKey n)) = true := by
  rw [StoreScan.beginsWith, decodeKey_encoded (encodable_versionKey h)]
  rfl

theorem beginsWith_lastWindowKey (h : count < 2000) :
    StoreScan.beginsWith documentsKey (tupleBytes (lastWindowKey count)) = false := by
  rw [StoreScan.beginsWith, decodeKey_encoded (encodable_lastWindowKey h)]
  rfl

def versionsCorpus (count : Nat) (hcount : count < 2000) : Corpus where
  dbi := versionsStore count hcount
  keyed := by
    intro e he hbegins
    rcases List.mem_cons.mp he with rfl | he
    · rw [windowEntry, beginsWith_lastWindowKey hcount] at hbegins
      cases hbegins
    · obtain ⟨n, -, rfl⟩ := List.mem_map.mp he
      exact ⟨storedVersion n, rfl, rfl⟩

theorem manifests_versionsCorpus (hcount : count < 2000) :
    (versionsCorpus count hcount).manifests = (List.range count).map storedVersion := by
  have hmatching : (versionsStore count hcount).matching documentsKey none none =
      (List.range count).map versionEntry := by
    have hentries : (versionsStore count hcount).entries =
        windowEntry count :: (List.range count).map versionEntry := rfl
    rw [NativeStore.matching, hentries, List.filter_cons_of_neg (by
      simp [windowEntry, beginsWith_lastWindowKey hcount]), List.filter_eq_self]
    intro e he
    obtain ⟨n, hn, rfl⟩ := List.mem_map.mp he
    have hlt := List.mem_range.mp hn
    simp [versionEntry, beginsWith_versionKey (n := n) (by omega)]
  rw [Corpus.manifests, Corpus.records, versionsCorpus, hmatching, List.map_map, List.filterMap_map]
  exact congrFun List.filterMap_eq_map' _

theorem mem_windows_versionsCorpus (hcount : count < 2000) :
    ⟨0, 0, 1⟩ ∈ (versionsCorpus count hcount).windows (text "d") count := by
  have hbegins : StoreScan.beginsWith (windowsKey (text "d") count)
      (tupleBytes (lastWindowKey count)) = true := by
    rw [StoreScan.beginsWith, decodeKey_encoded (encodable_lastWindowKey hcount)]
    simp [windowsKey, lastWindowKey]
  refine List.mem_filterMap.mpr ⟨.window ⟨0, 0, 1⟩, Corpus.mem_records.mpr
    ⟨windowEntry count, List.mem_cons_self, hbegins, rfl⟩, rfl⟩

section Example

variable {corpus : Corpus} {live : Manifest → Bool}
  {windowSpans : Manifest → Window → Option (List Span)} {config : Config} {rounds : Nat}

/-- Versions that are not live are passed over. -/
theorem foldlM_of_not_live {manifests : List Manifest} (state : ProjectState)
    (h : ∀ manifest ∈ manifests, manifest ∈ corpus.manifests ∧ live manifest = false) :
    manifests.foldlM (corpus.indexDocument live windowSpans config rounds) state = some state := by
  induction manifests with
  | nil => rfl
  | cons manifest rest ih =>
    obtain ⟨hstored, hdead⟩ := h manifest List.mem_cons_self
    have hspans : corpus.documentSpans live windowSpans manifest.documentId manifest.version =
        some none := by
      rw [Corpus.documentSpans, Corpus.get_of_mem hstored, Option.elim_some, hdead]
      rfl
    have hstep : corpus.indexDocument live windowSpans config rounds state manifest =
        some state := by
      rw [Corpus.indexDocument, hspans]
      rfl
    rw [List.foldlM_cons, hstep]
    exact ih fun other hother => h other (List.mem_cons_of_mem _ hother)

/-- The scan of all versions does not throw. -/
theorem exists_scan_documents (corpus : Corpus) :
    ∃ records, corpus.scan documentsKey = some records := ⟨_, rfl⟩

/-- The documents of a scan are manifests. -/
theorem exists_mapM_document {records : List Record} (h : corpus.scan documentsKey = some records) :
    ∃ manifests, records.mapM Record.document? = some manifests := by
  have hall : ∀ record ∈ records, ∃ manifest, record.document? = some manifest := by
    intro record hrecord
    rw [Corpus.scan_eq_some h] at hrecord
    obtain ⟨e, hentry, hbegins, rfl⟩ := Corpus.mem_records.mp (List.mem_of_mem_take hrecord)
    obtain ⟨manifest, hmanifest, -⟩ := corpus.keyed e hentry hbegins
    exact ⟨manifest, by rw [hmanifest]; rfl⟩
  clear h
  induction records with
  | nil => exact ⟨[], rfl⟩
  | cons record rest ih =>
    obtain ⟨manifest, hmanifest⟩ := hall record List.mem_cons_self
    obtain ⟨manifests, hmanifests⟩ := ih fun later hlater =>
      hall later (List.mem_cons_of_mem _ hlater)
    exact ⟨manifest :: manifests, by rw [List.mapM_cons, hmanifest, hmanifests]; rfl⟩

/-- When no version that is scanned is live, a rebuild ends with nothing. -/
theorem rebuild_of_not_live {project : Text} {records : List Record}
    (hrecords : corpus.scan documentsKey = some records)
    (hdead : ∀ manifest ∈ corpus.manifests.take DEFAULT_SCAN_LIMIT, live manifest = false) :
    corpus.rebuildProject live windowSpans config rounds project = some .empty := by
  obtain ⟨manifests, hmanifests⟩ := exists_mapM_document hrecords
  have hpass : corpus.enqueueCurrent live windowSpans config rounds project .empty =
      some .empty := by
    rw [Corpus.enqueueCurrent, Corpus.projectManifests, hrecords]
    show ((records.mapM Record.document?).bind _).bind _ = _
    rw [hmanifests]
    refine foldlM_of_not_live .empty fun manifest hmem => ?_
    have hscanned := (List.mem_filter.mp hmem).1
    rw [Corpus.scanned_manifests hrecords hmanifests] at hscanned
    exact ⟨List.mem_of_mem_take hscanned, hdead manifest hscanned⟩
  rw [Corpus.rebuildProject, hpass]
  exact hpass

def lastLive (manifest : Manifest) : Bool := manifest.version = 1001

def oneSpan (_ : Manifest) (_ : Window) : Option (List Span) := some [⟨0, 0, 1⟩]

theorem runs_versionsCorpus (config : Config) (rounds : Nat) :
    ∃ enqueued, (versionsCorpus 1001 (by decide)).rebuildProject lastLive oneSpan config rounds
        (text "p") = some .empty ∧
      (versionsCorpus 1001 (by decide)).warmExisting = some enqueued := by
  obtain ⟨records, hrecords⟩ := exists_scan_documents (versionsCorpus 1001 (by decide))
  obtain ⟨manifests, hmanifests⟩ := exists_mapM_document hrecords
  refine ⟨manifests.map fun manifest => (manifest.documentId, manifest.version),
    rebuild_of_not_live hrecords fun manifest hmem => ?_, ?_⟩
  · rw [manifests_versionsCorpus, ← List.map_take, List.take_range] at hmem
    obtain ⟨n, hn, rfl⟩ := List.mem_map.mp hmem
    have hlt : n < 1000 := List.mem_range.mp hn
    have hne : n + 1 ≠ 1001 := by omega
    exact decide_eq_false hne
  · rw [Corpus.warmExisting, hrecords]
    show (records.mapM Record.document?).bind _ = _
    rw [hmanifests]
    rfl

/-- Of a document whose first thousand versions are superseded the rebuild drops the live one, and
the first pass of a start does not reach it. -/
theorem rebuild_drops_last_version :
    ∃ enqueued, (versionsCorpus 1001 (by decide)).rebuildProject lastLive oneSpan
        ⟨text "f", 1, 1, by decide, fun _ salt => salt⟩ 1 (text "p") = some .empty ∧
      (versionsCorpus 1001 (by decide)).warmExisting = some enqueued ∧
      ¬ Complete (versionsCorpus 1001 (by decide)) lastLive oneSpan (text "p") .empty ∧
      ¬ Warmed (versionsCorpus 1001 (by decide)) enqueued := by
  obtain ⟨enqueued, hrebuilt, hwarm⟩ := runs_versionsCorpus
    ⟨text "f", 1, 1, by decide, fun _ salt => salt⟩ 1
  have hlast : storedVersion 1000 ∈ (versionsCorpus 1001 (by decide)).manifests := by
    rw [manifests_versionsCorpus]
    exact List.mem_map_of_mem (List.mem_range.mpr (by decide))
  refine ⟨enqueued, hrebuilt, hwarm, fun hcomplete => ?_, fun hwarmed => ?_⟩
  · have hspan : HasSpan oneSpan (storedVersion 1000)
        ((versionsCorpus 1001 (by decide)).windows (text "d") 1001) 0 1 :=
      ⟨⟨0, 0, 1⟩, mem_windows_versionsCorpus (by decide), [⟨0, 0, 1⟩], rfl, ⟨0, 0, 1⟩,
        List.mem_singleton.mpr rfl, rfl, rfl⟩
    obtain ⟨entry, hentry, -⟩ := (hcomplete (text "d") 1001 0 1).mpr
      ⟨storedVersion 1000, hlast, rfl, rfl, rfl, rfl, hspan⟩
    cases hentry
  · have hlength := (warmed_iff hwarm).mp hwarmed
    rw [manifests_versionsCorpus, List.length_map, List.length_range] at hlength
    exact absurd hlength (by decide)

theorem rebuild_complete_iff_versions : ∃ enqueued,
    (Complete (versionsCorpus 1001 (by decide)) lastLive oneSpan (text "p") .empty ∧
      Warmed (versionsCorpus 1001 (by decide)) enqueued) →
    (versionsCorpus 1001 (by decide)).manifests.length ≤ DEFAULT_SCAN_LIMIT := by
  obtain ⟨enqueued, hrebuilt, hwarm⟩ := runs_versionsCorpus
    ⟨text "f", 1, 1, by decide, fun _ salt => salt⟩ 1
  exact ⟨enqueued, fun hall => ((rebuild_complete_iff hrebuilt hwarm).mp hall).1⟩

end Example

end ContextStore.SemanticIndex
