import ContextStore.Foundation.InsertionMap
import ContextStore.Foundation.Transitions
import ContextStore.Semantic.Metadata

/-! # The semantic index

A project's vectors are loaded from its files or built one document after the other, a batch of
spans at a time. The index keeps four totals over the projects that are loaded; loading, indexing,
replacing a project by a rebuilt one and removing it adjust them by hand. What the embedder, the
vector library and the file system do is part of the action that uses them. -/

namespace ContextStore.SemanticIndex

open Unicode
open Concurrent (Machine)

def documentIdentity (documentId : Text) (version : Nat) : Text :=
  documentId ++ 0 :: text (toString version)

def vectorIdentity (project documentId : Text) (version startByte endByte : Nat) : Text :=
  project ++ 0 :: (documentIdentity documentId version ++
    0 :: (text (toString startByte) ++ 0 :: text (toString endByte)))

structure Span where
  windowOrdinal : Nat
  startByte : Nat
  endByte : Nat

structure Entry where
  label : Nat
  documentId : Text
  version : Nat
  windowOrdinal : Nat
  startByte : Nat
  endByte : Nat

def Entry.document (entry : Entry) : Text := documentIdentity entry.documentId entry.version

/-- The span that an entry of the project stands for. -/
def Entry.identity (project : Text) (entry : Entry) : Text :=
  vectorIdentity project entry.documentId entry.version entry.startByte entry.endByte

structure ProjectState where
  /-- Whether there is a vector index. -/
  index : Bool
  /-- Whether it is a view of the file, which takes no vectors. -/
  viewed : Bool
  entries : InsertionMap Nat Entry
  documents : List Text
  entryCountByDocumentIdentity : InsertionMap Text Nat
  metadataBytes : Nat
  indexBytes : Nat
  dirty : Bool

def ProjectState.empty : ProjectState where
  index := false
  viewed := false
  entries := .empty
  documents := []
  entryCountByDocumentIdentity := .empty
  metadataBytes := 0
  indexBytes := 0
  dirty := false

/-- The document whose spans are being embedded, with the spans that are left. -/
structure Indexing where
  project : Text
  documentId : Text
  version : Nat
  spans : List Span

structure Index where
  states : InsertionMap Text ProjectState
  entryCount : Int
  documentCount : Int
  metadataBytes : Int
  indexBytes : Int
  closed : Bool
  unavailable : Bool
  indexing : Option Indexing

def Index.empty : Index where
  states := .empty
  entryCount := 0
  documentCount := 0
  metadataBytes := 0
  indexBytes := 0
  closed := false
  unavailable := false
  indexing := none

structure Config where
  fingerprint : Text
  dimensions : Nat
  batchSize : Nat
  batchSize_pos : 0 < batchSize
  /-- `vectorLabel(identity, salt)`, eight bytes of a hash. -/
  vectorLabel : Text → Nat → Nat

variable (config : Config)

/-! ## Loading a project -/

/-- A project's files and what loading makes of them. -/
structure Files where
  /-- The bytes of the metadata file, when it can be read. -/
  metadata : Option (List UInt8)
  /-- The snapshot in the legacy file, when there is one. -/
  legacy : Option Metadata.Snapshot
  /-- The number of vectors, when the vector file can be viewed. -/
  vectors : Option Nat
  /-- Whether a legacy snapshot could be written anew and its file be removed. -/
  converted : Bool
  metadataBytes : Nat
  indexBytes : Nat

def Config.expected (project : Text) : Metadata.Expected :=
  ⟨some config.fingerprint, some project, some config.dimensions⟩

def readMetadata (project : Text) (files : Files) : Option Metadata.SnapshotResult :=
  let decoded := files.metadata.bind fun value =>
    (Metadata.decodeSemanticMetadata value (config.expected project)).toOption
  let legacy := files.legacy.bind fun snapshot =>
    (Metadata.normalizeLegacySemanticMetadata snapshot (config.expected project)).toOption
  decoded.or legacy

def ofMetadata (entry : Metadata.CompactEntry) : Entry where
  label := entry.label.val
  documentId := entry.documentId.val
  version := entry.version.val
  windowOrdinal := entry.windowOrdinal.val
  startByte := entry.startByte.val
  endByte := entry.endByte.val

def addDocument (documents : List Text) (identity : Text) : List Text :=
  if identity ∈ documents then documents else documents ++ [identity]

def ProjectState.countEntry (state : ProjectState) (identity : Text) : ProjectState :=
  { state with
    entryCountByDocumentIdentity := state.entryCountByDocumentIdentity.set identity
      ((state.entryCountByDocumentIdentity.get identity).getD 0 + 1) }

def ProjectState.setEntry (state : ProjectState) (entry : Entry) : ProjectState :=
  { state with entries := state.entries.set entry.label entry }

def ProjectState.addDocument (state : ProjectState) (identity : Text) : ProjectState :=
  { state with documents := SemanticIndex.addDocument state.documents identity }

/-- One round of the loop over the entries of the metadata. -/
def loadEntry (state : ProjectState) (entry : Entry) : ProjectState :=
  ((state.setEntry entry).addDocument entry.document).countEntry entry.document

def loadEntries (entries : List Entry) : ProjectState :=
  entries.foldl loadEntry { ProjectState.empty with index := true, viewed := true }

/-- A snapshot that is missing or does not fit is as good as none. -/
def loadProject (project : Text) (files : Files) : ProjectState :=
  match readMetadata config project files with
  | none => .empty
  | some metadata =>
    let state := loadEntries (metadata.entries.map ofMetadata)
    if files.vectors = some state.entries.entries.length ∧ files.converted then
      { state with metadataBytes := files.metadataBytes, indexBytes := files.indexBytes }
    else .empty

/-! ## Indexing a document -/

/-- Of the spans with the same bytes the first. -/
def distinctSpans : List Span → List Span
  | [] => []
  | span :: rest => span :: (distinctSpans rest).filter fun other =>
    !(other.startByte == span.startByte && other.endByte == span.endByte)

/-- The loop that looks for a label with the next salts, in so many rounds. -/
def freeLabel (project : Text) (entries : InsertionMap Nat Entry) (identity : Text) :
    Nat → Nat → Option Nat
  | 0, _ => none
  | rounds + 1, salt =>
    match entries.get (config.vectorLabel identity salt) with
    | none => some (config.vectorLabel identity salt)
    | some existing =>
      if existing.identity project ≠ identity then
        freeLabel project entries identity rounds (salt + 1)
      else some (config.vectorLabel identity salt)

def Indexing.identity (indexing : Indexing) (span : Span) : Text :=
  vectorIdentity indexing.project indexing.documentId indexing.version span.startByte span.endByte

def Indexing.entry (indexing : Indexing) (span : Span) (label : Nat) : Entry where
  label := label
  documentId := indexing.documentId
  version := indexing.version
  windowOrdinal := span.windowOrdinal
  startByte := span.startByte
  endByte := span.endByte

def Indexing.document (indexing : Indexing) : Text :=
  documentIdentity indexing.documentId indexing.version

/-- One round of the loop over a batch, with the total of the entries. -/
def addSpan (indexing : Indexing) (rounds : Nat) (span : Span) (total : Int)
    (state : ProjectState) : Option (Int × ProjectState) :=
  (freeLabel config indexing.project state.entries (indexing.identity span) rounds 0).map
    fun label => (total + 1,
      (state.countEntry indexing.document).setEntry (indexing.entry span label))

def addSpans (indexing : Indexing) (rounds : Nat) : List Span → Int → ProjectState →
    Option (Int × ProjectState)
  | [], total, state => some (total, state)
  | span :: rest, total, state =>
    (addSpan config indexing rounds span total state).bind fun added =>
      addSpans indexing rounds rest added.1 added.2

/-- What becomes of a batch. -/
inductive Batch where
  /-- The index has been closed before the batch is embedded. -/
  | closed
  /-- The batch is not embedded, or to vectors of other dimensions. -/
  | failed
  /-- The batch is embedded and labelled in so many rounds, and the library takes the vectors or
      throws. -/
  | embedded (rounds : Nat) (added : Bool)

/-! ## Actions -/

inductive Action where
  /-- A search or an indexing that is the first to use the project. -/
  | load (project : Text) (files : Files)
  /-- A document that is live begins to be indexed, with the spans of its windows and whether a
      viewed index can be read into memory. -/
  | begin (project documentId : Text) (version : Nat) (spans : List Span) (writable : Bool)
  | batch (outcome : Batch)
  /-- The files are written, with their sizes afterwards, or writing them fails. -/
  | persist (sizes : Option (Nat × Nat))
  /-- A search that fails. -/
  | fail
  | close
  /-- The end of a rebuild, when the new files stand in the place of the old ones. -/
  | swap (project : Text)
  | removeProject (project : Text)

def Index.beginDocument (s : Index) (indexing : Indexing) (writable : Bool) : Option Index :=
  if s.closed ∨ s.unavailable ∨ indexing.spans = [] then some s
  else (s.states.get indexing.project).map fun state =>
    if indexing.document ∈ state.documents then s
    else if state.viewed ∧ !writable then { s with unavailable := true }
    else { s with
      states := s.states.set indexing.project { state with viewed := false }
      indexing := some { indexing with spans := distinctSpans indexing.spans } }

/-- After the last batch the document is in. -/
def Index.endBatch (s : Index) (indexing : Indexing) (state : ProjectState) : Index :=
  if indexing.spans = [] then
    { s with
      states := s.states.set indexing.project
        { state.addDocument indexing.document with dirty := true }
      documentCount := s.documentCount + 1
      indexing := some indexing }
  else { s with
    states := s.states.set indexing.project state
    indexing := some indexing }

def Index.embedBatch (s : Index) (indexing : Indexing) (rounds : Nat) (added : Bool) :
    Option Index :=
  (s.states.get indexing.project).bind fun state =>
    (addSpans config indexing rounds (indexing.spans.take config.batchSize) s.entryCount
      { state with index := true }).map fun result =>
        let s := { s with entryCount := result.1 }
        if added then
          s.endBatch { indexing with spans := indexing.spans.drop config.batchSize } result.2
        else { s with
          states := s.states.set indexing.project result.2
          unavailable := true
          indexing := none }

def Index.batchStep (s : Index) (indexing : Indexing) : Batch → Option Index
  | .closed => if s.closed then some { s with indexing := none } else none
  | .failed => some { s with unavailable := true, indexing := none }
  | .embedded rounds added => s.embedBatch config indexing rounds added

def Index.persistStep (s : Index) (indexing : Indexing) : Option (Nat × Nat) → Option Index
  | none => some { s with unavailable := true, indexing := none }
  | some sizes => (s.states.get indexing.project).map fun state =>
    { s with
      states := s.states.set indexing.project
        { state with metadataBytes := sizes.1, indexBytes := sizes.2, dirty := false }
      metadataBytes := s.metadataBytes + ((sizes.1 : Int) - state.metadataBytes)
      indexBytes := s.indexBytes + ((sizes.2 : Int) - state.indexBytes)
      indexing := none }

/-- The state of the project is forgotten, and the totals do without it. -/
def Index.swapProject (s : Index) (project : Text) : Index :=
  match s.states.get project with
  | none => s
  | some state =>
    { s with
      states := s.states.delete project
      entryCount := max 0 (s.entryCount - state.entries.entries.length)
      documentCount := max 0 (s.documentCount - state.documents.length)
      metadataBytes := max 0 (s.metadataBytes - state.metadataBytes)
      indexBytes := max 0 (s.indexBytes - state.indexBytes) }

def Index.removeProject (s : Index) (project : Text) : Index :=
  match s.states.get project with
  | none => s
  | some state =>
    { s with
      states := s.states.delete project
      documentCount := max 0 (s.documentCount - state.documents.length) }

def Index.loadStep (s : Index) (project : Text) (files : Files) : Index :=
  let state := loadProject config project files
  { s with
    states := s.states.set project state
    entryCount := s.entryCount + state.entries.entries.length
    documentCount := s.documentCount + state.documents.length
    metadataBytes := s.metadataBytes + state.metadataBytes
    indexBytes := s.indexBytes + state.indexBytes }

/-- Documents are indexed and projects replaced in the order of one queue, and a removal waits for
    the queue. -/
def Index.step (s : Index) : Action → Option Index
  | .load project files =>
    if s.states.get project = none then some (s.loadStep config project files) else none
  | .begin project documentId version spans writable =>
    if s.indexing = none then s.beginDocument ⟨project, documentId, version, spans⟩ writable
    else none
  | .batch outcome => s.indexing.bind fun indexing =>
    if indexing.spans = [] then none else s.batchStep config indexing outcome
  | .persist sizes => s.indexing.bind fun indexing =>
    if indexing.spans = [] then s.persistStep indexing sizes else none
  | .fail => some { s with unavailable := true }
  | .close => some { s with closed := true }
  | .swap project => if s.indexing = none then some (s.swapProject project) else none
  | .removeProject project =>
    if s.indexing = none then some (s.removeProject project) else none

def machine : Machine Index Action where
  initial s := s = .empty
  step s action := s.step config action

end ContextStore.SemanticIndex
