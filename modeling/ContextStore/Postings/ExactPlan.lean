import ContextStore.Foundation.InsertionMap
import ContextStore.Foundation.Segments
import ContextStore.Postings.Block
import ContextStore.Retrieval.WindowCover

/-! # The postings of exact values

Every value found in a document is listed under its exact form, and under its folded form where
case matters. The occurrences of one form in one window make a group, and groups are written in
postings of bounded size. A posting of a folded form is an alias of the postings that list the same
occurrences under their exact forms. -/

namespace ContextStore.Postings

open Unicode
open KeyEncoding (KeyField MAX_SAFE_INTEGER)
open Segments (segments)
open Recall (Window windowForByteRange)

def EXACT_POSTING_VERSION : Nat := 1

def MAX_EXACT_POSTING_MUTATIONS : Nat := 1000

def MAX_MATCHES_PER_POSTING : Nat := 256

def MAX_SEMANTIC_IDENTIFIER_LENGTH : Nat := 8192

/-- What indexing ends with where it fails. -/
inductive IndexError where
  | invalid (message : String)
  | store (error : StoreError)
  /-- No window is found for a range. -/
  | undefinedWindow
  | key (error : KeyEncoding.TypeError)
  | noCanonicalTarget
  | locator (message : String)
  | block (message : String)
  /-- More has been found than is prepared. -/
  | preparationLimit (limitKind : String) (limit observed : Nat)

/-- Reports the error of a callee as one of indexing. -/
def failsAs {ε α : Type} (error : ε → IndexError) : Except ε α → Except IndexError α
  | .ok value => .ok value
  | .error failure => .error (error failure)

theorem failsAs_eq_ok {ε α : Type} {error : ε → IndexError} {x : Except ε α} {a : α} :
    failsAs error x = .ok a ↔ x = .ok a := by
  cases x with
  | error e => simp [failsAs]
  | ok value => simp [failsAs]

/-! ## What is indexed -/

/-- What the runtime does to the case and to the form of a text. -/
structure Casing where
  /-- `normalize("NFKC")` -/
  normalize : Text → Text
  toLowerCase : Text → Text

def normalizeExactValue (casing : Casing) (value : Text) (foldCase : Bool) : Text :=
  if foldCase then casing.toLowerCase (casing.normalize value) else casing.normalize value

def caseSensitive (type : Text) : Bool := type ≠ text "commit"

/-- A value that has been found. What `anchorRecord` computes of the type and the value is computed
where it is used. -/
structure Anchor where
  type : Text
  value : Text
  startByte : Nat
  endByte : Nat
  specificity : ℚ

def Anchor.caseSensitive (anchor : Anchor) : Bool := Postings.caseSensitive anchor.type

def Anchor.normalized (casing : Casing) (anchor : Anchor) : Text :=
  normalizeExactValue casing anchor.value !anchor.caseSensitive

def Anchor.folded (casing : Casing) (anchor : Anchor) : Text :=
  normalizeExactValue casing anchor.value true

structure Manifest where
  project : Text
  sessionId : Text
  documentId : Text
  version : Nat
  kind : Text
  createdAt : Nat
  sourceKey : Text
  sourceKeyStatus : Option Text
  sourceMessageKeys : List Text
  /-- `metadata.sourceTurnId` and `metadata.turnId`, where these are strings -/
  sourceTurnId : Option Text
  turnId : Option Text

structure ExactContext where
  manifest : Manifest
  generation : Nat
  windows : List Window

def semanticIdentifier (value : Option Text) : Option Text :=
  value.filter fun value => value ≠ [] && value.length ≤ MAX_SEMANTIC_IDENTIFIER_LENGTH

/-! ## Keys -/

def identifier (value : Text) (label : String) : Except IndexError Text :=
  if value = [] then .error (.invalid (label ++ " must be a non-empty string.")) else .ok value

def positiveInteger (value : Nat) (label : String) : Except IndexError Nat :=
  if value = 0 ∨ MAX_SAFE_INTEGER < value then
    .error (.invalid (label ++ " must be a positive safe integer no greater than " ++
      toString MAX_SAFE_INTEGER ++ "."))
  else .ok value

def nonNegativeInteger (value : Nat) (label : String) : Except IndexError Nat :=
  if MAX_SAFE_INTEGER < value then
    .error (.invalid (label ++ " must be a non-negative safe integer."))
  else .ok value

def bucketFor (createdAt bucketMs : Nat) : Except IndexError Nat := do
  let createdAt ← nonNegativeInteger createdAt "createdAt"
  return createdAt / bucketMs

namespace exactKeys

def posting (project caseMode term : Text) (bucket : Nat) (documentId : Text)
    (version generation windowOrdinal segment : Nat) : Except IndexError (List KeyField) := do
  let project ← identifier project "project"
  let caseMode ← identifier caseMode "caseMode"
  let term ← identifier term "term"
  let bucket ← nonNegativeInteger bucket "bucket"
  let documentId ← identifier documentId "documentId"
  let version ← positiveInteger version "version"
  let generation ← positiveInteger generation "generation"
  let windowOrdinal ← nonNegativeInteger windowOrdinal "windowOrdinal"
  let segment ← nonNegativeInteger segment "segment"
  return [.string (text "exact"), .string project, .string caseMode, .string term, .number bucket,
    .string documentId, .number version, .number generation, .number windowOrdinal,
    .number segment]

def termPrefix (project caseMode term : Text) : Except IndexError (List KeyField) := do
  let project ← identifier project "project"
  let caseMode ← identifier caseMode "caseMode"
  let term ← identifier term "term"
  return [.string (text "exact"), .string project, .string caseMode, .string term]

end exactKeys

def encodeKey (key : List KeyField) : Except IndexError (List UInt8) :=
  failsAs .key (KeyEncoding.encodeKey key)

/-- The encoded key stands for its base64url form, which identifies it just as well. -/
def postingGroupKey (key : List KeyField) : Except IndexError (List UInt8) := encodeKey key

/-! ## Orders -/

def compareText (left right : Text) : Ordering :=
  if left < right then .lt else if right < left then .gt else .eq

def compareAnchors (left right : Anchor) : Ordering :=
  (compare left.startByte right.startByte).then <|
  (compare right.endByte left.endByte).then <|
  (compareText left.type right.type).then (compareText left.value right.value)

/-- More specific values come first. -/
def compareRanked (left right : Anchor) : Ordering :=
  (compare right.specificity left.specificity).then (compareAnchors left right)

def compareMatches (left right : Match) : Ordering :=
  (compare left.startByte right.startByte).then <|
  (compare left.endByte right.endByte).then <|
  (compareText left.type right.type).then (compareText left.value right.value)

def decimal (n : Nat) : Text := text (toString n)

/-- `${match.type}\0${match.value}\0${match.startByte}\0${match.endByte}` -/
def exactMatchIdentity (found : Match) : Text :=
  found.type ++ 0 :: (found.value ++ 0 :: (decimal found.startByte ++ 0 :: decimal found.endByte))

/-! ## Groups -/

structure Mode where
  caseMode : Text
  term : Text

def exactMode : Text := text "exact"

def foldedMode : Text := text "folded"

def Anchor.modes (casing : Casing) (anchor : Anchor) : List Mode :=
  ⟨exactMode, anchor.normalized casing⟩ ::
    if anchor.caseSensitive then [⟨foldedMode, anchor.folded casing⟩] else []

def Anchor.found (anchor : Anchor) : Match where
  type := anchor.type
  value := anchor.value
  startByte := anchor.startByte
  endByte := anchor.endByte
  specificity := anchor.specificity

structure Group where
  key : List KeyField
  caseMode : Text
  term : Text
  window : Window
  found : List Match

/-- What the loop over the anchors has collected. -/
structure Planning where
  groups : InsertionMap (List UInt8) Group
  postingMutationCount : Nat
  observedPostingMutations : Nat
  omittedMatches : Nat

def Planning.empty : Planning := ⟨.empty, 0, 0, 0⟩

/-- The group under an identity, or the one that is created there. -/
def Planning.group (planning : Planning) (identity : List UInt8) (fresh : Group) : Group :=
  (planning.groups.get identity).getD fresh

def Group.startsPosting (group : Group) : Bool :=
  group.found.length % MAX_MATCHES_PER_POSTING = 0

def Group.push (group : Group) (found : Match) : Group :=
  { group with found := group.found ++ [found] }

/-- One round of the loop over the modes, behind the lookup of the group. -/
def Planning.enter (planning : Planning) (identity : List UInt8) (fresh : Group)
    (found : Match) : Planning :=
  let group := planning.group identity fresh
  if group.startsPosting then
    if planning.postingMutationCount = MAX_EXACT_POSTING_MUTATIONS then
      { planning with
        observedPostingMutations := planning.observedPostingMutations + 1
        omittedMatches := planning.omittedMatches + 1 }
    else
      { planning with
        groups := planning.groups.set identity (group.push found)
        postingMutationCount := planning.postingMutationCount + 1
        observedPostingMutations := planning.observedPostingMutations + 1 }
  else { planning with groups := planning.groups.set identity (group.push found) }

def planMode (context : ExactContext) (bucket : Nat) (window : Window) (found : Match)
    (planning : Planning) (mode : Mode) : Except IndexError Planning := do
  let manifest := context.manifest
  let key ← exactKeys.posting manifest.project mode.caseMode mode.term bucket manifest.documentId
    manifest.version context.generation window.ordinal 0
  let identity ← postingGroupKey key
  return planning.enter identity ⟨key, mode.caseMode, mode.term, window, []⟩ found

def planAnchor (casing : Casing) (context : ExactContext) (bucket : Nat) (planning : Planning)
    (anchor : Anchor) : Except IndexError Planning := do
  let window ← failsAs .store
    (windowForByteRange context.windows anchor.startByte anchor.endByte)
  match window with
  | none => .error .undefinedWindow
  | some window =>
    (anchor.modes casing).foldlM (planMode context bucket window anchor.found) planning

def rankedAnchors (anchors : List Anchor) : List Anchor :=
  anchors.mergeSort fun left right => (compareRanked left right).isLE

/-- The loop over the anchors. -/
def planGroups (casing : Casing) (context : ExactContext) (bucket : Nat)
    (anchors : List Anchor) : Except IndexError Planning :=
  (rankedAnchors anchors).foldlM (planAnchor casing context bucket) .empty

/-! ## Postings -/

structure FullMutation where
  key : List KeyField
  payload : ExactPosting

def Group.posting (context : ExactContext) (bucket : Nat) (group : Group)
    (exactMatches : List Match) : ExactPosting :=
  let manifest := context.manifest
  { postingVersion := EXACT_POSTING_VERSION
    generation := context.generation
    sourceVersion := manifest.version
    project := manifest.project
    sessionId := manifest.sessionId
    bucket
    createdAt := manifest.createdAt
    documentId := manifest.documentId
    documentVersion := manifest.version
    documentKind := manifest.kind
    sourceKey := manifest.sourceKey
    sourceKeyStatus := manifest.sourceKeyStatus
    sourceMessageKeys := manifest.sourceMessageKeys
    turnId := (semanticIdentifier manifest.sourceTurnId).or (semanticIdentifier manifest.turnId)
    windowOrdinal := group.window.ordinal
    windowStartByte := group.window.startByte
    windowEndByte := group.window.endByte
    caseMode := group.caseMode
    normalizedTerm := group.term
    exactMatches }

def Group.sorted (group : Group) : List Match :=
  group.found.mergeSort fun left right => (compareMatches left right).isLE

def Group.mutations (context : ExactContext) (bucket : Nat) (group : Group) : List FullMutation :=
  (segments MAX_MATCHES_PER_POSTING group.sorted).zipIdx.map fun segment =>
    ⟨group.key.dropLast ++ [.number segment.2], group.posting context bucket segment.1⟩

def Planning.fullMutations (context : ExactContext) (bucket : Nat) (planning : Planning) :
    List FullMutation :=
  planning.groups.values.flatMap (Group.mutations context bucket)

/-- The encoded keys of the postings under an exact form, with what they list. -/
def canonicalPostings (mutations : List FullMutation) :
    Except IndexError (List (List UInt8 × List Match)) :=
  (mutations.filter fun mutation => mutation.payload.caseMode = exactMode).mapM fun mutation => do
    let encoded ← encodeKey mutation.key
    return (encoded, mutation.payload.exactMatches)

/-- `exactTargets.get(identity)`: a key for every match of that identity. -/
def exactTargets (canonical : List (List UInt8 × List Match)) (identity : Text) :
    List (List UInt8) :=
  canonical.flatMap fun target =>
    (target.2.filter fun found => exactMatchIdentity found = identity).map fun _ => target.1

def collect (targets : List (List UInt8)) (target : List UInt8) : List (List UInt8) :=
  if target ∈ targets then targets else targets ++ [target]

def foldedTargets (canonical : List (List UInt8 × List Match)) (found : List Match) :
    List (List UInt8) :=
  (found.flatMap fun one => exactTargets canonical (exactMatchIdentity one)).foldl collect []

inductive RecordKind where
  | exactPosting
  | exactFoldedPostingLocator

structure Mutation where
  key : List KeyField
  kind : RecordKind
  payload : List UInt8

def writeMutation (v8 : V8) (canonical : List (List UInt8 × List Match))
    (mutation : FullMutation) : Except IndexError Mutation :=
  if mutation.payload.caseMode ≠ foldedMode then do
    let payload ← failsAs .block (encodeExactPostingBlock v8 mutation.payload)
    return ⟨mutation.key, .exactPosting, payload⟩
  else
    let targets := foldedTargets canonical mutation.payload.exactMatches
    if targets = [] then .error .noCanonicalTarget
    else do
      let payload ← failsAs .locator (encodePostingLocator .exactFolded targets)
      return ⟨mutation.key, .exactFoldedPostingLocator, payload⟩

/-- Sorts the mutations by their encoded keys. -/
def sortMutations (mutations : List Mutation) : Except IndexError (List Mutation) := do
  let keyed ← mutations.mapM fun mutation => do
    let encoded ← encodeKey mutation.key
    return (encoded, mutation)
  return (keyed.mergeSort fun left right => decide (left.1 ≤ right.1)).map Prod.snd

structure ExactMetadata where
  anchorCount : Nat
  postingCount : Nat
  indexedMatchCount : Nat
  omittedMatchCount : Nat
  /-- The limit that has been reached, and how many postings there would have been. -/
  preparationLimit : Option (Nat × Nat)
  bucket : Nat
  bucketMs : Nat

structure ExactIndex where
  metadata : ExactMetadata
  mutations : List Mutation

def exactMutationsForAnchors (v8 : V8) (casing : Casing) (context : ExactContext)
    (anchors : List Anchor) (bucketMs : Nat) : Except IndexError ExactIndex := do
  let bucketMs ← positiveInteger bucketMs "bucketMs"
  let bucket ← bucketFor context.manifest.createdAt bucketMs
  let planning ← planGroups casing context bucket anchors
  let fullMutations := planning.fullMutations context bucket
  let canonical ← canonicalPostings fullMutations
  let written ← fullMutations.mapM (writeMutation v8 canonical)
  let mutations ← sortMutations written
  return {
    metadata := {
      anchorCount := anchors.length
      postingCount := mutations.length
      indexedMatchCount :=
        (fullMutations.map fun mutation => mutation.payload.exactMatches.length).sum
      omittedMatchCount := planning.omittedMatches
      preparationLimit :=
        if planning.omittedMatches = 0 then none
        else some (MAX_EXACT_POSTING_MUTATIONS, planning.observedPostingMutations)
      bucket
      bucketMs }
    mutations }

end ContextStore.Postings
