import ContextStore.Postings.Tokens
import ContextStore.Retrieval.LiveDocument

/-! # The analysis of a document

The windows of a document are tokenized, and the occurrences of every term in a window are recorded
with their places. The record is stored with the differences from one occurrence to the next, from
which the places are recovered. -/

namespace ContextStore.Postings

open Unicode
open Concurrent (bind_ok_iff)
open Recall (Window Source readDocumentRange decodeUtf8)

def MAX_UNIQUE_TERMS_PER_DOCUMENT : Nat := 512

def MAX_BM25_ANALYZED_TOKENS_PER_DOCUMENT : Nat := 64000

def MAX_BM25_TERM_WINDOWS_PER_DOCUMENT : Nat := 4096

def BM25_INDEX_VERSION : Nat := 3

/-! ## Weights -/

namespace BM25_FIELD_WEIGHTS

def structural : ℚ := 5 / 2

def user : ℚ := 9 / 4

def assistant : ℚ := 5 / 4

def tool : ℚ := 2 / 5

def neutral : ℚ := 1

end BM25_FIELD_WEIGHTS

/-- A range of the text with the weight of its occurrences; such ranges are sorted. -/
structure FieldRange where
  startByte : Nat
  endByte : Nat
  weight : ℚ

/-- The loop of `weightForByte`, which ends as the range between the bounds gets smaller. -/
def searchRange (fieldRanges : List FieldRange) (startByte : Nat) : Nat → Int → Int → ℚ
  | 0, _, _ => BM25_FIELD_WEIGHTS.tool
  | fuel + 1, low, high =>
    if high < low then BM25_FIELD_WEIGHTS.tool
    else
      let middle := (low + high) / 2
      match fieldRanges[middle.toNat]? with
      | none => BM25_FIELD_WEIGHTS.tool
      | some range =>
        if startByte < range.startByte then
          searchRange fieldRanges startByte fuel low (middle - 1)
        else if range.endByte ≤ startByte then
          searchRange fieldRanges startByte fuel (middle + 1) high
        else range.weight

def weightForByte (fieldRanges : List FieldRange) (startByte : Nat) : ℚ :=
  if fieldRanges = [] then BM25_FIELD_WEIGHTS.neutral
  else searchRange fieldRanges startByte fieldRanges.length 0 (fieldRanges.length - 1)

/-! ## Windows -/

structure WindowLength where
  ordinal : Nat
  startByte : Nat
  endByte : Nat
  length : Nat
  weightedLength : ℚ

structure Analysis where
  termPostings : InsertionMap (List Char) (List Bm25Window)
  windows : List WindowLength
  totalLength : Nat
  totalWeightedLength : ℚ
  termWindows : Nat

def Analysis.empty : Analysis := ⟨.empty, [], 0, 0, 0⟩

def preparationLimit (limitKind : String) (limit observed : Nat) : Except IndexError Unit :=
  if limit < observed then .error (.preparationLimit limitKind limit observed) else .ok ()

theorem preparationLimit_eq_ok {limitKind : String} {limit observed : Nat} {done : Unit} :
    preparationLimit limitKind limit observed = .ok done ↔ observed ≤ limit := by
  rw [preparationLimit]
  split
  · rename_i h
    simp [h]
  · rename_i h
    simp [Nat.le_of_not_lt h]

def Bm25Token.place (token : Bm25Token) : Position :=
  ⟨token.position, token.startByte, token.endByte⟩

/-- The occurrences of every term. -/
def groupTokens (tokens : List Bm25Token) : InsertionMap (List Char) (List Position) :=
  tokens.foldl (fun grouped token =>
    grouped.set token.term ((grouped.get token.term).getD [] ++ [token.place])) .empty

/-- The record of a term in a window. -/
def windowPosting (weight : Nat → ℚ) (window : Window) (tokens : List Bm25Token)
    (positions : List Position) : Bm25Window where
  ordinal := window.ordinal
  startByte := window.startByte
  endByte := window.endByte
  length := tokens.length
  weightedLength := (tokens.map fun token => weight token.startByte).sum
  termFrequency := positions.length
  weightedTermFrequency := (positions.map fun position => weight position.startByte).sum
  positions := .found positions

/-- One round of the loop over the terms of a window. -/
def addPosting (weight : Nat → ℚ) (window : Window) (tokens : List Bm25Token)
    (termPostings : InsertionMap (List Char) (List Bm25Window))
    (entry : List Char × List Position) :
    Except IndexError (InsertionMap (List Char) (List Bm25Window)) := do
  let posting := windowPosting weight window tokens entry.2
  match termPostings.get entry.1 with
  | some postings => return termPostings.set entry.1 (postings ++ [posting])
  | none => do
    let added := termPostings.set entry.1 [posting]
    preparationLimit "unique terms" MAX_UNIQUE_TERMS_PER_DOCUMENT added.values.length
    return added

def addWindow (weight : Nat → ℚ) (analysis : Analysis) (window : Window)
    (tokens : List Bm25Token) : Except IndexError Analysis := do
  preparationLimit "analyzed token occurrences" MAX_BM25_ANALYZED_TOKENS_PER_DOCUMENT
    (analysis.totalLength + tokens.length)
  let weightedLength := (tokens.map fun token => weight token.startByte).sum
  let grouped := groupTokens tokens
  let termPostings ← grouped.entries.foldlM (addPosting weight window tokens) analysis.termPostings
  let termWindows := analysis.termWindows + grouped.values.length
  preparationLimit "term-window postings" MAX_BM25_TERM_WINDOWS_PER_DOCUMENT termWindows
  return {
    termPostings
    windows := analysis.windows ++
      [⟨window.ordinal, window.startByte, window.endByte, tokens.length, weightedLength⟩]
    totalLength := analysis.totalLength + tokens.length
    totalWeightedLength := analysis.totalWeightedLength + weightedLength
    termWindows }

variable (lexicon : Lexicon)

/-- A window of the text that is at hand. -/
def windowTokens (text : List Char) (window : Window) : Except IndexError (List Bm25Token) := do
  let windowText ← failsAs .store
    (decodeUtf8 (subarray (encodeChars text) window.startByte window.endByte))
  let tokens := tokenizeBm25 lexicon windowText
  preparationLimit "tokens per window" MAX_BM25_TOKENS_PER_WINDOW tokens.length
  return tokens.map fun token => { token with
    startByte := window.startByte + token.startByte
    endByte := window.startByte + token.endByte }

/-- The analysis of a text that is at hand. Every occurrence has weight one, so that the weighted
lengths are the lengths. -/
def analyzeDocument (text : List Char) (windows : List Window) : Except IndexError Analysis := do
  let analysis ← windows.foldlM (fun analysis window => do
    let tokens ← windowTokens lexicon text window
    addWindow (fun _ => BM25_FIELD_WEIGHTS.neutral) analysis window tokens) .empty
  preparationLimit "unique terms" MAX_UNIQUE_TERMS_PER_DOCUMENT
    analysis.termPostings.values.length
  return analysis

/-- Reads a range of the document that is indexed. -/
structure SourceReader where
  contentHash : List UInt8 → Digest
  source : Source

def SourceReader.readSourceRange (reader : SourceReader) (startByte endByte : Nat) :
    Except IndexError Recall.Materialized :=
  failsAs .store (readDocumentRange reader.contentHash reader.source startByte endByte true)

/-- The loop that reads a window segment by segment; each round gets on by a byte at least. -/
def streamWindow (reader : SourceReader) (sourceSegmentBytes : Nat) (window : Window) :
    Nat → Nat → Streaming → Except IndexError Streaming
  | 0, _, state => .ok state
  | fuel + 1, cursor, state =>
    if cursor < window.endByte then do
      let selected ← reader.readSourceRange cursor
        (min window.endByte (cursor + sourceSegmentBytes))
      if selected.startByte ≠ cursor ∨ selected.endByte ≤ cursor then
        throw (.invalid "BM25 bounded source reader failed to make UTF-8 progress.")
      let state ← tokenizeBm25Segment lexicon state selected.text selected.startByte
        (selected.endByte = window.endByte)
      streamWindow reader sourceSegmentBytes window fuel selected.endByte state
    else .ok state

/-- A window that is read in segments. -/
def rangeTokens (reader : SourceReader) (sourceSegmentBytes : Nat) (window : Window) :
    Except IndexError (List Bm25Token) := do
  let state ←
    if window.startByte = window.endByte then
      tokenizeBm25Segment lexicon .start [] window.startByte true
    else
      streamWindow lexicon reader sourceSegmentBytes window (window.endByte - window.startByte)
        window.startByte .start
  return state.tokens

def analyzeDocumentFromRanges (reader : SourceReader) (sourceSegmentBytes : Nat)
    (fieldRanges : List FieldRange) (windows : List Window) : Except IndexError Analysis :=
  windows.foldlM (fun analysis window => do
    let tokens ← rangeTokens lexicon reader sourceSegmentBytes window
    let analysis ← addWindow (weightForByte fieldRanges) analysis window tokens
    preparationLimit "unique terms" MAX_UNIQUE_TERMS_PER_DOCUMENT
      analysis.termPostings.values.length
    return analysis) .empty

/-! ## What is stored of a window -/

/-- The loop of `storedPostingWindow`. -/
def deltasFrom : Int → Int → List Position → List Int
  | _, _, [] => []
  | priorPosition, priorStartByte, position :: rest =>
    (position.position - priorPosition) :: (position.startByte - priorStartByte) ::
      ((position.endByte : Int) - position.startByte) ::
        deltasFrom position.position position.startByte rest

def storedPostingWindow (window : Bm25Window) : Bm25Window :=
  match window.positions with
  | .deltas _ => window
  | .found positions =>
    { window with positions := .deltas (deltasFrom 0 window.startByte positions) }

/-- The loop of `postingPositions`; the deltas of a block are not negative. -/
def positionsFrom : Int → Int → List Int → List Position
  | position, startByte, positionDelta :: startDelta :: lengthDelta :: rest =>
    ⟨(position + positionDelta).toNat, (startByte + startDelta).toNat,
        (startByte + startDelta + lengthDelta).toNat⟩ ::
      positionsFrom (position + positionDelta) (startByte + startDelta) rest
  | _, _, _ => []

def postingPositions (window : Bm25Window) : Except IndexError (List Position) :=
  match window.positions with
  | .found positions => .ok positions
  | .deltas positionDeltas =>
    if positionDeltas.length % 3 ≠ 0 then
      .error (.invalid "BM25 posting position deltas are malformed.")
    else .ok (positionsFrom 0 window.startByte positionDeltas)

/-- The posting of a term in a window, with what is stored of the window. -/
def bm25Posting (manifest : Manifest) (generation : Nat) (term : List Char) (window : Bm25Window) :
    Bm25Posting where
  bm25PostingVersion := BM25_INDEX_VERSION
  tokenizerVersion := BM25_TOKENIZER_VERSION
  generation := generation
  documentVersion := manifest.version
  createdAt := manifest.createdAt
  bucket := manifest.createdAt / 3600000
  project := manifest.project
  term := codeUnits term
  documentId := manifest.documentId
  kind := manifest.kind
  sessionId := manifest.sessionId
  sourceMessageKeys := manifest.sourceMessageKeys
  turnId := (semanticIdentifier manifest.sourceTurnId).or (semanticIdentifier manifest.turnId)
  window := storedPostingWindow window

end ContextStore.Postings
