import ContextStore.Documents.Chunks
import ContextStore.Retrieval.Windows

/-! # Reading a range of a document

Only the physical chunks that intersect a byte range are read. They are checked against their
coordinates and digests, put together and cut at the range, whose offsets have to lie between two
characters or are moved inwards to such offsets. -/

namespace ContextStore.Recall

open Unicode Concurrent

/-- What a snapshot holds of one document version: the manifest's fields that a recall reads, the
chunk records and the search windows. -/
structure Source where
  kind : String
  byteLength : Nat
  chunks : List ChunkOccurrence
  chunk : String → Option ChunkPayload
  window : Nat → Option Window

/-- A piece of the range with the text of its own. -/
structure RangeChunk where
  chunkId : String
  ordinal : Nat
  startByte : Nat
  endByte : Nat
  text : List Char

structure Materialized where
  startByte : Nat
  endByte : Nat
  text : List Char
  chunks : List RangeChunk

/-! ## Bytes -/

def boundary (bytes : List UInt8) (offset : Nat) : Bool :=
  offset = 0 || offset = bytes.length || !isContinuation bytes offset

/-- `while (localStart < localEnd && !boundary(localStart)) localStart += 1`, where the first
argument is what is left of the range. -/
def firstBoundary (bytes : List UInt8) : Nat → Nat → Nat
  | 0, localStart => localStart
  | left + 1, localStart =>
    if boundary bytes localStart then localStart else firstBoundary bytes left (localStart + 1)

/-- `while (localEnd > localStart && !boundary(localEnd)) localEnd -= 1` -/
def lastBoundary (bytes : List UInt8) : Nat → Nat → Nat
  | 0, localEnd => localEnd
  | left + 1, localEnd =>
    if boundary bytes localEnd then localEnd else lastBoundary bytes left (localEnd - 1)

/-- U+FEFF, the byte order mark. -/
def mark : Char := Char.ofNat 0xfeff

def withoutMark (chars : List Char) : List Char :=
  if chars.head? = some mark then chars.tail else chars

/-- `TextDecoder("utf-8", { fatal: true }).decode(bytes)`, which takes a mark that the bytes begin
with for a byte order mark and leaves it out. -/
def decodeUtf8 (bytes : List UInt8) : Except StoreError (List Char) :=
  let chars := decodeChars bytes.length bytes
  if encodeChars chars = bytes then .ok (withoutMark chars)
  else .error (.typeError "The encoded data was not valid for encoding utf-8")

/-! ## Chunks -/

def intersects (startByte endByte : Nat) (reference : ChunkOccurrence) : Bool :=
  if startByte = endByte then reference.startByte = startByte ∧ reference.endByte = endByte
  else reference.startByte < endByte ∧ startByte < reference.endByte

def referencesForRange (source : Source) (startByte endByte : Nat) : List ChunkOccurrence :=
  source.chunks.filter (intersects startByte endByte)

variable (contentHash : List UInt8 → Digest) (source : Source)

/-- The bytes of a chunk record; reading one from the cache has the same outcome. -/
def physicalBytes (reference : ChunkOccurrence) : Except StoreError (List UInt8) :=
  if reference.endByte < reference.startByte
      ∨ reference.byteLength ≠ reference.endByte - reference.startByte then
    .error (.plain "Canonical source chunk reference has inconsistent coordinates.")
  else match source.chunk reference.chunkId with
    | none => .error (.plain
        s!"Canonical source chunk {reference.chunkId} is missing or malformed.")
    | some chunk =>
      if chunk.byteLength ≠ chunk.content.length
          ∨ chunk.contentHash ≠ contentHash chunk.content
          ∨ reference.chunkId ≠ chunkIdForHash (contentHash chunk.content)
          ∨ chunk.content.length ≠ reference.byteLength then
        .error (.plain
          s!"Canonical source chunk {reference.chunkId} failed integrity validation.")
      else .ok chunk.content

/-- The loop over the references, which have to be numbered from `ordinal` and lie end to end. -/
def occurrencesFrom : Nat → Nat → List ChunkOccurrence →
    Except StoreError (List (ChunkOccurrence × List UInt8))
  | _, _, [] => .ok []
  | ordinal, expectedStart, reference :: rest =>
    if reference.ordinal ≠ ordinal then
      .error (.plain "Canonical source range has an inconsistent chunk ordinal.")
    else if reference.startByte ≠ expectedStart then
      .error (.plain "Canonical source range has a chunk gap.")
    else do
      let bytes ← physicalBytes contentHash source reference
      let others ← occurrencesFrom (ordinal + 1) reference.endByte rest
      return (reference, bytes) :: others

def rangeChunk (resolvedStart resolvedEnd : Nat) (occurrence : ChunkOccurrence × List UInt8) :
    Except StoreError (List RangeChunk) :=
  let reference := occurrence.1
  let selectedStart := max resolvedStart reference.startByte
  let selectedEnd := min resolvedEnd reference.endByte
  if selectedEnd < selectedStart ∨ (selectedEnd = selectedStart ∧ resolvedStart ≠ resolvedEnd) then
    .ok []
  else do
    let text ← decodeUtf8 (subarray occurrence.2 (selectedStart - reference.startByte)
      (selectedEnd - reference.startByte))
    return [{
      chunkId := reference.chunkId
      ordinal := reference.ordinal
      startByte := selectedStart
      endByte := selectedEnd
      text }]

def rangeChunks (resolvedStart resolvedEnd : Nat) :
    List (ChunkOccurrence × List UInt8) → Except StoreError (List RangeChunk)
  | [] => .ok []
  | occurrence :: rest => do
    let chunks ← rangeChunk resolvedStart resolvedEnd occurrence
    let others ← rangeChunks resolvedStart resolvedEnd rest
    return chunks ++ others

/-- The text of the occurrences between two offsets. -/
def cutRange (resolvedStart resolvedEnd baseByte : Nat)
    (occurrences : List (ChunkOccurrence × List UInt8)) : Except StoreError Materialized := do
  let text ← decodeUtf8 (subarray (occurrences.flatMap Prod.snd) (resolvedStart - baseByte)
    (resolvedEnd - baseByte))
  let chunks ← rangeChunks resolvedStart resolvedEnd occurrences
  if chunks.flatMap RangeChunk.text ≠ text then
    throw (.plain "Canonical range chunks do not reproduce their selected source bytes.")
  return { startByte := resolvedStart, endByte := resolvedEnd, text, chunks }

/-- The offsets of the range, moved inwards or checked. -/
def resolveRange (allBytes : List UInt8) (localStart localEnd : Nat) (adjustUtf8 : Bool) :
    Except StoreError (Nat × Nat) :=
  if adjustUtf8 then
    let start := firstBoundary allBytes (localEnd - localStart) localStart
    .ok (start, lastBoundary allBytes (localEnd - start) localEnd)
  else if boundary allBytes localStart = false ∨ boundary allBytes localEnd = false then
    .error (.rangeError "Canonical source range splits a UTF-8 scalar.")
  else .ok (localStart, localEnd)

def readDocumentRange (startByte endByte : Nat) (adjustUtf8 : Bool) :
    Except StoreError Materialized :=
  if endByte < startByte ∨ source.byteLength < endByte then
    .error (.rangeError "Canonical source range is outside its document manifest.")
  else match referencesForRange source startByte endByte with
    | [] =>
      if startByte = endByte then .ok { startByte, endByte, text := [], chunks := [] }
      else .error (.plain "Canonical source range has no intersecting physical chunks.")
    | first :: rest =>
      if startByte < first.startByte ∨ ((first :: rest).getLast?.any (·.endByte < endByte)) then
        .error (.plain "Canonical source range is not fully covered by physical chunks.")
      else do
        let occurrences ← occurrencesFrom contentHash source
          (source.chunks.findIdx (intersects startByte endByte)) first.startByte (first :: rest)
        let resolved ← resolveRange (occurrences.flatMap Prod.snd) (startByte - first.startByte)
          (endByte - first.startByte) adjustUtf8
        cutRange (first.startByte + resolved.1) (first.startByte + resolved.2) first.startByte
          occurrences

end ContextStore.Recall
