import ContextStore.Store.World

/-! # Physical chunks

A document's text is cut into occurrences that lie end to end; the occurrences of one content share
one stored payload, named by the digest of its bytes. `Tiles` is the layout a cut produces, and
`reconstructPhysicalChunks_of_tiles` says that payloads with the bytes of their occurrences put the
text together again. -/

namespace ContextStore

open Concurrent

/-! ## Cutting -/

structure ChunkingOptions where
  maxChunkBytes : Option Nat := none
  minLineSplitBytes : Option Nat := none

structure NormalizedChunking where
  maxChunkBytes : Nat
  minLineSplitBytes : Nat

/-- `MAX_PHYSICAL_CHUNK_BYTES` -/
def maxPhysicalChunkBytes : Nat := 1024 * 1024

def normalizeChunkingOptions (options : ChunkingOptions) : Except StoreError NormalizedChunking :=
  let maxChunkBytes := options.maxChunkBytes.getD (64 * 1024)
  let minLineSplitBytes := options.minLineSplitBytes.getD (min (16 * 1024) maxChunkBytes)
  if maxChunkBytes = 0 then .error (.typeError "maxChunkBytes must be a positive safe integer.")
  else if maxChunkBytes < 4 then .error (.rangeError "maxChunkBytes must be at least 4.")
  else if maxPhysicalChunkBytes < maxChunkBytes then
    .error (.rangeError s!"maxChunkBytes must not exceed {maxPhysicalChunkBytes}.")
  else if maxChunkBytes < minLineSplitBytes then
    .error (.rangeError "minLineSplitBytes must be between 0 and maxChunkBytes.")
  else .ok { maxChunkBytes, minLineSplitBytes }

/-- An occurrence together with its bytes. -/
structure PhysicalChunk extends ChunkOccurrence where
  contentHash : Digest
  content : List UInt8

def chunkIdForHash (hash : Digest) : String := "sha256:" ++ hash

/-- `bytes.subarray(start, end)` -/
def subarray (bytes : List UInt8) (startByte endByte : Nat) : List UInt8 :=
  (bytes.drop startByte).take (endByte - startByte)

/-- A byte inside a UTF-8 scalar. -/
def isContinuation (bytes : List UInt8) (index : Nat) : Bool :=
  (bytes[index]?.getD 0) &&& 0xc0 = 0x80

def utf8BoundaryAtOrBefore (bytes : List UInt8) (floor : Nat) : Nat → Nat
  | 0 => 0
  | boundary + 1 =>
    if floor < boundary + 1 ∧ boundary + 1 < bytes.length ∧ isContinuation bytes (boundary + 1)
    then utf8BoundaryAtOrBefore bytes floor boundary
    else boundary + 1

/-- `bytes.lastIndexOf(0x0a, index)` -/
def lastNewline (bytes : List UInt8) : Nat → Option Nat
  | 0 => if bytes[0]? = some 0x0a then some 0 else none
  | index + 1 => if bytes[index + 1]? = some 0x0a then some (index + 1) else lastNewline bytes index

def preferredEnd (bytes : List UInt8) (start : Nat) (options : NormalizedChunking) :
    Except StoreError Nat :=
  if bytes.length ≤ start + options.maxChunkBytes then .ok bytes.length
  else
    let hardEnd := utf8BoundaryAtOrBefore bytes start (start + options.maxChunkBytes)
    if hardEnd ≤ start then
      .error (.coded "ERR_ROCKSDB_CHUNK_INTEGRITY"
        "Unable to find a UTF-8 boundary within the configured chunk size.")
    else match lastNewline bytes (hardEnd - 1) with
      | some newline =>
        if start + options.minLineSplitBytes ≤ newline ∧ start < newline + 1 then
          .ok (newline + 1)
        else .ok hardEnd
      | none => .ok hardEnd

/-- One occurrence. Equal addresses share the content that was seen first. -/
def physicalChunk (contentHash : List UInt8 → Digest) (bytes : List UInt8)
    (seen : List PhysicalChunk) (startByte endByte ordinal : Nat) : PhysicalChunk :=
  let contentBytes := subarray bytes startByte endByte
  let hash := contentHash contentBytes
  { chunkId := chunkIdForHash hash
    ordinal
    startByte
    endByte
    byteLength := contentBytes.length
    contentHash := hash
    content := ((seen.find? (·.chunkId = chunkIdForHash hash)).map (·.content)).getD contentBytes }

/-- The loop of `splitPhysicalChunks`; each round but the last moves `startByte` forward. -/
def splitFrom (contentHash : List UInt8 → Digest) (bytes : List UInt8)
    (options : NormalizedChunking) :
    Nat → Nat → Nat → List PhysicalChunk → Except StoreError (List PhysicalChunk)
  | 0, _, _, _ => .error .unfinished
  | fuel + 1, startByte, ordinal, seen => do
    let endByte ← preferredEnd bytes startByte options
    let chunk := physicalChunk contentHash bytes seen startByte endByte ordinal
    if endByte < bytes.length then
      let rest ← splitFrom contentHash bytes options fuel endByte (ordinal + 1) (seen ++ [chunk])
      return chunk :: rest
    else return [chunk]

def splitPhysicalChunks (contentHash : List UInt8 → Digest) (bytes : List UInt8)
    (options : ChunkingOptions) : Except StoreError (List PhysicalChunk) := do
  let options ← normalizeChunkingOptions options
  splitFrom contentHash bytes options (bytes.length + 1) 0 0 []

/-- `physicalPayload` -/
def PhysicalChunk.payload (chunk : PhysicalChunk) : ChunkPayload where
  chunkId := chunk.chunkId
  contentHash := chunk.contentHash
  byteLength := chunk.byteLength
  content := chunk.content

/-- One payload per address, in the order of first appearance. -/
def uniquePhysicalChunks : List PhysicalChunk → List ChunkPayload → List ChunkPayload
  | [], seen => seen
  | chunk :: rest, seen =>
    if seen.any (·.chunkId = chunk.chunkId) then uniquePhysicalChunks rest seen
    else uniquePhysicalChunks rest (seen ++ [chunk.payload])

/-- The occurrences without their bytes, as a manifest lists them. -/
def createChunkReferences (chunks : List PhysicalChunk) : List ChunkOccurrence :=
  chunks.map (·.toChunkOccurrence)

/-! ## Putting together -/

/-- `assertChunkLayout`: the occurrences lie end to end and are numbered in order. -/
def layoutEnd : Nat → Nat → List ChunkOccurrence → Except StoreError Nat
  | cursor, _, [] => .ok cursor
  | cursor, index, chunk :: rest =>
    if chunk.endByte < chunk.startByte ∨ chunk.byteLength ≠ chunk.endByte - chunk.startByte
        ∨ chunk.ordinal ≠ index ∨ chunk.startByte ≠ cursor then
      .error (.coded "ERR_ROCKSDB_CHUNK_INTEGRITY" s!"Chunk {index} does not fit the layout.")
    else layoutEnd chunk.endByte (index + 1) rest

/-- The bytes of one occurrence, checked against its coordinates and its address. -/
def occurrenceBytes (contentHash : List UInt8 → Digest)
    (occurrence : ChunkOccurrence × ChunkPayload) : Except StoreError (List UInt8) :=
  let bytes := occurrence.2.content
  if bytes.length ≠ occurrence.1.byteLength ∨ occurrence.2.contentHash ≠ contentHash bytes
      ∨ occurrence.1.chunkId ≠ chunkIdForHash (contentHash bytes) then
    .error (.coded "ERR_ROCKSDB_CHUNK_INTEGRITY"
      s!"Chunk {occurrence.1.ordinal} content does not match its coordinates.")
  else .ok bytes

def concatOccurrences (contentHash : List UInt8 → Digest) :
    List (ChunkOccurrence × ChunkPayload) → Except StoreError (List UInt8)
  | [] => .ok []
  | occurrence :: rest => do
    let bytes ← occurrenceBytes contentHash occurrence
    let others ← concatOccurrences contentHash rest
    return bytes ++ others

def reconstructPhysicalChunks (contentHash : List UInt8 → Digest)
    (chunks : List (ChunkOccurrence × ChunkPayload)) : Except StoreError (List UInt8) := do
  if chunks = [] then throw (.typeError "chunks must contain at least one occurrence.")
  let _ ← layoutEnd 0 0 (chunks.map (·.1))
  concatOccurrences contentHash chunks

/-! ## The layout of a cut -/

variable {contentHash : List UInt8 → Digest} {bytes : List UInt8}

/-- The coordinates and the address of an occurrence are those of a piece of the text. -/
structure PhysicalChunk.Fits (contentHash : List UInt8 → Digest) (bytes : List UInt8)
    (chunk : PhysicalChunk) : Prop where
  start_le : chunk.startByte ≤ chunk.endByte
  end_le : chunk.endByte ≤ bytes.length
  byteLength : chunk.byteLength = chunk.endByte - chunk.startByte
  contentHash : chunk.contentHash = contentHash (subarray bytes chunk.startByte chunk.endByte)
  chunkId : chunk.chunkId = chunkIdForHash chunk.contentHash

/-- The occurrences lie end to end from `cursor` to the end of the text, numbered from `index`. -/
def Tiles (contentHash : List UInt8 → Digest) (bytes : List UInt8) :
    Nat → Nat → List PhysicalChunk → Prop
  | cursor, _, [] => cursor = bytes.length
  | cursor, index, chunk :: rest => chunk.Fits contentHash bytes ∧ chunk.ordinal = index ∧
      chunk.startByte = cursor ∧ Tiles contentHash bytes chunk.endByte (index + 1) rest

variable {chunks : List PhysicalChunk} {options : ChunkingOptions} {seen : List ChunkPayload}
  {payload : ChunkPayload}

theorem Tiles.fits {cursor index : Nat} (h : Tiles contentHash bytes cursor index chunks) :
    ∀ chunk ∈ chunks, chunk.Fits contentHash bytes := by
  induction chunks generalizing cursor index with
  | nil => simp
  | cons chunk rest ih => exact List.forall_mem_cons.mpr ⟨h.1, ih h.2.2.2⟩

theorem length_subarray {a b : Nat} (hb : b ≤ bytes.length) :
    (subarray bytes a b).length = b - a := by
  rw [subarray, List.length_take, List.length_drop]
  omega

theorem subarray_append {a b c : Nat} (hab : a ≤ b) (hbc : b ≤ c) :
    subarray bytes a b ++ subarray bytes b c = subarray bytes a c := by
  have hsplit : c - a = (b - a) + (c - b) := by omega
  have hdrop : a + (b - a) = b := by omega
  rw [subarray, subarray, subarray, hsplit, List.take_add, List.drop_drop, hdrop]

theorem utf8BoundaryAtOrBefore_le (bytes : List UInt8) (floor candidate : Nat) :
    utf8BoundaryAtOrBefore bytes floor candidate ≤ candidate := by
  induction candidate with
  | zero => exact le_rfl
  | succ boundary ih =>
    unfold utf8BoundaryAtOrBefore
    split
    · exact ih.trans (Nat.le_succ _)
    · exact le_rfl

theorem lastNewline_le {index newline : Nat} (h : lastNewline bytes index = some newline) :
    newline ≤ index := by
  induction index with
  | zero =>
    unfold lastNewline at h
    split at h <;> simp_all
  | succ index ih =>
    unfold lastNewline at h
    split at h
    · exact (Option.some.inj h).ge
    · exact (ih h).trans (Nat.le_succ _)

theorem preferredEnd_bounds {start endByte : Nat} {options : NormalizedChunking}
    (hstart : start ≤ bytes.length) (h : preferredEnd bytes start options = .ok endByte) :
    start ≤ endByte ∧ endByte ≤ bytes.length := by
  have hhard := utf8BoundaryAtOrBefore_le bytes start (start + options.maxChunkBytes)
  unfold preferredEnd at h
  split at h
  · cases h
    exact ⟨hstart, le_rfl⟩
  · next hlong =>
    dsimp only at h
    split at h
    · cases h
    · split at h
      · next newline hnewline =>
        have hle := lastNewline_le hnewline
        split at h <;> cases h <;> omega
      · cases h
        omega

theorem splitFrom_tiles {options : NormalizedChunking} {fuel startByte ordinal : Nat}
    {seen : List PhysicalChunk} (hstart : startByte ≤ bytes.length)
    (h : splitFrom contentHash bytes options fuel startByte ordinal seen = .ok chunks) :
    Tiles contentHash bytes startByte ordinal chunks := by
  induction fuel generalizing startByte ordinal seen chunks with
  | zero => cases h
  | succ fuel ih =>
    simp only [splitFrom, bind_ok_iff] at h
    obtain ⟨endByte, hend, h⟩ := h
    obtain ⟨hle, hlen⟩ := preferredEnd_bounds hstart hend
    have hfits : (physicalChunk contentHash bytes seen startByte endByte ordinal).Fits
        contentHash bytes := ⟨hle, hlen, length_subarray hlen, rfl, rfl⟩
    split at h
    · obtain ⟨rest, hrest, heq⟩ := bind_ok_iff.mp h
      cases heq
      exact ⟨hfits, rfl, rfl, ih hlen hrest⟩
    · next hlast =>
      cases h
      exact ⟨hfits, rfl, rfl, le_antisymm hlen (not_lt.mp hlast)⟩

/-- A cut lies end to end over the whole text. -/
theorem splitPhysicalChunks_tiles (h : splitPhysicalChunks contentHash bytes options = .ok chunks) :
    Tiles contentHash bytes 0 0 chunks := by
  obtain ⟨_, _, h⟩ := bind_ok_iff.mp h
  exact splitFrom_tiles (Nat.zero_le _) h

theorem splitPhysicalChunks_ne_nil
    (h : splitPhysicalChunks contentHash bytes options = .ok chunks) : chunks ≠ [] := by
  obtain ⟨_, _, h⟩ := bind_ok_iff.mp h
  simp only [splitFrom, bind_ok_iff] at h
  obtain ⟨_, _, h⟩ := h
  split at h
  · obtain ⟨_, _, heq⟩ := bind_ok_iff.mp h
    cases heq
    exact List.cons_ne_nil _ _
  · cases h
    exact List.cons_ne_nil _ _

/-! ## Contents -/

/-- Different pieces of the text have different digests. -/
def NoCollision (contentHash : List UInt8 → Digest) (bytes : List UInt8) : Prop :=
  ∀ a b a' b', contentHash (subarray bytes a b) = contentHash (subarray bytes a' b') →
    subarray bytes a b = subarray bytes a' b'

/-- The occurrence carries exactly the bytes at its coordinates. -/
def PhysicalChunk.Exact (bytes : List UInt8) (chunk : PhysicalChunk) : Prop :=
  chunk.content = subarray bytes chunk.startByte chunk.endByte

theorem chunkIdForHash_injective : Function.Injective chunkIdForHash := fun _ _ h =>
  String.append_right_inj _ |>.mp h

theorem physicalChunk_exact {seen : List PhysicalChunk} (startByte endByte ordinal : Nat)
    (hno : NoCollision contentHash bytes)
    (hfits : ∀ chunk ∈ seen, chunk.Fits contentHash bytes)
    (hexact : ∀ chunk ∈ seen, chunk.Exact bytes) :
    (physicalChunk contentHash bytes seen startByte endByte ordinal).Exact bytes := by
  unfold PhysicalChunk.Exact physicalChunk
  cases hfind : seen.find? (·.chunkId = chunkIdForHash
      (contentHash (subarray bytes startByte endByte))) with
  | none => simp [hfind]
  | some found =>
    have hmem := List.mem_of_find?_eq_some hfind
    have hid := List.find?_some hfind
    rw [decide_eq_true_eq, (hfits found hmem).chunkId] at hid
    have hhash := chunkIdForHash_injective hid
    rw [(hfits found hmem).contentHash] at hhash
    simp only [hfind, Option.map_some, Option.getD_some]
    exact (hexact found hmem).trans (hno _ _ _ _ hhash)

theorem splitFrom_exact {options : NormalizedChunking} {fuel startByte ordinal : Nat}
    {seen : List PhysicalChunk} (hno : NoCollision contentHash bytes)
    (hstart : startByte ≤ bytes.length) (hfits : ∀ chunk ∈ seen, chunk.Fits contentHash bytes)
    (hexact : ∀ chunk ∈ seen, chunk.Exact bytes)
    (h : splitFrom contentHash bytes options fuel startByte ordinal seen = .ok chunks) :
    ∀ chunk ∈ chunks, chunk.Exact bytes := by
  induction fuel generalizing startByte ordinal seen chunks with
  | zero => cases h
  | succ fuel ih =>
    have htiles := splitFrom_tiles hstart h
    simp only [splitFrom, bind_ok_iff] at h
    obtain ⟨endByte, hend, h⟩ := h
    have hchunk := physicalChunk_exact startByte endByte ordinal hno hfits hexact
    split at h
    · obtain ⟨rest, hrest, heq⟩ := bind_ok_iff.mp h
      cases heq
      refine List.forall_mem_cons.mpr ⟨hchunk, ih (preferredEnd_bounds hstart hend).2 ?_ ?_ hrest⟩
      · exact List.forall_mem_append.mpr ⟨hfits, by simpa using htiles.1⟩
      · exact List.forall_mem_append.mpr ⟨hexact, by simpa using hchunk⟩
    · cases h
      simpa using hchunk

theorem splitPhysicalChunks_exact (hno : NoCollision contentHash bytes)
    (h : splitPhysicalChunks contentHash bytes options = .ok chunks) :
    ∀ chunk ∈ chunks, chunk.Exact bytes := by
  obtain ⟨_, _, h⟩ := bind_ok_iff.mp h
  exact splitFrom_exact hno (Nat.zero_le _) (by simp) (by simp) h

/-! ## Payloads -/

theorem mem_uniquePhysicalChunks_of_seen (h : payload ∈ seen) :
    payload ∈ uniquePhysicalChunks chunks seen := by
  induction chunks generalizing seen with
  | nil => exact h
  | cons chunk rest ih =>
    unfold uniquePhysicalChunks
    split
    · exact ih h
    · exact ih (List.mem_append_left _ h)

/-- Every payload is that of some occurrence. -/
theorem mem_uniquePhysicalChunks (h : payload ∈ uniquePhysicalChunks chunks seen) :
    payload ∈ seen ∨ ∃ chunk ∈ chunks, payload = chunk.payload := by
  induction chunks generalizing seen with
  | nil => exact Or.inl h
  | cons chunk rest ih =>
    unfold uniquePhysicalChunks at h
    split at h
    · rcases ih h with hseen | ⟨found, hfound, heq⟩
      · exact Or.inl hseen
      · exact Or.inr ⟨found, List.mem_cons_of_mem _ hfound, heq⟩
    · rcases ih h with hseen | ⟨found, hfound, heq⟩
      · rcases List.mem_append.mp hseen with hseen | hnew
        · exact Or.inl hseen
        · exact Or.inr ⟨chunk, List.mem_cons_self, List.mem_singleton.mp hnew⟩
      · exact Or.inr ⟨found, List.mem_cons_of_mem _ hfound, heq⟩

/-- Every occurrence has a payload under its address. -/
theorem exists_payload_of_mem {chunk : PhysicalChunk} (h : chunk ∈ chunks) :
    ∃ payload ∈ uniquePhysicalChunks chunks seen, payload.chunkId = chunk.chunkId := by
  induction chunks generalizing seen with
  | nil => cases h
  | cons first rest ih =>
    unfold uniquePhysicalChunks
    split
    · next hseen =>
      rcases List.mem_cons.mp h with rfl | hrest
      · obtain ⟨payload, hmem, hid⟩ := List.any_eq_true.mp hseen
        exact ⟨payload, mem_uniquePhysicalChunks_of_seen hmem, of_decide_eq_true hid⟩
      · exact ih hrest
    · rcases List.mem_cons.mp h with rfl | hrest
      · exact ⟨chunk.payload, mem_uniquePhysicalChunks_of_seen
          (List.mem_append_right _ List.mem_cons_self), rfl⟩
      · exact ih hrest

/-- What is stored under an address is the bytes at every occurrence of that address. -/
theorem payload_exact {chunk : PhysicalChunk} (hno : NoCollision contentHash bytes)
    (h : splitPhysicalChunks contentHash bytes options = .ok chunks)
    (hpayload : payload ∈ uniquePhysicalChunks chunks []) (hchunk : chunk ∈ chunks)
    (hid : payload.chunkId = chunk.chunkId) :
    payload.content = subarray bytes chunk.startByte chunk.endByte ∧
      payload.contentHash = chunk.contentHash := by
  have hfits := (splitPhysicalChunks_tiles h).fits
  rcases mem_uniquePhysicalChunks hpayload with hnone | ⟨found, hfound, rfl⟩
  · cases hnone
  · have hhash : found.contentHash = chunk.contentHash := by
      refine chunkIdForHash_injective ?_
      rw [← (hfits found hfound).chunkId, ← (hfits chunk hchunk).chunkId]
      exact hid
    refine ⟨(splitPhysicalChunks_exact hno h found hfound).trans (hno _ _ _ _ ?_), hhash⟩
    rw [← (hfits found hfound).contentHash, ← (hfits chunk hchunk).contentHash, hhash]

theorem layoutEnd_of_tiles {cursor index : Nat} (h : Tiles contentHash bytes cursor index chunks) :
    layoutEnd cursor index (createChunkReferences chunks) = .ok bytes.length := by
  induction chunks generalizing cursor index with
  | nil => exact congrArg Except.ok h
  | cons chunk rest ih =>
    obtain ⟨hfits, hindex, hcursor, hrest⟩ := h
    unfold createChunkReferences at ih ⊢
    rw [List.map_cons, layoutEnd, if_neg, ih hrest]
    simp only [not_or, not_lt, not_not]
    exact ⟨hfits.start_le, hfits.byteLength, hindex, hcursor⟩

theorem concatOccurrences_of_tiles {cursor index : Nat}
    (payloadOf : PhysicalChunk → ChunkPayload) (hcursor : cursor ≤ bytes.length)
    (h : Tiles contentHash bytes cursor index chunks)
    (hpayload : ∀ chunk ∈ chunks,
      (payloadOf chunk).content = subarray bytes chunk.startByte chunk.endByte ∧
        (payloadOf chunk).contentHash = chunk.contentHash) :
    concatOccurrences contentHash
        (chunks.map fun chunk => (chunk.toChunkOccurrence, payloadOf chunk)) =
      .ok (subarray bytes cursor bytes.length) := by
  induction chunks generalizing cursor index with
  | nil =>
    obtain rfl : cursor = bytes.length := h
    simp [concatOccurrences, subarray]
  | cons chunk rest ih =>
    obtain ⟨hfits, _, rfl, hrest⟩ := h
    obtain ⟨hcontent, hhash⟩ := hpayload chunk List.mem_cons_self
    have hfirst : occurrenceBytes contentHash (chunk.toChunkOccurrence, payloadOf chunk) =
        .ok (subarray bytes chunk.startByte chunk.endByte) := by
      unfold occurrenceBytes
      simp only [hcontent, hhash]
      rw [if_neg]
      simp only [not_or, not_not]
      exact ⟨(length_subarray hfits.end_le).trans hfits.byteLength.symm, hfits.contentHash,
        hfits.chunkId.trans (congrArg _ hfits.contentHash)⟩
    have hothers := ih hfits.end_le hrest fun c hc => hpayload c (List.mem_cons_of_mem _ hc)
    rw [List.map_cons, concatOccurrences, hfirst, hothers,
      ← subarray_append hfits.start_le hfits.end_le]
    rfl

/-- Payloads with the bytes of their occurrences put the text together again. -/
theorem reconstructPhysicalChunks_of_tiles
    (payloadOf : PhysicalChunk → ChunkPayload) (hne : chunks ≠ [])
    (h : Tiles contentHash bytes 0 0 chunks)
    (hpayload : ∀ chunk ∈ chunks,
      (payloadOf chunk).content = subarray bytes chunk.startByte chunk.endByte ∧
        (payloadOf chunk).contentHash = chunk.contentHash) :
    reconstructPhysicalChunks contentHash
      (chunks.map fun chunk => (chunk.toChunkOccurrence, payloadOf chunk)) = .ok bytes := by
  have hlayout := layoutEnd_of_tiles h
  have hconcat := concatOccurrences_of_tiles payloadOf (Nat.zero_le _) h hpayload
  have hrefs : (chunks.map fun chunk => (chunk.toChunkOccurrence, payloadOf chunk)).map (·.1) =
      createChunkReferences chunks := by
    simp [createChunkReferences]
  rw [reconstructPhysicalChunks, if_neg (by simpa using hne), hrefs, hlayout, hconcat]
  simp [subarray, Bind.bind, Except.bind]

end ContextStore
