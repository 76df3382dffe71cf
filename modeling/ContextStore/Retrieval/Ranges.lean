import ContextStore.Retrieval.LiveDocument

/-! # Exact ranges

When a range of a live document is read as it stands in the text: whenever no mark comes first in
it, and none comes first in a chunk. -/

namespace ContextStore.Recall

open Unicode Concurrent

variable {contentHash : List UInt8 → Digest} {isWord : Char → Bool} {options : WindowOptions}
  {source : Source} {chars : List Char}

/-- A mark is three bytes long. -/
theorem MarkAt.next {n : Nat} (h : MarkAt chars n) : IsCut chars (n + 3) := by
  obtain ⟨before, after, rfl, rfl⟩ := h
  have hsize : mark.utf8Size = 3 := by decide
  exact ⟨before ++ [mark], after, by simp, by simp [hsize]⟩

theorem MarkAt.add_le {n b : Nat} (h : MarkAt chars n) (hb : IsCut chars b) (hlt : n < b) :
    n + 3 ≤ b := by
  have hlength := byteLength_slice h.isCut hb (Nat.le_of_lt hlt)
  obtain ⟨rest, hrest⟩ := List.head?_eq_some_iff.mp
    ((head?_slice_eq_mark_iff h.isCut hb (Nat.le_of_lt hlt)).mpr ⟨hlt, h⟩)
  have hsize : mark.utf8Size = 3 := by decide
  rw [hrest, byteLength_cons, hsize] at hlength
  omega

/-- Of the marks that lie in the range as a whole, none is the first character of the range or of a
chunk. -/
def MarksBehind (chars : List Char) (source : Source) (startByte endByte : Nat) : Prop :=
  ∀ n, MarkAt chars n → startByte ≤ n → n + 3 ≤ endByte →
    (∃ m, IsCut chars m ∧ startByte ≤ m ∧ m < n) ∧ ∀ chunk ∈ source.chunks, chunk.startByte ≠ n

theorem Inward.unmarked_iff {startByte endByte a b : Nat} (h : Inward chars startByte endByte a b) :
    Unmarked chars source a b ↔ MarksBehind chars source startByte endByte := by
  have hstart := h.start_le
  have hend := h.le_end
  constructor
  · intro hunmarked n hmark hlow hhigh
    obtain ⟨ha, hb, hfirst, -⟩ := h.outermost n hmark.isCut hlow (by omega)
    have hlast := (h.outermost (n + 3) hmark.next (by omega) hhigh).2.2.2
    obtain ⟨hafter, hchunks⟩ := hunmarked n hmark hfirst (by omega)
    exact ⟨⟨a, ha, hstart, hafter⟩, hchunks⟩
  · intro hbehind n hmark hlow hhigh
    obtain ⟨-, hb, -, -⟩ := h.outermost n hmark.isCut (by omega) (by omega)
    have hwhole := hmark.add_le hb hhigh
    obtain ⟨⟨m, hm, hmLow, hmLt⟩, hchunks⟩ := hbehind n hmark (by omega) (by omega)
    have := (h.outermost m hm hmLow (by omega)).2.2.1
    exact ⟨by omega, hchunks⟩

/-- Between two cuts, or at one offset. -/
theorem Inward.encodeChars_slice {startByte endByte a b : Nat}
    (h : Inward chars startByte endByte a b) :
    encodeChars (slice chars a b) = subarray (encodeChars chars) a b := by
  by_cases hsome : ∃ n, IsCut chars n ∧ startByte ≤ n ∧ n ≤ endByte
  · obtain ⟨n, hn, hlow, hhigh⟩ := hsome
    obtain ⟨ha, hb, -, -⟩ := h.outermost n hn hlow hhigh
    exact Unicode.encodeChars_slice ha hb h.ordered
  · obtain rfl := h.empty fun n hn hlow hhigh => hsome ⟨n, hn, hlow, hhigh⟩
    rw [slice, subarray, Nat.sub_self, List.take_zero]
    cases dropBytes a chars <;> rfl

theorem Inward.unique {startByte endByte a b a' b' : Nat} (h : Inward chars startByte endByte a b)
    (h' : Inward chars startByte endByte a' b')
    (hsome : ∃ n, IsCut chars n ∧ startByte ≤ n ∧ n ≤ endByte) : a = a' ∧ b = b' := by
  obtain ⟨n, hn, hlow, hhigh⟩ := hsome
  obtain ⟨ha, hb, -, -⟩ := h.outermost n hn hlow hhigh
  obtain ⟨ha', hb', hfirst, hlast⟩ := h'.outermost n hn hlow hhigh
  have := h.start_le
  have := h.le_end
  have := h.ordered
  have := h'.start_le
  have := h'.le_end
  have := h'.ordered
  have h1 := h.outermost a' ha' (by omega) (by omega)
  have h2 := h.outermost b' hb' (by omega) (by omega)
  have h3 := h'.outermost a ha (by omega) (by omega)
  have h4 := h'.outermost b hb (by omega) (by omega)
  omega

/-- The range as it stands in the text: with offsets that are moved inwards to the outermost cuts of
the range, and with the bytes between them. -/
structure ReadsExactly (chars : List Char) (startByte endByte : Nat) (read : Materialized) :
    Prop where
  inward : Inward chars startByte endByte read.startByte read.endByte
  bytes : encodeChars read.text = subarray (encodeChars chars) read.startByte read.endByte

theorem ReadsExactly.byteLength_text {startByte endByte : Nat} {read : Materialized}
    (h : ReadsExactly chars startByte endByte read) (hend : endByte ≤ byteLength chars) :
    byteLength read.text = read.endByte - read.startByte := by
  have hle : read.endByte ≤ (encodeChars chars).length := Nat.le_trans h.inward.le_end hend
  rw [byteLength, h.bytes, length_subarray hle]

/-- Reading a range of a live document gives it as it stands in the text exactly if no mark is the
first character of the range or of a chunk in it. -/
theorem range_read_exactly_iff (live : Live contentHash isWord options source chars)
    {startByte endByte : Nat} (hle : startByte ≤ endByte) (hend : endByte ≤ byteLength chars) :
    (∃ read, readDocumentRange contentHash source startByte endByte true = .ok read ∧
      ReadsExactly chars startByte endByte read ∧
      byteLength read.text = read.endByte - read.startByte) ↔
    MarksBehind chars source startByte endByte := by
  obtain ⟨a, b, hinward, hread⟩ := live.readDocumentRange_adjust_iff hle hend
  rw [← hinward.unmarked_iff, ← hread]
  constructor
  · rintro ⟨read, hok, hexact, -⟩
    by_cases hsome : ∃ n, IsCut chars n ∧ startByte ≤ n ∧ n ≤ endByte
    · obtain ⟨rfl, rfl⟩ := hinward.unique hexact.inward hsome
      have htext : read.text = slice chars read.startByte read.endByte :=
        encodeChars_injective (hexact.bytes.trans hinward.encodeChars_slice.symm)
      exact ⟨read.chunks, by rw [hok, ← htext]⟩
    · obtain rfl := hinward.empty fun n hn hlow hhigh => hsome ⟨n, hn, hlow, hhigh⟩
      exact hread.mpr fun n _ hlow hhigh => absurd hhigh (Nat.not_lt.mpr hlow)
  · rintro ⟨pieces, hok⟩
    have hexact : ReadsExactly chars startByte endByte
        { startByte := a, endByte := b, text := slice chars a b, chunks := pieces } :=
      ⟨hinward, hinward.encodeChars_slice⟩
    exact ⟨_, hok, hexact, hexact.byteLength_text hend⟩

/-! ## Admitted documents -/

/-- What admission stores of a text: the references, one record for each address and the windows. -/
def admittedSource (kind : String) (physical : List PhysicalChunk) (windows : List Window)
    (byteLength : Nat) : Source where
  kind
  byteLength
  chunks := createChunkReferences physical
  chunk := fun chunkId => (uniquePhysicalChunks physical []).find? (·.chunkId = chunkId)
  window := fun ordinal => windows[ordinal]?

theorem live_admittedSource {chunking : ChunkingOptions} {physical : List PhysicalChunk}
    {windows : List Window} (kind : String) (hno : NoCollision contentHash (encodeChars chars))
    (hsplit : splitPhysicalChunks contentHash (encodeChars chars) chunking = .ok physical)
    (hwindows : createSearchWindows isWord options chars = .ok windows) :
    Live contentHash isWord options (admittedSource kind physical windows (byteLength chars))
      chars := by
  refine ⟨rfl, ⟨chunking, physical, hsplit, rfl, fun chunk hchunk => ?_⟩,
    windows, hwindows, fun _ => rfl⟩
  have hfits := (splitPhysicalChunks_tiles hsplit).fits
  obtain ⟨stored, hstored, hid⟩ :=
    (exists_payload_of_mem hchunk : ∃ payload ∈ uniquePhysicalChunks physical [], _)
  obtain ⟨payload, hpayload⟩ : ∃ payload,
      (uniquePhysicalChunks physical []).find? (·.chunkId = chunk.chunkId) = some payload := by
    rw [← Option.isSome_iff_exists, List.find?_isSome]
    exact ⟨stored, hstored, decide_eq_true hid⟩
  have hmem := List.mem_of_find?_eq_some hpayload
  have hsame : payload.chunkId = chunk.chunkId := by
    simpa using List.find?_some hpayload
  obtain ⟨hcontent, hhash⟩ := payload_exact hno hsplit hmem hchunk hsame
  refine ⟨payload, hpayload, hcontent, ?_, hhash⟩
  -- the record has the length that its own occurrence has
  rcases mem_uniquePhysicalChunks hmem with hnone | ⟨found, hfound, rfl⟩
  · cases hnone
  · have hexact := splitPhysicalChunks_exact hno hsplit found hfound
    have hlength := length_subarray (a := found.startByte) (hfits found hfound).end_le
    have hlength' := length_subarray (a := chunk.startByte) (hfits chunk hchunk).end_le
    have hbytes := (hfits found hfound).byteLength
    have hbytes' := (hfits chunk hchunk).byteLength
    have hcontents := congrArg List.length (hexact.symm.trans hcontent)
    show found.byteLength = chunk.byteLength
    omega

/-- The word characters among the ASCII ones. -/
def isAsciiWord (c : Char) : Bool := c.isAlphanum || c = '_'

/-- `DEFAULT_WINDOW_OPTIONS` -/
def defaultWindowOptions : WindowOptions where
  windowTokens := 900
  overlapTokens := 135
  positive := by decide
  smaller := by decide

/-- A text of one chunk and one window. -/
def smallSource (chars : List Char) : Source :=
  admittedSource "note"
    [physicalChunk plainDigest (encodeChars chars) [] 0 (byteLength chars) 0]
    [{ ordinal := 0, startByte := 0, endByte := byteLength chars }] (byteLength chars)

def markedText : List Char := [mark, 'a']

theorem live_markedText :
    Live plainDigest isAsciiWord defaultWindowOptions (smallSource markedText) markedText :=
  live_admittedSource "note" (fun _ _ _ _ h => plainDigest_injective h)
    (show splitPhysicalChunks plainDigest (encodeChars markedText) {} = .ok _ from rfl) rfl

theorem range_read_exactly_iff_example :
    (∃ read, readDocumentRange plainDigest (smallSource markedText) 1 4 true = .ok read ∧
      ReadsExactly markedText 1 4 read ∧
      byteLength read.text = read.endByte - read.startByte) ↔
    MarksBehind markedText (smallSource markedText) 1 4 :=
  range_read_exactly_iff live_markedText (by decide) (by decide)

/-- Read as a whole, the text loses the mark that it begins with. -/
theorem mark_lost_from_range :
    Live plainDigest isAsciiWord defaultWindowOptions (smallSource markedText) markedText ∧
      ∃ read, readDocumentRange plainDigest (smallSource markedText) 0 4 true = .ok read ∧
        read.text = ['a'] ∧ byteLength read.text ≠ read.endByte - read.startByte :=
  ⟨live_markedText, _, rfl, rfl, by decide⟩

end ContextStore.Recall
