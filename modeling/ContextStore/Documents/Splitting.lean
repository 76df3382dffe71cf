import ContextStore.Documents.Admission
import ContextStore.Foundation.Cuts

/-! # Splitting a text

Every text is split, into chunks within the limit that begin and end between two characters. What is
put together from a manifest is the text that was split: chunks that are missing, out of order or
altered are found out. -/

namespace ContextStore

open Unicode Concurrent

variable {contentHash : List UInt8 → Digest} {chars : List Char} {bytes : List UInt8}

/-! ## Where chunks end -/

theorem isContinuation_eq (bytes : List UInt8) (index : Nat) :
    isContinuation bytes index = isContinuationByte (bytes[index]?.getD 0) := rfl

theorem utf8Size_of_newline {c : Char} (h : (String.utf8EncodeChar c).head? = some 0x0a) :
    c.utf8Size = 1 := by
  have hlead : ∀ n : Nat, 192 ≤ n → n < 256 → UInt8.ofNat n ≠ 0x0a := by
    intro n hlow hhigh heq
    have := congrArg UInt8.toNat heq
    simp at this
    omega
  rw [← String.length_utf8EncodeChar]
  unfold String.utf8EncodeChar at h ⊢
  dsimp only at h ⊢
  split at h
  · next hone => rw [if_pos hone]; rfl
  · exfalso
    split at h
    · exact hlead _ (by omega) (by omega) (Option.some.inj h)
    · split at h
      · exact hlead _ (by omega) (by omega) (Option.some.inj h)
      · exact hlead _ (by omega) (by omega) (Option.some.inj h)

/-- A line ends between two characters. -/
theorem isCut_succ_of_newline {n : Nat} (h : (encodeChars chars)[n]? = some 0x0a) :
    IsCut chars (n + 1) := by
  obtain ⟨hlt, -⟩ := List.getElem?_eq_some_iff.mp h
  obtain ⟨before, after, rfl, rfl⟩ : IsCut chars n := by
    refine (isCut_iff (Nat.le_of_lt hlt)).mpr fun byte hbyte => ?_
    obtain rfl := Option.some.inj (h.symm.trans hbyte)
    rfl
  rw [encodeChars_append, byteLength, List.getElem?_append_right (Nat.le_refl _), Nat.sub_self] at h
  cases after with
  | nil => cases h
  | cons c after =>
    obtain ⟨lead, rest, hbytes, -⟩ := utf8EncodeChar_bytes c
    have hsize : c.utf8Size = 1 := utf8Size_of_newline (by
      rw [encodeChars_cons, hbytes] at h
      rw [hbytes]
      exact h)
    exact ⟨before ++ [c], after, by simp, by simp [hsize]⟩

theorem lastNewline_eq {n newline : Nat}
    (h : lastNewline bytes n = some newline) : bytes[newline]? = some 0x0a := by
  induction n with
  | zero =>
    rw [lastNewline] at h
    split at h
    · next hbyte =>
      obtain rfl := Option.some.inj h
      exact hbyte
    · cases h
  | succ n ih =>
    rw [lastNewline] at h
    split at h
    · next hbyte =>
      obtain rfl := Option.some.inj h
      exact hbyte
    · exact ih h

theorem utf8BoundaryAtOrBefore_spec (bytes : List UInt8) (floor candidate : Nat) :
    utf8BoundaryAtOrBefore bytes floor candidate ≤ floor ∨
      bytes.length ≤ utf8BoundaryAtOrBefore bytes floor candidate ∨
      isContinuation bytes (utf8BoundaryAtOrBefore bytes floor candidate) = false := by
  induction candidate with
  | zero => exact .inl (Nat.zero_le _)
  | succ candidate ih =>
    rw [utf8BoundaryAtOrBefore]
    split
    · exact ih
    · next hstop =>
      by_cases hfloor : candidate + 1 ≤ floor
      · exact .inl hfloor
      by_cases hlength : bytes.length ≤ candidate + 1
      · exact .inr (.inl hlength)
      refine .inr (.inr (Bool.eq_false_iff.mpr fun hbyte => hstop ⟨?_, ?_, hbyte⟩)) <;> omega

variable {options : NormalizedChunking}

theorem isCut_preferredEnd {start endByte : Nat}
    (h : preferredEnd (encodeChars chars) start options = .ok endByte) : IsCut chars endByte := by
  have hspec := utf8BoundaryAtOrBefore_spec (encodeChars chars) start
    (start + options.maxChunkBytes)
  have hle := utf8BoundaryAtOrBefore_le (encodeChars chars) start (start + options.maxChunkBytes)
  rw [preferredEnd] at h
  split at h
  · obtain rfl := Except.ok.inj h
    exact IsCut.end chars
  · next hlong =>
    dsimp only at h
    split at h
    · cases h
    · next hhard =>
      have hcut : IsCut chars (utf8BoundaryAtOrBefore (encodeChars chars) start
          (start + options.maxChunkBytes)) := by
        refine (isCut_iff (by rw [byteLength]; omega)).mpr fun byte hbyte => ?_
        rcases hspec with hfloor | hlength | hcontinuation
        · omega
        · omega
        · rw [isContinuation_eq, hbyte] at hcontinuation
          exact hcontinuation
      split at h
      · next newline hnewline =>
        split at h
        · obtain rfl := Except.ok.inj h
          exact isCut_succ_of_newline (lastNewline_eq hnewline)
        · obtain rfl := Except.ok.inj h
          exact hcut
      · obtain rfl := Except.ok.inj h
        exact hcut

/-! ## Splitting never fails -/

theorem normalizeChunkingOptions_bounds {options : ChunkingOptions}
    {normalized : NormalizedChunking} (h : normalizeChunkingOptions options = .ok normalized) :
    4 ≤ normalized.maxChunkBytes := by
  simp only [normalizeChunkingOptions] at h
  split at h
  · cases h
  · split at h
    · cases h
    · next hmax =>
      split at h
      · cases h
      · split at h
        · cases h
        · obtain rfl := Except.ok.inj h
          exact Nat.le_of_not_lt hmax

/-- The boundary that is found lies no lower than any other. -/
theorem le_utf8BoundaryAtOrBefore {floor candidate n : Nat} (hfloor : floor < n)
    (hn : n ≤ candidate) (hbyte : isContinuation bytes n = false) :
    n ≤ utf8BoundaryAtOrBefore bytes floor candidate := by
  induction candidate with
  | zero => omega
  | succ candidate ih =>
    rw [utf8BoundaryAtOrBefore]
    split
    · next hcontinuation =>
      rcases Nat.lt_or_eq_of_le hn with hlt | rfl
      · exact ih (Nat.le_of_lt_succ hlt)
      · rw [hbyte] at hcontinuation
        exact absurd hcontinuation.2.2 Bool.false_ne_true
    · exact hn

theorem isContinuation_of_isCut {n : Nat} (h : IsCut chars n) (hn : n < byteLength chars) :
    isContinuation (encodeChars chars) n = false := by
  have hget := List.getElem?_eq_getElem (show n < (encodeChars chars).length from hn)
  rw [isContinuation_eq, hget]
  exact (isCut_iff (Nat.le_of_lt hn)).mp h _ hget

/-- From a cut inside the text the preferred end lies ahead, within the limit. -/
theorem preferredEnd_ahead {start : Nat} (hstart : IsCut chars start)
    (hlt : start < byteLength chars) (hmax : 4 ≤ options.maxChunkBytes) :
    ∃ endByte, preferredEnd (encodeChars chars) start options = .ok endByte ∧ start < endByte ∧
      endByte ≤ start + options.maxChunkBytes := by
  have hlength : byteLength chars = (encodeChars chars).length := rfl
  rw [preferredEnd]
  split
  · next hshort => exact ⟨_, rfl, hlt, hshort⟩
  · next hlong =>
    have hle := utf8BoundaryAtOrBefore_le (encodeChars chars) start
      (start + options.maxChunkBytes)
    obtain ⟨next, hnext, hafter, hclose⟩ := hstart.next hlt
    have hge : next ≤ utf8BoundaryAtOrBefore (encodeChars chars) start
        (start + options.maxChunkBytes) :=
      le_utf8BoundaryAtOrBefore hafter (by omega) (isContinuation_of_isCut hnext (by omega))
    dsimp only
    rw [if_neg (by omega)]
    split
    · next newline hnewline =>
      have hbefore := lastNewline_le hnewline
      split
      · exact ⟨_, rfl, by omega, by omega⟩
      · exact ⟨_, rfl, by omega, by omega⟩
    · exact ⟨_, rfl, by omega, by omega⟩

/-- A chunk of a text that has one: not empty, within the limit and cut at both ends. -/
structure PhysicalChunk.Proper (chars : List Char) (options : NormalizedChunking)
    (chunk : PhysicalChunk) : Prop where
  startCut : IsCut chars chunk.startByte
  endCut : IsCut chars chunk.endByte
  nonempty : chunk.startByte < chunk.endByte
  limited : chunk.byteLength ≤ options.maxChunkBytes

/-- The fuel suffices: every round moves on to a later cut. -/
theorem splitFrom_proper {fuel start : Nat} (ordinal : Nat) (seen : List PhysicalChunk)
    (hstart : IsCut chars start) (hlt : start < byteLength chars) (hmax : 4 ≤ options.maxChunkBytes)
    (hfuel : byteLength chars ≤ start + fuel) :
    ∃ chunks, splitFrom contentHash (encodeChars chars) options fuel start ordinal seen =
        .ok chunks ∧ ∀ chunk ∈ chunks, chunk.Proper chars options := by
  induction fuel generalizing start ordinal seen with
  | zero => omega
  | succ fuel ih =>
    obtain ⟨endByte, hend, hahead, hlimit⟩ := preferredEnd_ahead hstart hlt hmax
    have hcut := isCut_preferredEnd hend
    have hproper : (physicalChunk contentHash (encodeChars chars) seen start endByte
        ordinal).Proper chars options := by
      refine ⟨hstart, hcut, hahead, ?_⟩
      show (subarray (encodeChars chars) start endByte).length ≤ _
      rw [length_subarray hcut.le]
      omega
    rw [splitFrom, hend]
    simp only [Bind.bind, Except.bind]
    split
    · next hmore =>
      obtain ⟨rest, hrest, hall⟩ := ih (ordinal + 1)
        (seen ++ [physicalChunk contentHash (encodeChars chars) seen start endByte ordinal])
        hcut hmore (by omega)
      rw [hrest]
      exact ⟨_, rfl, List.forall_mem_cons.mpr ⟨hproper, hall⟩⟩
    · exact ⟨_, rfl, List.forall_mem_singleton.mpr hproper⟩

variable {options : ChunkingOptions} {normalized : NormalizedChunking}

/-- The empty text has one chunk, an empty one. -/
theorem splitPhysicalChunks_nil (hoptions : normalizeChunkingOptions options = .ok normalized) :
    splitPhysicalChunks contentHash (encodeChars []) options =
      .ok [physicalChunk contentHash [] [] 0 0 0] := by
  rw [splitPhysicalChunks, hoptions]
  rfl

theorem splitPhysicalChunks_proper (hne : chars ≠ [])
    (hoptions : normalizeChunkingOptions options = .ok normalized) :
    ∃ chunks, splitPhysicalChunks contentHash (encodeChars chars) options = .ok chunks ∧
      ∀ chunk ∈ chunks, chunk.Proper chars normalized := by
  have hpos : 0 < byteLength chars :=
    Nat.pos_of_ne_zero fun hzero => hne (eq_nil_of_byteLength_eq_zero hzero)
  rw [splitPhysicalChunks, hoptions]
  exact splitFrom_proper 0 [] (IsCut.zero chars) hpos (normalizeChunkingOptions_bounds hoptions)
    (by rw [Nat.zero_add]; exact Nat.le_succ _)

/-! ## What is accepted -/

/-- The references cut the text into pieces from `cursor` on, numbered from `index`, and name the
piece that each of them stands for. -/
def References (contentHash : List UInt8 → Digest) (bytes : List UInt8) :
    Nat → Nat → List ChunkOccurrence → Prop
  | cursor, _, [] => cursor = bytes.length
  | cursor, index, reference :: rest => reference.ordinal = index ∧
      reference.startByte = cursor ∧ cursor ≤ reference.endByte ∧
      reference.endByte ≤ bytes.length ∧
      reference.byteLength = reference.endByte - reference.startByte ∧
      reference.chunkId = chunkIdForHash
        (contentHash (subarray bytes reference.startByte reference.endByte)) ∧
      References contentHash bytes reference.endByte (index + 1) rest

variable {cursor index : Nat}

theorem Tiles.references {chunks : List PhysicalChunk}
    (h : Tiles contentHash bytes cursor index chunks) :
    References contentHash bytes cursor index (createChunkReferences chunks) := by
  induction chunks generalizing cursor index with
  | nil => exact h
  | cons chunk rest ih =>
    obtain ⟨hfits, hordinal, rfl, hrest⟩ := h
    exact ⟨hordinal, rfl, hfits.start_le, hfits.end_le, hfits.byteLength,
      hfits.chunkId.trans (congrArg _ hfits.contentHash), ih hrest⟩

/-- The payload has the piece's bytes and their digest. -/
def Holds (contentHash : List UInt8 → Digest) (bytes : List UInt8)
    (occurrence : ChunkOccurrence × ChunkPayload) : Prop :=
  occurrence.2.content = subarray bytes occurrence.1.startByte occurrence.1.endByte ∧
    occurrence.2.contentHash = contentHash occurrence.2.content

/-- What is put together tells what the references and the payloads were. -/
theorem accepted_references {occurrences : List (ChunkOccurrence × ChunkPayload)} {stop : Nat}
    {before text : List UInt8} (hbefore : before.length = cursor)
    (hlayout : layoutEnd cursor index (occurrences.map Prod.fst) = .ok stop)
    (htext : concatOccurrences contentHash occurrences = .ok text) :
    References contentHash (before ++ text) cursor index (occurrences.map Prod.fst) ∧
      ∀ occurrence ∈ occurrences, Holds contentHash (before ++ text) occurrence := by
  induction occurrences generalizing cursor index before text with
  | nil =>
    obtain rfl := Except.ok.inj htext
    exact ⟨by simp [References, hbefore], by simp⟩
  | cons occurrence rest ih =>
    rw [List.map_cons, layoutEnd] at hlayout
    split at hlayout
    · cases hlayout
    · next hfits =>
      simp only [not_or, not_lt, not_not] at hfits
      obtain ⟨hle, hlength, hordinal, hstart⟩ := hfits
      rw [concatOccurrences] at htext
      obtain ⟨piece, hpiece, htext⟩ := bind_ok_iff.mp htext
      obtain ⟨others, hothers, htext⟩ := bind_ok_iff.mp htext
      obtain rfl := Except.ok.inj htext
      rw [occurrenceBytes] at hpiece
      split at hpiece
      · cases hpiece
      · next hchecked =>
        obtain rfl := Except.ok.inj hpiece
        simp only [not_or, not_not] at hchecked
        obtain ⟨hsize, hhash, hid⟩ := hchecked
        have hsplit : before ++ (occurrence.2.content ++ others) =
            (before ++ occurrence.2.content) ++ others := (List.append_assoc _ _ _).symm
        have hend : occurrence.1.endByte = before.length + occurrence.2.content.length := by
          omega
        have hsub : subarray (before ++ (occurrence.2.content ++ others))
            occurrence.1.startByte occurrence.1.endByte = occurrence.2.content := by
          rw [subarray, hstart, ← hbefore, List.drop_left, hend, Nat.add_sub_cancel_left,
            List.take_left]
        have hjoined : (before ++ occurrence.2.content).length = occurrence.1.endByte := by
          rw [List.length_append, hend]
        obtain ⟨hreferences, hholds⟩ := ih hjoined hlayout hothers
        rw [← hsplit] at hreferences hholds
        refine ⟨⟨hordinal, hstart, by omega, ?_, hlength, ?_, hreferences⟩,
          List.forall_mem_cons.mpr ⟨⟨hsub.symm, hhash⟩, hholds⟩⟩
        · rw [List.length_append, List.length_append]
          omega
        · rw [hsub]
          exact hid

variable {references : List ChunkOccurrence}

theorem References.ordinal_ge (h : References contentHash bytes cursor index references) :
    ∀ reference ∈ references, index ≤ reference.ordinal := by
  induction references generalizing cursor index with
  | nil => simp
  | cons reference rest ih =>
    obtain ⟨hordinal, -, -, -, -, -, hrest⟩ := h
    refine List.forall_mem_cons.mpr ⟨Nat.le_of_eq hordinal.symm, fun r hr => ?_⟩
    exact Nat.le_of_succ_le (ih hrest r hr)

/-- References that are missing, repeated or out of order do not cut the text. -/
theorem References.eq_of_subset {references' : List ChunkOccurrence}
    (h : References contentHash bytes cursor index references)
    (h' : References contentHash bytes cursor index references')
    (hnonempty : ∀ reference ∈ references, reference.startByte < reference.endByte)
    (hsubset : ∀ reference ∈ references', reference ∈ references) : references' = references := by
  induction references generalizing cursor index references' with
  | nil =>
    cases references' with
    | nil => rfl
    | cons reference rest => cases hsubset reference List.mem_cons_self
  | cons reference rest ih =>
    obtain ⟨hordinal, hstart, hle, hend, -, -, hrest⟩ := h
    have hpositive := hnonempty reference List.mem_cons_self
    cases references' with
    | nil =>
      have hlast : cursor = bytes.length := h'
      omega
    | cons reference' rest' =>
      obtain ⟨hordinal', -, -, -, -, -, hrest'⟩ := h'
      obtain rfl : reference' = reference := by
        rcases List.mem_cons.mp (hsubset reference' List.mem_cons_self) with heq | hmem
        · exact heq
        · have := hrest.ordinal_ge reference' hmem
          omega
      congr 1
      refine ih hrest hrest' (fun r hr => hnonempty r (List.mem_cons_of_mem _ hr)) fun r hr => ?_
      rcases List.mem_cons.mp (hsubset r (List.mem_cons_of_mem _ hr)) with rfl | hmem
      · have := hrest'.ordinal_ge r hr
        omega
      · exact hmem

theorem References.start_eq {cursor' : Nat}
    (h : References contentHash bytes cursor index references)
    (h' : References contentHash bytes cursor' index references) : cursor = cursor' := by
  cases references with
  | nil => exact (show cursor = bytes.length from h).trans (show cursor' = bytes.length from h').symm
  | cons reference rest => exact h.2.1.symm.trans h'.2.1

/-- A single altered reference does not cut the text together with the others. -/
theorem References.eq_of_set {i : Nat} {reference : ChunkOccurrence}
    (h : References contentHash bytes cursor index references)
    (h' : References contentHash bytes cursor index (references.set i reference)) :
    references.set i reference = references := by
  induction references generalizing cursor index i with
  | nil => rfl
  | cons first rest ih =>
    obtain ⟨hordinal, hstart, -, -, hlength, hid, hrest⟩ := h
    cases i with
    | zero =>
      obtain ⟨hordinal', hstart', -, -, hlength', hid', hrest'⟩ := h'
      have hend := hrest.start_eq hrest'
      rw [hstart, hend] at hid
      rw [hstart'] at hid'
      rcases first with ⟨chunkId, ordinal, startByte, endByte, byteLength⟩
      rcases reference with ⟨chunkId', ordinal', startByte', endByte', byteLength'⟩
      dsimp only at *
      subst hordinal hstart hend hlength hordinal' hstart' hlength' hid hid'
      rfl
    | succ i =>
      obtain ⟨-, -, -, -, -, -, hrest'⟩ := h'
      exact congrArg (first :: ·) (ih hrest hrest')

/-! ## Reading a document back -/

variable {codec : AdmissionCodec} {w : World} {references : List ChunkOccurrence}

theorem run_physicalOccurrences_eq_ok {p : List (ChunkOccurrence × ChunkPayload) × World} :
    (physicalOccurrences references).run w = .ok p ↔ p.2 = w ∧ p.1.map Prod.fst = references ∧
      ∀ occurrence ∈ p.1, w.get (.manifest (.chunk occurrence.1.chunkId)) = some occurrence.2 := by
  obtain ⟨occurrences, w'⟩ := p
  induction references generalizing occurrences with
  | nil =>
    simp only [physicalOccurrences, Transaction.run_pure_eq_ok, Prod.mk.injEq, List.map_eq_nil_iff]
    constructor
    · rintro ⟨rfl, rfl⟩
      simp
    · rintro ⟨rfl, rfl, -⟩
      simp
  | cons reference rest ih =>
    simp only [physicalOccurrences, physicalOccurrence, Transaction.run_bind_eq_ok,
      Txn.run_get_eq_ok, Transaction.run_pure_eq_ok, Prod.mk.injEq]
    constructor
    · rintro ⟨occurrence, t, ⟨chunk, t', ⟨hchunk, rfl⟩, hoccurrence⟩, others, t'', hothers, rfl,
        rfl⟩
      cases chunk with
      | none => simp at hoccurrence
      | some chunk =>
        obtain ⟨rfl, rfl⟩ := Prod.mk.inj (Transaction.run_pure_eq_ok.mp hoccurrence)
        obtain ⟨rfl, hmap, hall⟩ := (ih others).mp hothers
        exact ⟨rfl, by rw [List.map_cons, hmap], List.forall_mem_cons.mpr ⟨hchunk, hall⟩⟩
    · rintro ⟨rfl, hmap, hall⟩
      cases occurrences with
      | nil => cases hmap
      | cons occurrence others =>
        obtain ⟨rfl, hrest⟩ := List.cons.inj hmap
        obtain ⟨hchunk, hall⟩ := List.forall_mem_cons.mp hall
        refine ⟨occurrence, w', ⟨_, w', ⟨hchunk, rfl⟩, rfl⟩, others, w', ?_, rfl, rfl⟩
        exact (ih others).mpr ⟨rfl, hrest, hall⟩

/-- The manifest is that of the text, as far as its contents go. -/
structure Manifest.Describes (codec : AdmissionCodec) (bytes : List UInt8)
    (references : List ChunkOccurrence) (manifest : Manifest) : Prop where
  chunks : manifest.chunks = references
  byteLength : manifest.byteLength = bytes.length
  contentHash : manifest.contentHash = codec.contentHash bytes

theorem run_reconstructDocumentText {manifest : Manifest} {p : List UInt8 × World}
    (h : (reconstructDocumentText codec manifest).run w = .ok p)
    (hinjective : Function.Injective codec.contentHash)
    (hlength : manifest.byteLength = bytes.length)
    (hhash : manifest.contentHash = codec.contentHash bytes) :
    p = (bytes, w) ∧ manifest.chunks ≠ [] ∧ References codec.contentHash bytes 0 0 manifest.chunks ∧
      ∀ reference ∈ manifest.chunks, ∃ payload,
        w.get (.manifest (.chunk reference.chunkId)) = some payload ∧
          Holds codec.contentHash bytes (reference, payload) := by
  simp only [reconstructDocumentText, Transaction.run_bind_eq_ok,
    Transaction.run_ofExcept_eq_ok, Transaction.run_require_eq_ok, Transaction.run_pure_eq_ok] at h
  obtain ⟨occurrences, t, hoccurrences, text, t', ⟨htext, ht⟩, u, t'', ⟨⟨-, hdigest⟩, hstate⟩,
    rfl⟩ := h
  obtain ⟨hread, hmap, hstored⟩ := run_physicalOccurrences_eq_ok.mp hoccurrences
  obtain rfl : t'' = w := (Prod.mk.inj hstate).2.symm.trans (ht.symm.trans hread)
  obtain rfl : text = bytes := hinjective (hdigest.trans hhash)
  rw [reconstructPhysicalChunks] at htext
  split at htext
  · cases htext
  · next hne =>
    obtain ⟨stop, hlayout, htext⟩ := bind_ok_iff.mp htext
    obtain ⟨hreferences, hholds⟩ :=
      accepted_references (show ([] : List UInt8).length = 0 from rfl) hlayout htext
    refine ⟨rfl, ?_, hmap ▸ hreferences, fun reference hmem => ?_⟩
    · rw [← hmap]
      simpa using hne
    · rw [← hmap] at hmem
      obtain ⟨occurrence, hoccurrence, rfl⟩ := List.mem_map.mp hmem
      exact ⟨_, hstored _ hoccurrence, hholds _ hoccurrence⟩

theorem run_reconstructDocumentText_of_stored {manifest : Manifest} {chunks : List PhysicalChunk}
    (hinjective : Function.Injective codec.contentHash)
    (hsplit : splitPhysicalChunks codec.contentHash bytes options = .ok chunks)
    (hmanifest : manifest.Describes codec bytes (createChunkReferences chunks))
    (hstored : ∀ payload ∈ uniquePhysicalChunks chunks [],
      w.get (.manifest (.chunk payload.chunkId)) = some payload) :
    (reconstructDocumentText codec manifest).run w = .ok (bytes, w) := by
  have hno : NoCollision codec.contentHash bytes := fun _ _ _ _ heq => hinjective heq
  have hpayload : ∀ chunk ∈ chunks, ∃ payload,
      w.get (.manifest (.chunk chunk.chunkId)) = some payload ∧
        payload.content = subarray bytes chunk.startByte chunk.endByte ∧
        payload.contentHash = chunk.contentHash := by
    intro chunk hchunk
    obtain ⟨payload, hmem, hid⟩ := (exists_payload_of_mem hchunk : ∃ payload ∈ uniquePhysicalChunks chunks [], _)
    exact ⟨payload, by rw [← hid]; exact hstored payload hmem,
      payload_exact hno hsplit hmem hchunk hid⟩
  -- the payload that the store has for a chunk
  let payloadOf : PhysicalChunk → ChunkPayload := fun chunk =>
    (w.get (.manifest (.chunk chunk.chunkId))).getD chunk.payload
  have hget : ∀ chunk ∈ chunks, w.get (.manifest (.chunk chunk.chunkId)) = some (payloadOf chunk) ∧
      (payloadOf chunk).content = subarray bytes chunk.startByte chunk.endByte ∧
      (payloadOf chunk).contentHash = chunk.contentHash := by
    intro chunk hchunk
    obtain ⟨payload, hpayload, hexact⟩ := hpayload chunk hchunk
    have heq : payloadOf chunk = payload := by
      show (w.get _).getD _ = payload
      rw [hpayload]
      rfl
    rw [heq]
    exact ⟨hpayload, hexact⟩
  have htext := reconstructPhysicalChunks_of_tiles payloadOf
    (splitPhysicalChunks_ne_nil hsplit) (splitPhysicalChunks_tiles hsplit)
    fun chunk hchunk => (hget chunk hchunk).2
  have hread : (physicalOccurrences manifest.chunks).run w =
      .ok (chunks.map fun chunk => (chunk.toChunkOccurrence, payloadOf chunk), w) := by
    rw [run_physicalOccurrences_eq_ok]
    refine ⟨rfl, ?_, ?_⟩
    · rw [hmanifest.chunks, createChunkReferences, List.map_map]
      rfl
    · intro occurrence hmem
      obtain ⟨chunk, hchunk, rfl⟩ := List.mem_map.mp hmem
      exact (hget chunk hchunk).1
  simp only [reconstructDocumentText, Transaction.run_bind_eq_ok,
    Transaction.run_ofExcept_eq_ok, Transaction.run_require_eq_ok, Transaction.run_pure_eq_ok]
  exact ⟨_, _, hread, bytes, w, ⟨htext, rfl⟩, (), w,
    ⟨⟨hmanifest.byteLength.symm, hmanifest.contentHash.symm⟩, rfl⟩, rfl⟩

theorem splitPhysicalChunks_layout (contentHash : List UInt8 → Digest)
    (hoptions : normalizeChunkingOptions options = .ok normalized) (chars : List Char) :
    ∃ chunks, splitPhysicalChunks contentHash (encodeChars chars) options = .ok chunks ∧
      (∀ chunk ∈ chunks, IsCut chars chunk.startByte ∧ IsCut chars chunk.endByte ∧
        chunk.byteLength ≤ normalized.maxChunkBytes ∧
        (chars ≠ [] → chunk.startByte < chunk.endByte)) ∧
      (chars = [] → chunks.length = 1) := by
  by_cases hnil : chars = []
  · subst hnil
    refine ⟨_, splitPhysicalChunks_nil hoptions, ?_, fun _ => rfl⟩
    rw [List.forall_mem_singleton]
    exact ⟨IsCut.zero [], IsCut.zero [], Nat.zero_le _, fun hne => absurd rfl hne⟩
  · obtain ⟨chunks, hsplit, hproper⟩ := splitPhysicalChunks_proper hnil hoptions
    refine ⟨chunks, hsplit, fun chunk hchunk => ?_, fun h => absurd h hnil⟩
    obtain ⟨hstart, hend, hnonempty, hlimit⟩ := hproper chunk hchunk
    exact ⟨hstart, hend, hlimit, fun _ => hnonempty⟩

/-- The only chunk of a text is not left out, repeated or replaced by another. -/
theorem References.eq_of_subset_singleton {reference : ChunkOccurrence} (hne : references ≠ [])
    (h : References contentHash bytes cursor index references)
    (hsubset : ∀ r ∈ references, r = reference) : references = [reference] := by
  cases references with
  | nil => exact absurd rfl hne
  | cons first rest =>
    obtain ⟨hordinal, -, -, -, -, -, hrest⟩ := h
    obtain ⟨rfl, hall⟩ := List.forall_mem_cons.mp hsubset
    cases rest with
    | nil => rfl
    | cons second rest =>
      -- it would be numbered twice
      have := hrest.ordinal_ge second List.mem_cons_self
      rw [hall second List.mem_cons_self] at this
      omega

/-- References that cut the text and are among those of a split text, or differ from them in one,
are these. -/
theorem References.eq_of_damaged {chunks : List PhysicalChunk}
    (h : References contentHash bytes 0 0 (createChunkReferences chunks))
    (h' : References contentHash bytes 0 0 references) (hne : references ≠ [])
    (hchunks : chunks.length = 1 ∨ ∀ chunk ∈ chunks, chunk.startByte < chunk.endByte)
    (hdamaged : (∀ reference ∈ references, reference ∈ createChunkReferences chunks) ∨
      ∃ i reference, references = (createChunkReferences chunks).set i reference) :
    references = createChunkReferences chunks := by
  rcases hdamaged with hsubset | ⟨i, reference, rfl⟩
  · rcases hchunks with hone | hnonempty
    · obtain ⟨chunk, rfl⟩ := List.length_eq_one_iff.mp hone
      exact h'.eq_of_subset_singleton hne fun r hr => List.mem_singleton.mp (hsubset r hr)
    · refine h.eq_of_subset h' (fun reference hmem => ?_) hsubset
      obtain ⟨chunk, hchunk, rfl⟩ := List.mem_map.mp hmem
      exact hnonempty chunk hchunk
  · exact h.eq_of_set h'

/-- Every text is split into chunks that lie end to end, begin and end between two characters, stay
within the limit and are not empty unless the text is. What admission stores of them is put together
to the text, and a manifest with missing, reordered or altered chunks is not. -/
theorem split_text_reconstructs {codec : AdmissionCodec}
    (hinjective : Function.Injective codec.contentHash) {options : ChunkingOptions}
    {normalized : NormalizedChunking}
    (hoptions : normalizeChunkingOptions options = .ok normalized) (chars : List Char) :
    ∃ chunks, splitPhysicalChunks codec.contentHash (encodeChars chars) options = .ok chunks ∧
      (∀ chunk ∈ chunks, IsCut chars chunk.startByte ∧ IsCut chars chunk.endByte ∧
        chunk.byteLength ≤ normalized.maxChunkBytes ∧
        (chars ≠ [] → chunk.startByte < chunk.endByte)) ∧
      (chars = [] → chunks.length = 1) ∧
      References codec.contentHash (encodeChars chars) 0 0 (createChunkReferences chunks) ∧
      ∀ manifest : Manifest,
        manifest.Describes codec (encodeChars chars) (createChunkReferences chunks) →
        (∀ w : World, (∀ payload ∈ uniquePhysicalChunks chunks [],
            w.get (.manifest (.chunk payload.chunkId)) = some payload) →
          (reconstructDocumentText codec manifest).run w = .ok (encodeChars chars, w)) ∧
        (∀ (w : World) p, (reconstructDocumentText codec manifest).run w = .ok p →
          p = (encodeChars chars, w) ∧ ∀ reference ∈ manifest.chunks, ∃ payload,
            w.get (.manifest (.chunk reference.chunkId)) = some payload ∧
              Holds codec.contentHash (encodeChars chars) (reference, payload)) ∧
        ∀ references, references ≠ manifest.chunks →
          ((∀ reference ∈ references, reference ∈ manifest.chunks) ∨
            ∃ i reference, references = manifest.chunks.set i reference) →
          ∀ (w : World) p, (reconstructDocumentText codec
            { manifest with chunks := references }).run w ≠ .ok p := by
  obtain ⟨chunks, hsplit, hproper, hone⟩ :=
    splitPhysicalChunks_layout codec.contentHash hoptions chars
  have hreferences := (splitPhysicalChunks_tiles hsplit).references
  refine ⟨chunks, hsplit, hproper, hone, hreferences, fun manifest hmanifest => ⟨?_, ?_, ?_⟩⟩
  · intro w hstored
    exact run_reconstructDocumentText_of_stored hinjective hsplit hmanifest hstored
  · intro w p hread
    obtain ⟨hp, -, -, hholds⟩ := run_reconstructDocumentText hread hinjective
      hmanifest.byteLength hmanifest.contentHash
    exact ⟨hp, hholds⟩
  · intro references hne hdamaged w p hread
    obtain ⟨-, hsome, haccepted, -⟩ := run_reconstructDocumentText hread hinjective
      hmanifest.byteLength hmanifest.contentHash
    rw [hmanifest.chunks] at hne hdamaged
    refine hne (hreferences.eq_of_damaged haccepted hsome ?_ hdamaged)
    by_cases hnil : chars = []
    · exact .inl (hone hnil)
    · exact .inr fun chunk hchunk => (hproper chunk hchunk).2.2.2 hnil

/-- A digest for examples: the bytes themselves, as characters. -/
def plainDigest (bytes : List UInt8) : Digest :=
  String.ofList (bytes.map fun byte => Char.ofNat byte.toNat)

theorem toNat_ofNat_of_byte (byte : UInt8) : (Char.ofNat byte.toNat).toNat = byte.toNat := by
  have hlt := byte.toNat_lt
  have hvalid : byte.toNat.isValidChar := Or.inl (by omega)
  rw [Char.ofNat, dif_pos hvalid]
  rfl

theorem plainDigest_injective : Function.Injective plainDigest := by
  intro a b h
  have hchar : Function.Injective fun byte : UInt8 => Char.ofNat byte.toNat := by
    intro x y hxy
    have htoNat := congrArg Char.toNat hxy
    simp only [toNat_ofNat_of_byte] at htoNat
    exact UInt8.toNat_inj.mp htoNat
  exact List.map_injective_iff.mpr hchar (String.ofList_injective h)

def plainCodec : AdmissionCodec where
  keyBytes := fun _ => []
  recordBytes := fun _ _ => []
  payloadBytes := fun _ => []
  sha256 := plainDigest
  contentHash := plainDigest
  deterministicManifestId := fun kind _ => kind
  createSearchWindows := fun _ _ => .ok []

theorem split_text_reconstructs_example :
    ∃ chunks, splitPhysicalChunks plainCodec.contentHash (encodeChars ['a', 'b', 'c', 'd', 'e'])
        { maxChunkBytes := some 4 } = .ok chunks ∧ ∀ chunk ∈ chunks, chunk.byteLength ≤ 4 := by
  obtain ⟨chunks, hsplit, hchunks, -⟩ := split_text_reconstructs
    (show Function.Injective plainCodec.contentHash from plainDigest_injective)
    (show normalizeChunkingOptions { maxChunkBytes := some 4 } = .ok ⟨4, 4⟩ from rfl)
    ['a', 'b', 'c', 'd', 'e']
  exact ⟨chunks, hsplit, fun chunk hchunk => (hchunks chunk hchunk).2.2.1⟩

/-- The empty text is split into an empty chunk. -/
theorem empty_text_has_empty_chunk :
    ∃ chunk, splitPhysicalChunks plainDigest (encodeChars []) {} = .ok [chunk] ∧
      ¬ chunk.startByte < chunk.endByte :=
  ⟨_, rfl, Nat.lt_irrefl 0⟩

end ContextStore
