import ContextStore.Documents.Splitting
import ContextStore.Retrieval.DocumentRange

/-! # Live documents

What admission leaves of a text: chunks that tile its bytes, their records, and its search windows.
Reading a range of a live document gives the characters between its offsets. -/

namespace ContextStore.Recall

open Unicode Concurrent

variable {contentHash : List UInt8 → Digest} {chars : List Char} {source : Source}

/-! ## Boundaries and decoding -/

/-- A boundary of the bytes between two cuts is a cut of the text. -/
theorem boundary_subarray_iff {base stop offset : Nat} (hbase : IsCut chars base)
    (hstop : IsCut chars stop) (hle : base ≤ offset) (hoffset : offset ≤ stop) :
    boundary (subarray (encodeChars chars) base stop) (offset - base) = true ↔
      IsCut chars offset := by
  have hend := hstop.le
  have hlength : (subarray (encodeChars chars) base stop).length = stop - base :=
    length_subarray hend
  simp only [boundary, hlength, Bool.or_eq_true, decide_eq_true_eq, Bool.not_eq_true']
  by_cases hfirst : offset = base
  · subst hfirst
    simp [hbase]
  by_cases hlast : offset = stop
  · subst hlast
    simp [hstop]
  · have hget : (subarray (encodeChars chars) base stop)[offset - base]? =
        (encodeChars chars)[offset]? := by
      rw [subarray, List.getElem?_take_of_lt (by omega), List.getElem?_drop,
        Nat.add_sub_cancel' hle]
    have hlt : offset < (encodeChars chars).length := by
      have : byteLength chars = (encodeChars chars).length := rfl
      omega
    rw [isContinuation_eq, hget, isCut_iff (by omega), List.getElem?_eq_getElem hlt]
    simp only [Option.getD_some, Option.some.injEq, forall_eq']
    constructor
    · rintro ((hzero | hzero) | hbyte)
      · omega
      · omega
      · exact hbyte
    · exact .inr

theorem decodeUtf8_encodeChars (chars : List Char) :
    decodeUtf8 (encodeChars chars) = .ok (withoutMark chars) := by
  have hdecode : decodeChars (encodeChars chars).length (encodeChars chars) = chars :=
    decodeChars_encodeChars (Nat.le_refl _)
  rw [decodeUtf8, hdecode, if_pos rfl]

theorem decodeUtf8_subarray {a b : Nat} (ha : IsCut chars a) (hb : IsCut chars b) (hab : a ≤ b) :
    decodeUtf8 (subarray (encodeChars chars) a b) = .ok (withoutMark (slice chars a b)) := by
  rw [subarray, ← encodeChars_slice ha hb hab, decodeUtf8_encodeChars]

/-! ## Marks -/

theorem withoutMark_eq_self_iff (text : List Char) :
    withoutMark text = text ↔ text.head? ≠ some mark := by
  rw [withoutMark]
  split
  · next hhead =>
    refine iff_of_false (fun heq => ?_) (not_not.mpr hhead)
    have := congrArg List.length heq
    cases text with
    | nil => cases hhead
    | cons c text => simp at this
  · next hhead => exact iff_of_true rfl hhead

theorem byteLength_withoutMark_le (text : List Char) :
    byteLength (withoutMark text) ≤ byteLength text := by
  rw [withoutMark]
  split
  · cases text with
    | nil => exact Nat.le_refl _
    | cons c text => simp
  · exact Nat.le_refl _

theorem byteLength_withoutMark_lt {text : List Char} (h : text.head? = some mark) :
    byteLength (withoutMark text) < byteLength text := by
  rw [withoutMark, if_pos h]
  cases text with
  | nil => cases h
  | cons c text =>
    have := c.utf8Size_pos
    simp
    omega

/-- A mark in the text, at a byte offset. -/
def MarkAt (chars : List Char) (offset : Nat) : Prop :=
  ∃ before after, chars = before ++ mark :: after ∧ byteLength before = offset

theorem MarkAt.isCut {n : Nat} (h : MarkAt chars n) : IsCut chars n := by
  obtain ⟨before, after, heq, hlength⟩ := h
  exact ⟨before, _, heq, hlength⟩

theorem head?_slice_eq_mark_iff {a b : Nat} (ha : IsCut chars a) (hb : IsCut chars b)
    (hab : a ≤ b) : (slice chars a b).head? = some mark ↔ a < b ∧ MarkAt chars a := by
  have hlength := byteLength_slice ha hb hab
  obtain ⟨before, after, heq, hbefore, -⟩ := ha.split_slice hb hab
  constructor
  · intro hhead
    obtain ⟨rest, hrest⟩ := List.head?_eq_some_iff.mp hhead
    have hpos := mark.utf8Size_pos
    rw [hrest, byteLength_cons] at hlength
    exact ⟨by omega, before, rest ++ after, by rw [heq, hrest]; simp, hbefore⟩
  · rintro ⟨hlt, before', after', heq', hbefore'⟩
    rw [heq, List.append_assoc] at heq'
    obtain rfl : before = before' := by
      obtain ⟨between, hbetween, -⟩ := eq_append_of_byteLength_le heq' (by omega)
      have hnil : between = [] := eq_nil_of_byteLength_eq_zero (by
        rw [hbetween, byteLength_append] at hbefore'
        omega)
      rw [hbetween, hnil, List.append_nil]
    have hrest := List.append_cancel_left heq'
    cases hslice : slice chars a b with
    | nil =>
      rw [hslice, byteLength_nil] at hlength
      omega
    | cons c rest =>
      rw [hslice, List.cons_append] at hrest
      rw [List.head?_cons, (List.cons.inj hrest).1]

theorem MarkAt.slice {a b n : Nat} (h : MarkAt chars (a + n)) (ha : IsCut chars a)
    (hb : IsCut chars b) (hab : a ≤ b) (hn : n < b - a) : MarkAt (slice chars a b) n := by
  have hlength := byteLength_slice ha hb hab
  have hcut := (isCut_slice_iff ha hb hab (Nat.le_of_lt hn)).mpr h.isCut
  have hend : IsCut (Unicode.slice chars a b) (b - a) := by
    rw [← hlength]
    exact IsCut.end _
  have hhead := (head?_slice_eq_mark_iff h.isCut hb (by omega)).mpr ⟨by omega, h⟩
  have hslice := slice_slice ha hb hab hcut hend (Nat.le_of_lt hn)
  rw [Nat.add_sub_cancel' hab] at hslice
  rw [← hslice] at hhead
  exact ((head?_slice_eq_mark_iff hcut hend (Nat.le_of_lt hn)).mp hhead).2

theorem subarray_subarray {bytes : List UInt8} {base stop a b : Nat} (hab : a ≤ b)
    (hb : base + b ≤ stop) :
    subarray (subarray bytes base stop) a b = subarray bytes (base + a) (base + b) := by
  rw [subarray, subarray, subarray, List.drop_take, List.take_take, List.drop_drop]
  congr 1
  omega

theorem firstBoundary_spec (bytes : List UInt8) (left start : Nat) :
    start ≤ firstBoundary bytes left start ∧ firstBoundary bytes left start ≤ start + left ∧
      (∀ offset, start ≤ offset → offset ≤ start + left → boundary bytes offset = true →
        firstBoundary bytes left start ≤ offset ∧
          boundary bytes (firstBoundary bytes left start) = true) := by
  induction left generalizing start with
  | zero =>
    refine ⟨Nat.le_refl _, Nat.le_refl _, fun offset hle hge hboundary => ?_⟩
    obtain rfl : offset = start := by omega
    exact ⟨Nat.le_refl _, hboundary⟩
  | succ left ih =>
    rw [firstBoundary]
    split
    · next hstart =>
      exact ⟨Nat.le_refl _, by omega, fun offset hle _ _ => ⟨hle, hstart⟩⟩
    · next hstart =>
      obtain ⟨hlow, hhigh, hfound⟩ := ih (start + 1)
      refine ⟨by omega, by omega, fun offset hle hge hboundary => ?_⟩
      have hne : offset ≠ start := by
        rintro rfl
        exact hstart hboundary
      exact hfound offset (by omega) (by omega) hboundary

theorem lastBoundary_spec (bytes : List UInt8) (left stop : Nat) (hleft : left ≤ stop) :
    lastBoundary bytes left stop ≤ stop ∧ stop ≤ lastBoundary bytes left stop + left ∧
      (∀ offset, offset ≤ stop → stop ≤ offset + left → boundary bytes offset = true →
        offset ≤ lastBoundary bytes left stop ∧
          boundary bytes (lastBoundary bytes left stop) = true) := by
  induction left generalizing stop with
  | zero =>
    refine ⟨Nat.le_refl _, Nat.le_refl _, fun offset hle hge hboundary => ?_⟩
    obtain rfl : offset = stop := by omega
    exact ⟨Nat.le_refl _, hboundary⟩
  | succ left ih =>
    rw [lastBoundary]
    split
    · next hstop =>
      exact ⟨Nat.le_refl _, by omega, fun offset hle _ _ => ⟨hle, hstop⟩⟩
    · next hstop =>
      obtain ⟨hhigh, hlow, hfound⟩ := ih (stop - 1) (by omega)
      refine ⟨by omega, by omega, fun offset hle hge hboundary => ?_⟩
      have hne : offset ≠ stop := by
        rintro rfl
        exact hstop hboundary
      exact hfound offset (by omega) (by omega) hboundary

/-! ## Chunks -/

/-- The chunk's record has the bytes of its place, which begins between two characters. -/
def ReadsAs (contentHash : List UInt8 → Digest) (source : Source) (chars : List Char)
    (chunk : PhysicalChunk) : Prop :=
  IsCut chars chunk.startByte ∧ physicalBytes contentHash source chunk.toChunkOccurrence =
    .ok (subarray (encodeChars chars) chunk.startByte chunk.endByte)

/-- The occurrences lie end to end from one cut to another, with the bytes of their places. -/
def Occupies (chars : List Char) : Nat → Nat → List (ChunkOccurrence × List UInt8) → Prop
  | cursor, stop, [] => cursor = stop
  | cursor, stop, occurrence :: rest =>
    occurrence.1.startByte = cursor ∧ cursor ≤ occurrence.1.endByte ∧
      IsCut chars occurrence.1.endByte ∧
      occurrence.2 = subarray (encodeChars chars) cursor occurrence.1.endByte ∧
      Occupies chars occurrence.1.endByte stop rest

variable {cursor stop index : Nat} {occurrences : List (ChunkOccurrence × List UInt8)}

theorem Occupies.flatMap (h : Occupies chars cursor stop occurrences)
    (hcursor : IsCut chars cursor) : cursor ≤ stop ∧ IsCut chars stop ∧
      occurrences.flatMap Prod.snd = subarray (encodeChars chars) cursor stop := by
  induction occurrences generalizing cursor with
  | nil =>
    obtain rfl : cursor = stop := h
    exact ⟨Nat.le_refl _, hcursor, by simp [subarray]⟩
  | cons occurrence rest ih =>
    obtain ⟨-, hle, hcut, hbytes, hrest⟩ := h
    obtain ⟨hstop, hcutStop, hflat⟩ := ih hrest hcut
    refine ⟨Nat.le_trans hle hstop, hcutStop, ?_⟩
    rw [List.flatMap_cons, hbytes, hflat, subarray_append hle hstop]

/-- What a range takes from consecutive chunks is the text between them, unless the range or one of
the chunks takes a mark first. -/
theorem Occupies.rangeChunks {a b : Nat} (h : Occupies chars cursor stop occurrences)
    (hcursor : IsCut chars cursor) (ha : IsCut chars a) (hb : IsCut chars b) (hab : a ≤ b) :
    ∃ pieces, rangeChunks a b occurrences = .ok pieces ∧
      byteLength (pieces.flatMap RangeChunk.text) ≤ max a (min b stop) - max a (min b cursor) ∧
      (pieces.flatMap RangeChunk.text = slice chars (max a (min b cursor)) (max a (min b stop)) ↔
        ∀ occurrence ∈ occurrences, max a occurrence.1.startByte < min b occurrence.1.endByte →
          ¬ MarkAt chars (max a occurrence.1.startByte)) := by
  have hclamp : ∀ n, IsCut chars n → IsCut chars (max a (min b n)) := by
    intro n hn
    rcases Nat.le_total b n with hle | hle
    · rw [Nat.min_eq_left hle, Nat.max_eq_right hab]
      exact hb
    · rw [Nat.min_eq_right hle]
      rcases Nat.le_total a n with hle' | hle'
      · rwa [Nat.max_eq_right hle']
      · rwa [Nat.max_eq_left hle']
  induction occurrences generalizing cursor with
  | nil =>
    obtain rfl : cursor = stop := h
    exact ⟨[], rfl, Nat.zero_le _, by simp [slice_self (hclamp cursor hcursor)]⟩
  | cons occurrence rest ih =>
    obtain ⟨hstart, hle, hcut, hbytes, hrest⟩ := h
    obtain ⟨hstop, hcutStop, -⟩ := hrest.flatMap hcut
    obtain ⟨others, hothers, hlength, htext⟩ := ih hrest hcut
    have hjoin := slice_append_slice (hclamp cursor hcursor) (hclamp _ hcut)
      (hclamp stop hcutStop) (by omega) (by omega)
    rw [Recall.rangeChunks, rangeChunk, hstart]
    rw [List.forall_mem_cons, ← htext, hstart]
    split
    · -- nothing of this chunk lies in the range
      next hempty =>
      have hsame : max a (min b cursor) = max a (min b occurrence.1.endByte) := by omega
      refine ⟨others, by rw [hothers]; rfl, by omega, ?_⟩
      rw [hsame]
      exact (and_iff_right (fun hlt => absurd hlt (by omega))).symm
    · next hsome =>
      have hstartClamp : max a cursor = max a (min b cursor) := by omega
      have hendClamp : min b occurrence.1.endByte = max a (min b occurrence.1.endByte) := by omega
      have hdecode : decodeUtf8 (subarray occurrence.2 (max a cursor - cursor)
          (min b occurrence.1.endByte - cursor)) = .ok (withoutMark
            (slice chars (max a (min b cursor)) (max a (min b occurrence.1.endByte)))) := by
        rw [hbytes, subarray_subarray (by omega) (by omega),
          show cursor + (max a cursor - cursor) = max a (min b cursor) by omega,
          show cursor + (min b occurrence.1.endByte - cursor) =
            max a (min b occurrence.1.endByte) by omega]
        exact decodeUtf8_subarray (hclamp cursor hcursor) (hclamp _ hcut) (by omega)
      have hpiece := byteLength_slice (hclamp cursor hcursor) (hclamp _ hcut) (by omega)
      have hmark := head?_slice_eq_mark_iff (hclamp cursor hcursor) (hclamp _ hcut) (by omega)
      rw [← hstartClamp, ← hendClamp] at hdecode hpiece hmark
      rw [hdecode, hothers]
      refine ⟨_, rfl, ?_, ?_⟩
      · have := byteLength_withoutMark_le
          (slice chars (max a cursor) (min b occurrence.1.endByte))
        simp only [List.flatMap_append, List.flatMap_cons, List.flatMap_nil, List.append_nil,
          byteLength_append]
        omega
      · simp only [List.flatMap_append, List.flatMap_cons, List.flatMap_nil, List.append_nil]
        rw [← hjoin, ← hstartClamp, ← hendClamp]
        by_cases hhead : (slice chars (max a cursor) (min b occurrence.1.endByte)).head? =
            some mark
        · -- with a mark left out the pieces are too short
          obtain ⟨hlt, hat⟩ := hmark.mp hhead
          refine iff_of_false (fun heq => ?_) (fun hall => hall.1 hlt hat)
          have hshort := byteLength_withoutMark_lt hhead
          have htotal := congrArg byteLength heq
          have hothersLength := byteLength_slice (hclamp _ hcut) (hclamp stop hcutStop) (by omega)
          rw [← hendClamp] at hothersLength
          simp only [byteLength_append] at htotal
          omega
        · rw [(withoutMark_eq_self_iff _).mpr hhead, List.append_cancel_left_eq]
          refine (and_iff_right fun hlt hat => hhead (hmark.mpr ⟨hlt, hat⟩)).symm

/-- Between two cuts, the occurrences that cover them give the text between them, unless a mark
comes first in it or in one of the chunks. -/
theorem Occupies.cutRange_exact_iff {a b : Nat} (h : Occupies chars cursor stop occurrences)
    (hcursor : IsCut chars cursor) (ha : IsCut chars a) (hb : IsCut chars b) (hab : a ≤ b)
    (hle : cursor ≤ a) (hstop : b ≤ stop) :
    (∃ pieces, cutRange a b cursor occurrences =
      .ok { startByte := a, endByte := b, text := slice chars a b, chunks := pieces }) ↔
    (a < b → ¬ MarkAt chars a) ∧
      ∀ occurrence ∈ occurrences, max a occurrence.1.startByte < min b occurrence.1.endByte →
        ¬ MarkAt chars (max a occurrence.1.startByte) := by
  obtain ⟨-, -, hflat⟩ := h.flatMap hcursor
  obtain ⟨pieces, hpieces, -, htext⟩ := h.rangeChunks hcursor ha hb hab
  rw [show max a (min b cursor) = a by omega, show max a (min b stop) = b by omega] at htext
  have hmark := head?_slice_eq_mark_iff ha hb hab
  rw [Recall.cutRange, hflat, subarray_subarray (by omega) (by omega), Nat.add_sub_cancel' hle,
    Nat.add_sub_cancel' (Nat.le_trans hle hab), decodeUtf8_subarray ha hb hab, hpieces, ← htext]
  have hself : (a < b → ¬ MarkAt chars a) ↔ withoutMark (slice chars a b) = slice chars a b := by
    rw [withoutMark_eq_self_iff, ne_eq, hmark, not_and]
  rw [hself]
  simp only [Bind.bind, Except.bind]
  constructor
  · rintro ⟨pieces', heq⟩
    split at heq
    · cases heq
    · next hsame =>
      have hread := congrArg Materialized.text (Except.ok.inj heq)
      dsimp only at hread
      rw [ne_eq, not_not] at hsame
      exact ⟨hread, hsame.trans hread⟩
  · rintro ⟨hread, hsame⟩
    rw [hread, if_neg (not_not.mpr hsame)]
    exact ⟨pieces, rfl⟩

/-- What is read between two cuts that the occurrences cover is the text between them, less a mark
that it begins with. -/
theorem Occupies.cutRange_text {a b : Nat} {read : Materialized}
    (h : Occupies chars cursor stop occurrences) (hcursor : IsCut chars cursor)
    (ha : IsCut chars a) (hb : IsCut chars b) (hab : a ≤ b) (hle : cursor ≤ a) (hstop : b ≤ stop)
    (hread : cutRange a b cursor occurrences = .ok read) :
    read.startByte = a ∧ read.endByte = b ∧ read.text = withoutMark (slice chars a b) := by
  obtain ⟨-, -, hflat⟩ := h.flatMap hcursor
  rw [Recall.cutRange, hflat, subarray_subarray (by omega) (by omega), Nat.add_sub_cancel' hle,
    Nat.add_sub_cancel' (Nat.le_trans hle hab), decodeUtf8_subarray ha hb hab] at hread
  obtain ⟨text, htext, hread⟩ := bind_ok_iff.mp hread
  obtain ⟨pieces, -, hread⟩ := bind_ok_iff.mp hread
  cases htext
  dsimp only at hread
  split at hread
  · cases hread
  · cases hread
    exact ⟨rfl, rfl, rfl⟩

/-! ## The chunks of a range -/

variable {chunks : List PhysicalChunk} {startByte endByte : Nat}

theorem isCut_cursor (h : Tiles contentHash (encodeChars chars) cursor index chunks)
    (hreads : ∀ chunk ∈ chunks, ReadsAs contentHash source chars chunk) : IsCut chars cursor := by
  cases chunks with
  | nil =>
    obtain rfl : cursor = byteLength chars := h
    exact IsCut.end chars
  | cons chunk rest =>
    obtain ⟨-, -, rfl, -⟩ := h
    exact (hreads chunk List.mem_cons_self).1

/-- Reading one more chunk in front. -/
theorem occurrencesFrom_cons {chunk : PhysicalChunk} {rest : List ChunkOccurrence}
    (hchunk : ReadsAs contentHash source chars chunk)
    (hrest : occurrencesFrom contentHash source (chunk.ordinal + 1) chunk.endByte rest =
      .ok occurrences) :
    occurrencesFrom contentHash source chunk.ordinal chunk.startByte
        (chunk.toChunkOccurrence :: rest) =
      .ok ((chunk.toChunkOccurrence,
        subarray (encodeChars chars) chunk.startByte chunk.endByte) :: occurrences) := by
  rw [occurrencesFrom, if_neg (by simp), if_neg (by simp), hchunk.2, hrest]
  rfl

theorem filter_cons_occurrence (chunk : PhysicalChunk) (rest : List PhysicalChunk)
    (p : ChunkOccurrence → Bool) :
    (createChunkReferences (chunk :: rest)).filter p =
      if p chunk.toChunkOccurrence then
        chunk.toChunkOccurrence :: (createChunkReferences rest).filter p
      else (createChunkReferences rest).filter p := by
  rw [createChunkReferences, List.map_cons, List.filter_cons, createChunkReferences]

theorem cursor_le_startByte (h : Tiles contentHash (encodeChars chars) cursor index chunks) :
    ∀ chunk ∈ chunks, cursor ≤ chunk.startByte := by
  induction chunks generalizing cursor index with
  | nil => simp
  | cons chunk rest ih =>
    obtain ⟨hfits, -, rfl, hrest⟩ := h
    refine List.forall_mem_cons.mpr ⟨Nat.le_refl _, fun c hc => ?_⟩
    exact Nat.le_trans hfits.start_le (ih hrest c hc)

theorem occurrencesFrom_all (h : Tiles contentHash (encodeChars chars) cursor index chunks)
    (hreads : ∀ chunk ∈ chunks, ReadsAs contentHash source chars chunk) :
    ∃ occurrences, occurrencesFrom contentHash source index cursor
        (createChunkReferences chunks) = .ok occurrences ∧
      Occupies chars cursor (byteLength chars) occurrences := by
  induction chunks generalizing cursor index with
  | nil =>
    obtain rfl : cursor = byteLength chars := h
    exact ⟨[], rfl, rfl⟩
  | cons chunk rest ih =>
    have hreads' := fun c hc => hreads c (List.mem_cons_of_mem _ hc)
    have hcut : IsCut chars chunk.endByte := isCut_cursor h.2.2.2 hreads'
    obtain ⟨hfits, rfl, rfl, hrest⟩ := h
    obtain ⟨occurrences, hread, hoccupies⟩ := ih hrest hreads'
    exact ⟨_, occurrencesFrom_cons (hreads chunk List.mem_cons_self) hread,
      ⟨rfl, hfits.start_le, hcut, rfl, hoccupies⟩⟩

theorem Occupies.getLast (h : Occupies chars cursor stop occurrences) {last : ChunkOccurrence}
    (hlast : (occurrences.map Prod.fst).getLast? = some last) : last.endByte = stop := by
  induction occurrences generalizing cursor with
  | nil => simp at hlast
  | cons occurrence rest ih =>
    obtain ⟨-, -, -, -, hrest⟩ := h
    cases rest with
    | nil =>
      obtain rfl : occurrence.1 = last := by simpa using hlast
      exact hrest
    | cons next rest =>
      exact ih hrest (by simpa using hlast)

/-- Behind the start of the range, the chunks that begin before its end are read. -/
theorem occurrencesFrom_tail (h : Tiles contentHash (encodeChars chars) cursor index chunks)
    (hreads : ∀ chunk ∈ chunks, ReadsAs contentHash source chars chunk)
    (hcursor : startByte < cursor) (hend : endByte ≤ byteLength chars)
    (hne : startByte < endByte) :
    ∃ occurrences stop, occurrencesFrom contentHash source index cursor
        ((createChunkReferences chunks).filter (intersects startByte endByte)) =
          .ok occurrences ∧ Occupies chars cursor stop occurrences ∧ endByte ≤ stop ∧
      occurrences.map Prod.fst =
        (createChunkReferences chunks).filter (intersects startByte endByte) := by
  have hnot := Nat.ne_of_lt hne
  induction chunks generalizing cursor index with
  | nil =>
    obtain rfl : cursor = byteLength chars := h
    exact ⟨[], _, rfl, rfl, hend, rfl⟩
  | cons chunk rest ih =>
    have hcut : IsCut chars chunk.endByte :=
      isCut_cursor h.2.2.2 fun c hc => hreads c (List.mem_cons_of_mem _ hc)
    by_cases hbegins : cursor < endByte
    · obtain ⟨hfits, rfl, rfl, hrest⟩ := h
      have hstart := hfits.start_le
      obtain ⟨occurrences, stop, hread, hoccupies, hstop, hmap⟩ :=
        ih hrest (fun c hc => hreads c (List.mem_cons_of_mem _ hc)) (by omega)
      have hintersects : intersects startByte endByte chunk.toChunkOccurrence = true := by
        simp only [intersects, if_neg hnot, decide_eq_true_eq]
        omega
      rw [filter_cons_occurrence, if_pos hintersects]
      exact ⟨_, stop, occurrencesFrom_cons (hreads chunk List.mem_cons_self) hread,
        ⟨rfl, hstart, hcut, rfl, hoccupies⟩, hstop, by rw [List.map_cons, hmap]⟩
    · -- this chunk and all behind it begin behind the range
      have hnone : (createChunkReferences (chunk :: rest)).filter
          (intersects startByte endByte) = [] := by
        rw [List.filter_eq_nil_iff, createChunkReferences]
        intro reference hmem
        obtain ⟨c, hc, rfl⟩ := List.mem_map.mp hmem
        have := cursor_le_startByte h c hc
        simp only [intersects, if_neg hnot, decide_eq_true_eq]
        omega
      rw [hnone]
      exact ⟨[], cursor, rfl, rfl, by omega, rfl⟩

/-- The chunks that intersect a range are read, from one that begins no later than the range. -/
theorem occurrencesFrom_references
    (h : Tiles contentHash (encodeChars chars) cursor index chunks)
    (hreads : ∀ chunk ∈ chunks, ReadsAs contentHash source chars chunk)
    (hcursor : cursor ≤ startByte) (hend : endByte ≤ byteLength chars)
    (hne : startByte < endByte) :
    ∃ first rest occurrences stop,
      (createChunkReferences chunks).filter (intersects startByte endByte) = first :: rest ∧
      first.startByte ≤ startByte ∧ IsCut chars first.startByte ∧
      occurrencesFrom contentHash source
        (index + (createChunkReferences chunks).findIdx (intersects startByte endByte))
        first.startByte (first :: rest) = .ok occurrences ∧
      Occupies chars first.startByte stop occurrences ∧ endByte ≤ stop ∧
      occurrences.map Prod.fst = first :: rest := by
  have hnot := Nat.ne_of_lt hne
  induction chunks generalizing cursor index with
  | nil =>
    obtain rfl : cursor = byteLength chars := h
    omega
  | cons chunk rest ih =>
    have hcut : IsCut chars chunk.endByte :=
      isCut_cursor h.2.2.2 fun c hc => hreads c (List.mem_cons_of_mem _ hc)
    have hreads' := fun c hc => hreads c (List.mem_cons_of_mem _ hc)
    obtain ⟨hfits, rfl, rfl, hrest⟩ := h
    have hstart := hfits.start_le
    have hintersects : intersects startByte endByte chunk.toChunkOccurrence = true ↔
        startByte < chunk.endByte := by
      simp only [intersects, if_neg hnot, decide_eq_true_eq]
      omega
    rw [filter_cons_occurrence]
    by_cases hfirst : startByte < chunk.endByte
    · obtain ⟨occurrences, stop, hread, hoccupies, hstop, hmap⟩ :=
        occurrencesFrom_tail hrest hreads' hfirst hend hne
      rw [if_pos (hintersects.mpr hfirst)]
      refine ⟨_, _, (chunk.toChunkOccurrence,
        subarray (encodeChars chars) chunk.startByte chunk.endByte) :: occurrences, stop, rfl,
        hcursor, (hreads chunk List.mem_cons_self).1, ?_, ⟨rfl, hstart, hcut, rfl, hoccupies⟩,
        hstop, by rw [List.map_cons, hmap]⟩
      rw [createChunkReferences, List.map_cons, List.findIdx_cons, hintersects.mpr hfirst]
      exact occurrencesFrom_cons (hreads chunk List.mem_cons_self) hread
    · have hskip : intersects startByte endByte chunk.toChunkOccurrence = false :=
        Bool.eq_false_iff.mpr fun h => hfirst (hintersects.mp h)
      rw [hskip, if_neg Bool.false_ne_true]
      obtain ⟨first, more, occurrences, stop, hfilter, hle, hcutFirst, hread, hrest⟩ :=
        ih hrest hreads' (by omega)
      refine ⟨first, more, occurrences, stop, hfilter, hle, hcutFirst, ?_, hrest⟩
      rw [createChunkReferences, List.map_cons, List.findIdx_cons, hskip, ← hread]
      simp only [cond_false, createChunkReferences]
      congr 1
      omega

/-! ## Live documents -/

/-- A text as admission stores it: the chunks of its bytes, a record for each of them, and its
search windows. -/
structure Live (contentHash : List UInt8 → Digest) (isWord : Char → Bool)
    (options : WindowOptions) (source : Source) (chars : List Char) : Prop where
  byteLength_eq : source.byteLength = byteLength chars
  chunks : ∃ chunking physical,
    splitPhysicalChunks contentHash (encodeChars chars) chunking = .ok physical ∧
    source.chunks = createChunkReferences physical ∧
    ∀ chunk ∈ physical, ∃ payload, source.chunk chunk.chunkId = some payload ∧
      payload.content = subarray (encodeChars chars) chunk.startByte chunk.endByte ∧
      payload.byteLength = chunk.byteLength ∧ payload.contentHash = chunk.contentHash
  windows : ∃ windows, createSearchWindows isWord options chars = .ok windows ∧
    ∀ ordinal : Nat, source.window ordinal = windows[ordinal]?

variable {isWord : Char → Bool} {options : WindowOptions}

/-- The chunks of a live document tile its bytes, and their records have these bytes. -/
theorem Live.exists_tiles (h : Live contentHash isWord options source chars) :
    ∃ physical, Tiles contentHash (encodeChars chars) 0 0 physical ∧
      source.chunks = createChunkReferences physical ∧
      (∀ chunk ∈ physical, ReadsAs contentHash source chars chunk) ∧
      (chars ≠ [] → ∀ chunk ∈ physical, chunk.startByte < chunk.endByte) := by
  obtain ⟨chunking, physical, hsplit, hchunks, hpayload⟩ := h.chunks
  have htiles := splitPhysicalChunks_tiles hsplit
  obtain ⟨normalized, hoptions, -⟩ := bind_ok_iff.mp hsplit
  obtain ⟨same, hsame, hlayout, -⟩ := splitPhysicalChunks_layout contentHash hoptions chars
  obtain rfl := Except.ok.inj (hsplit.symm.trans hsame)
  refine ⟨physical, htiles, hchunks, fun chunk hmem => ?_,
    fun hne chunk hmem => (hlayout chunk hmem).2.2.2 hne⟩
  have hfits := htiles.fits chunk hmem
  obtain ⟨payload, hget, hcontent, hlength, hhash⟩ := hpayload chunk hmem
  refine ⟨(hlayout chunk hmem).1, ?_⟩
  have hsize := length_subarray (a := chunk.startByte) hfits.end_le
  have hstart := hfits.start_le
  have hbytes := hfits.byteLength
  rw [physicalBytes, if_neg (by simp [hbytes]; omega), hget]
  dsimp only
  rw [hcontent, hhash, hlength, if_neg]
  simp only [not_or, not_not]
  exact ⟨by omega, hfits.contentHash, hfits.chunkId.trans (congrArg _ hfits.contentHash), by omega⟩

/-- A mark in the range is neither the first character of the range nor that of a chunk. -/
def Unmarked (chars : List Char) (source : Source) (startByte endByte : Nat) : Prop :=
  ∀ n, MarkAt chars n → startByte ≤ n → n < endByte →
    startByte < n ∧ ∀ chunk ∈ source.chunks, chunk.startByte ≠ n

/-- The offsets moved inwards: to the outermost cuts of the range, if it has one. -/
structure Inward (chars : List Char) (startByte endByte a b : Nat) : Prop where
  start_le : startByte ≤ a
  start_near : a ≤ startByte + 3
  ordered : a ≤ b
  le_end : b ≤ endByte
  end_near : endByte ≤ b + 3
  outermost : ∀ n, IsCut chars n → startByte ≤ n → n ≤ endByte →
    IsCut chars a ∧ IsCut chars b ∧ a ≤ n ∧ n ≤ b
  empty : (∀ n, IsCut chars n → startByte ≤ n → ¬ n ≤ endByte) → a = b

section Reading

variable (h : Live contentHash isWord options source chars)
include h

/-- The bytes that a range is cut out of: those between two cuts around it. -/
theorem Live.readDocumentRange_eq (hne : startByte < endByte)
    (hend : endByte ≤ byteLength chars) (adjustUtf8 : Bool) :
    ∃ base stop occurrences, base ≤ startByte ∧ endByte ≤ stop ∧ IsCut chars base ∧
      IsCut chars stop ∧ Occupies chars base stop occurrences ∧
      occurrences.map Prod.fst = source.chunks.filter (intersects startByte endByte) ∧
      readDocumentRange contentHash source startByte endByte adjustUtf8 =
        resolveRange (subarray (encodeChars chars) base stop) (startByte - base) (endByte - base)
          adjustUtf8 >>= fun resolved =>
            cutRange (base + resolved.1) (base + resolved.2) base occurrences := by
  obtain ⟨physical, htiles, hchunks, hreads, -⟩ := h.exists_tiles
  obtain ⟨first, rest, occurrences, stop, hfilter, hle, hcut, hread, hoccupies, hstop, hmap⟩ :=
    occurrencesFrom_references htiles hreads (Nat.zero_le startByte) hend hne
  obtain ⟨-, hcutStop, hflat⟩ := hoccupies.flatMap hcut
  refine ⟨first.startByte, stop, occurrences, hle, hstop, hcut, hcutStop, hoccupies,
    by rw [hmap, hchunks, hfilter], ?_⟩
  have hreferences : referencesForRange source startByte endByte = first :: rest := by
    rw [referencesForRange, hchunks, hfilter]
  have hlast : ¬ (startByte < first.startByte ∨
      (first :: rest).getLast?.any (·.endByte < endByte) = true) := by
    rintro (hlt | hany)
    · omega
    · rw [Option.any_eq_true] at hany
      obtain ⟨last, hgetLast, hshort⟩ := hany
      have := hoccupies.getLast (hmap ▸ hgetLast)
      simp only [decide_eq_true_eq] at hshort
      omega
  have hlength := h.byteLength_eq
  rw [readDocumentRange, if_neg (by omega), hreferences]
  dsimp only
  rw [if_neg hlast, hchunks]
  rw [Nat.zero_add] at hread
  rw [hread, ← hflat]
  rfl

theorem Live.cutRange_exact_iff {base a b : Nat} (hoccupies : Occupies chars base stop occurrences)
    (hmap : occurrences.map Prod.fst = source.chunks.filter (intersects startByte endByte))
    (hbase : IsCut chars base) (ha : IsCut chars a) (hb : IsCut chars b) (hab : a ≤ b)
    (hne : startByte < endByte) (hstart : startByte ≤ a) (hend : b ≤ endByte) (hle : base ≤ a)
    (hstop : b ≤ stop) :
    (∃ pieces, cutRange a b base occurrences =
      .ok { startByte := a, endByte := b, text := slice chars a b, chunks := pieces }) ↔
    Unmarked chars source a b := by
  rw [hoccupies.cutRange_exact_iff hbase ha hb hab hle hstop]
  have hmem : ∀ reference, (∃ bytes, (reference, bytes) ∈ occurrences) ↔
      reference ∈ source.chunks ∧ intersects startByte endByte reference = true := by
    intro reference
    rw [← List.mem_filter, ← hmap, List.mem_map]
    constructor
    · rintro ⟨bytes, hmem⟩
      exact ⟨_, hmem, rfl⟩
    · rintro ⟨occurrence, hmem, rfl⟩
      exact ⟨_, hmem⟩
  have hnot := Nat.ne_of_lt hne
  constructor
  · rintro ⟨hfirst, hall⟩ n hmark hlow hhigh
    have hpositive : ∀ chunk ∈ source.chunks, chunk.startByte < chunk.endByte := by
      obtain ⟨physical, -, hchunks, -, hnonempty⟩ := h.exists_tiles
      intro reference href
      rw [hchunks] at href
      obtain ⟨chunk, hchunk, rfl⟩ := List.mem_map.mp href
      refine hnonempty (fun hnil => ?_) chunk hchunk
      obtain ⟨before, after, heq, -⟩ := hmark
      rw [hnil] at heq
      simp at heq
    have hlt : a < n := by
      rcases Nat.lt_or_eq_of_le hlow with hlt | rfl
      · exact hlt
      · exact absurd hmark (hfirst hhigh)
    refine ⟨hlt, fun chunk hchunk heq => ?_⟩
    have hchunkPositive := hpositive chunk hchunk
    obtain ⟨bytes, hoccurrence⟩ := (hmem chunk).mpr ⟨hchunk, by
      simp only [intersects, if_neg hnot, decide_eq_true_eq]
      omega⟩
    have := hall _ hoccurrence (by dsimp only; omega)
    rw [heq, Nat.max_eq_right hlow] at this
    exact this hmark
  · intro hunmarked
    refine ⟨fun hlt hmark => ?_, fun occurrence hoccurrence hlt hmark => ?_⟩
    · exact Nat.lt_irrefl _ (hunmarked a hmark (Nat.le_refl a) hlt).1
    · obtain ⟨hafter, hchunks⟩ := hunmarked _ hmark (by omega) (by omega)
      refine hchunks occurrence.1 ((hmem _).mp ⟨_, hoccurrence⟩).1 ?_
      omega

theorem Live.readDocumentRange_empty {offset : Nat} (hoffset : offset ≤ byteLength chars)
    (adjustUtf8 : Bool) :
    ∃ pieces, readDocumentRange contentHash source offset offset adjustUtf8 =
      .ok { startByte := offset, endByte := offset, text := slice chars offset offset
            chunks := pieces } := by
  have hslice : slice chars offset offset = [] := by
    rw [slice, Nat.sub_self]
    cases dropBytes offset chars <;> rfl
  obtain ⟨physical, htiles, hchunks, hreads, hnonempty⟩ := h.exists_tiles
  have hlength := h.byteLength_eq
  rw [readDocumentRange, if_neg (by omega), hslice]
  by_cases hnil : chars = []
  · -- every chunk of an empty document is empty, and all of them are read
    subst hnil
    obtain rfl : offset = 0 := Nat.le_zero.mp hoffset
    obtain ⟨occurrences, hread, hoccupies⟩ := occurrencesFrom_all htiles hreads
    have hall : ∀ reference ∈ source.chunks, intersects 0 0 reference = true := by
      intro reference hmem
      rw [hchunks] at hmem
      obtain ⟨chunk, hchunk, rfl⟩ := List.mem_map.mp hmem
      have hfits := htiles.fits chunk hchunk
      have hstart := hfits.start_le
      have hend : chunk.endByte ≤ 0 := hfits.end_le
      simp only [intersects, if_true, decide_eq_true_eq]
      omega
    rw [referencesForRange, List.filter_eq_self.mpr hall, hchunks]
    cases physical with
    | nil => exact ⟨[], rfl⟩
    | cons chunk rest =>
      have hzero := hall chunk.toChunkOccurrence (by
        rw [hchunks]
        exact List.mem_map_of_mem List.mem_cons_self)
      have hfirst := hzero
      simp only [intersects, if_true, decide_eq_true_eq] at hfirst
      obtain ⟨pieces, hpieces⟩ := (hoccupies.cutRange_exact_iff (IsCut.zero []) (IsCut.zero [])
        (IsCut.zero []) (Nat.le_refl _) (Nat.le_refl _) (Nat.le_refl _)).mpr
          ⟨fun hlt => absurd hlt (Nat.lt_irrefl 0), fun occurrence _ hlt => by omega⟩
      refine ⟨pieces, ?_⟩
      rw [createChunkReferences, List.map_cons] at hread ⊢
      dsimp only
      rw [if_neg (by simp [hfirst.1]), List.findIdx_cons, hzero, hfirst.1]
      simp only [cond_true]
      rw [hread]
      have hboundary : boundary (occurrences.flatMap Prod.snd) 0 = true := by simp [boundary]
      have hresolve : resolveRange (occurrences.flatMap Prod.snd) 0 0 adjustUtf8 = .ok (0, 0) := by
        cases adjustUtf8 with
        | true => rfl
        | false => simp [resolveRange, hboundary]
      simp only [Nat.sub_self, Bind.bind, Except.bind]
      rw [hresolve]
      exact hpieces
  · -- no chunk is empty, so that none is read
    have hnone : referencesForRange source offset offset = [] := by
      rw [referencesForRange, hchunks, List.filter_eq_nil_iff, createChunkReferences]
      intro reference hmem
      obtain ⟨chunk, hchunk, rfl⟩ := List.mem_map.mp hmem
      have := hnonempty hnil chunk hchunk
      simp only [intersects, if_true, decide_eq_true_eq]
      omega
    rw [hnone]
    exact ⟨[], if_pos rfl⟩

/-- Between two cuts, reading gives the characters between them exactly if they are unmarked. -/
theorem Live.readDocumentRange_cuts_iff {a b : Nat} (ha : IsCut chars a) (hb : IsCut chars b)
    (hab : a < b) : (∃ pieces, readDocumentRange contentHash source a b false =
      .ok { startByte := a, endByte := b, text := slice chars a b, chunks := pieces }) ↔
      Unmarked chars source a b := by
  obtain ⟨base, stop, occurrences, hle, hstop, hbase, hcutStop, hoccupies, hmap, heq⟩ :=
    h.readDocumentRange_eq hab hb.le false
  have hfirst := (boundary_subarray_iff hbase hcutStop hle (by omega)).mpr ha
  have hlast := (boundary_subarray_iff hbase hcutStop (by omega) hstop).mpr hb
  have hread : readDocumentRange contentHash source a b false = cutRange a b base occurrences := by
    rw [heq, resolveRange, if_neg Bool.false_ne_true, if_neg (by simp [hfirst, hlast])]
    show cutRange (base + (a - base)) (base + (b - base)) base occurrences = _
    rw [Nat.add_sub_cancel' hle, Nat.add_sub_cancel' (by omega)]
  rw [hread]
  exact h.cutRange_exact_iff hoccupies hmap hbase ha hb (Nat.le_of_lt hab) hab (Nat.le_refl a)
    (Nat.le_refl b) hle hstop

theorem Live.readDocumentRange_ok {a b : Nat} (ha : IsCut chars a) (hb : IsCut chars b)
    (hab : a ≤ b) (hunmarked : Unmarked chars source a b) :
    ∃ pieces, readDocumentRange contentHash source a b false =
      .ok { startByte := a, endByte := b, text := slice chars a b, chunks := pieces } := by
  rcases Nat.eq_or_lt_of_le hab with rfl | hlt
  · exact h.readDocumentRange_empty ha.le false
  · exact (h.readDocumentRange_cuts_iff ha hb hlt).mpr hunmarked

omit h in
/-- Without a cut in the range, the first boundary that is found is the end of the range. -/
theorem firstBoundary_of_none (bytes : List UInt8) (left start : Nat)
    (hnone : ∀ n, start ≤ n → n < start + left → boundary bytes n = false) :
    firstBoundary bytes left start = start + left := by
  induction left generalizing start with
  | zero => rfl
  | succ left ih =>
    rw [firstBoundary, hnone start (Nat.le_refl _) (by omega), if_neg Bool.false_ne_true,
      ih (start + 1) fun n hle hlt => hnone n (by omega) (by omega)]
    omega

omit h in
theorem cutRange_empty (offset base : Nat) (occurrences : List (ChunkOccurrence × List UInt8)) :
    ∃ pieces, cutRange offset offset base occurrences =
      .ok { startByte := offset, endByte := offset, text := [], chunks := pieces } := by
  have hdecode : decodeUtf8 [] = .ok [] := rfl
  have hpieces : ∃ pieces, Recall.rangeChunks offset offset occurrences = .ok pieces ∧
      pieces.flatMap RangeChunk.text = [] := by
    induction occurrences with
    | nil => exact ⟨[], rfl, rfl⟩
    | cons occurrence rest ih =>
      obtain ⟨others, hothers, htext⟩ := ih
      rw [Recall.rangeChunks, rangeChunk]
      split
      · exact ⟨others, by rw [hothers]; rfl, htext⟩
      · next hsome =>
        have hsame : subarray occurrence.2 (max offset occurrence.1.startByte -
            occurrence.1.startByte) (min offset occurrence.1.endByte -
              occurrence.1.startByte) = [] := by
          rw [subarray, List.take_eq_nil_iff]
          left
          omega
        rw [hsame, hdecode, hothers]
        exact ⟨_, rfl, by simp [htext]⟩
  obtain ⟨pieces, hread, htext⟩ := hpieces
  refine ⟨pieces, ?_⟩
  rw [cutRange, subarray, Nat.sub_self, List.take_zero, hdecode, hread]
  simp only [Bind.bind, Except.bind]
  rw [htext]
  rfl

omit h in
/-- The outermost cuts of a range are near its ends. -/
theorem inward_of_outermost {a b cut : Nat} (hend : endByte ≤ byteLength chars)
    (hcut : IsCut chars cut) (hlow : startByte ≤ cut) (hhigh : cut ≤ endByte)
    (hstart : startByte ≤ a) (hb : b ≤ endByte)
    (houtermost : ∀ n, IsCut chars n → startByte ≤ n → n ≤ endByte →
      IsCut chars a ∧ IsCut chars b ∧ a ≤ n ∧ n ≤ b) : Inward chars startByte endByte a b := by
  obtain ⟨-, -, hcutLow, hcutHigh⟩ := houtermost cut hcut hlow hhigh
  refine ⟨hstart, ?_, by omega, hb, ?_, houtermost, fun hnone => absurd hhigh (hnone cut hcut hlow)⟩
  · obtain ⟨m, hm, hmLe, hnear⟩ := exists_cuts_around (Nat.le_trans hlow hcut.le)
    rcases hnear with rfl | ⟨k, hk, hafter, hclose⟩
    · have := houtermost m hm (Nat.le_refl m) (by omega)
      omega
    · by_cases hfirst : startByte ≤ m
      · have := houtermost m hm hfirst (by omega)
        omega
      · by_cases hlast : k ≤ endByte
        · have := houtermost k hk (by omega) hlast
          omega
        · omega
  · obtain ⟨m, hm, hmLe, hnear⟩ := exists_cuts_around hend
    rcases hnear with rfl | ⟨k, hk, hafter, hclose⟩
    · have := houtermost m hm (by omega) (Nat.le_refl m)
      omega
    · by_cases hfirst : startByte ≤ m
      · have := houtermost m hm hfirst hmLe
        omega
      · omega

omit h in
/-- A range inside one character has no character. -/
theorem inward_of_none (hle : startByte ≤ endByte) (hend : endByte ≤ byteLength chars)
    (hnone : ∀ n, IsCut chars n → startByte ≤ n → ¬ n ≤ endByte) :
    Inward chars startByte endByte endByte endByte := by
  refine ⟨hle, ?_, Nat.le_refl _, Nat.le_refl _, Nat.le_add_right _ _,
    fun n hn hlow hhigh => absurd hhigh (hnone n hn hlow), fun _ => rfl⟩
  obtain ⟨m, hm, hmLe, hnear⟩ := exists_cuts_around (Nat.le_trans hle hend)
  rcases hnear with rfl | ⟨k, hk, hafter, hclose⟩
  · exact absurd hle (hnone m hm (Nat.le_refl m))
  · have hbeyond := hnone k hk (by omega)
    have hbefore : m < startByte := by
      by_contra hnot
      exact hnone m hm (Nat.le_of_not_lt hnot) (by omega)
    omega

/-- Offsets inside characters move inwards, and reading gives the characters between them, less a
mark that they begin with: all of them exactly if they are unmarked. -/
theorem Live.readDocumentRange_adjust (hle : startByte ≤ endByte)
    (hend : endByte ≤ byteLength chars) :
    ∃ a b, Inward chars startByte endByte a b ∧
      ((∃ pieces, readDocumentRange contentHash source startByte endByte true =
        .ok { startByte := a, endByte := b, text := slice chars a b, chunks := pieces }) ↔
        Unmarked chars source a b) ∧
      ∀ read, readDocumentRange contentHash source startByte endByte true = .ok read →
        read.startByte = a ∧ read.endByte = b ∧ read.text = withoutMark (slice chars a b) := by
  have hempty : ∀ offset, withoutMark (slice chars offset offset) = slice chars offset offset := by
    intro offset
    rw [slice, Nat.sub_self]
    cases dropBytes offset chars <;> rfl
  rcases Nat.eq_or_lt_of_le hle with rfl | hne
  · obtain ⟨pieces, hpieces⟩ := h.readDocumentRange_empty hend true
    refine ⟨startByte, startByte, ?_, iff_of_true ⟨pieces, hpieces⟩
      fun n _ hlow hhigh => absurd hhigh (Nat.not_lt.mpr hlow), fun read hread => ?_⟩
    swap
    · cases hpieces.symm.trans hread
      exact ⟨rfl, rfl, (hempty _).symm⟩
    by_cases hcut : IsCut chars startByte
    · refine inward_of_outermost hend hcut hle hle hle hle fun n hn hlow hhigh => ?_
      exact ⟨hcut, hcut, hlow, hhigh⟩
    · refine inward_of_none hle hend fun n hn hlow hhigh => hcut ?_
      rwa [Nat.le_antisymm hlow hhigh]
  obtain ⟨base, stop, occurrences, hbaseLe, hstop, hbase, hcutStop, hoccupies, hmap, heq⟩ :=
    h.readDocumentRange_eq hne hend true
  have hboundary : ∀ n, startByte ≤ n → n ≤ endByte →
      (boundary (subarray (encodeChars chars) base stop) (n - base) = true ↔ IsCut chars n) :=
    fun n hn hn' => boundary_subarray_iff hbase hcutStop (by omega) (by omega)
  by_cases hsome : ∃ cut, IsCut chars cut ∧ startByte ≤ cut ∧ cut ≤ endByte
  · -- the first boundary from the start on, and the last one up to the end
    obtain ⟨cut, hcut, hlow, hhigh⟩ := hsome
    obtain ⟨hfirstLow, hfirstHigh, hfirst⟩ := firstBoundary_spec
      (subarray (encodeChars chars) base stop) (endByte - base - (startByte - base))
      (startByte - base)
    obtain ⟨hfirstLe, hfirstBoundary⟩ :=
      hfirst (cut - base) (by omega) (by omega) ((hboundary cut hlow hhigh).mpr hcut)
    generalize hstart : firstBoundary (subarray (encodeChars chars) base stop)
      (endByte - base - (startByte - base)) (startByte - base) = start at *
    obtain ⟨hlastHigh, hlastLow, hlast⟩ := lastBoundary_spec
      (subarray (encodeChars chars) base stop) (endByte - base - start) (endByte - base) (by omega)
    obtain ⟨hlastGe, hlastBoundary⟩ :=
      hlast (cut - base) (by omega) (by omega) ((hboundary cut hlow hhigh).mpr hcut)
    generalize hfinish : lastBoundary (subarray (encodeChars chars) base stop)
      (endByte - base - start) (endByte - base) = finish at *
    have ha : IsCut chars (base + start) := (hboundary _ (by omega) (by omega)).mp (by
      rw [Nat.add_sub_cancel_left]
      exact hfirstBoundary)
    have hb : IsCut chars (base + finish) := (hboundary _ (by omega) (by omega)).mp (by
      rw [Nat.add_sub_cancel_left]
      exact hlastBoundary)
    refine ⟨base + start, base + finish,
      inward_of_outermost hend hcut hlow hhigh (by omega) (by omega) ?_, ?_⟩
    · intro n hn hlow' hhigh'
      have hn' := (hboundary n hlow' hhigh').mpr hn
      have hge := (hfirst (n - base) (by omega) (by omega) hn').1
      have hle' := (hlast (n - base) (by omega) (by omega) hn').1
      exact ⟨ha, hb, by omega, by omega⟩
    · rw [heq, resolveRange, if_pos rfl, hstart]
      dsimp only
      rw [hfinish]
      exact ⟨h.cutRange_exact_iff hoccupies hmap hbase ha hb (by omega) hne (by omega) (by omega)
        (by omega) (by omega), fun read hread => hoccupies.cutRange_text hbase ha hb (by omega)
          (by omega) (by omega) hread⟩
  · have hnone : ∀ n, IsCut chars n → startByte ≤ n → ¬ n ≤ endByte :=
      fun n hn hlow hhigh => hsome ⟨n, hn, hlow, hhigh⟩
    have hfirst : firstBoundary (subarray (encodeChars chars) base stop)
        (endByte - base - (startByte - base)) (startByte - base) = endByte - base := by
      rw [firstBoundary_of_none]
      · omega
      · intro n hlow hhigh
        rw [← Bool.not_eq_true, ← Nat.add_sub_cancel_left base n, hboundary _ (by omega) (by omega)]
        exact fun hcut => hnone _ hcut (by omega) (by omega)
    have hslice : slice chars endByte endByte = [] := by
      rw [slice, Nat.sub_self]
      cases dropBytes endByte chars <;> rfl
    obtain ⟨pieces, hpieces⟩ := cutRange_empty endByte base occurrences
    have hread : readDocumentRange contentHash source startByte endByte true =
        .ok { startByte := endByte, endByte, text := slice chars endByte endByte
              chunks := pieces } := by
      rw [heq, resolveRange, if_pos rfl, hfirst, hslice]
      dsimp only
      rw [Nat.sub_self]
      show cutRange (base + (endByte - base)) (base + (endByte - base)) base occurrences = _
      rw [Nat.add_sub_cancel' (by omega)]
      exact hpieces
    refine ⟨endByte, endByte, inward_of_none hle hend hnone, iff_of_true ⟨pieces, hread⟩
      fun n _ hlow hhigh => absurd hhigh (Nat.not_lt.mpr hlow), fun read hother => ?_⟩
    cases hread.symm.trans hother
    exact ⟨rfl, rfl, (hempty _).symm⟩

theorem Live.readDocumentRange_adjust_iff (hle : startByte ≤ endByte)
    (hend : endByte ≤ byteLength chars) :
    ∃ a b, Inward chars startByte endByte a b ∧
      ((∃ pieces, readDocumentRange contentHash source startByte endByte true =
        .ok { startByte := a, endByte := b, text := slice chars a b, chunks := pieces }) ↔
        Unmarked chars source a b) := by
  obtain ⟨a, b, hinward, hiff, -⟩ := h.readDocumentRange_adjust hle hend
  exact ⟨a, b, hinward, hiff⟩

end Reading

end ContextStore.Recall
