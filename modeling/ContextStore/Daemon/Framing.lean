import ContextStore.Foundation.Delimited

/-! # Splitting a byte stream into protocol frames

`LineFramer` collects an unfinished frame in fixed-size blocks between the chunks it is given. What
it holds is always the unfinished rest of the stream so far, and a push finishes the frames that
cutting the stream at its newlines finishes (`push_of_within`), up to the push that carries a frame
past the limit. That push returns none of the frames it has finished itself, so what is delivered
depends on how the stream was split exactly when it has finished one
(`delivers_stream_iff`). -/

namespace ContextStore.Framing

open Delimited

/-- A block of memory; what has not been written since its allocation is unknown. -/
abbrev Buffer : Type := List (Option UInt8)

def Buffer.ofBytes (bytes : List UInt8) : Buffer := bytes.map some

def allocUnsafe (size : Nat) : Buffer := List.replicate size none

/-- `source.copy(target, targetStart)` -/
def copyInto (target : Buffer) (targetStart : Nat) (source : Buffer) : Buffer :=
  target.take targetStart ++ source.take (target.length - targetStart) ++
    target.drop (targetStart + source.length)

def NEWLINE : UInt8 := 0x0a

def DEFAULT_MAX_FRAME_BYTES : Nat := 16 * 1024 * 1024

def FRAME_BLOCK_BYTES : Nat := 64 * 1024

structure ContractError where
  code : String
  path : String
  message : String

structure LineFramer where
  maxFrameBytes : Nat
  blocks : List Buffer := []
  tail : Option Buffer := none
  tailLength : Nat := 0
  bufferedBytes : Nat := 0

namespace LineFramer

def reset (framer : LineFramer) : LineFramer := { maxFrameBytes := framer.maxFrameBytes }

@[simp]
theorem reset_maxFrameBytes (framer : LineFramer) :
    framer.reset.maxFrameBytes = framer.maxFrameBytes := rfl

def tooLarge (framer : LineFramer) : ContractError where
  code := "INVALID_REQUEST"
  path := "$"
  message := "protocol frame exceeds " ++ toString framer.maxFrameBytes ++ " bytes"

def blockBytes (framer : LineFramer) : Nat := min FRAME_BLOCK_BYTES framer.maxFrameBytes

def openBlock (framer : LineFramer) : Buffer := framer.tail.getD (allocUnsafe framer.blockBytes)

/-- One round of the loop: as many of the bytes as the open block has room for. -/
def fillBlock (framer : LineFramer) (bytes : List UInt8) : LineFramer :=
  let block := framer.openBlock
  let copied := min (block.length - framer.tailLength) bytes.length
  let filled := copyInto block framer.tailLength (Buffer.ofBytes (bytes.take copied))
  if framer.tailLength + copied = block.length then
    { framer with
      blocks := framer.blocks ++ [filled]
      tail := none
      tailLength := 0
      bufferedBytes := framer.bufferedBytes + copied }
  else
    { framer with
      tail := some filled
      tailLength := framer.tailLength + copied
      bufferedBytes := framer.bufferedBytes + copied }

/-- A round copies at least one byte, so as many rounds as there are bytes are enough. -/
def appendLoop : Nat → LineFramer → List UInt8 → LineFramer
  | 0, framer, _ => framer
  | rounds + 1, framer, bytes =>
    if bytes = [] then framer
    else appendLoop rounds (framer.fillBlock bytes)
      (bytes.drop (min (framer.openBlock.length - framer.tailLength) bytes.length))

def append (framer : LineFramer) (bytes : List UInt8) : Except ContractError Unit × LineFramer :=
  if framer.maxFrameBytes - framer.bufferedBytes < bytes.length then
    (.error framer.tooLarge, framer.reset)
  else (.ok (), appendLoop bytes.length framer bytes)

/-- All that is held, from the first block to the open one. -/
def held (framer : LineFramer) : Buffer :=
  framer.blocks.flatten ++ (framer.tail.getD []).take framer.tailLength

def copyPieces : List Buffer → Nat → Buffer → Buffer
  | [], _, frame => frame
  | piece :: pieces, offset, frame =>
    copyPieces pieces (offset + piece.length) (copyInto frame offset piece)

def copyOut (framer : LineFramer) (segment : Buffer) (frameBytes : Nat) : Buffer :=
  copyPieces (framer.blocks ++ [(framer.tail.getD []).take framer.tailLength, segment]) 0
    (allocUnsafe frameBytes)

/-- A block that the frame fills exactly is handed out itself. -/
def materialize (framer : LineFramer) (segment : Buffer) (frameBytes : Nat) : Buffer :=
  match framer.blocks, framer.tail with
  | [], some block =>
    if frameBytes = block.length then copyInto block framer.tailLength segment
    else framer.copyOut segment frameBytes
  | [block], none => if segment.length = 0 then block else framer.copyOut segment frameBytes
  | _, _ => framer.copyOut segment frameBytes

/-- The frame that a newline behind the segment finishes. -/
def finished (framer : LineFramer) (segment : List UInt8) : Buffer :=
  if framer.bufferedBytes = 0 then Buffer.ofBytes segment
  else framer.materialize (Buffer.ofBytes segment) (framer.bufferedBytes + segment.length)

/-- The loop over the newlines of a chunk, with the segment since the last of them. -/
def pushFrom : List UInt8 → List UInt8 → LineFramer → List Buffer →
    Except ContractError (List Buffer) × LineFramer
  | [], remainder, framer, lines =>
    if 0 < remainder.length then
      ((framer.append remainder).1.map fun _ => lines, (framer.append remainder).2)
    else (.ok lines, framer)
  | byte :: bytes, segment, framer, lines =>
    if byte = NEWLINE then
      if framer.maxFrameBytes < framer.bufferedBytes + segment.length then
        (.error framer.tooLarge, framer.reset)
      else pushFrom bytes [] framer.reset (lines ++ [framer.finished segment])
    else pushFrom bytes (segment ++ [byte]) framer lines

def push (framer : LineFramer) (chunk : List UInt8) :
    Except ContractError (List Buffer) × LineFramer :=
  pushFrom chunk [] framer []

def finish (framer : LineFramer) : Except ContractError (List Buffer) :=
  if framer.bufferedBytes = 0 then .ok []
  else .error {
    code := "INVALID_REQUEST"
    path := "$"
    message := "connection ended with an incomplete protocol frame" }

/-- Release an incomplete frame without materializing it. -/
def discard (framer : LineFramer) : Nat × LineFramer := (framer.bufferedBytes, framer.reset)

end LineFramer

/-! ## What a framer holds -/

variable {target source : Buffer}

theorem copyInto_of_fits {start : Nat} (h : start + source.length ≤ target.length) :
    copyInto target start source =
      target.take start ++ source ++ target.drop (start + source.length) := by
  rw [copyInto, List.take_of_length_le (l := source) (by omega)]

theorem length_copyInto {start : Nat} (h : start + source.length ≤ target.length) :
    (copyInto target start source).length = target.length := by
  simp only [copyInto_of_fits h, List.length_append, List.length_take, List.length_drop]
  omega

theorem take_copyInto {start : Nat} (h : start + source.length ≤ target.length) :
    (copyInto target start source).take (start + source.length) = target.take start ++ source := by
  rw [copyInto_of_fits h, List.take_append_of_le_length (by simp; omega),
    List.take_of_length_le (by simp)]

theorem drop_copyInto {start : Nat} (h : start + source.length ≤ target.length) :
    (copyInto target start source).drop (start + source.length) =
      target.drop (start + source.length) := by
  rw [copyInto_of_fits h, List.drop_append_of_le_length (by simp; omega),
    List.drop_of_length_le (by simp), List.nil_append]

namespace LineFramer

/-- Pieces that fit overwrite their place and leave the rest of the buffer. -/
theorem copyPieces_of_fits (pieces : List Buffer) (offset : Nat) (frame : Buffer)
    (h : offset + pieces.flatten.length ≤ frame.length) :
    copyPieces pieces offset frame =
      frame.take offset ++ pieces.flatten ++ frame.drop (offset + pieces.flatten.length) := by
  induction pieces generalizing offset frame with
  | nil => simp [copyPieces]
  | cons piece pieces ih =>
    simp only [List.flatten_cons, List.length_append] at h
    have hpiece : offset + piece.length ≤ frame.length := by omega
    rw [copyPieces, ih _ _ (by rw [length_copyInto hpiece]; omega), take_copyInto hpiece,
      ← List.drop_drop, drop_copyInto hpiece, List.drop_drop]
    simp [Nat.add_assoc]

/-- The framer holds the unfinished frame `rest`: its bytes, all of them written, and no more. -/
structure Holds (framer : LineFramer) (rest : List UInt8) : Prop where
  held_eq : framer.held = Buffer.ofBytes rest
  bufferedBytes_eq : framer.bufferedBytes = rest.length
  within : rest.length ≤ framer.maxFrameBytes
  hasRoom : ∀ block, framer.tail = some block → framer.tailLength < block.length
  noBlock : framer.tail = none → framer.tailLength = 0

theorem holds_reset (framer : LineFramer) : framer.reset.Holds [] where
  held_eq := rfl
  bufferedBytes_eq := rfl
  within := Nat.zero_le _
  hasRoom := by intro block h; cases h
  noBlock _ := rfl

variable {framer : LineFramer} {rest : List UInt8}

theorem Holds.take_openBlock (h : framer.Holds rest) :
    framer.openBlock.take framer.tailLength = (framer.tail.getD []).take framer.tailLength := by
  cases htail : framer.tail with
  | none => simp [h.noBlock htail]
  | some block => simp [openBlock, htail]

theorem Holds.room (h : framer.Holds rest) (hmax : 0 < framer.maxFrameBytes) :
    framer.tailLength < framer.openBlock.length := by
  cases htail : framer.tail with
  | none =>
    have : 0 < FRAME_BLOCK_BYTES := by decide
    simp only [h.noBlock htail, openBlock, htail, Option.getD_none, allocUnsafe,
      List.length_replicate, blockBytes]
    omega
  | some block => simpa [openBlock, htail] using h.hasRoom block htail

variable {bytes : List UInt8}

/-- One round of the loop takes over the bytes it copies. -/
theorem Holds.fillBlock (h : framer.Holds rest) (hmax : 0 < framer.maxFrameBytes)
    (hfit : rest.length + bytes.length ≤ framer.maxFrameBytes) :
    (framer.fillBlock bytes).Holds
      (rest ++ bytes.take (min (framer.openBlock.length - framer.tailLength) bytes.length)) := by
  have hroom := h.room hmax
  generalize hcopied :
    min (framer.openBlock.length - framer.tailLength) bytes.length = copied
  have hlength : (Buffer.ofBytes (bytes.take copied)).length = copied := by
    simp only [Buffer.ofBytes, List.length_map, List.length_take]
    omega
  have hfits : framer.tailLength + (Buffer.ofBytes (bytes.take copied)).length ≤
      framer.openBlock.length := by omega
  have htake := take_copyInto hfits
  rw [hlength, h.take_openBlock] at htake
  have hheld : framer.blocks.flatten ++
      (copyInto framer.openBlock framer.tailLength (Buffer.ofBytes (bytes.take copied))).take
        (framer.tailLength + copied) = Buffer.ofBytes (rest ++ bytes.take copied) := by
    rw [htake, ← List.append_assoc]
    have := h.held_eq
    rw [held] at this
    rw [this]
    simp [Buffer.ofBytes]
  have hcount : framer.bufferedBytes + copied = (rest ++ bytes.take copied).length := by
    simp only [h.bufferedBytes_eq, List.length_append, List.length_take]
    omega
  have hwithin : (rest ++ bytes.take copied).length ≤ framer.maxFrameBytes := by
    rw [List.length_append, List.length_take]
    omega
  simp only [LineFramer.fillBlock, hcopied]
  split
  · next hfull =>
    refine ⟨?_, hcount, hwithin, ?_, fun _ => rfl⟩
    · rw [hfull, List.take_of_length_le (by rw [length_copyInto hfits])] at hheld
      simpa [held] using hheld
    · intro block hblock
      cases hblock
  · next hopen =>
    refine ⟨hheld, hcount, hwithin, ?_, by intro hnone; cases hnone⟩
    intro block hblock
    obtain rfl := Option.some.inj hblock
    have := length_copyInto hfits
    show framer.tailLength + copied < _
    omega

@[simp]
theorem fillBlock_maxFrameBytes (bytes : List UInt8) :
    (framer.fillBlock bytes).maxFrameBytes = framer.maxFrameBytes := by
  simp only [LineFramer.fillBlock]
  split <;> rfl

theorem Holds.appendLoop (rounds : Nat) (h : framer.Holds rest) (hrounds : bytes.length ≤ rounds)
    (hfit : rest.length + bytes.length ≤ framer.maxFrameBytes) :
    (appendLoop rounds framer bytes).Holds (rest ++ bytes) ∧
      (LineFramer.appendLoop rounds framer bytes).maxFrameBytes = framer.maxFrameBytes := by
  induction rounds generalizing framer rest bytes with
  | zero =>
    obtain rfl := List.length_eq_zero_iff.mp (Nat.le_zero.mp hrounds)
    exact ⟨by simpa [LineFramer.appendLoop] using h, rfl⟩
  | succ rounds ih =>
    rw [LineFramer.appendLoop]
    split
    · next hnil =>
      subst hnil
      exact ⟨by simpa using h, rfl⟩
    · next hne =>
      have hpos : 0 < bytes.length := List.length_pos_iff.mpr hne
      have hmax : 0 < framer.maxFrameBytes := by omega
      have hroom := h.room hmax
      have hnext := h.fillBlock hmax hfit
      generalize hcopied :
        min (framer.openBlock.length - framer.tailLength) bytes.length = copied at hnext ⊢
      have hrest : (bytes.drop copied).length ≤ rounds := by
        rw [List.length_drop]
        omega
      have hloop := ih hnext hrest (by
        rw [fillBlock_maxFrameBytes, List.length_append, List.length_take, List.length_drop]
        omega)
      rw [List.append_assoc, List.take_append_drop, fillBlock_maxFrameBytes] at hloop
      exact hloop

theorem Holds.append (h : framer.Holds rest)
    (hfit : rest.length + bytes.length ≤ framer.maxFrameBytes) :
    (framer.append bytes).1 = .ok () ∧ (framer.append bytes).2.Holds (rest ++ bytes) ∧
      (framer.append bytes).2.maxFrameBytes = framer.maxFrameBytes := by
  have hroom : ¬ framer.maxFrameBytes - framer.bufferedBytes < bytes.length := by
    rw [h.bufferedBytes_eq]
    omega
  rw [LineFramer.append, if_neg hroom]
  exact ⟨rfl, h.appendLoop bytes.length (Nat.le_refl _) hfit⟩

theorem Holds.append_tooLarge (h : framer.Holds rest)
    (hfit : framer.maxFrameBytes < rest.length + bytes.length) :
    framer.append bytes = (.error framer.tooLarge, framer.reset) := by
  have hwithin := h.within
  rw [LineFramer.append, if_pos]
  rw [h.bufferedBytes_eq]
  omega

theorem Holds.finished (h : framer.Holds rest) (segment : List UInt8) :
    framer.finished segment = Buffer.ofBytes (rest ++ segment) := by
  have hcopyOut : framer.copyOut (Buffer.ofBytes segment) (framer.bufferedBytes + segment.length) =
      Buffer.ofBytes (rest ++ segment) := by
    have hflat : (framer.blocks ++ [(framer.tail.getD []).take framer.tailLength,
        Buffer.ofBytes segment]).flatten = Buffer.ofBytes (rest ++ segment) := by
      have := h.held_eq
      rw [held] at this
      simp only [List.flatten_append, List.flatten_cons, List.flatten_nil, List.append_nil]
      rw [← List.append_assoc, this]
      simp [Buffer.ofBytes]
    have hlength : (Buffer.ofBytes (rest ++ segment)).length =
        framer.bufferedBytes + segment.length := by
      simp [Buffer.ofBytes, h.bufferedBytes_eq]
    rw [copyOut, copyPieces_of_fits _ _ _ (by simp [hflat, hlength, allocUnsafe]), hflat,
      List.drop_of_length_le (by simp [hlength, allocUnsafe])]
    simp
  rw [LineFramer.finished]
  split
  · next hnone =>
    rw [h.bufferedBytes_eq] at hnone
    rw [List.length_eq_zero_iff.mp hnone, List.nil_append]
  · rw [materialize]
    split
    · next block hblocks htail =>
      split
      · next hexact =>
        have hheld : block.take framer.tailLength = Buffer.ofBytes rest := by
          simpa [held, hblocks, htail] using h.held_eq
        have hroom := h.hasRoom block htail
        have htailLength : framer.tailLength = framer.bufferedBytes := by
          have := congrArg List.length hheld
          rw [List.length_take, Buffer.ofBytes, List.length_map, ← h.bufferedBytes_eq] at this
          omega
        have hsegment : (Buffer.ofBytes segment).length = segment.length := by
          simp [Buffer.ofBytes]
        rw [copyInto_of_fits (by omega), hheld, List.drop_of_length_le (by omega)]
        simp [Buffer.ofBytes]
      · exact hcopyOut
    · next block hblocks htail =>
      split
      · next hsegment =>
        have hheld : block = Buffer.ofBytes rest := by
          simpa [held, hblocks, htail] using h.held_eq
        obtain rfl : segment = [] := by simpa [Buffer.ofBytes] using hsegment
        simpa using hheld
      · exact hcopyOut
    · exact hcopyOut

/-! ## One push -/

theorem pushFrom_of_within (bytes segment : List UInt8) (lines : List Buffer)
    (h : framer.Holds rest)
    (hfit : Within framer.maxFrameBytes (cut NEWLINE (rest ++ segment) bytes)) :
    ∃ after, pushFrom bytes segment framer lines =
        (.ok (lines ++ (cut NEWLINE (rest ++ segment) bytes).1.map Buffer.ofBytes), after) ∧
      after.Holds (cut NEWLINE (rest ++ segment) bytes).2 ∧
      after.maxFrameBytes = framer.maxFrameBytes := by
  induction bytes generalizing rest segment framer lines with
  | nil =>
    have hlength : rest.length + segment.length ≤ framer.maxFrameBytes := by
      simpa using hfit.2
    rw [pushFrom]
    split
    · obtain ⟨happend, hholds, hmax⟩ := h.append hlength
      refine ⟨(framer.append segment).2, ?_, hholds, hmax⟩
      rw [happend]
      simp [Except.map]
    · next hnil =>
      obtain rfl : segment = [] := List.length_eq_zero_iff.mp (by omega)
      exact ⟨framer, by simp, by simpa using h, rfl⟩
  | cons byte bytes ih =>
    rw [pushFrom]
    split
    · next hnewline =>
      subst hnewline
      rw [cut_delimiter] at hfit ⊢
      have hframe : rest.length + segment.length ≤ framer.maxFrameBytes := by
        simpa using hfit.1 (rest ++ segment) List.mem_cons_self
      rw [if_neg (by rw [h.bufferedBytes_eq]; omega), h.finished]
      obtain ⟨after, hpush, hafter⟩ := ih [] (lines ++ [Buffer.ofBytes (rest ++ segment)])
        (holds_reset framer) ⟨fun frame hframe => hfit.1 frame (by simpa using Or.inr hframe),
          by simpa using hfit.2⟩
      refine ⟨after, ?_, hafter⟩
      rw [hpush]
      simp
    · next hother =>
      rw [cut_cons_of_ne hother, List.append_assoc] at hfit ⊢
      exact ih (segment ++ [byte]) lines h hfit

/-- Nothing is returned with the error, not even the frames of the chunk finished before it. -/
theorem pushFrom_of_not_within (bytes segment : List UInt8) (lines : List Buffer)
    (h : framer.Holds rest)
    (hfit : ¬ Within framer.maxFrameBytes (cut NEWLINE (rest ++ segment) bytes)) :
    pushFrom bytes segment framer lines = (.error framer.tooLarge, framer.reset) := by
  induction bytes generalizing rest segment framer lines with
  | nil =>
    have hlength : framer.maxFrameBytes < rest.length + segment.length := by
      simpa [Within] using hfit
    have hwithin := h.within
    rw [pushFrom, if_pos (by omega), h.append_tooLarge hlength]
    rfl
  | cons byte bytes ih =>
    rw [pushFrom]
    split
    · next hnewline =>
      subst hnewline
      rw [cut_delimiter] at hfit
      split
      · rfl
      · next hframe =>
        rw [h.bufferedBytes_eq] at hframe
        refine ih [] _ (holds_reset framer) fun hrest => hfit ⟨?_, hrest.2⟩
        intro frame hmem
        rcases List.mem_cons.mp hmem with rfl | hmem
        · rw [List.length_append]
          omega
        · exact hrest.1 frame hmem
    · next hother =>
      rw [cut_cons_of_ne hother, List.append_assoc] at hfit
      exact ih (segment ++ [byte]) lines h hfit

theorem push_of_within {chunk : List UInt8} (h : framer.Holds rest)
    (hfit : Within framer.maxFrameBytes (cut NEWLINE rest chunk)) :
    ∃ after, framer.push chunk =
        (.ok ((cut NEWLINE rest chunk).1.map Buffer.ofBytes), after) ∧
      after.Holds (cut NEWLINE rest chunk).2 ∧ after.maxFrameBytes = framer.maxFrameBytes := by
  have := pushFrom_of_within chunk [] [] h (by rwa [List.append_nil])
  rwa [List.append_nil] at this

theorem push_of_not_within {chunk : List UInt8} (h : framer.Holds rest)
    (hfit : ¬ Within framer.maxFrameBytes (cut NEWLINE rest chunk)) :
    framer.push chunk = (.error framer.tooLarge, framer.reset) :=
  pushFrom_of_not_within chunk [] [] h (by rwa [List.append_nil])

end LineFramer

/-! ## A whole stream -/

/-- What a reader has from pushing chunks until one fails: the frames, the framer, and whether a
push failed. -/
structure Delivery where
  frames : List Buffer
  framer : LineFramer
  failed : Bool

def deliver (framer : LineFramer) : List (List UInt8) → Delivery
  | [] => { frames := [], framer, failed := false }
  | chunk :: chunks =>
    match framer.push chunk with
    | (.error _, after) => { frames := [], framer := after, failed := true }
    | (.ok lines, after) =>
      { deliver after chunks with frames := lines ++ (deliver after chunks).frames }

/-- What a reader of the stream is promised, however it was split: the frames up to the first one
that is too long, a failure exactly when there is such a one, and otherwise an account of what is
left at the end. -/
structure DeliversStream (limit : Nat) (chunks : List (List UInt8)) : Prop where
  frames_eq : (deliver { maxFrameBytes := limit } chunks).frames =
    (framesWithin NEWLINE limit chunks.flatten).map Buffer.ofBytes
  failed_iff : (deliver { maxFrameBytes := limit } chunks).failed = true ↔
    ¬ Fits NEWLINE limit chunks.flatten
  bufferedBytes_eq : (deliver { maxFrameBytes := limit } chunks).failed = false →
    (deliver { maxFrameBytes := limit } chunks).framer.bufferedBytes =
      (tail NEWLINE chunks.flatten).length
  finish_iff : (deliver { maxFrameBytes := limit } chunks).failed = false →
    ((deliver { maxFrameBytes := limit } chunks).framer.finish.isOk = false ↔
      tail NEWLINE chunks.flatten ≠ [])

/-- The chunk that first carries a frame past the limit ends another frame before. -/
def OversizeBehindFrame (limit : Nat) (chunks : List (List UInt8)) : Prop :=
  ∃ before chunk after, chunks = before ++ chunk :: after ∧
    Fits NEWLINE limit before.flatten ∧ ¬ Fits NEWLINE limit (before.flatten ++ chunk) ∧
    ∃ frame behind, chunk = frame ++ NEWLINE :: behind ∧
      Fits NEWLINE limit (before.flatten ++ frame)

/-- A run from what is held: it delivers the frames of a stream that fits, and of one that does not
those of the chunks before the failing one. -/
theorem deliver_spec (chunks : List (List UInt8)) (framer : LineFramer) (rest : List UInt8)
    (h : framer.Holds rest) :
    (Within framer.maxFrameBytes (cut NEWLINE rest chunks.flatten) ∧
      (deliver framer chunks).frames =
        (cut NEWLINE rest chunks.flatten).1.map Buffer.ofBytes ∧
      (deliver framer chunks).failed = false ∧
      (deliver framer chunks).framer.Holds (cut NEWLINE rest chunks.flatten).2) ∨
    ∃ before chunk after, chunks = before ++ chunk :: after ∧
      Within framer.maxFrameBytes (cut NEWLINE rest before.flatten) ∧
      ¬ Within framer.maxFrameBytes (cut NEWLINE rest (before.flatten ++ chunk)) ∧
      (deliver framer chunks).frames =
        (cut NEWLINE rest before.flatten).1.map Buffer.ofBytes ∧
      (deliver framer chunks).failed = true := by
  induction chunks generalizing framer rest with
  | nil => exact .inl ⟨⟨by simp, h.within⟩, rfl, rfl, h⟩
  | cons chunk chunks ih =>
    by_cases hfit : Within framer.maxFrameBytes (cut NEWLINE rest chunk)
    · obtain ⟨after, hpush, hafter, hmax⟩ := LineFramer.push_of_within h hfit
      have hdeliver : deliver framer (chunk :: chunks) =
          { deliver after chunks with
            frames := (cut NEWLINE rest chunk).1.map Buffer.ofBytes ++
              (deliver after chunks).frames } := by
        rw [deliver, hpush]
      have hrun := ih after _ hafter
      rw [hmax] at hrun
      rcases hrun with ⟨hwithin, hframes, hfailed, hholds⟩ |
        ⟨before, next, rest', hchunks, hbefore, hnext, hframes, hfailed⟩
      · left
        rw [List.flatten_cons, within_append, hdeliver, cut_append]
        exact ⟨⟨hfit, hwithin⟩, by simp [hframes], hfailed, hholds⟩
      · right
        refine ⟨chunk :: before, next, rest', by rw [hchunks]; rfl, ?_, ?_, ?_, ?_⟩
        · rw [List.flatten_cons, within_append]
          exact ⟨hfit, hbefore⟩
        · rw [List.flatten_cons, List.append_assoc, within_append]
          exact fun hall => hnext hall.2
        · rw [hdeliver, List.flatten_cons, cut_append]
          simp [hframes]
        · rw [hdeliver]
          exact hfailed
    · right
      have hdeliver : deliver framer (chunk :: chunks) =
          { frames := [], framer := framer.reset, failed := true } := by
        rw [deliver, LineFramer.push_of_not_within h hfit]
      refine ⟨[], chunk, chunks, rfl, ⟨by simp, h.within⟩, hfit, ?_, ?_⟩ <;> rw [hdeliver]
      rfl

/-- The frames are those of the stream, whatever the split, exactly when no chunk that carries a
frame past the limit also ends another one before it. -/
theorem delivers_stream_iff (limit : Nat) (chunks : List (List UInt8)) :
    DeliversStream limit chunks ↔ ¬ OversizeBehindFrame limit chunks := by
  have hholds : ({ maxFrameBytes := limit } : LineFramer).Holds [] :=
    LineFramer.holds_reset { maxFrameBytes := limit }
  rcases deliver_spec chunks { maxFrameBytes := limit } [] hholds with
    ⟨hwithin, hframes, hfailed, hafter⟩ |
      ⟨before, chunk, after, rfl, hbefore, hnot, hframes, hfailed⟩
  · have hfits : Fits NEWLINE limit chunks.flatten := hwithin
    have hnone : ¬ OversizeBehindFrame limit chunks := by
      rintro ⟨before, chunk, after, hchunks, -, hnot, -⟩
      rw [hchunks, List.flatten_append, List.flatten_cons, ← List.append_assoc, fits_append] at hfits
      exact hnot hfits.1
    refine iff_of_true ⟨?_, ?_, fun _ => ?_, fun _ => ?_⟩ hnone
    · rw [framesWithin_of_fits hfits]
      exact hframes
    · simp [hfailed, hfits]
    · exact hafter.bufferedBytes_eq
    · have hlength := hafter.bufferedBytes_eq
      rw [LineFramer.finish, hlength, ← tail]
      by_cases htail : tail NEWLINE chunks.flatten = []
      · simp [htail, Except.isOk, Except.toBool]
      · simp [htail, Except.isOk, Except.toBool]
  · have hfits : Fits NEWLINE limit before.flatten := hbefore
    have hstream : (before ++ chunk :: after).flatten =
        before.flatten ++ (chunk ++ after.flatten) := by simp
    have hover : ¬ Fits NEWLINE limit (before ++ chunk :: after).flatten := by
      rw [hstream, ← List.append_assoc, fits_append]
      exact fun hall => hnot hall.1
    have hchunk : ¬ Within limit (cut NEWLINE (tail NEWLINE before.flatten) chunk) := by
      intro hwithin
      exact hnot ((fits_append before.flatten chunk).mpr ⟨hfits, hwithin⟩)
    have hframesWithin : framesWithin NEWLINE limit (before ++ chunk :: after).flatten =
        frames NEWLINE before.flatten ++ (cut NEWLINE (tail NEWLINE before.flatten)
          chunk).1.takeWhile (·.length ≤ limit) := by
      rw [hstream, framesWithin_append hfits, takeWhile_cut_append _ _ _ hchunk]
    have hbehind : OversizeBehindFrame limit (before ++ chunk :: after) ↔
        ∃ a b, chunk = a ++ NEWLINE :: b ∧
          Within limit (cut NEWLINE (tail NEWLINE before.flatten) a) := by
      constructor
      · rintro ⟨before', chunk', after', heq, hfits', hnot', a, b, hsplit, ha⟩
        obtain ⟨rfl, rfl⟩ := overflow_unique heq hfits hnot hfits' hnot'
        exact ⟨a, b, hsplit, ((fits_append _ _).mp ha).2⟩
      · rintro ⟨a, b, hsplit, ha⟩
        exact ⟨before, chunk, after, rfl, hfits, hnot, a, b, hsplit,
          (fits_append _ _).mpr ⟨hfits, ha⟩⟩
    rw [hbehind, ← takeWhile_cut_eq_nil_iff _ _ hchunk]
    constructor
    · intro h
      have hall := h.frames_eq
      rw [hframes, hframesWithin, List.map_append, ← frames] at hall
      exact List.map_eq_nil_iff.mp (List.self_eq_append_right.mp hall)
    · intro hnone
      refine ⟨?_, ?_, fun hok => ?_, fun hok => ?_⟩
      · rw [hframes, hframesWithin, hnone, List.append_nil]
        rfl
      · exact iff_of_true hfailed hover
      · rw [hfailed] at hok
        cases hok
      · rw [hfailed] at hok
        cases hok

/-- A frame and one that is too long in one chunk: the first is never delivered. -/
theorem frame_lost_before_oversize : ¬ DeliversStream 1 [[0x78, 0x0a, 0x79, 0x79]] := by
  intro h
  exact absurd h.frames_eq (by decide)

end ContextStore.Framing
