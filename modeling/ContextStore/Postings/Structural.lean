import ContextStore.Foundation.Matching
import ContextStore.Postings.Analysis
import ContextStore.Retrieval.Ranges

/-! # Where the messages of a document are

The messages of a document are looked for in its bytes, one behind the other, while the document is
read segment by segment. How much of a message is matched goes over from one read to the next. Where
every read gives the bytes of its range, this is the search in the whole text
(`MessageScan.bytes_append`); a read that begins with a mark loses it. -/

namespace ContextStore.Postings

open Unicode Matching
open Concurrent (bind_ok_iff)
open Recall (Source MarkAt Unmarked Live withoutMark)

def MAX_STRUCTURAL_SOURCE_SCAN_BYTES_PER_DOCUMENT : Nat := 16 * 1024 * 1024

structure MessageLocation where
  startByte : Nat
  endByte : Nat

/-- The messages that are found, those that are left, and how much of the first one is matched. -/
structure MessageScan where
  locations : List MessageLocation
  needles : List (List UInt8)
  matched : Nat

/-- One round of the loop over the bytes of a read; nothing is left to do without a message. -/
def MessageScan.byte (scan : MessageScan) (endByte : Nat) (byte : UInt8) : MessageScan :=
  match scan.needles with
  | [] => scan
  | needle :: rest =>
    let matched := advance needle (prefixTable needle) scan.matched byte
    if matched = needle.length then
      { locations := scan.locations ++ [⟨endByte - needle.length, endByte⟩]
        needles := rest
        matched := 0 }
    else { scan with matched }

def MessageScan.bytes : MessageScan → Nat → List UInt8 → MessageScan
  | scan, _, [] => scan
  | scan, position, byte :: rest => (scan.byte (position + 1) byte).bytes (position + 1) rest

/-- The loop over the reads, each of which gets on by a byte at least. -/
def scanReads (reader : SourceReader) (sourceSegmentBytes scanEndByte : Nat) :
    Nat → Nat → MessageScan → Except IndexError MessageScan
  | 0, _, scan => .ok scan
  | fuel + 1, cursor, scan =>
    if cursor < scanEndByte ∧ scan.needles ≠ [] then do
      let selected ← reader.readSourceRange cursor
        (min scanEndByte (cursor + sourceSegmentBytes))
      if selected.startByte ≠ cursor ∨ selected.endByte ≤ cursor then
        throw (.invalid "Structural bounded source reader failed to make UTF-8 progress.")
      scanReads reader sourceSegmentBytes scanEndByte fuel selected.endByte
        (scan.bytes selected.startByte (encodeChars selected.text))
    else .ok scan

/-- The location of every message, in the order of the messages. -/
def structuralMessageLocations (reader : SourceReader) (sourceSegmentBytes : Nat)
    (messages : List (List Char)) : Except IndexError (List MessageLocation) :=
  let needles := messages.map encodeChars
  let unresolved := needles.filter fun needle => needle = []
  if messages = [] then .ok []
  else if unresolved ≠ [] then
    .error (.preparationLimit "unresolved structural messages" 0 unresolved.length)
  else do
    let byteLength := reader.source.byteLength
    let scanEndByte := min byteLength MAX_STRUCTURAL_SOURCE_SCAN_BYTES_PER_DOCUMENT
    let scan ← scanReads reader sourceSegmentBytes scanEndByte scanEndByte 0 ⟨[], needles, 0⟩
    if scan.needles = [] then return scan.locations
    else if MAX_STRUCTURAL_SOURCE_SCAN_BYTES_PER_DOCUMENT < byteLength then
      throw (.preparationLimit "structural source scan bytes"
        MAX_STRUCTURAL_SOURCE_SCAN_BYTES_PER_DOCUMENT byteLength)
    else throw (.preparationLimit "unresolved structural messages" 0 scan.needles.length)

/-! ## The search in the whole text -/

/-- The first place from the start on at which the needle occurs. A location has a byte at least, so
that an empty needle has none. -/
def firstOccurrence (text needle : List UInt8) (start : Nat) : Option Nat :=
  if needle = [] then none
  else (List.range' start (text.length - start)).find? fun position =>
    needle.isPrefixOf (text.drop position)

/-- Each needle is looked for behind the one before it. -/
def plainLocations (text : List UInt8) : List (List UInt8) → Nat → Option (List MessageLocation)
  | [], _ => some []
  | needle :: rest, start => do
    let position ← firstOccurrence text needle start
    let others ← plainLocations text rest (position + needle.length)
    return ⟨position, position + needle.length⟩ :: others

variable {text needle : List UInt8} {needles : List (List UInt8)} {start position : Nat}

theorem firstOccurrence_of_leftmost (hne : needle ≠ []) {p : Nat}
    (h : Leftmost needle (text.drop start) p) :
    firstOccurrence text needle start = some (start + p) := by
  obtain ⟨hoccurs, hfirst⟩ := h
  have hpos := List.length_pos_iff.mpr hne
  have hlength := hoccurs.length_le
  rw [List.drop_drop, List.length_drop] at hlength
  rw [firstOccurrence, if_neg hne, List.find?_range'_eq_some]
  simp only [List.isPrefixOf_iff_prefix, List.mem_range'_1, Bool.not_eq_true', ← Bool.not_eq_true]
  rw [List.drop_drop] at hoccurs
  refine ⟨hoccurs, ⟨by omega, by omega⟩, fun q hlow hhigh hother => ?_⟩
  refine hfirst (q - start) (by omega) ?_
  rw [List.drop_drop, Nat.add_sub_cancel' hlow]
  exact hother

theorem firstOccurrence_of_none (h : ∀ p, ¬ needle <+: (text.drop start).drop p) :
    firstOccurrence text needle start = none := by
  rw [firstOccurrence]
  split
  · rfl
  · rw [List.find?_eq_none]
    intro p hp
    rw [List.mem_range'_1] at hp
    have hno := h (p - start)
    rw [List.drop_drop, Nat.add_sub_cancel' hp.1] at hno
    rwa [List.isPrefixOf_iff_prefix]

/-! ## Bytes -/

namespace MessageScan

variable {scan : MessageScan}

theorem bytes_append (scan : MessageScan) (position : Nat) (before after : List UInt8) :
    scan.bytes position (before ++ after) =
      (scan.bytes position before).bytes (position + before.length) after := by
  induction before generalizing scan position with
  | nil => rfl
  | cons byte rest ih =>
    rw [List.cons_append, bytes, ih, bytes, List.length_cons]
    congr 1
    omega

theorem bytes_of_nil (h : scan.needles = []) (position : Nat) (text : List UInt8) :
    scan.bytes position text = scan := by
  induction text generalizing position with
  | nil => rfl
  | cons symbol rest ih =>
    rw [bytes, byte, h]
    exact ih (position + 1)

variable {locations : List MessageLocation} {rest : List (List UInt8)} {matched : Nat}

theorem byte_of_ne {symbol : UInt8}
    (h : advance needle (prefixTable needle) matched symbol ≠ needle.length) :
    (MessageScan.mk locations (needle :: rest) matched).byte position symbol =
      MessageScan.mk locations (needle :: rest)
        (advance needle (prefixTable needle) matched symbol) := by
  rw [byte]
  exact if_neg h

/-- The bytes up to the end of the first occurrence of the message are gone through. -/
theorem bytes_of_find_some (locations : List MessageLocation) (rest : List (List UInt8))
    (hne : needle ≠ []) {stop : Nat}
    (h : find needle (prefixTable needle) text position matched = some stop) :
    (MessageScan.mk locations (needle :: rest) matched).bytes position text =
      (MessageScan.mk (locations ++ [⟨stop - needle.length, stop⟩]) rest 0).bytes stop
        (text.drop (stop - position)) ∧ position < stop := by
  induction text generalizing position matched with
  | nil => cases h
  | cons symbol after ih =>
    have hpos := List.length_pos_iff.mpr hne
    rw [find] at h
    split at h
    · next hfound =>
      cases h
      rw [bytes, byte]
      dsimp only
      rw [if_pos hfound.2, Nat.add_sub_cancel_left]
      exact ⟨rfl, Nat.lt_succ_self _⟩
    · next hgoes =>
      obtain ⟨hbytes, hlt⟩ := ih h
      have hdrop : stop - position = stop - (position + 1) + 1 := by omega
      rw [bytes, byte_of_ne fun heq => hgoes ⟨by omega, heq⟩, hbytes, hdrop, List.drop_succ_cons]
      exact ⟨rfl, by omega⟩

theorem bytes_of_find_none (hne : needle ≠ [])
    (h : find needle (prefixTable needle) text position matched = none) :
    ((MessageScan.mk locations (needle :: rest) matched).bytes position text).needles ≠ [] := by
  induction text generalizing position matched with
  | nil => exact List.cons_ne_nil _ _
  | cons symbol after ih =>
    have hpos := List.length_pos_iff.mpr hne
    rw [find] at h
    split at h
    · cases h
    · next hgoes =>
      rw [bytes, byte_of_ne fun heq => hgoes ⟨by omega, heq⟩]
      exact ih h

theorem bytes_eq_plain (hne : ∀ needle ∈ needles, needle ≠ []) (start : Nat)
    (hstart : start ≤ text.length) (locations : List MessageLocation) :
    (((MessageScan.mk locations needles 0).bytes start (text.drop start)).needles = [] →
      plainLocations text needles start ≠ none) ∧
    ∀ found, plainLocations text needles start = some found →
      (MessageScan.mk locations needles 0).bytes start (text.drop start) =
        ⟨locations ++ found, [], 0⟩ := by
  induction needles generalizing start locations with
  | nil =>
    rw [bytes_of_nil rfl]
    refine ⟨fun _ => Option.some_ne_none _, fun found hfound => ?_⟩
    cases hfound
    rw [List.append_nil]
  | cons needle rest ih =>
    have hneedle := hne needle List.mem_cons_self
    rcases find_prefixTable hneedle (text.drop start) start with
      ⟨hnone, hall⟩ | ⟨p, hsome, hleftmost⟩
    · have hplain : plainLocations text (needle :: rest) start = none := by
        rw [plainLocations, firstOccurrence_of_none hall]
        rfl
      rw [hplain]
      refine ⟨fun hdone => absurd hdone (bytes_of_find_none hneedle hnone),
        fun found hfound => ?_⟩
      cases hfound
    · obtain ⟨hbytes, -⟩ := bytes_of_find_some locations rest hneedle hsome
      have hlength := hleftmost.1.length_le
      rw [List.drop_drop, List.length_drop] at hlength
      have hpos := List.length_pos_iff.mpr hneedle
      have hdrop : (text.drop start).drop (start + p + needle.length - start) =
          text.drop (start + p + needle.length) := by
        rw [List.drop_drop]
        congr 1
        omega
      rw [hbytes, hdrop, Nat.add_sub_cancel, plainLocations,
        firstOccurrence_of_leftmost hneedle hleftmost]
      obtain ⟨hdone, hfound⟩ := ih (fun other hother => hne other (List.mem_cons_of_mem _ hother))
        (start + p + needle.length) (by omega)
        (locations ++ [⟨start + p, start + p + needle.length⟩])
      refine ⟨fun hnil hplain => hdone hnil ?_, fun found hplain => ?_⟩
      · cases hothers : plainLocations text rest (start + p + needle.length) with
        | none => rfl
        | some others =>
          rw [Option.bind_eq_bind, Option.bind_some, hothers] at hplain
          cases hplain
      · cases hothers : plainLocations text rest (start + p + needle.length) with
        | none =>
          rw [Option.bind_eq_bind, Option.bind_some, hothers] at hplain
          cases hplain
        | some others =>
          rw [Option.bind_eq_bind, Option.bind_some, hothers] at hplain
          cases hplain
          rw [hfound others hothers, List.append_assoc]
          rfl

/-- With one message, either it is found, which takes as many bytes as it has, or it is matched as
far as the bytes so far go. -/
theorem bytes_single (locations : List MessageLocation) {seen : List UInt8}
    (hlongest : Longest needle seen matched)
    (position : Nat) (text : List UInt8) :
    (((MessageScan.mk locations [needle] matched).bytes position text).needles = [] ∧
      needle.length ≤ (seen ++ text).length) ∨
    ∃ matched', (MessageScan.mk locations [needle] matched).bytes position text =
      ⟨locations, [needle], matched'⟩ ∧ Longest needle (seen ++ text) matched' := by
  induction text generalizing position matched seen with
  | nil => exact .inr ⟨matched, rfl, by rwa [List.append_nil]⟩
  | cons symbol after ih =>
    have hnext := hlongest.advance (tabulates_prefixTable needle) hlongest.le symbol
    have happend : seen ++ symbol :: after = seen ++ [symbol] ++ after := by simp
    rw [bytes, happend]
    by_cases hfound : advance needle (prefixTable needle) matched symbol = needle.length
    · left
      have hlength := (hnext.eq_length_iff.mp hfound).length_le
      rw [bytes_of_nil]
      · refine ⟨?_, ?_⟩
        · rw [byte]
          dsimp only
          rw [if_pos hfound]
        · rw [List.length_append]
          omega
      · rw [byte]
        dsimp only
        rw [if_pos hfound]
    · rw [byte_of_ne hfound]
      exact ih hnext (position + 1)

end MessageScan

/-! ## Reads -/

/-- A read from the cursor on ends at the last character that it has room for. -/
structure ReadEnd (chars : List Char) (sourceSegmentBytes cursor stop : Nat) : Prop where
  isCut : IsCut chars stop
  progress : cursor < stop
  room : stop ≤ cursor + sourceSegmentBytes
  last : ∀ n, IsCut chars n → n ≤ cursor + sourceSegmentBytes → n ≤ stop

/-- The offsets of a text at which reads begin, from one of them on. -/
inductive ReadsAt (chars : List Char) (sourceSegmentBytes : Nat) : Nat → Nat → Prop
  | here {cursor : Nat} : cursor < byteLength chars → ReadsAt chars sourceSegmentBytes cursor cursor
  | later {cursor stop start : Nat} : ReadEnd chars sourceSegmentBytes cursor stop →
      ReadsAt chars sourceSegmentBytes stop start → ReadsAt chars sourceSegmentBytes cursor start

/-- Every byte of the text is read: it is not too long, a read has room for the character that it
begins with, and no read and no chunk begins with a mark. -/
structure Scannable (chars : List Char) (source : Source) (sourceSegmentBytes : Nat) : Prop where
  short : byteLength chars ≤ MAX_STRUCTURAL_SOURCE_SCAN_BYTES_PER_DOCUMENT
  room : ∀ cursor, ReadsAt chars sourceSegmentBytes 0 cursor →
    ∃ stop, ReadEnd chars sourceSegmentBytes cursor stop
  unmarked : ∀ cursor, ReadsAt chars sourceSegmentBytes 0 cursor → ¬ MarkAt chars cursor
  chunks : ∀ chunk ∈ source.chunks, ¬ MarkAt chars chunk.startByte

section Reads

variable {chars : List Char} {source : Source} {contentHash : List UInt8 → Digest}
  {isWord : Char → Bool} {options : Recall.WindowOptions} {sourceSegmentBytes cursor : Nat}

theorem ReadEnd.unique {stop stop' : Nat} (h : ReadEnd chars sourceSegmentBytes cursor stop)
    (h' : ReadEnd chars sourceSegmentBytes cursor stop') : stop = stop' :=
  Nat.le_antisymm (h'.last stop h.isCut h.room) (h.last stop' h'.isCut h'.room)

/-- A read that begins at a cut ends at the last cut of its range. Its text is the one between them,
less a mark that it begins with, and nothing is missing exactly if it is unmarked. -/
theorem exists_read (live : Live contentHash isWord options source chars) (endByte : Nat)
    (hcut : IsCut chars cursor) (hle : cursor ≤ endByte) (hend : endByte ≤ byteLength chars) :
    ∃ stop, IsCut chars stop ∧ cursor ≤ stop ∧ stop ≤ endByte ∧
      (∀ n, IsCut chars n → n ≤ endByte → n ≤ stop) ∧
      (Unmarked chars source cursor stop → ∃ pieces,
        (SourceReader.mk contentHash source).readSourceRange cursor endByte =
          .ok { startByte := cursor, endByte := stop, text := slice chars cursor stop
                chunks := pieces }) ∧
      ∀ read, (SourceReader.mk contentHash source).readSourceRange cursor endByte = .ok read →
        read.startByte = cursor ∧ read.endByte = stop ∧ byteLength read.text ≤ stop - cursor ∧
          (byteLength read.text = stop - cursor → Unmarked chars source cursor stop) := by
  obtain ⟨a, b, hinward, hiff, hread⟩ := live.readDocumentRange_adjust hle hend
  obtain ⟨-, hb, hfirst, hlast⟩ := hinward.outermost cursor hcut (Nat.le_refl _) hle
  obtain rfl := Nat.le_antisymm hfirst hinward.start_le
  refine ⟨b, hb, hlast, hinward.le_end, fun n hn hlow => ?_, fun hunmarked => ?_,
    fun read hok => ?_⟩
  · by_cases hbefore : a ≤ n
    · exact (hinward.outermost n hn hbefore hlow).2.2.2
    · omega
  · obtain ⟨pieces, hpieces⟩ := hiff.mpr hunmarked
    exact ⟨pieces, failsAs_eq_ok.mpr hpieces⟩
  · have hok := failsAs_eq_ok.mp hok
    obtain ⟨hstart, hstop, htext⟩ := hread read hok
    have hslice := byteLength_slice hcut hb hlast
    refine ⟨hstart, hstop, ?_, fun hlength => hiff.mp ⟨read.chunks, ?_⟩⟩
    · rw [htext, ← hslice]
      exact Recall.byteLength_withoutMark_le _
    · have hwhole : withoutMark (slice chars a b) = slice chars a b := by
        rw [Recall.withoutMark_eq_self_iff]
        intro hmark
        have hshort := Recall.byteLength_withoutMark_lt hmark
        rw [← htext] at hshort
        omega
      have hread : read = { startByte := a, endByte := b, text := slice chars a b
                            chunks := read.chunks } := by
        rw [← hwhole, ← htext, ← hstart, ← hstop]
      rw [hok, ← hread]

theorem ReadEnd.le {stop : Nat} (h : ReadEnd chars sourceSegmentBytes cursor stop) :
    stop ≤ byteLength chars := h.isCut.le

theorem readEnd_of_last {scanEndByte stop : Nat} (hcut : IsCut chars stop)
    (hscan : byteLength chars ≤ scanEndByte) (hprogress : cursor < stop)
    (hroom : stop ≤ min scanEndByte (cursor + sourceSegmentBytes))
    (hlast : ∀ n, IsCut chars n → n ≤ min scanEndByte (cursor + sourceSegmentBytes) → n ≤ stop) :
    ReadEnd chars sourceSegmentBytes cursor stop where
  isCut := hcut
  progress := hprogress
  room := by omega
  last := by
    intro n hn hle
    have := hn.le
    exact hlast n hn (by omega)

theorem encodeChars_slice_eq {stop : Nat} (hcut : IsCut chars cursor) (hstop : IsCut chars stop)
    (hle : cursor ≤ stop) : (encodeChars chars).drop cursor =
      encodeChars (slice chars cursor stop) ++ (encodeChars chars).drop stop := by
  rw [encodeChars_slice hcut hstop hle]
  have hdrop : (encodeChars chars).drop stop =
      ((encodeChars chars).drop cursor).drop (stop - cursor) := by
    rw [List.drop_drop, Nat.add_sub_cancel' hle]
  rw [hdrop, List.take_append_drop]

/-- Where every byte is read, the reads give what one pass over the text gives. -/
theorem Scannable.scanReads (h : Scannable chars source sourceSegmentBytes)
    (live : Live contentHash isWord options source chars) {fuel : Nat} {scan : MessageScan}
    (hcut : IsCut chars cursor)
    (hreads : ∀ start, ReadsAt chars sourceSegmentBytes cursor start →
      ReadsAt chars sourceSegmentBytes 0 start)
    (hfuel : byteLength chars ≤ cursor + fuel) :
    scanReads ⟨contentHash, source⟩ sourceSegmentBytes (byteLength chars) fuel cursor scan =
      .ok (scan.bytes cursor ((encodeChars chars).drop cursor)) := by
  have hdone : byteLength chars ≤ cursor → (encodeChars chars).drop cursor = [] := by
    intro hend
    exact List.drop_eq_nil_of_le hend
  induction fuel generalizing cursor scan with
  | zero =>
    rw [Postings.scanReads, hdone hfuel]
    rfl
  | succ fuel ih =>
    rw [Postings.scanReads]
    split
    · next hgoes =>
      obtain ⟨stop, hstop, hlow, hroom, hlast, hread, -⟩ :=
        exists_read live (min (byteLength chars) (cursor + sourceSegmentBytes)) hcut (by omega)
          (Nat.min_le_left _ _)
      obtain ⟨end', hend⟩ := h.room cursor (hreads cursor (.here hgoes.1))
      have hprogress : cursor < stop := by
        have := hlast end' hend.isCut (by have := hend.le; have := hend.room; omega)
        have := hend.progress
        omega
      have hunmarked : Unmarked chars source cursor stop := by
        intro n hmark hfrom _
        refine ⟨?_, fun chunk hchunk heq => h.chunks chunk hchunk (heq ▸ hmark)⟩
        refine Nat.lt_of_le_of_ne hfrom fun heq => ?_
        subst heq
        exact h.unmarked _ (hreads _ (.here hgoes.1)) hmark
      obtain ⟨pieces, hok⟩ := hread hunmarked
      rw [hok]
      simp only [Bind.bind, Except.bind]
      rw [if_neg (by simp only [ne_eq, not_true_eq_false, false_or]; omega),
        encodeChars_slice_eq hcut hstop hlow, MessageScan.bytes_append,
        ← byteLength, byteLength_slice hcut hstop hlow, Nat.add_sub_cancel' hlow]
      refine ih hstop (fun start hstart => hreads start (.later ?_ hstart)) (by omega) ?_
      · exact readEnd_of_last hstop (Nat.le_refl _) hprogress hroom hlast
      · exact fun hend => List.drop_eq_nil_of_le hend
    · next hends =>
      by_cases hrest : cursor < byteLength chars
      · have hnil : scan.needles = [] := by
          by_cases hnil : scan.needles = []
          · exact hnil
          · exact absurd ⟨hrest, hnil⟩ hends
        rw [MessageScan.bytes_of_nil hnil]
      · rw [hdone (Nat.le_of_not_lt hrest)]
        rfl

theorem readsAt_end : ¬ ReadsAt chars sourceSegmentBytes (byteLength chars) start := by
  intro h
  cases h with
  | here hlt => exact Nat.lt_irrefl _ hlt
  | later hread _ =>
    have := hread.le
    have := hread.progress
    omega

/-- A message as long as the text is found only if every byte of the text is read. -/
theorem exact_of_scanReads (live : Live contentHash isWord options source chars)
    {scanEndByte fuel matched : Nat} {seen : List UInt8} {locations : List MessageLocation}
    {final : MessageScan} (hscan : scanEndByte ≤ byteLength chars)
    (hneedle : needle.length = byteLength chars) (hlongest : Longest needle seen matched)
    (hseen : seen.length ≤ cursor) (hcut : IsCut chars cursor)
    (hok : scanReads ⟨contentHash, source⟩ sourceSegmentBytes scanEndByte fuel cursor
      ⟨locations, [needle], matched⟩ = .ok final)
    (hfinal : final.needles = []) :
    seen.length = cursor ∧ scanEndByte = byteLength chars ∧
      (∀ start, ReadsAt chars sourceSegmentBytes cursor start →
        (∃ stop, ReadEnd chars sourceSegmentBytes start stop) ∧ ¬ MarkAt chars start) ∧
      ∀ chunk ∈ source.chunks, cursor ≤ chunk.startByte → ¬ MarkAt chars chunk.startByte := by
  induction fuel generalizing cursor matched seen with
  | zero =>
    cases hok
    cases hfinal
  | succ fuel ih =>
    rw [Postings.scanReads] at hok
    split at hok
    swap
    · cases hok
      cases hfinal
    next hgoes =>
    obtain ⟨read, hread, hok⟩ := bind_ok_iff.mp hok
    obtain ⟨stop, hstop, hlow, hroom, hlast, -, htext⟩ :=
      exists_read live (min scanEndByte (cursor + sourceSegmentBytes)) hcut (by omega) (by omega)
    obtain ⟨hstart, hend, hshort, hexact⟩ := htext read hread
    dsimp only at hok
    split at hok
    · cases hok
    next hprogress =>
    rw [hstart, hend] at hok hprogress
    have hprogress : cursor < stop := by
      simpa using hprogress
    -- what is read counts for no more than the range, and the message needs all of it
    have hbytes : (seen ++ encodeChars read.text).length = seen.length + byteLength read.text :=
      List.length_append
    have hstep : seen.length + byteLength read.text = stop → scanEndByte = byteLength chars →
        (∀ start, ReadsAt chars sourceSegmentBytes stop start →
          (∃ stop, ReadEnd chars sourceSegmentBytes start stop) ∧ ¬ MarkAt chars start) →
        (∀ chunk ∈ source.chunks, stop ≤ chunk.startByte → ¬ MarkAt chars chunk.startByte) →
        seen.length = cursor ∧ scanEndByte = byteLength chars ∧
          (∀ start, ReadsAt chars sourceSegmentBytes cursor start →
            (∃ stop, ReadEnd chars sourceSegmentBytes start stop) ∧ ¬ MarkAt chars start) ∧
          ∀ chunk ∈ source.chunks, cursor ≤ chunk.startByte → ¬ MarkAt chars chunk.startByte := by
      intro htotal hwhole hlater hchunks
      have hunmarked := hexact (by omega)
      have hreadEnd := readEnd_of_last hstop (Nat.le_of_eq hwhole.symm) hprogress hroom hlast
      refine ⟨by omega, hwhole, fun start hreads => ?_, fun chunk hchunk hfrom hmark => ?_⟩
      · cases hreads with
        | here hlt =>
          exact ⟨⟨stop, hreadEnd⟩, fun hmark =>
            Nat.lt_irrefl _ (hunmarked _ hmark (Nat.le_refl _) hprogress).1⟩
        | later hother hrest =>
          rw [hother.unique hreadEnd] at hrest
          exact hlater start hrest
      · by_cases hbehind : stop ≤ chunk.startByte
        · exact hchunks chunk hchunk hbehind hmark
        · exact (hunmarked _ hmark hfrom (Nat.lt_of_not_le hbehind)).2 chunk hchunk rfl
    rcases MessageScan.bytes_single locations hlongest cursor (encodeChars read.text) with
      ⟨hdone, hlength⟩ | ⟨matched', hscan', hnext⟩
    · obtain rfl : stop = byteLength chars := by
        have := hstop.le
        omega
      refine hstep (by omega) (by omega) (fun start h => absurd h readsAt_end)
        fun chunk _ hbehind hmark => ?_
      have := hmark.add_le (IsCut.end chars)
      have := hmark.isCut.le
      have := hmark.next.le
      omega
    · rw [hscan'] at hok
      obtain ⟨htotal, hwhole, hlater, hchunks⟩ := ih hnext (by omega) hstop hok
      exact hstep (by omega) hwhole hlater hchunks

theorem plainLocations_of_empty (h : [] ∈ needles) (start : Nat) :
    plainLocations text needles start = none := by
  induction needles generalizing start with
  | nil => cases h
  | cons needle rest ih =>
    rw [plainLocations]
    rcases List.mem_cons.mp h with heq | hrest
    · rw [← heq, firstOccurrence, if_pos rfl]
      rfl
    · cases firstOccurrence text needle start with
      | none => rfl
      | some position =>
        rw [Option.bind_eq_bind, Option.bind_some, ih hrest]
        rfl

theorem Scannable.locations (h : Scannable chars source sourceSegmentBytes)
    (live : Live contentHash isWord options source chars) (messages : List (List Char)) :
    (structuralMessageLocations ⟨contentHash, source⟩ sourceSegmentBytes messages).toOption =
      plainLocations (encodeChars chars) (messages.map encodeChars) 0 := by
  rw [structuralMessageLocations]
  dsimp only
  split
  · next hnil =>
    subst hnil
    rfl
  split
  · next hunresolved =>
    obtain ⟨needle, hneedle⟩ := List.exists_mem_of_ne_nil _ hunresolved
    obtain ⟨hmem, hempty⟩ := List.mem_filter.mp hneedle
    rw [plainLocations_of_empty (of_decide_eq_true hempty ▸ hmem)]
    rfl
  next hresolved =>
  have hne : ∀ needle ∈ messages.map encodeChars, needle ≠ [] := by
    intro needle hmem hempty
    exact hresolved (List.ne_nil_of_mem (List.mem_filter.mpr ⟨hmem, decide_eq_true hempty⟩))
  rw [live.byteLength_eq, Nat.min_eq_left h.short, h.scanReads live (IsCut.zero chars)
    (fun _ hstart => hstart) (Nat.le_add_left _ _), List.drop_zero]
  obtain ⟨hdone, hfound⟩ := MessageScan.bytes_eq_plain hne 0 (Nat.zero_le _) []
  rw [List.drop_zero] at hdone hfound
  simp only [Bind.bind, Except.bind]
  cases hplain : plainLocations (encodeChars chars) (messages.map encodeChars) 0 with
  | none =>
    rw [if_neg fun hnil => hdone hnil hplain, if_neg (Nat.not_lt.mpr h.short)]
    rfl
  | some found =>
    rw [hfound found hplain, if_pos rfl]
    rfl

/-- The whole text as a message is found in itself. -/
theorem plainLocations_self (hne : text ≠ []) :
    plainLocations text [text] 0 = some [⟨0, text.length⟩] := by
  have hleftmost : Leftmost text (text.drop 0) 0 :=
    ⟨List.prefix_refl _, fun q hq => absurd hq (Nat.not_lt_zero q)⟩
  rw [plainLocations, firstOccurrence_of_leftmost hne hleftmost]
  simp [plainLocations]

theorem scannable_of_locations (live : Live contentHash isWord options source chars)
    (h : (structuralMessageLocations ⟨contentHash, source⟩ sourceSegmentBytes [chars]).toOption =
      plainLocations (encodeChars chars) [encodeChars chars] 0) :
    Scannable chars source sourceSegmentBytes := by
  by_cases hempty : encodeChars chars = []
  · have hzero : byteLength chars = 0 := congrArg List.length hempty
    have hnone : ∀ start, ¬ ReadsAt chars sourceSegmentBytes 0 start := by
      intro start
      rw [← hzero]
      exact readsAt_end
    refine ⟨by omega, fun start hstart => absurd hstart (hnone start),
      fun start hstart => absurd hstart (hnone start), fun chunk _ hmark => ?_⟩
    have := hmark.next.le
    omega
  rw [plainLocations_self hempty, structuralMessageLocations] at h
  simp only [List.map_cons, List.map_nil, List.filter_cons, hempty, decide_false,
    Bool.false_eq_true, List.filter_nil, if_false, ne_eq, not_true_eq_false, List.cons_ne_nil,
    live.byteLength_eq] at h
  cases hscan : scanReads ⟨contentHash, source⟩ sourceSegmentBytes
      (min (byteLength chars) MAX_STRUCTURAL_SOURCE_SCAN_BYTES_PER_DOCUMENT)
      (min (byteLength chars) MAX_STRUCTURAL_SOURCE_SCAN_BYTES_PER_DOCUMENT) 0
      ⟨[], [encodeChars chars], 0⟩ with
  | error e =>
    rw [hscan] at h
    cases h
  | ok scan =>
    rw [hscan] at h
    simp only [Bind.bind, Except.bind] at h
    split at h
    · next hdone =>
      obtain ⟨-, hwhole, hreads, hchunks⟩ := exact_of_scanReads live (Nat.min_le_left _ _) rfl
        (.nil _) (Nat.le_refl _) (IsCut.zero chars) hscan hdone
      exact ⟨by omega, fun start hstart => (hreads start hstart).1,
        fun start hstart => (hreads start hstart).2,
        fun chunk hchunk => hchunks chunk hchunk (Nat.zero_le _)⟩
    · split at h <;> cases h

/-- The messages of a live document are located as by a search in the whole text, whatever they are,
just where every byte of the text is read. -/
theorem structural_locations_plain_iff (live : Live contentHash isWord options source chars)
    (sourceSegmentBytes : Nat) :
    (∀ messages : List (List Char),
      (structuralMessageLocations ⟨contentHash, source⟩ sourceSegmentBytes messages).toOption =
        plainLocations (encodeChars chars) (messages.map encodeChars) 0) ↔
    Scannable chars source sourceSegmentBytes :=
  ⟨fun h => scannable_of_locations live (h [chars]), fun h => h.locations live⟩

theorem structural_locations_plain_iff_example :
    (∀ messages : List (List Char),
      (structuralMessageLocations ⟨plainDigest, Recall.smallSource Recall.markedText⟩ 4
        messages).toOption =
          plainLocations (encodeChars Recall.markedText) (messages.map encodeChars) 0) ↔
    Scannable Recall.markedText (Recall.smallSource Recall.markedText) 4 :=
  structural_locations_plain_iff Recall.live_markedText 4

/-- The text begins with a mark, and what is behind it is located three bytes too early. -/
theorem message_behind_mark_misplaced :
    Live plainDigest Recall.isAsciiWord Recall.defaultWindowOptions
        (Recall.smallSource Recall.markedText) Recall.markedText ∧
      structuralMessageLocations ⟨plainDigest, Recall.smallSource Recall.markedText⟩ 4 [['a']] =
        .ok [⟨0, 1⟩] ∧
      plainLocations (encodeChars Recall.markedText) [encodeChars ['a']] 0 = some [⟨3, 4⟩] :=
  ⟨Recall.live_markedText, rfl, rfl⟩

end Reads

end ContextStore.Postings
