import ContextStore.Archive.Binding

/-! # The parts of a text

The parts of a text lie end to end, each with the bytes of its own text and their digest, and
together they make up the text (`splitExactParts_eq_ok`): every round of the loop cuts at the end
or between two characters. -/

namespace ContextStore.Archive

open Unicode Concurrent

variable {S : Setting}

/-- The parts lie end to end from `cursor` to `last` and are numbered from `ordinal`. -/
def Laid : Nat → Nat → Nat → List PartCoordinates → Prop
  | _, cursor, last, [] => cursor = last
  | ordinal, cursor, last, part :: rest =>
    part.ordinal = ordinal ∧ part.startByte = cursor ∧ cursor ≤ part.endByte ∧
      part.byteCount = part.endByte - cursor ∧ Laid (ordinal + 1) part.endByte last rest

theorem Laid.endByte_le {parts : List PartCoordinates} {ordinal cursor last : Nat}
    (h : Laid ordinal cursor last parts) : cursor ≤ last ∧ ∀ part ∈ parts, part.endByte ≤ last := by
  induction parts generalizing ordinal cursor with
  | nil =>
    have hsame : cursor = last := h
    simp [hsame]
  | cons part rest ih =>
    obtain ⟨-, -, hle, -, hrest⟩ := h
    obtain ⟨hend, hall⟩ := ih hrest
    refine ⟨hle.trans hend, ?_⟩
    intro other hother
    rcases List.mem_cons.mp hother with rfl | hmem
    · exact hend
    · exact hall other hmem

/-- A part carries the bytes of its own text. -/
structure PlannedPart.Exact (S : Setting) (part : PlannedPart) : Prop where
  hash : part.hash = S.sha256 (utf8 part.text)
  byteCount : part.byteCount = (utf8 part.text).length
  bounded : part.byteCount ≤ partPayloadMaxBytes S
  wellFormed : isWellFormed part.text = true

variable {bytes : List UInt8} {parts : List PlannedPart}

theorem boundary_not_continuation {floor candidate : Nat}
    (hfloor : floor < utf8BoundaryAtOrBefore bytes floor candidate)
    (hlength : utf8BoundaryAtOrBefore bytes floor candidate < bytes.length) :
    isContinuation bytes (utf8BoundaryAtOrBefore bytes floor candidate) = false := by
  induction candidate with
  | zero => simp [utf8BoundaryAtOrBefore] at hfloor
  | succ boundary ih =>
    rw [utf8BoundaryAtOrBefore] at hfloor hlength ⊢
    split at hfloor
    · next hback =>
      rw [if_pos hback] at hlength ⊢
      exact ih hfloor hlength
    · next hstop =>
      rw [if_neg hstop] at hlength ⊢
      by_contra hcontinuation
      rw [Bool.not_eq_false] at hcontinuation
      exact hstop ⟨hfloor, hlength, hcontinuation⟩

/-- Where a round of the loop cuts: at the end of the text or between two characters. -/
theorem exists_payload {cs : List Char} {startByte endByte : Nat}
    (hcs : encodeChars cs = bytes.drop startByte) (hstart : startByte ≤ endByte)
    (hend : endByte ≤ bytes.length)
    (hcut : endByte < bytes.length → isContinuation bytes endByte = false) :
    ∃ chars rest, encodeChars chars = subarray bytes startByte endByte ∧
      encodeChars rest = bytes.drop endByte := by
  have hlength : (encodeChars cs).length = bytes.length - startByte := by
    rw [hcs, List.length_drop]
  have hboundary : ∀ b, (encodeChars cs)[endByte - startByte]? = some b →
      isContinuationByte b = false := by
    intro b hb
    rw [hcs, List.getElem?_drop, show startByte + (endByte - startByte) = endByte by omega] at hb
    have hlt : endByte < bytes.length := (List.getElem?_eq_some_iff.mp hb).1
    have hfalse := hcut hlt
    rw [isContinuation, hb] at hfalse
    exact hfalse
  obtain ⟨chars, rest, hsplit, htake⟩ := exists_cut (by omega) hboundary
  refine ⟨chars, rest, ?_, ?_⟩
  · rw [htake, hcs]
    rfl
  · have hboth : encodeChars chars ++ encodeChars rest = bytes.drop startByte := by
      rw [← encodeChars_append, ← hsplit, hcs]
    have hdrop := congrArg (List.drop (endByte - startByte)) hboth
    rw [List.drop_drop, show startByte + (endByte - startByte) = endByte by omega] at hdrop
    rw [← hdrop, List.drop_append_of_le_length (by rw [htake, List.length_take]; omega),
      List.drop_of_length_le (by rw [htake, List.length_take]; omega), List.nil_append]

theorem splitParts_eq_ok {fuel startByte ordinal : Nat} {cs : List Char}
    (hcs : encodeChars cs = bytes.drop startByte) (hstart : startByte ≤ bytes.length)
    (h : splitParts S bytes fuel startByte ordinal = .ok parts) :
    parts ≠ [] ∧ Laid ordinal startByte bytes.length (parts.map (·.toPartCoordinates)) ∧
      (∀ part ∈ parts, part.Exact S) ∧
      (parts.map fun part => utf8 part.text).flatten = bytes.drop startByte := by
  induction fuel generalizing startByte ordinal parts cs with
  | zero => cases h
  | succ fuel ih =>
    rw [splitParts] at h
    dsimp only at h
    -- Where this round ends.
    generalize hendByte : (if min bytes.length (startByte + partPayloadMaxBytes S) = bytes.length
      then min bytes.length (startByte + partPayloadMaxBytes S)
      else utf8BoundaryAtOrBefore bytes startByte
        (min bytes.length (startByte + partPayloadMaxBytes S))) = endByte at h
    split at h
    · cases h
    · next hprogress =>
      have hforward : startByte ≤ endByte ∧ (startByte < endByte ∨ bytes.length = 0) := by
        by_cases hempty : bytes.length = 0
        · omega
        · have hlt : ¬ endByte ≤ startByte := fun hle => hprogress ⟨hle, by omega⟩
          omega
      have hend : endByte ≤ bytes.length := by
        split at hendByte
        · omega
        · have hle := utf8BoundaryAtOrBefore_le bytes startByte
            (min bytes.length (startByte + partPayloadMaxBytes S))
          omega
      have hcut : endByte < bytes.length → isContinuation bytes endByte = false := by
        intro hlt
        split at hendByte
        · omega
        · subst hendByte
          exact boundary_not_continuation (by omega) hlt
      obtain ⟨chars, rest, hchars, hrest⟩ := exists_payload hcs hforward.1 hend hcut
      have htext : utf8 (decode (subarray bytes startByte endByte)) =
          subarray bytes startByte endByte := by
        rw [← hchars, decode_encodeChars, utf8_codeUnits]
      have hlength : (subarray bytes startByte endByte).length = endByte - startByte := by
        rw [subarray, List.length_take, List.length_drop]
        omega
      have hbound : endByte ≤ startByte + partPayloadMaxBytes S := by
        split at hendByte
        · omega
        · have hle := utf8BoundaryAtOrBefore_le bytes startByte
            (min bytes.length (startByte + partPayloadMaxBytes S))
          omega
      have hpart : PlannedPart.Exact S {
          ordinal, startByte, endByte, byteCount := (subarray bytes startByte endByte).length,
          hash := S.sha256 (subarray bytes startByte endByte),
          text := decode (subarray bytes startByte endByte) } :=
        ⟨congrArg S.sha256 htext.symm, congrArg List.length htext.symm,
          hlength.trans_le (by omega), isWellFormed_codeUnits _⟩
      split at h
      · next hmore =>
        obtain ⟨others, hothers, rfl⟩ := map_ok_iff.mp h
        obtain ⟨-, hlaid, hexact, hflatten⟩ := ih hrest hend hothers
        refine ⟨List.cons_ne_nil _ _, ⟨rfl, rfl, hforward.1, hlength, hlaid⟩, ?_, ?_⟩
        · intro part hmem
          rcases List.mem_cons.mp hmem with rfl | hmem
          · exact hpart
          · exact hexact part hmem
        · rw [List.map_cons, List.flatten_cons, hflatten]
          show utf8 (decode (subarray bytes startByte endByte)) ++ _ = _
          have hrest : bytes.drop endByte = (bytes.drop startByte).drop (endByte - startByte) := by
            rw [List.drop_drop, show startByte + (endByte - startByte) = endByte by omega]
          rw [htext, subarray, hrest, List.take_append_drop]
      · next hlast =>
        cases h
        have hwhole : endByte = bytes.length := by omega
        refine ⟨List.cons_ne_nil _ _, ⟨rfl, rfl, hforward.1, hlength, hwhole⟩, ?_, ?_⟩
        · intro part hmem
          rw [List.mem_singleton] at hmem
          subst hmem
          exact hpart
        · show utf8 (decode (subarray bytes startByte endByte)) ++ [] = _
          rw [htext, List.append_nil, subarray, hwhole, List.take_of_length_le]
          rw [List.length_drop]

theorem wellFormedText_eq_ok {value result : Text} {label : String}
    (h : wellFormedText value label = .ok result) :
    result = value ∧ isWellFormed value = true := by
  unfold wellFormedText at h
  split at h
  · next hwf => exact ⟨(Except.ok.inj h).symm, hwf⟩
  · cases h

theorem splitExactParts_eq_ok {value : Text} (h : splitExactParts S value = .ok (bytes, parts)) :
    bytes = utf8 value ∧ bytes.length ≤ maxSafeInteger ∧ parts ≠ [] ∧
      Laid 0 0 bytes.length (parts.map (·.toPartCoordinates)) ∧ (∀ part ∈ parts, part.Exact S) ∧
      (parts.map fun part => utf8 part.text).flatten = bytes := by
  simp only [splitExactParts, bind_ok_iff] at h
  obtain ⟨source, hsource, bytes', hbytes, parts', hparts, heq⟩ := h
  obtain ⟨rfl, rfl⟩ := Prod.mk.inj (Except.ok.inj heq)
  obtain ⟨rfl, -⟩ := wellFormedText_eq_ok hsource
  unfold bufferFrom at hbytes
  split at hbytes
  · next hle =>
    cases hbytes
    have hchars : encodeChars (codePoints source) = (utf8 source).drop 0 := rfl
    obtain ⟨hne, hlaid, hexact, hflatten⟩ := splitParts_eq_ok hchars (Nat.zero_le _) hparts
    exact ⟨rfl, hle, hne, hlaid, hexact, hflatten⟩
  · cases hbytes

end ContextStore.Archive
