import ContextStore.Postings.ExactResolution
import ContextStore.Postings.Occurrences
import ContextStore.Postings.Serializer

/-! # Blocks of what is indexed

What the store lets in as a document bounds every field of the postings that are made of it, so that
each of them is written as a block, is read back from it, and gives the places that have been
recorded. -/

namespace ContextStore.Postings

open Unicode Outcomes Block
open Concurrent (bind_ok_iff)
open KeyEncoding (KeyField)
open Segments (segments)
open Recall (Window windowForByteRange windowsForByteRange)

/-! ## What the store lets in -/

def MAX_STORE_IDENTIFIER_LENGTH : Nat := 8192

def MAX_SOURCE_MESSAGE_KEYS_PER_DOCUMENT : Nat := 256

def TYPE_SPECIFICITY : List (Text × ℚ) :=
  [(text "error", 1), (text "path", 99 / 100), (text "commit", 98 / 100),
    (text "quoted-value", 96 / 100), (text "symbol", 94 / 100), (text "dotted-name", 92 / 100),
    (text "url", 91 / 100), (text "value", 88 / 100)]

/-- The bounds of the schema of documents. -/
structure Manifest.Valid (manifest : Manifest) : Prop where
  identifiers : ∀ value ∈ [manifest.project, manifest.sessionId, manifest.documentId,
    manifest.kind, manifest.sourceKey], value.length ≤ MAX_STORE_IDENTIFIER_LENGTH
  sourceKeyStatus : ∀ status ∈ manifest.sourceKeyStatus,
    status ∈ [text "preserved", text "unavailable"]
  sourceMessageKeys : manifest.sourceMessageKeys.length ≤ MAX_SOURCE_MESSAGE_KEYS_PER_DOCUMENT ∧
    ∀ key ∈ manifest.sourceMessageKeys, key.length ≤ MAX_STORE_IDENTIFIER_LENGTH
  version : FitsNat manifest.version
  createdAt : FitsNat manifest.createdAt

/-- The numbers of a window are safe integers. -/
structure WindowFits (window : Window) : Prop where
  ordinal : FitsNat window.ordinal
  startByte : FitsNat window.startByte
  endByte : FitsNat window.endByte

/-- What `anchorRecord` makes of a value; `maxAnchorBytes` is at most 4096. -/
structure Anchor.Recorded (anchor : Anchor) : Prop where
  type : (anchor.type, anchor.specificity) ∈ TYPE_SPECIFICITY
  value : (utf8 anchor.value).length ≤ 4096
  endByte : anchor.endByte = anchor.startByte + (utf8 anchor.value).length
  safe : FitsNat anchor.endByte

/-! ## Bounds of texts -/

theorem byteLength_le (chars : List Char) : byteLength chars ≤ 4 * chars.length := by
  induction chars with
  | nil => exact Nat.le_refl _
  | cons c rest ih =>
    have := Char.utf8Size_le_four c
    rw [byteLength_cons, List.length_cons]
    omega

theorem length_codePoints_le (value : Text) : (codePoints value).length ≤ value.length := by
  induction value using codePoints.induct with
  | case1 => exact Nat.le_refl _
  | case2 u => exact Nat.le_refl _
  | case3 u v rest hpair ih =>
    rw [codePoints, if_pos hpair]
    simp only [List.length_cons]
    omega
  | case4 u v rest hpair ih =>
    rw [codePoints, if_neg hpair]
    simp only [List.length_cons] at ih ⊢
    omega

theorem length_utf8_le (value : Text) : (utf8 value).length ≤ 4 * value.length :=
  Nat.le_trans (byteLength_le (codePoints value))
    (Nat.mul_le_mul_left 4 (length_codePoints_le value))

theorem fitsText_of_length {value : Text} (h : value.length ≤ MAX_STORE_IDENTIFIER_LENGTH) :
    FitsText value := by
  have hlength := length_utf8_le value
  rw [FitsText, MAX_STRING_BYTES]
  rw [MAX_STORE_IDENTIFIER_LENGTH] at h
  omega

theorem fitsText_term {term : List Char} (h : term.length ≤ MAX_BM25_TERM_CODE_POINTS) :
    FitsText (codeUnits term) := by
  have hlength := byteLength_le term
  rw [FitsText, utf8, codePoints_codeUnits, MAX_STRING_BYTES]
  rw [MAX_BM25_TERM_CODE_POINTS] at h
  rw [byteLength] at hlength
  omega

theorem fitsText_of_encodeKey {key : List KeyField} {encoded : List UInt8} {value : Text}
    (h : encodeKey key = .ok encoded) (hmem : KeyField.string value ∈ key) : FitsText value := by
  obtain ⟨hencodable, -⟩ := encodeKey_eq_ok.mp h
  have hword : (KeyEncoding.KeyField.word (.string value)).length ≤
      (key.flatMap KeyEncoding.KeyField.word).length :=
    (List.sublist_flatten_of_mem (List.mem_map_of_mem hmem)).length_le
  have hsize := hencodable.size
  rw [KeyEncoding.tupleBytes, List.length_cons, KeyEncoding.MAX_KEY_BYTES] at hsize
  rw [KeyEncoding.KeyField.word, List.length_cons, List.length_append] at hword
  rw [FitsText, MAX_STRING_BYTES]
  omega

theorem FitsNat.mono {n m : Nat} (h : FitsNat m) (hle : n ≤ m) : FitsNat n :=
  Int.le_trans (Int.ofNat_le.mpr hle) h

theorem fitsNat_of_le {n : Nat} (h : n ≤ MAX_BM25_TOKENS_PER_WINDOW) : FitsNat n := by
  have hmax : FitsNat MAX_BM25_TOKENS_PER_WINDOW := by
    unfold FitsNat
    decide
  exact hmax.mono h

section Manifest

variable {manifest : Manifest} (h : manifest.Valid)

include h

theorem Manifest.Valid.fits {value : Text} (hvalue : value ∈ [manifest.project,
    manifest.sessionId, manifest.documentId, manifest.kind, manifest.sourceKey]) :
    FitsText value := fitsText_of_length (h.identifiers value hvalue)

theorem Manifest.Valid.fits_sourceMessageKeys : FitsTexts manifest.sourceMessageKeys := by
  obtain ⟨hlength, hkeys⟩ := h.sourceMessageKeys
  refine ⟨Nat.le_trans hlength (by decide), fun key hkey => ?_⟩
  exact fitsText_of_length (hkeys key hkey)

theorem Manifest.Valid.fits_sourceKeyStatus : FitsNullable manifest.sourceKeyStatus := by
  intro status hstatus
  have hlisted := h.sourceKeyStatus status hstatus
  have hshort : ∀ status ∈ [text "preserved", text "unavailable"],
      status.length ≤ MAX_STORE_IDENTIFIER_LENGTH := by decide
  exact fitsText_of_length (hshort status hlisted)

end Manifest

theorem fits_semanticIdentifier (value : Option Text) :
    FitsNullable (semanticIdentifier value) := by
  intro found hfound
  rw [semanticIdentifier, Option.filter_eq_some_iff] at hfound
  simp only [Bool.and_eq_true, decide_eq_true_eq] at hfound
  exact fitsText_of_length hfound.2.2

/-- The turn of a document, from either of its two fields. -/
theorem fits_turnId (manifest : Manifest) : FitsNullable
    ((semanticIdentifier manifest.sourceTurnId).or (semanticIdentifier manifest.turnId)) := by
  intro found hfound
  rcases Option.or_eq_some_iff.mp hfound with hsource | hturn
  · exact fits_semanticIdentifier _ found hsource
  · exact fits_semanticIdentifier _ found hturn.2

/-! ## Postings of terms -/

variable (v8 : V8)

/-- The posting is written, is read back, and gives its places. -/
structure Bm25Posting.RoundTrips (posting : Bm25Posting) (positions : List Position) : Prop where
  block : ∃ bytes, encodeBm25PostingBlock v8 posting = .ok bytes ∧
    decodeBm25PostingBlock v8 bytes = .ok posting
  positions : postingPositions posting.window = .ok positions

theorem InWindow.places_le {window : Window} {tokens : List Bm25Token}
    (h : InWindow window tokens) (term : List Char) :
    ∀ position ∈ places tokens term, position.position ≤ max window.startByte window.endByte ∧
      position.startByte ≤ max window.startByte window.endByte ∧
      position.endByte ≤ max window.startByte window.endByte := by
  obtain ⟨position, htokens⟩ := h.within
  intro place hplace
  obtain ⟨token, htoken, rfl⟩ := List.mem_map.mp hplace
  obtain ⟨-, hend, hstop, hposition⟩ := htokens.within token (List.mem_filter.mp htoken).1
  have hpositions := htokens.positions
  simp only [Bm25Token.place]
  omega

section Terms

variable {manifest : Manifest} {generation : Nat} {window : Window} {tokens : List Bm25Token}
  {term : List Char} {weight : Nat → ℚ}

theorem bm25Posting_fits (hmanifest : manifest.Valid) (hgeneration : FitsNat generation)
    (hwindow : WindowFits window) (htokens : InWindow window tokens)
    (hterm : term.length ≤ MAX_BM25_TERM_CODE_POINTS) :
    (bm25Posting manifest generation term
      (windowPosting weight window tokens (places tokens term))).Fits
        (gapsFrom 0 window.startByte (places tokens term)) where
  bm25PostingVersion := fitsNat_of_le (show BM25_INDEX_VERSION ≤ _ by decide)
  tokenizerVersion := fitsNat_of_le (show BM25_TOKENIZER_VERSION ≤ _ by decide)
  generation := hgeneration
  documentVersion := hmanifest.version
  createdAt := hmanifest.createdAt
  bucket := hmanifest.createdAt.mono (Nat.div_le_self _ _)
  project := hmanifest.fits (by simp [bm25Posting])
  term := fitsText_term hterm
  documentId := hmanifest.fits (by simp [bm25Posting])
  kind := hmanifest.fits (by simp [bm25Posting])
  sessionId := hmanifest.fits (by simp [bm25Posting])
  sourceMessageKeys := hmanifest.fits_sourceMessageKeys
  turnId := fits_turnId manifest
  ordinal := hwindow.ordinal
  startByte := hwindow.startByte
  endByte := hwindow.endByte
  length := fitsNat_of_le htokens.bounded
  termFrequency := by
    have hle : (places tokens term).length ≤ tokens.length := by
      rw [places, List.length_map]
      exact List.length_filter_le _ _
    exact fitsNat_of_le (Nat.le_trans hle htokens.bounded)
  positions := congrArg Positions.deltas (deltasFrom_eq (htokens.ascending term))
  bounded := by
    have hle : (places tokens term).length ≤ tokens.length := by
      rw [places, List.length_map]
      exact List.length_filter_le _ _
    have hbounded := htokens.bounded
    rw [length_gapsFrom, MAX_COLLECTION_ITEMS]
    rw [MAX_BM25_TOKENS_PER_WINDOW] at hbounded
    omega
  deltas := by
    intro gap hgap
    have hmax : FitsNat (max window.startByte window.endByte) := by
      rcases Nat.le_total window.startByte window.endByte with hle | hle
      · rw [Nat.max_eq_right hle]
        exact hwindow.endByte
      · rw [Nat.max_eq_left hle]
        exact hwindow.startByte
    exact hmax.mono (gapsFrom_le (htokens.places_le term) gap hgap)

theorem bm25Posting_roundTrips (hmanifest : manifest.Valid) (hgeneration : FitsNat generation)
    (hwindow : WindowFits window) (htokens : InWindow window tokens)
    (hterm : term.length ≤ MAX_BM25_TERM_CODE_POINTS) :
    (bm25Posting manifest generation term
      (windowPosting weight window tokens (places tokens term))).RoundTrips v8
        (places tokens term) := by
  have hfits : (bm25Posting manifest generation term
      (windowPosting weight window tokens (places tokens term))).Fits
        (gapsFrom 0 window.startByte (places tokens term)) :=
    bm25Posting_fits hmanifest hgeneration hwindow htokens hterm
  have hfound : (windowPosting weight window tokens (places tokens term)).positions =
      .found (places tokens term) := rfl
  exact ⟨⟨_, encodeBm25PostingBlock_eq v8 hfits, decodeBm25PostingBlock_fields v8 hfits⟩,
    postingPositions_storedPostingWindow hfound⟩

end Terms

/-- The windows that are recorded of a document, with their terms, are written and read back. -/
def Analysis.RoundTrips (manifest : Manifest) (generation : Nat)
    (tokensOf : Window → Except IndexError (List Bm25Token)) (windows : List Window)
    (analysis : Analysis) : Prop :=
  ∀ entry ∈ analysis.termPostings.entries, ∀ recorded ∈ entry.2, ∃ window ∈ windows, ∃ tokens,
    tokensOf window = .ok tokens ∧ recorded.positions = .found (places tokens entry.1) ∧
      (bm25Posting manifest generation entry.1 recorded).RoundTrips v8 (places tokens entry.1)

theorem RecordedFrom.roundTrips {manifest : Manifest} {generation : Nat} {windows : List Window}
    {tokensOf : Window → Except IndexError (List Bm25Token)} {weight : Nat → ℚ}
    {analysis : Analysis} (h : RecordedFrom weight tokensOf windows analysis.termPostings)
    (hmanifest : manifest.Valid) (hgeneration : FitsNat generation)
    (hwindows : ∀ window ∈ windows, WindowFits window)
    (htokens : ∀ window tokens, tokensOf window = .ok tokens → InWindow window tokens) :
    analysis.RoundTrips v8 manifest generation tokensOf windows := by
  intro entry hentry recorded hrecorded
  obtain ⟨window, hwindow, tokens, hok, ⟨token, htoken, hterm⟩, rfl⟩ := h entry.1 entry.2
    (InsertionMap.get_eq_some_iff.mpr hentry) recorded hrecorded
  have hin := htokens window tokens hok
  obtain ⟨position, hwithin⟩ := hin.within
  have hlength := hwithin.terms token htoken
  rw [hterm] at hlength
  exact ⟨window, hwindow, tokens, hok, rfl, bm25Posting_roundTrips v8 hmanifest hgeneration
    (hwindows window hwindow) hin hlength⟩

/-! ## Postings of exact values -/

theorem mem_of_windowForByteRange {windows : List Window} {startByte endByte : Nat}
    {window : Window} (h : windowForByteRange windows startByte endByte = .ok (some window)) :
    window ∈ windows := by
  rw [windowForByteRange] at h
  obtain ⟨intersecting, hintersecting, h⟩ := bind_ok_iff.mp h
  have hsub : ∀ one ∈ intersecting, one ∈ windows := by
    intro one hone
    rw [windowsForByteRange] at hintersecting
    split at hintersecting
    · cases hintersecting
    · split at hintersecting
      · cases hintersecting
      · split at hintersecting
        · cases hintersecting
        · cases hintersecting
          obtain ⟨placed, hplaced, rfl⟩ := List.mem_map.mp hone
          exact List.fst_mem_of_mem_zipIdx (List.mem_filter.mp hplaced).1
  rcases Option.or_eq_some_iff.mp (Except.ok.inj h) with hfound | hhead
  · obtain ⟨placed, hplaced, rfl⟩ := Option.map_eq_some_iff.mp hfound
    exact hsub _ (List.fst_mem_of_mem_zipIdx (List.mem_of_find?_eq_some hplaced))
  · exact hsub _ (List.mem_of_head? hhead.2)

/-- The groups are of windows and values of the document. -/
def Planning.Drawn (windows : List Window) (anchors : List Anchor) (planning : Planning) : Prop :=
  ∀ identity group, planning.groups.get identity = some group →
    group.window ∈ windows ∧ ∀ one ∈ group.found, ∃ anchor ∈ anchors, one = anchor.found

section Exact

variable {casing : Casing} {context : ExactContext} {bucket : Nat} {planning next : Planning}
  {anchors : List Anchor} {window : Window}

theorem Planning.Drawn.mode (h : planning.Drawn context.windows anchors)
    (hwindow : window ∈ context.windows) {anchor : Anchor} (hanchor : anchor ∈ anchors)
    {mode : Mode}
    (hok : planMode context bucket window anchor.found planning mode = .ok next) :
    next.Drawn context.windows anchors := by
  obtain ⟨key, identity, -, -, rfl⟩ := planMode_eq_ok hok
  have hgroup : (planning.group identity (freshGroup key mode window)).window ∈ context.windows ∧
      ∀ one ∈ (planning.group identity (freshGroup key mode window)).found,
        ∃ anchor ∈ anchors, one = anchor.found := by
    rw [Planning.group]
    cases hget : planning.groups.get identity with
    | none =>
      refine ⟨hwindow, fun one hone => ?_⟩
      cases hone
    | some group => exact h identity group hget
  intro other group hget
  rcases planning.enter_cases identity (freshGroup key mode window) anchor.found with
    ⟨-, hgroups, -⟩ | ⟨-, hgroups, -⟩
  · rw [hgroups] at hget
    exact h other group hget
  · rw [hgroups, InsertionMap.get_set] at hget
    split at hget
    · cases hget
      refine ⟨hgroup.1, fun one hone => ?_⟩
      rcases List.mem_append.mp hone with hone | hone
      · exact hgroup.2 one hone
      · exact ⟨anchor, hanchor, List.mem_singleton.mp hone⟩
    · exact h other group hget

theorem Planning.Drawn.mono (h : planning.Drawn context.windows anchors) {more : List Anchor}
    (hsub : ∀ anchor ∈ anchors, anchor ∈ more) : planning.Drawn context.windows more := by
  intro identity group hget
  obtain ⟨hwindow, hfound⟩ := h identity group hget
  refine ⟨hwindow, fun one hone => ?_⟩
  obtain ⟨anchor, hanchor, hone⟩ := hfound one hone
  exact ⟨anchor, hsub anchor hanchor, hone⟩

theorem Planning.Drawn.planAnchor (h : planning.Drawn context.windows anchors)
    {anchor : Anchor} (hanchor : anchor ∈ anchors)
    (hok : planAnchor casing context bucket planning anchor = .ok next) :
    next.Drawn context.windows anchors := by
  rw [Postings.planAnchor] at hok
  obtain ⟨window, hwindow, hok⟩ := bind_ok_iff.mp hok
  cases window with
  | none => cases hok
  | some window =>
    have hmem := mem_of_windowForByteRange (failsAs_eq_ok.mp hwindow)
    have hround : ∀ (done : List Mode) mode planning next,
        Planning.Drawn context.windows anchors planning →
        planMode context bucket window anchor.found planning mode = .ok next →
        Planning.Drawn context.windows anchors next :=
      fun _ mode planning next hinv hstep => hinv.mode hmem hanchor hstep
    exact @foldlM_invariant _ _ _ _ _ hround [] _ _ _ h hok

theorem planGroups_drawn (hok : planGroups casing context bucket anchors = .ok planning) :
    planning.Drawn context.windows anchors := by
  have hround : ∀ (done : List Anchor) anchor planning next,
      Planning.Drawn context.windows done planning →
      planAnchor casing context bucket planning anchor = .ok next →
      Planning.Drawn context.windows (done ++ [anchor]) next := by
    intro done anchor planning next hinv hstep
    exact (hinv.mono fun one hone => List.mem_append_left _ hone).planAnchor
      (List.mem_append_right _ List.mem_cons_self) hstep
  have hempty : Planning.empty.Drawn context.windows [] := by
    intro identity group hget
    cases hget
  have hall := foldlM_invariant _ hround hempty hok
  exact hall.mono fun anchor hanchor => (List.mergeSort_perm _ _).mem_iff.mp hanchor

theorem Anchor.Recorded.fits {anchor : Anchor} (h : anchor.Recorded) : anchor.found.Fits where
  type := by
    have hshort : ∀ entry ∈ TYPE_SPECIFICITY, entry.1.length ≤ MAX_STORE_IDENTIFIER_LENGTH := by
      decide
    exact fitsText_of_length (hshort _ h.type)
  value := Nat.le_trans h.value (by decide)
  startByte := h.safe.mono (by rw [h.endByte]; exact Nat.le_add_right _ _)
  endByte := h.safe

/-- What is planned for a group is in bounds. -/
theorem Group.At.fits {identity : List UInt8} {group : Group}
    (h : group.At casing context bucket identity) (hmanifest : context.manifest.Valid)
    (hwindow : WindowFits group.window) (hfound : ∀ one ∈ group.found, one.Fits)
    {segment : List Match} (hsegment : segment ∈ segments MAX_MATCHES_PER_POSTING group.sorted) :
    (group.posting context bucket segment).Fits := by
  obtain ⟨hkey, hfields⟩ := postingKey_eq_ok.mp h.key
  have hterm : KeyField.string group.term ∈ group.key := by
    rw [hfields]
    simp [postingFields]
  have hmode : KeyField.string group.caseMode ∈ group.key := by
    rw [hfields]
    simp [postingFields]
  have hlength : segment.length ≤ MAX_MATCHES_PER_POSTING :=
    Segments.length_le_of_mem_segments hsegment
  exact {
    postingVersion := fitsNat_of_le (show EXACT_POSTING_VERSION ≤ _ by decide)
    generation := hkey.generation
    sourceVersion := hmanifest.version
    bucket := hkey.bucket
    createdAt := hmanifest.createdAt
    documentVersion := hmanifest.version
    windowOrdinal := hwindow.ordinal
    windowStartByte := hwindow.startByte
    windowEndByte := hwindow.endByte
    project := hmanifest.fits (by simp [Group.posting])
    sessionId := hmanifest.fits (by simp [Group.posting])
    documentId := hmanifest.fits (by simp [Group.posting])
    documentKind := hmanifest.fits (by simp [Group.posting])
    sourceKey := hmanifest.fits (by simp [Group.posting])
    sourceKeyStatus := hmanifest.fits_sourceKeyStatus
    sourceMessageKeys := hmanifest.fits_sourceMessageKeys
    turnId := fits_turnId context.manifest
    caseMode := fitsText_of_encodeKey h.encoded hmode
    normalizedTerm := fitsText_of_encodeKey h.encoded hterm
    bounded := Nat.le_trans hlength (by decide)
    exactMatches := by
      intro one hone
      have hmem := (Segments.sublist_of_mem_segments hsegment).subset hone
      exact hfound one ((sorted_perm group).mem_iff.mp hmem) }

theorem fullMutations_fits (hmanifest : context.manifest.Valid)
    (hwindows : ∀ window ∈ context.windows, WindowFits window)
    (hanchors : ∀ anchor ∈ anchors, anchor.Recorded)
    (hok : planGroups casing context bucket anchors = .ok planning) :
    ∀ mutation ∈ planning.fullMutations context bucket, mutation.payload.Fits := by
  intro mutation hmutation
  simp only [Planning.fullMutations, List.mem_flatMap, InsertionMap.mem_values] at hmutation
  obtain ⟨group, ⟨identity, hget⟩, hmutation⟩ := hmutation
  obtain ⟨numbered, hnumbered, rfl⟩ := List.mem_map.mp hmutation
  obtain ⟨hwindow, hfound⟩ := planGroups_drawn hok identity group hget
  refine ((planGroups_sound hok).placed identity group hget).1.fits hmanifest
    (hwindows _ hwindow) (fun one hone => ?_) (List.fst_mem_of_mem_zipIdx hnumbered)
  obtain ⟨anchor, hanchor, rfl⟩ := hfound one hone
  exact (hanchors anchor hanchor).fits

end Exact

/-- The posting is written, and is read back. -/
def ExactPosting.RoundTrips (posting : ExactPosting) : Prop :=
  ∃ bytes, encodeExactPostingBlock v8 posting = .ok bytes ∧
    decodeExactPostingBlock v8 bytes = .ok posting

theorem ExactPosting.Fits.roundTrips {posting : ExactPosting} (h : posting.Fits) :
    posting.RoundTrips v8 :=
  ⟨_, encodeExactPostingBlock_eq v8 h, decodeExactPostingBlock_fields v8 h⟩

/-! ## Neither kind is read as the other -/

theorem decodeBlock_type {bytes : List UInt8} {expectedType : UInt8} {expectedFields : Nat}
    {fields : List JsValue} (h : decodeBlock v8 bytes expectedType expectedFields = .ok fields) :
    bytes.getD 9 0 = expectedType := by
  unfold decodeBlock at h
  split at h
  · cases h
  · split at h
    · cases h
    · split at h
      · cases h
      · rename_i htype
        exact not_not.mp htype

theorem decode_exclusive {bytes : List UInt8} {terms : Bm25Posting} {exact : ExactPosting}
    (hterms : decodeBm25PostingBlock v8 bytes = .ok terms)
    (hexact : decodeExactPostingBlock v8 bytes = .ok exact) : False := by
  rw [decodeBm25PostingBlock] at hterms
  rw [decodeExactPostingBlock] at hexact
  obtain ⟨_, hterms, -⟩ := bind_ok_iff.mp hterms
  obtain ⟨_, hexact, -⟩ := bind_ok_iff.mp hexact
  have hsame := (decodeBlock_type v8 hterms).symm.trans (decodeBlock_type v8 hexact)
  exact absurd hsame (by decide)

/-- Every posting that is made of a document is written as a block and read back as it was, the
places of its terms are those of the tokens, and no block is read as of both kinds. -/
theorem posting_blocks_round_trip (manifest : Manifest) (hmanifest : manifest.Valid)
    (generation : Nat) (hgeneration : FitsNat generation) (windows : List Window)
    (hwindows : ∀ window ∈ windows, WindowFits window) :
    (∀ lexicon chars analysis, analyzeDocument lexicon chars windows = .ok analysis →
      analysis.RoundTrips v8 manifest generation (windowTokens lexicon chars) windows) ∧
    (∀ lexicon reader sourceSegmentBytes fieldRanges analysis,
      analyzeDocumentFromRanges lexicon reader sourceSegmentBytes fieldRanges windows =
        .ok analysis →
      analysis.RoundTrips v8 manifest generation
        (rangeTokens lexicon reader sourceSegmentBytes) windows) ∧
    (∀ casing bucket anchors planning, (∀ anchor ∈ anchors, anchor.Recorded) →
      planGroups casing ⟨manifest, generation, windows⟩ bucket anchors = .ok planning →
      ∀ mutation ∈ planning.fullMutations ⟨manifest, generation, windows⟩ bucket,
        mutation.payload.RoundTrips v8) ∧
    ∀ bytes terms exact, decodeBm25PostingBlock v8 bytes = .ok terms →
      decodeExactPostingBlock v8 bytes ≠ .ok exact := by
  refine ⟨?_, ?_, ?_, ?_⟩
  · intro lexicon chars analysis hok
    exact (analyzeDocument_recorded hok).roundTrips v8 hmanifest hgeneration hwindows
      fun window tokens => windowTokens_inWindow
  · intro lexicon reader sourceSegmentBytes fieldRanges analysis hok
    exact (analyzeDocumentFromRanges_recorded hok).roundTrips v8 hmanifest hgeneration hwindows
      fun window tokens => rangeTokens_inWindow
  · intro casing bucket anchors planning hanchors hok mutation hmutation
    have hfits : mutation.payload.Fits :=
      fullMutations_fits hmanifest hwindows hanchors hok mutation hmutation
    exact hfits.roundTrips v8
  · intro bytes terms exact hterms hexact
    exact decode_exclusive v8 hterms hexact

section Sample

/-- A lexicon that knows of ASCII alone. -/
def asciiLexicon : Lexicon where
  isWord := Char.isAlphanum
  normalize := id
  toLowerCase := List.map Char.toLower

/-- A word of two pieces, and another. -/
def sampleChars : List Char := ['f', 'o', 'B', 'a', ' ', 'a']

def sampleWindows : List Window := [⟨0, 0, 6⟩]

def sampleManifest : Manifest where
  project := text "p"
  sessionId := text "s"
  documentId := text "d"
  version := 1
  kind := text "turn"
  createdAt := 3600000
  sourceKey := text "k"
  sourceKeyStatus := none
  sourceMessageKeys := []
  sourceTurnId := none
  turnId := none

theorem sampleManifest_valid : sampleManifest.Valid where
  identifiers := by decide
  sourceKeyStatus := by simp [sampleManifest]
  sourceMessageKeys := by decide
  version := by
    unfold FitsNat
    decide
  createdAt := by
    unfold FitsNat
    decide

/-- The word, its two pieces and the other word are recorded, the first three in one place. -/
theorem posting_blocks_sample : ∃ analysis,
    analyzeDocument asciiLexicon sampleChars sampleWindows = .ok analysis ∧
      analysis.termPostings.entries.length = 4 ∧
      analysis.RoundTrips PlainSerializer.v8 sampleManifest 1
        (windowTokens asciiLexicon sampleChars) sampleWindows := by
  have hfour : (analyzeDocument asciiLexicon sampleChars sampleWindows).toOption.map
      (fun analysis => analysis.termPostings.entries.length) = some 4 := by decide +kernel
  obtain ⟨analysis, hanalysis, hlength⟩ := Option.map_eq_some_iff.mp hfour
  have hok : analyzeDocument asciiLexicon sampleChars sampleWindows = .ok analysis := by
    cases hresult : analyzeDocument asciiLexicon sampleChars sampleWindows with
    | error error => rw [hresult] at hanalysis; cases hanalysis
    | ok found => rw [hresult] at hanalysis; cases hanalysis; rfl
  have hwindows : ∀ window ∈ sampleWindows, WindowFits window := by
    intro window hwindow
    rw [List.mem_singleton.mp hwindow]
    constructor <;> unfold FitsNat <;> decide
  have hgeneration : FitsNat 1 := by
    unfold FitsNat
    decide
  exact ⟨analysis, hok, hlength, (posting_blocks_round_trip PlainSerializer.v8 sampleManifest
    sampleManifest_valid 1 hgeneration sampleWindows hwindows).1 asciiLexicon sampleChars analysis
    hok⟩

end Sample

end ContextStore.Postings
