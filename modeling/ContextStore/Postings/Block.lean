import ContextStore.Postings.Locator

/-! # Posting blocks

A posting is stored as a header and a serialized array of its fields. The two kinds of postings list
their fields in an order of their own, once to write and once to read them. -/

namespace ContextStore.Postings

open Unicode
open KeyEncoding (MAX_SAFE_INTEGER)
open Concurrent (bind_ok_iff map_ok_iff)

/-! ## Plain data -/

/-- A value that the runtime serializes; `other` is anything that no posting holds. -/
inductive JsValue where
  | number (value : ℚ)
  | string (value : Text)
  | null
  | array (items : List JsValue)
  | other

/-- The serializer of the runtime. It writes a version in front, and what it writes it reads. -/
structure V8 where
  serialize : JsValue → List UInt8
  deserialize : List UInt8 → Option JsValue
  serialize_ne_nil : ∀ value, serialize value ≠ []
  deserialize_serialize : ∀ value, deserialize (serialize value) = some value

namespace Block

def MAGIC : List UInt8 := [0x43, 0x57, 0x50, 0x42, 0x4c, 0x4b, 0x30, 0x31]

def FORMAT_VERSION : UInt8 := 1

def TYPE_BM25 : UInt8 := 1

def TYPE_EXACT : UInt8 := 2

def HEADER_BYTES : Nat := 10

def MAX_COLLECTION_ITEMS : Nat := 100000

def MAX_STRING_BYTES : Nat := 16777216

def nonNegativeInteger (value : JsValue) (label : String) : Outcome Nat :=
  match value with
  | .number value =>
    if value.den = 1 ∧ 0 ≤ value.num ∧ value.num ≤ MAX_SAFE_INTEGER then .ok value.num.toNat
    else .error (label ++ " must be a non-negative safe integer.")
  | _ => .error (label ++ " must be a non-negative safe integer.")

def finite (value : JsValue) (label : String) : Outcome ℚ :=
  match value with
  | .number value => .ok value
  | _ => .error (label ++ " must be finite.")

def string (value : JsValue) (label : String) : Outcome Text :=
  match value with
  | .string value =>
    if MAX_STRING_BYTES < (utf8 value).length then .error (label ++ " is too large.")
    else .ok value
  | _ => .error (label ++ " must be a string.")

def nullableString (value : JsValue) (label : String) : Outcome (Option Text) :=
  match value with
  | .null => .ok none
  | value => (string value label).map some

/-- `values.map((value, index) => ...)` with the label of each. -/
def mapLabelled {α : Type} (check : JsValue → String → Outcome α) (label : String)
    (items : List JsValue) : Outcome (List α) :=
  items.zipIdx.mapM fun item => check item.1 (label ++ "[" ++ toString item.2 ++ "]")

def strings (values : JsValue) (label : String) : Outcome (List Text) :=
  match values with
  | .array items =>
    if MAX_COLLECTION_ITEMS < items.length then
      .error (label ++ " must be a bounded array.")
    else mapLabelled string label items
  | _ => .error (label ++ " must be a bounded array.")

end Block

open Block

variable (v8 : V8)

def encodeBlock (type : UInt8) (fields : List JsValue) : List UInt8 :=
  MAGIC ++ (FORMAT_VERSION :: type :: v8.serialize (.array fields))

def decodeBlock (bytes : List UInt8) (expectedType : UInt8) (expectedFields : Nat) :
    Outcome (List JsValue) :=
  if bytes.length ≤ HEADER_BYTES ∨ bytes.take MAGIC.length ≠ MAGIC then
    .error "Posting block has an unknown format."
  else if bytes.getD 8 0 ≠ FORMAT_VERSION then
    .error ("Posting block version " ++ toString (bytes.getD 8 0) ++ " is unsupported.")
  else if bytes.getD 9 0 ≠ expectedType then
    .error "Posting block type does not match its index."
  else
    match v8.deserialize (bytes.drop HEADER_BYTES) with
    | none => .error "Posting block payload is malformed."
    | some (.array fields) =>
      if fields.length = expectedFields then .ok fields
      else .error "Posting block field layout is malformed."
    | some _ => .error "Posting block field layout is malformed."

def isPostingBlock (bytes : List UInt8) : Bool :=
  MAGIC.length ≤ bytes.length && bytes.take MAGIC.length = MAGIC

/-! ## Postings -/

/-- An occurrence of a term. -/
structure Position where
  position : Nat
  startByte : Nat
  endByte : Nat

/-- Where a term occurs in a window: as it has been found, or in the form that is stored. -/
inductive Positions where
  | found (positions : List Position)
  | deltas (positionDeltas : List Int)

structure Bm25Window where
  ordinal : Nat
  startByte : Nat
  endByte : Nat
  length : Nat
  weightedLength : ℚ
  termFrequency : Nat
  weightedTermFrequency : ℚ
  positions : Positions

structure Bm25Posting where
  bm25PostingVersion : Nat
  tokenizerVersion : Nat
  generation : Nat
  documentVersion : Nat
  createdAt : Nat
  bucket : Nat
  project : Text
  term : Text
  documentId : Text
  kind : Text
  sessionId : Text
  sourceMessageKeys : List Text
  turnId : Option Text
  window : Bm25Window

/-- An occurrence of an exact value. -/
structure Match where
  type : Text
  value : Text
  startByte : Nat
  endByte : Nat
  specificity : ℚ
deriving DecidableEq

structure ExactPosting where
  postingVersion : Nat
  generation : Nat
  sourceVersion : Nat
  bucket : Nat
  createdAt : Nat
  documentVersion : Nat
  windowOrdinal : Nat
  windowStartByte : Nat
  windowEndByte : Nat
  project : Text
  sessionId : Text
  documentId : Text
  documentKind : Text
  sourceKey : Text
  sourceKeyStatus : Option Text
  sourceMessageKeys : List Text
  turnId : Option Text
  caseMode : Text
  normalizedTerm : Text
  exactMatches : List Match

def ofNat (n : Nat) : JsValue := .number n

def ofNullable (value : Option Text) : JsValue := value.elim .null .string

def ofStrings (values : List Text) : JsValue := .array (values.map .string)

def ofInt (value : Int) : JsValue := .number value

/-! ## Postings of terms -/

def encodeBm25PostingBlock (posting : Bm25Posting) : Outcome (List UInt8) := do
  let window := posting.window
  let positionDeltas ← match window.positions with
    | .deltas positionDeltas =>
      if MAX_COLLECTION_ITEMS * 3 < positionDeltas.length then
        .error "BM25 posting positions must use bounded delta-v1 values."
      else .ok positionDeltas
    | .found _ => .error "BM25 posting positions must use bounded delta-v1 values."
  let bm25PostingVersion ←
    nonNegativeInteger (ofNat posting.bm25PostingVersion) "bm25PostingVersion"
  let tokenizerVersion ← nonNegativeInteger (ofNat posting.tokenizerVersion) "tokenizerVersion"
  let generation ← nonNegativeInteger (ofNat posting.generation) "generation"
  let documentVersion ← nonNegativeInteger (ofNat posting.documentVersion) "documentVersion"
  let createdAt ← nonNegativeInteger (ofNat posting.createdAt) "createdAt"
  let bucket ← nonNegativeInteger (ofNat posting.bucket) "bucket"
  let project ← string (.string posting.project) "project"
  let term ← string (.string posting.term) "term"
  let documentId ← string (.string posting.documentId) "documentId"
  let kind ← string (.string posting.kind) "kind"
  let sessionId ← string (.string posting.sessionId) "sessionId"
  let sourceMessageKeys ← strings (ofStrings posting.sourceMessageKeys) "sourceMessageKeys"
  let turnId ← nullableString (ofNullable posting.turnId) "turnId"
  let ordinal ← nonNegativeInteger (ofNat window.ordinal) "window.ordinal"
  let startByte ← nonNegativeInteger (ofNat window.startByte) "window.startByte"
  let endByte ← nonNegativeInteger (ofNat window.endByte) "window.endByte"
  let length ← nonNegativeInteger (ofNat window.length) "window.length"
  let weightedLength ← finite (.number window.weightedLength) "window.weightedLength"
  let termFrequency ← nonNegativeInteger (ofNat window.termFrequency) "window.termFrequency"
  let weightedTermFrequency ←
    finite (.number window.weightedTermFrequency) "window.weightedTermFrequency"
  let deltas ← mapLabelled nonNegativeInteger "window.positionDeltas"
    (positionDeltas.map ofInt)
  return encodeBlock v8 TYPE_BM25 [ofNat bm25PostingVersion, ofNat tokenizerVersion,
    ofNat generation, ofNat documentVersion, ofNat createdAt, ofNat bucket, .string project,
    .string term, .string documentId, .string kind, .string sessionId,
    ofStrings sourceMessageKeys, ofNullable turnId, ofNat ordinal, ofNat startByte, ofNat endByte,
    ofNat length, .number weightedLength, ofNat termFrequency, .number weightedTermFrequency,
    .array (deltas.map ofNat)]

def decodeBm25PostingBlock (value : List UInt8) : Outcome Bm25Posting := do
  let fields ← decodeBlock v8 value TYPE_BM25 21
  match fields with
  | [rawPostingVersion, rawTokenizerVersion, rawGeneration, rawDocumentVersion, rawCreatedAt,
      rawBucket, rawProject, rawTerm, rawDocumentId, rawKind, rawSessionId, rawSourceMessageKeys,
      rawTurnId, rawOrdinal, rawStartByte, rawEndByte, rawLength, rawWeightedLength,
      rawTermFrequency, rawWeightedTermFrequency, rawPositionDeltas] =>
      let items ← match rawPositionDeltas with
        | .array items =>
          if MAX_COLLECTION_ITEMS * 3 < items.length then
            .error "BM25 posting deltas are too large."
          else .ok items
        | _ => .error "BM25 posting deltas are too large."
      let bm25PostingVersion ← nonNegativeInteger rawPostingVersion "bm25PostingVersion"
      let tokenizerVersion ← nonNegativeInteger rawTokenizerVersion "tokenizerVersion"
      let generation ← nonNegativeInteger rawGeneration "generation"
      let project ← string rawProject "project"
      let term ← string rawTerm "term"
      let documentId ← string rawDocumentId "documentId"
      let documentVersion ← nonNegativeInteger rawDocumentVersion "documentVersion"
      let kind ← string rawKind "kind"
      let createdAt ← nonNegativeInteger rawCreatedAt "createdAt"
      let bucket ← nonNegativeInteger rawBucket "bucket"
      let sessionId ← string rawSessionId "sessionId"
      let sourceMessageKeys ← strings rawSourceMessageKeys "sourceMessageKeys"
      let turnId ← nullableString rawTurnId "turnId"
      let ordinal ← nonNegativeInteger rawOrdinal "window.ordinal"
      let startByte ← nonNegativeInteger rawStartByte "window.startByte"
      let endByte ← nonNegativeInteger rawEndByte "window.endByte"
      let length ← nonNegativeInteger rawLength "window.length"
      let weightedLength ← finite rawWeightedLength "window.weightedLength"
      let termFrequency ← nonNegativeInteger rawTermFrequency "window.termFrequency"
      let weightedTermFrequency ← finite rawWeightedTermFrequency "window.weightedTermFrequency"
      let deltas ← mapLabelled nonNegativeInteger "window.positionDeltas" items
      return {
        bm25PostingVersion, tokenizerVersion, generation, documentVersion, createdAt, bucket
        project, term, documentId, kind, sessionId, sourceMessageKeys, turnId
        window := {
          ordinal, startByte, endByte, length, weightedLength, termFrequency
          weightedTermFrequency
          positions := .deltas (deltas.map Int.ofNat) } }
  | _ => .error "Posting block field layout is malformed."

/-! ## Postings of exact values -/

/-- One round of the loop over the matches. -/
def encodeMatch (found : Match × Nat) : Outcome JsValue := do
  let label := "matches[" ++ toString found.2 ++ "]"
  let type ← string (.string found.1.type) (label ++ ".type")
  let value ← string (.string found.1.value) (label ++ ".value")
  let startByte ← nonNegativeInteger (ofNat found.1.startByte) (label ++ ".startByte")
  let endByte ← nonNegativeInteger (ofNat found.1.endByte) (label ++ ".endByte")
  let specificity ← finite (.number found.1.specificity) (label ++ ".specificity")
  return .array [.string type, .string value, ofNat startByte, ofNat endByte, .number specificity]

def decodeMatch (candidate : JsValue × Nat) : Outcome Match := do
  let label := "matches[" ++ toString candidate.2 ++ "]"
  match candidate.1 with
  | .array [rawType, rawValue, rawStartByte, rawEndByte, rawSpecificity] =>
    let type ← string rawType (label ++ ".type")
    let value ← string rawValue (label ++ ".value")
    let startByte ← nonNegativeInteger rawStartByte (label ++ ".startByte")
    let endByte ← nonNegativeInteger rawEndByte (label ++ ".endByte")
    let specificity ← finite rawSpecificity (label ++ ".specificity")
    return { type, value, startByte, endByte, specificity }
  | _ => .error (label ++ " has a malformed field layout.")

def encodeExactPostingBlock (posting : ExactPosting) : Outcome (List UInt8) := do
  if MAX_COLLECTION_ITEMS < posting.exactMatches.length then
    throw "Exact posting matches must be a bounded array."
  let postingVersion ← nonNegativeInteger (ofNat posting.postingVersion) "postingVersion"
  let generation ← nonNegativeInteger (ofNat posting.generation) "generation"
  let sourceVersion ← nonNegativeInteger (ofNat posting.sourceVersion) "sourceVersion"
  let bucket ← nonNegativeInteger (ofNat posting.bucket) "bucket"
  let createdAt ← nonNegativeInteger (ofNat posting.createdAt) "createdAt"
  let documentVersion ← nonNegativeInteger (ofNat posting.documentVersion) "documentVersion"
  let windowOrdinal ← nonNegativeInteger (ofNat posting.windowOrdinal) "windowOrdinal"
  let windowStartByte ← nonNegativeInteger (ofNat posting.windowStartByte) "windowStartByte"
  let windowEndByte ← nonNegativeInteger (ofNat posting.windowEndByte) "windowEndByte"
  let project ← string (.string posting.project) "project"
  let sessionId ← string (.string posting.sessionId) "sessionId"
  let documentId ← string (.string posting.documentId) "documentId"
  let documentKind ← string (.string posting.documentKind) "documentKind"
  let sourceKey ← string (.string posting.sourceKey) "sourceKey"
  let sourceKeyStatus ← nullableString (ofNullable posting.sourceKeyStatus) "sourceKeyStatus"
  let sourceMessageKeys ← strings (ofStrings posting.sourceMessageKeys) "sourceMessageKeys"
  let turnId ← nullableString (ofNullable posting.turnId) "turnId"
  let caseMode ← string (.string posting.caseMode) "caseMode"
  let normalizedTerm ← string (.string posting.normalizedTerm) "normalizedTerm"
  let found ← posting.exactMatches.zipIdx.mapM encodeMatch
  return encodeBlock v8 TYPE_EXACT [ofNat postingVersion, ofNat generation, ofNat sourceVersion,
    ofNat bucket, ofNat createdAt, ofNat documentVersion, ofNat windowOrdinal,
    ofNat windowStartByte, ofNat windowEndByte, .string project, .string sessionId,
    .string documentId, .string documentKind, .string sourceKey, ofNullable sourceKeyStatus,
    ofStrings sourceMessageKeys, ofNullable turnId, .string caseMode, .string normalizedTerm,
    .array found]

def decodeExactPostingBlock (value : List UInt8) : Outcome ExactPosting := do
  let fields ← decodeBlock v8 value TYPE_EXACT 20
  match fields with
  | [rawPostingVersion, rawGeneration, rawSourceVersion, rawBucket, rawCreatedAt,
      rawDocumentVersion, rawWindowOrdinal, rawWindowStartByte, rawWindowEndByte, rawProject,
      rawSessionId, rawDocumentId, rawDocumentKind, rawSourceKey, rawSourceKeyStatus,
      rawSourceMessageKeys, rawTurnId, rawCaseMode, rawNormalizedTerm, rawMatches] =>
      let items ← match rawMatches with
        | .array items =>
          if MAX_COLLECTION_ITEMS < items.length then
            .error "Exact posting matches must be a bounded array."
          else .ok items
        | _ => .error "Exact posting matches must be a bounded array."
      let found ← items.zipIdx.mapM decodeMatch
      let postingVersion ← nonNegativeInteger rawPostingVersion "postingVersion"
      let generation ← nonNegativeInteger rawGeneration "generation"
      let sourceVersion ← nonNegativeInteger rawSourceVersion "sourceVersion"
      let project ← string rawProject "project"
      let sessionId ← string rawSessionId "sessionId"
      let bucket ← nonNegativeInteger rawBucket "bucket"
      let createdAt ← nonNegativeInteger rawCreatedAt "createdAt"
      let documentId ← string rawDocumentId "documentId"
      let documentVersion ← nonNegativeInteger rawDocumentVersion "documentVersion"
      let documentKind ← string rawDocumentKind "documentKind"
      let sourceKey ← string rawSourceKey "sourceKey"
      let sourceKeyStatus ← nullableString rawSourceKeyStatus "sourceKeyStatus"
      let sourceMessageKeys ← strings rawSourceMessageKeys "sourceMessageKeys"
      let turnId ← nullableString rawTurnId "turnId"
      let windowOrdinal ← nonNegativeInteger rawWindowOrdinal "windowOrdinal"
      let windowStartByte ← nonNegativeInteger rawWindowStartByte "windowStartByte"
      let windowEndByte ← nonNegativeInteger rawWindowEndByte "windowEndByte"
      let caseMode ← string rawCaseMode "caseMode"
      let normalizedTerm ← string rawNormalizedTerm "normalizedTerm"
      return {
        postingVersion, generation, sourceVersion, bucket, createdAt, documentVersion
        windowOrdinal, windowStartByte, windowEndByte, project, sessionId, documentId, documentKind
        sourceKey, sourceKeyStatus, sourceMessageKeys, turnId, caseMode, normalizedTerm
        exactMatches := found }
  | _ => .error "Posting block field layout is malformed."

/-! ## What is written reads back -/

/-- A number that is written. -/
def FitsNat (n : Nat) : Prop := (n : Int) ≤ MAX_SAFE_INTEGER

/-- A text that is written. -/
def FitsText (value : Text) : Prop := (utf8 value).length ≤ MAX_STRING_BYTES

def FitsTexts (values : List Text) : Prop :=
  values.length ≤ MAX_COLLECTION_ITEMS ∧ ∀ value ∈ values, FitsText value

def FitsNullable (value : Option Text) : Prop := ∀ text, value = some text → FitsText text

theorem ok_bind {α β : Type} (a : α) (f : α → Outcome β) : (Except.ok a >>= f) = f a := rfl

section Checks

variable {label : String}

theorem nonNegativeInteger_ofNat {n : Nat} (h : FitsNat n) :
    nonNegativeInteger (ofNat n) label = .ok n := by
  rw [ofNat, nonNegativeInteger, Rat.den_natCast, Rat.num_natCast,
    if_pos ⟨rfl, Int.natCast_nonneg n, h⟩, Int.toNat_natCast]

theorem string_ok {value : Text} (h : FitsText value) :
    Block.string (.string value) label = .ok value := if_neg (Nat.not_lt_of_le h)

theorem finite_ok (value : ℚ) : finite (.number value) label = .ok value := rfl

theorem nullableString_ok {value : Option Text} (h : FitsNullable value) :
    nullableString (ofNullable value) label = .ok value := by
  cases value with
  | none => rfl
  | some text =>
    have hstring : Block.string (.string text) label = .ok text := string_ok (h text rfl)
    show (Block.string (.string text) label).map some = _
    rw [hstring]
    rfl

/-- A check that gives back what has been wrapped does so for every item. -/
theorem mapM_zipIdx_ok {α β γ : Type} {check : β × Nat → Except γ α} {wrap : α → β}
    {items : List α} (start : Nat)
    (h : ∀ item ∈ items, ∀ index, check (wrap item, index) = .ok item) :
    (((items.map wrap).zipIdx start).mapM check) = .ok items := by
  induction items generalizing start with
  | nil => rfl
  | cons item rest ih =>
    rw [List.map_cons, List.zipIdx_cons, List.mapM_cons, h item List.mem_cons_self start,
      ih (start + 1) fun other hother => h other (List.mem_cons_of_mem _ hother)]
    rfl

theorem strings_ok {values : List Text} (h : FitsTexts values) :
    strings (ofStrings values) label = .ok values := by
  rw [ofStrings, strings, List.length_map, if_neg (Nat.not_lt_of_le h.1)]
  exact mapM_zipIdx_ok 0 fun value hvalue _ => string_ok (h.2 value hvalue)

theorem mapLabelled_ofNat {values : List Nat} (h : ∀ n ∈ values, FitsNat n) :
    mapLabelled nonNegativeInteger label (values.map ofNat) = .ok values :=
  mapM_zipIdx_ok 0 fun n hn _ => nonNegativeInteger_ofNat (h n hn)

end Checks

/-- Reading a block comes down to its type and the number of its fields. -/
theorem decodeBlock_eq (type expectedType : UInt8) (fields : List JsValue) (expectedFields : Nat) :
    decodeBlock v8 (encodeBlock v8 type fields) expectedType expectedFields =
      if type ≠ expectedType then .error "Posting block type does not match its index."
      else if fields.length = expectedFields then .ok fields
      else .error "Posting block field layout is malformed." := by
  have hlength : HEADER_BYTES < (encodeBlock v8 type fields).length := by
    have hpos := List.length_pos_iff.mpr (v8.serialize_ne_nil (.array fields))
    have hmagic : MAGIC.length = 8 := rfl
    simp only [encodeBlock, List.length_append, List.length_cons]
    unfold HEADER_BYTES
    omega
  have hmagic : (encodeBlock v8 type fields).take MAGIC.length = MAGIC := List.take_left
  have hversion : (encodeBlock v8 type fields).getD 8 0 = FORMAT_VERSION := rfl
  have htype : (encodeBlock v8 type fields).getD 9 0 = type := rfl
  have hpayload : (encodeBlock v8 type fields).drop HEADER_BYTES =
      v8.serialize (.array fields) := rfl
  rw [decodeBlock, if_neg (by rw [not_or, not_not]; exact ⟨Nat.not_le_of_lt hlength, hmagic⟩),
    hversion, if_neg (not_not.mpr rfl), htype, hpayload, v8.deserialize_serialize]

theorem decodeBlock_encodeBlock (type : UInt8) (fields : List JsValue) :
    decodeBlock v8 (encodeBlock v8 type fields) type fields.length = .ok fields := by
  rw [decodeBlock_eq, if_neg (not_not.mpr rfl), if_pos rfl]

/-- A posting of a term that is written: its numbers and texts are in bounds and its positions in
the form that is stored. -/
structure Bm25Posting.Fits (posting : Bm25Posting) (positionDeltas : List Nat) : Prop where
  bm25PostingVersion : FitsNat posting.bm25PostingVersion
  tokenizerVersion : FitsNat posting.tokenizerVersion
  generation : FitsNat posting.generation
  documentVersion : FitsNat posting.documentVersion
  createdAt : FitsNat posting.createdAt
  bucket : FitsNat posting.bucket
  project : FitsText posting.project
  term : FitsText posting.term
  documentId : FitsText posting.documentId
  kind : FitsText posting.kind
  sessionId : FitsText posting.sessionId
  sourceMessageKeys : FitsTexts posting.sourceMessageKeys
  turnId : FitsNullable posting.turnId
  ordinal : FitsNat posting.window.ordinal
  startByte : FitsNat posting.window.startByte
  endByte : FitsNat posting.window.endByte
  length : FitsNat posting.window.length
  termFrequency : FitsNat posting.window.termFrequency
  positions : posting.window.positions = .deltas (positionDeltas.map Int.ofNat)
  bounded : positionDeltas.length ≤ MAX_COLLECTION_ITEMS * 3
  deltas : ∀ delta ∈ positionDeltas, FitsNat delta

/-- The fields of a posting in the order of their block. -/
def Bm25Posting.fields (posting : Bm25Posting) (positionDeltas : List Nat) : List JsValue :=
  [ofNat posting.bm25PostingVersion, ofNat posting.tokenizerVersion, ofNat posting.generation,
    ofNat posting.documentVersion, ofNat posting.createdAt, ofNat posting.bucket,
    .string posting.project, .string posting.term, .string posting.documentId,
    .string posting.kind, .string posting.sessionId, ofStrings posting.sourceMessageKeys,
    ofNullable posting.turnId, ofNat posting.window.ordinal, ofNat posting.window.startByte,
    ofNat posting.window.endByte, ofNat posting.window.length,
    .number posting.window.weightedLength, ofNat posting.window.termFrequency,
    .number posting.window.weightedTermFrequency, .array (positionDeltas.map ofNat)]

theorem encodeBm25PostingBlock_eq {posting : Bm25Posting} {positionDeltas : List Nat}
    (h : posting.Fits positionDeltas) :
    encodeBm25PostingBlock v8 posting =
      .ok (encodeBlock v8 TYPE_BM25 (posting.fields positionDeltas)) := by
  have hitems : (positionDeltas.map Int.ofNat).map ofInt = positionDeltas.map ofNat := by
    rw [List.map_map]
    rfl
  have hbounded : ¬ MAX_COLLECTION_ITEMS * 3 < (positionDeltas.map Int.ofNat).length := by
    rw [List.length_map]
    exact Nat.not_lt_of_le h.bounded
  rw [encodeBm25PostingBlock]
  simp only [nonNegativeInteger_ofNat, string_ok, strings_ok, nullableString_ok, h.positions,
    if_neg hbounded, ok_bind, hitems, h.bm25PostingVersion, h.tokenizerVersion, h.generation,
    h.documentVersion, h.createdAt, h.bucket, h.project, h.term, h.documentId, h.kind, h.sessionId,
    h.sourceMessageKeys, h.turnId, h.ordinal, h.startByte, h.endByte, h.length, h.termFrequency,
    finite_ok, mapLabelled_ofNat h.deltas]
  rfl

theorem decodeBm25PostingBlock_fields {posting : Bm25Posting} {positionDeltas : List Nat}
    (h : posting.Fits positionDeltas) :
    decodeBm25PostingBlock v8 (encodeBlock v8 TYPE_BM25 (posting.fields positionDeltas)) =
      .ok posting := by
  have hbounded : ¬ MAX_COLLECTION_ITEMS * 3 < (positionDeltas.map ofNat).length := by
    rw [List.length_map]
    exact Nat.not_lt_of_le h.bounded
  have hfields : decodeBlock v8 (encodeBlock v8 TYPE_BM25 (posting.fields positionDeltas))
      TYPE_BM25 21 = .ok (posting.fields positionDeltas) := decodeBlock_encodeBlock v8 _ _
  have hpositions := h.positions
  rw [decodeBm25PostingBlock, hfields]
  simp only [nonNegativeInteger_ofNat, string_ok, strings_ok, nullableString_ok, Bm25Posting.fields,
    ok_bind, if_neg hbounded, h.bm25PostingVersion, h.tokenizerVersion, h.generation,
    h.documentVersion, h.createdAt, h.bucket, h.project, h.term, h.documentId, h.kind, h.sessionId,
    h.sourceMessageKeys, h.turnId, h.ordinal, h.startByte, h.endByte, h.length, h.termFrequency,
    finite_ok, mapLabelled_ofNat h.deltas]
  rw [← hpositions]
  rfl

/-- An occurrence of an exact value that is written. -/
structure Match.Fits (found : Match) : Prop where
  type : FitsText found.type
  value : FitsText found.value
  startByte : FitsNat found.startByte
  endByte : FitsNat found.endByte

structure ExactPosting.Fits (posting : ExactPosting) : Prop where
  postingVersion : FitsNat posting.postingVersion
  generation : FitsNat posting.generation
  sourceVersion : FitsNat posting.sourceVersion
  bucket : FitsNat posting.bucket
  createdAt : FitsNat posting.createdAt
  documentVersion : FitsNat posting.documentVersion
  windowOrdinal : FitsNat posting.windowOrdinal
  windowStartByte : FitsNat posting.windowStartByte
  windowEndByte : FitsNat posting.windowEndByte
  project : FitsText posting.project
  sessionId : FitsText posting.sessionId
  documentId : FitsText posting.documentId
  documentKind : FitsText posting.documentKind
  sourceKey : FitsText posting.sourceKey
  sourceKeyStatus : FitsNullable posting.sourceKeyStatus
  sourceMessageKeys : FitsTexts posting.sourceMessageKeys
  turnId : FitsNullable posting.turnId
  caseMode : FitsText posting.caseMode
  normalizedTerm : FitsText posting.normalizedTerm
  bounded : posting.exactMatches.length ≤ MAX_COLLECTION_ITEMS
  exactMatches : ∀ found ∈ posting.exactMatches, found.Fits

def Match.fields (found : Match) : JsValue :=
  .array [.string found.type, .string found.value, ofNat found.startByte, ofNat found.endByte,
    .number found.specificity]

def ExactPosting.fields (posting : ExactPosting) : List JsValue :=
  [ofNat posting.postingVersion, ofNat posting.generation, ofNat posting.sourceVersion,
    ofNat posting.bucket, ofNat posting.createdAt, ofNat posting.documentVersion,
    ofNat posting.windowOrdinal, ofNat posting.windowStartByte, ofNat posting.windowEndByte,
    .string posting.project, .string posting.sessionId, .string posting.documentId,
    .string posting.documentKind, .string posting.sourceKey, ofNullable posting.sourceKeyStatus,
    ofStrings posting.sourceMessageKeys, ofNullable posting.turnId, .string posting.caseMode,
    .string posting.normalizedTerm, .array (posting.exactMatches.map Match.fields)]

theorem encodeMatch_eq {found : Match} (h : found.Fits) (index : Nat) :
    encodeMatch (found, index) = .ok found.fields := by
  rw [encodeMatch]
  simp only [string_ok, nonNegativeInteger_ofNat, h.type, h.value, h.startByte, h.endByte,
    finite_ok]
  rfl

theorem decodeMatch_fields {found : Match} (h : found.Fits) (index : Nat) :
    decodeMatch (found.fields, index) = .ok found := by
  rw [decodeMatch]
  simp only [string_ok, nonNegativeInteger_ofNat, Match.fields, h.type, h.value, h.startByte,
    h.endByte, finite_ok]
  rfl

theorem mapM_encodeMatch {found : List Match} (start : Nat) (h : ∀ one ∈ found, one.Fits) :
    (found.zipIdx start).mapM encodeMatch = .ok (found.map Match.fields) := by
  induction found generalizing start with
  | nil => rfl
  | cons one rest ih =>
    rw [List.zipIdx_cons, List.mapM_cons, encodeMatch_eq (h one List.mem_cons_self),
      ih (start + 1) fun other hother => h other (List.mem_cons_of_mem _ hother)]
    rfl

theorem encodeExactPostingBlock_eq {posting : ExactPosting} (h : posting.Fits) :
    encodeExactPostingBlock v8 posting = .ok (encodeBlock v8 TYPE_EXACT posting.fields) := by
  rw [encodeExactPostingBlock, if_neg (Nat.not_lt_of_le h.bounded)]
  simp only [nonNegativeInteger_ofNat, string_ok, nullableString_ok, strings_ok, h.postingVersion,
    h.generation, h.sourceVersion, h.bucket, h.createdAt, h.documentVersion, h.windowOrdinal,
    h.windowStartByte, h.windowEndByte, h.project, h.sessionId, h.documentId, h.documentKind,
    h.sourceKey, h.sourceKeyStatus, h.sourceMessageKeys, h.turnId, h.caseMode, h.normalizedTerm,
    mapM_encodeMatch 0 h.exactMatches]
  rfl

theorem decodeExactPostingBlock_fields {posting : ExactPosting} (h : posting.Fits) :
    decodeExactPostingBlock v8 (encodeBlock v8 TYPE_EXACT posting.fields) = .ok posting := by
  have hbounded : ¬ MAX_COLLECTION_ITEMS < (posting.exactMatches.map Match.fields).length := by
    rw [List.length_map]
    exact Nat.not_lt_of_le h.bounded
  have hfields : decodeBlock v8 (encodeBlock v8 TYPE_EXACT posting.fields) TYPE_EXACT 20 =
      .ok posting.fields := decodeBlock_encodeBlock v8 _ _
  have hmatches : ((posting.exactMatches.map Match.fields).zipIdx 0).mapM decodeMatch =
      .ok posting.exactMatches :=
    mapM_zipIdx_ok 0 fun found hfound index =>
      decodeMatch_fields (h.exactMatches found hfound) index
  rw [decodeExactPostingBlock, hfields]
  simp only [nonNegativeInteger_ofNat, string_ok, nullableString_ok, strings_ok,
    ExactPosting.fields, ok_bind, if_neg hbounded, hmatches, h.postingVersion, h.generation,
    h.sourceVersion, h.bucket, h.createdAt, h.documentVersion, h.windowOrdinal, h.windowStartByte,
    h.windowEndByte, h.project, h.sessionId, h.documentId, h.documentKind, h.sourceKey,
    h.sourceKeyStatus, h.sourceMessageKeys, h.turnId, h.caseMode, h.normalizedTerm]
  rfl

/-! ## What is written is in bounds -/

section Written

variable {label : String}

theorem fitsNat_of_ok {n m : Nat} (h : nonNegativeInteger (ofNat n) label = .ok m) : FitsNat n := by
  rw [ofNat, nonNegativeInteger] at h
  split at h
  · rename_i hsafe
    rw [Rat.num_natCast] at hsafe
    exact hsafe.2.2
  · cases h

theorem fitsText_of_ok {value checked : Text}
    (h : Block.string (.string value) label = .ok checked) : FitsText value := by
  rw [Block.string] at h
  split at h
  · cases h
  · rename_i hlength
    exact Nat.le_of_not_lt hlength

theorem fitsNullable_of_ok {value checked : Option Text}
    (h : nullableString (ofNullable value) label = .ok checked) : FitsNullable value := by
  intro written hwritten
  subst hwritten
  obtain ⟨read, hread, -⟩ := map_ok_iff.mp h
  exact fitsText_of_ok hread

theorem mapM_zipIdx_mem {α β γ : Type} {check : β × Nat → Except γ α} {items : List β}
    {start : Nat} {checked : List α} (h : (items.zipIdx start).mapM check = .ok checked)
    {item : β} (hitem : item ∈ items) : ∃ index read, check (item, index) = .ok read := by
  induction items generalizing start checked with
  | nil => cases hitem
  | cons first rest ih =>
    rw [List.zipIdx_cons, List.mapM_cons] at h
    obtain ⟨read, hread, h⟩ := bind_ok_iff.mp h
    obtain ⟨others, hothers, -⟩ := bind_ok_iff.mp h
    rcases List.mem_cons.mp hitem with rfl | hitem
    · exact ⟨start, read, hread⟩
    · exact ih hothers hitem

theorem fitsTexts_of_ok {values checked : List Text}
    (h : strings (ofStrings values) label = .ok checked) : FitsTexts values := by
  rw [ofStrings, strings, List.length_map] at h
  split at h
  · cases h
  · rename_i hlength
    refine ⟨Nat.le_of_not_lt hlength, fun value hvalue => ?_⟩
    obtain ⟨index, read, hread⟩ := mapM_zipIdx_mem h (List.mem_map_of_mem hvalue)
    exact fitsText_of_ok hread

theorem Match.fits_of_ok {found : Match} {index : Nat} {written : JsValue}
    (h : encodeMatch (found, index) = .ok written) : found.Fits := by
  simp only [encodeMatch, bind_ok_iff] at h
  obtain ⟨_, htype, _, hvalue, _, hstart, _, hend, -⟩ := h
  exact ⟨fitsText_of_ok htype, fitsText_of_ok hvalue, fitsNat_of_ok hstart, fitsNat_of_ok hend⟩

end Written

theorem ExactPosting.fits_of_ok {posting : ExactPosting} {bytes : List UInt8}
    (h : encodeExactPostingBlock v8 posting = .ok bytes) : posting.Fits := by
  rw [encodeExactPostingBlock] at h
  split at h
  · cases h
  · rename_i hbounded
    simp only [bind_ok_iff] at h
    obtain ⟨_, h01, _, h02, _, h03, _, h04, _, h05, _, h06, _, h07, _, h08, _, h09, _, h10, _, h11,
      _, h12, _, h13, _, h14, _, h15, _, h16, _, h17, _, h18, _, h19, _, hfound, -⟩ := h
    exact {
      postingVersion := fitsNat_of_ok h01
      generation := fitsNat_of_ok h02
      sourceVersion := fitsNat_of_ok h03
      bucket := fitsNat_of_ok h04
      createdAt := fitsNat_of_ok h05
      documentVersion := fitsNat_of_ok h06
      windowOrdinal := fitsNat_of_ok h07
      windowStartByte := fitsNat_of_ok h08
      windowEndByte := fitsNat_of_ok h09
      project := fitsText_of_ok h10
      sessionId := fitsText_of_ok h11
      documentId := fitsText_of_ok h12
      documentKind := fitsText_of_ok h13
      sourceKey := fitsText_of_ok h14
      sourceKeyStatus := fitsNullable_of_ok h15
      sourceMessageKeys := fitsTexts_of_ok h16
      turnId := fitsNullable_of_ok h17
      caseMode := fitsText_of_ok h18
      normalizedTerm := fitsText_of_ok h19
      bounded := Nat.le_of_not_lt hbounded
      exactMatches := fun found hmem => by
        obtain ⟨index, written, hwritten⟩ := mapM_zipIdx_mem hfound hmem
        exact Match.fits_of_ok hwritten }

/-- A block that has been written is told from a locator, and reads back. -/
theorem read_encodeExactPostingBlock {posting : ExactPosting} {bytes : List UInt8}
    (h : encodeExactPostingBlock v8 posting = .ok bytes) :
    isPostingBlock bytes = true ∧ decodeExactPostingBlock v8 bytes = .ok posting := by
  have hfits := ExactPosting.fits_of_ok v8 h
  rw [encodeExactPostingBlock_eq v8 hfits] at h
  obtain rfl := Except.ok.inj h
  refine ⟨?_, decodeExactPostingBlock_fields v8 hfits⟩
  simp [isPostingBlock, encodeBlock]

end ContextStore.Postings
