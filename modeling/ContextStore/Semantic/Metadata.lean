import ContextStore.Foundation.Reader
import ContextStore.Store.KeyEncoding
import Mathlib.Data.List.Sort

/-! # Semantic metadata

The windows of a semantic index as they stand in its metadata file: a header, the document
versions, and for each label the window it names. A snapshot is checked and sorted by label before
it is written, and the number of its bytes is computed apart from the writing. Texts are sequences
of UTF-16 units. -/

namespace ContextStore.Metadata

open Unicode
open KeyEncoding (isSafeInteger MAX_SAFE_INTEGER ofBigEndian)

/-- Every error but one is a `TypeError`, told by its message. -/
abbrev Outcome (α : Type) : Type := Except String α

def MAGIC : List UInt8 := [0x43, 0x57, 0x53, 0x45, 0x4d, 0x45, 0x54, 0x41]

def FORMAT_VERSION : Nat := 1

def MAX_UINT32 : Int := 0xffffffff

def MAX_UINT64 : Int := 0xffffffffffffffff

/-! ## Checked values

A value that a caller passes as a number is `none` where it is no integer, and one that he passes as
a text is `none` where it is no text. -/

abbrev NonEmptyString : Type := {value : Text // value ≠ []}

abbrev PositiveInteger : Type := {n : Nat // 0 < n ∧ (n : Int) ≤ MAX_SAFE_INTEGER}

abbrev NonNegativeInteger : Type := {n : Nat // (n : Int) ≤ MAX_SAFE_INTEGER}

abbrev Label : Type := {n : Nat // 0 < n ∧ (n : Int) ≤ MAX_UINT64}

theorem positive_toNat {value : Int} (h : ¬ (!isSafeInteger value || decide (value ≤ 0)) = true) :
    0 < value.toNat ∧ (value.toNat : Int) ≤ MAX_SAFE_INTEGER := by
  simp only [Bool.or_eq_true, Bool.not_eq_true', decide_eq_true_eq, not_or,
    Bool.not_eq_false, KeyEncoding.isSafeInteger_iff] at h
  omega

theorem safe_toNat {value : Int} (h : ¬ (!isSafeInteger value || decide (value < 0)) = true) :
    (value.toNat : Int) ≤ MAX_SAFE_INTEGER := by
  simp only [Bool.or_eq_true, Bool.not_eq_true', decide_eq_true_eq, not_or,
    Bool.not_eq_false, KeyEncoding.isSafeInteger_iff] at h
  omega

theorem label_toNat {value : Int}
    (h : ¬ (decide (value ≤ 0) || decide (value > MAX_UINT64)) = true) :
    0 < value.toNat ∧ (value.toNat : Int) ≤ MAX_UINT64 := by
  simp only [Bool.or_eq_true, decide_eq_true_eq, not_or] at h
  omega

def nonEmptyString (value : Option Text) (label : String) : Outcome NonEmptyString :=
  match value with
  | none => .error (label ++ " must be a non-empty string.")
  | some value =>
    if h : value = [] then .error (label ++ " must be a non-empty string.")
    else .ok ⟨value, h⟩

def positiveInteger (value : Option Int) (label : String) : Outcome PositiveInteger :=
  match value with
  | none => .error (label ++ " must be a positive safe integer.")
  | some value =>
    if h : !isSafeInteger value || value ≤ 0 then
      .error (label ++ " must be a positive safe integer.")
    else .ok ⟨value.toNat, positive_toNat h⟩

def nonNegativeInteger (value : Option Int) (label : String) : Outcome NonNegativeInteger :=
  match value with
  | none => .error (label ++ " must be a non-negative safe integer.")
  | some value =>
    if h : !isSafeInteger value || value < 0 then
      .error (label ++ " must be a non-negative safe integer.")
    else .ok ⟨value.toNat, safe_toNat h⟩

/-- The value is what `BigInt` makes of the argument, `none` where it throws. -/
def uint64 (value : Option Int) (label : String) : Outcome Label :=
  match value with
  | none => .error (label ++ " must be an unsigned 64-bit integer.")
  | some integer =>
    if h : integer ≤ 0 || integer > MAX_UINT64 then
      .error (label ++ " must be a positive unsigned 64-bit integer.")
    else .ok ⟨integer.toNat, label_toNat h⟩

theorem isSafeInteger_natCast {n : Nat} :
    isSafeInteger (n : Int) = true ↔ (n : Int) ≤ MAX_SAFE_INTEGER := by
  rw [KeyEncoding.isSafeInteger_iff]
  have : (0 : Int) ≤ MAX_SAFE_INTEGER := by decide
  omega

variable {label : String} {value : Option Int}

theorem nonEmptyString_eq_ok {value : Option Text} {t : NonEmptyString} :
    nonEmptyString value label = .ok t ↔ value = some t.val := by
  rcases value with _ | value
  · simp [nonEmptyString]
  · simp only [nonEmptyString, Option.some.injEq]
    split_ifs with h
    · simp only [false_iff]
      rintro rfl
      exact t.property h
    · simp [Subtype.ext_iff]

theorem positiveInteger_eq_ok {n : PositiveInteger} :
    positiveInteger value label = .ok n ↔ value = some (n.val : Int) := by
  rcases value with _ | value
  · simp [positiveInteger]
  · have hn := n.property
    simp only [positiveInteger, Option.some.injEq]
    split_ifs with h
    · simp only [false_iff]
      rintro rfl
      simp only [Bool.or_eq_true, Bool.not_eq_true', decide_eq_true_eq] at h
      rw [← Bool.not_eq_true, isSafeInteger_natCast] at h
      omega
    · simp only [Bool.or_eq_true, Bool.not_eq_true', decide_eq_true_eq, not_or] at h
      simp only [Except.ok.injEq, Subtype.ext_iff]
      omega

theorem nonNegativeInteger_eq_ok {n : NonNegativeInteger} :
    nonNegativeInteger value label = .ok n ↔ value = some (n.val : Int) := by
  rcases value with _ | value
  · simp [nonNegativeInteger]
  · have hn := n.property
    simp only [nonNegativeInteger, Option.some.injEq]
    split_ifs with h
    · simp only [false_iff]
      rintro rfl
      simp only [Bool.or_eq_true, Bool.not_eq_true', decide_eq_true_eq] at h
      rw [← Bool.not_eq_true, isSafeInteger_natCast] at h
      omega
    · simp only [Bool.or_eq_true, Bool.not_eq_true', decide_eq_true_eq, not_or] at h
      simp only [Except.ok.injEq, Subtype.ext_iff]
      omega

theorem uint64_eq_ok {n : Label} : uint64 value label = .ok n ↔ value = some (n.val : Int) := by
  rcases value with _ | integer
  · simp [uint64]
  · have hn := n.property
    simp only [uint64, Option.some.injEq]
    split_ifs with h
    · simp only [false_iff]
      rintro rfl
      simp only [Bool.or_eq_true, decide_eq_true_eq] at h
      omega
    · simp only [Bool.or_eq_true, decide_eq_true_eq, not_or] at h
      simp only [Except.ok.injEq, Subtype.ext_iff]
      omega

/-! ## Entries -/

structure Document where
  documentId : NonEmptyString
  version : PositiveInteger

def documentIdentity (document : Document) : Text :=
  document.documentId.val ++ 0 :: text (toString document.version.val)

/-- An entry as a caller passes it. -/
structure RawEntry where
  label : Option Int
  documentId : Option Text
  version : Option Int
  windowOrdinal : Option Int
  startByte : Option Int
  endByte : Option Int

/-- An entry that has passed the checks. -/
structure CompactEntry where
  label : Label
  documentId : NonEmptyString
  version : PositiveInteger
  windowOrdinal : NonNegativeInteger
  startByte : NonNegativeInteger
  endByte : NonNegativeInteger
  startByte_le : startByte.val ≤ endByte.val

def CompactEntry.document (entry : CompactEntry) : Document := ⟨entry.documentId, entry.version⟩

def compactEntry (entry : RawEntry) (label : String) : Outcome CompactEntry := do
  let startByte ← nonNegativeInteger entry.startByte (label ++ ".startByte")
  let endByte ← nonNegativeInteger entry.endByte (label ++ ".endByte")
  if h : endByte.val < startByte.val then
    .error (label ++ ".endByte must not precede startByte.")
  else
    let entryLabel ← uint64 entry.label (label ++ ".label")
    let documentId ← nonEmptyString entry.documentId (label ++ ".documentId")
    let version ← positiveInteger entry.version (label ++ ".version")
    let windowOrdinal ← nonNegativeInteger entry.windowOrdinal (label ++ ".windowOrdinal")
    return ⟨entryLabel, documentId, version, windowOrdinal, startByte, endByte, Nat.le_of_not_lt h⟩

def entryPath (index : Nat) : String := "entries[" ++ toString index ++ "]"

def duplicateLabel (label : Label) : String :=
  "Duplicate semantic label " ++ toString label.val ++ "."

/-- A checked entry behind the ones that were checked before it. -/
def addEntry (entries : List CompactEntry) (entry : CompactEntry) : Outcome (List CompactEntry) :=
  if entry.label ∈ entries.map CompactEntry.label then .error (duplicateLabel entry.label)
  else .ok (entries ++ [entry])

/-- The checks of `normalizeEntries`, with the entries that have passed. -/
def compactEntries (checked : List CompactEntry) : List RawEntry → Outcome (List CompactEntry)
  | [] => .ok checked
  | entry :: rest => do
    let result ← compactEntry entry (entryPath checked.length)
    let checked ← addEntry checked result
    compactEntries checked rest

def normalizeEntries (entries : List RawEntry) : Outcome (List CompactEntry) := do
  let normalized ← compactEntries [] entries
  return normalized.insertionSort (fun left right => left.label.val ≤ right.label.val)

/-! ## Snapshots -/

structure Snapshot where
  formatVersion : Option Int
  fingerprint : Option Text
  project : Option Text
  dimensions : Option Int
  entries : List RawEntry

/-- What the configured index expects of a snapshot. -/
structure Expected where
  fingerprint : Option Text
  project : Option Text
  dimensions : Option Int

def Expected.nothing : Expected := ⟨none, none, none⟩

structure Header where
  fingerprint : NonEmptyString
  project : NonEmptyString
  dimensions : PositiveInteger
  dimensions_le : (dimensions.val : Int) ≤ MAX_UINT32

def expectedSnapshot (fingerprint project : Option Text) (dimensions : Option Int)
    (expected : Expected) : Outcome Header := do
  let fingerprint ← nonEmptyString fingerprint "fingerprint"
  let project ← nonEmptyString project "project"
  let dimensions ← positiveInteger dimensions "dimensions"
  if h : (dimensions.val : Int) > MAX_UINT32 then
    .error "dimensions must fit in an unsigned 32-bit integer."
  else if expected.fingerprint ≠ none ∧ expected.fingerprint ≠ some fingerprint.val then
    .error "Semantic metadata fingerprint does not match the configured index."
  else if expected.project ≠ none ∧ expected.project ≠ some project.val then
    .error "Semantic metadata project does not match the configured index."
  else if expected.dimensions ≠ none ∧ expected.dimensions ≠ some (dimensions.val : Int) then
    .error "Semantic metadata dimensions do not match the configured index."
  else .ok ⟨fingerprint, project, dimensions, Int.not_lt.mp h⟩

structure SnapshotResult where
  header : Header
  entries : List CompactEntry
  documents : List Text

/-- The identities stand in the order of the first entries that have them. -/
def snapshotResult (header : Header) (entries : List CompactEntry) : SnapshotResult :=
  ⟨header, entries, (entries.map fun entry => documentIdentity entry.document).eraseDups⟩

/-- A snapshot checked against what is expected, its entries by label. -/
def normalizeSnapshot (snapshot : Snapshot) (expected : Expected) : Outcome SnapshotResult := do
  let header ← expectedSnapshot snapshot.fingerprint snapshot.project snapshot.dimensions expected
  let entries ← normalizeEntries snapshot.entries
  return snapshotResult header entries

def normalizeLegacySemanticMetadata (snapshot : Snapshot) (expected : Expected) :
    Outcome SnapshotResult :=
  if snapshot.formatVersion ≠ some 1 then
    .error "Unsupported legacy semantic metadata format."
  else normalizeSnapshot snapshot expected

/-! ## The size and the bytes -/

/-- The loop of `varUintLength`. -/
def varUintGroups (integer : Nat) : Nat :=
  if integer ≥ 0x80 then varUintGroups (integer >>> 7) + 1 else 1
termination_by integer
decreasing_by
  rw [Nat.shiftRight_eq_div_pow]
  omega

def varUintLength (value : Option Int) : Outcome Nat := do
  let integer ← nonNegativeInteger value "varuint"
  return varUintGroups integer.val

/-- A text's bytes and the number of bytes it takes with its length. -/
structure StringField where
  bytes : List UInt8
  byteLength : Nat

def stringField (value : Text) (label : String) : Outcome StringField := do
  let value ← nonEmptyString (some value) label
  let length ← varUintLength (some (utf8 value.val).length)
  return ⟨utf8 value.val, length + (utf8 value.val).length⟩

/-- The first document of each identity, behind the ones that are known. -/
def documentsByIdentity (known : List Document) : List CompactEntry → List Document
  | [] => known
  | entry :: rest =>
    if known.any (documentIdentity · == documentIdentity entry.document) then
      documentsByIdentity known rest
    else documentsByIdentity (known ++ [entry.document]) rest

def documentLe (left right : Document) : Bool :=
  utf8 left.documentId.val < utf8 right.documentId.val ||
    (utf8 left.documentId.val == utf8 right.documentId.val &&
      left.version.val ≤ right.version.val)

structure PreparedDocument where
  document : Document
  documentIdBytes : List UInt8
  byteLength : Nat

/-- The index is `none` for an entry whose document is not in the table. -/
structure PreparedEntry where
  entry : CompactEntry
  documentIndex : Option Int

structure Prepared where
  header : Header
  entries : List PreparedEntry
  documents : List PreparedDocument
  fingerprintBytes : List UInt8
  projectBytes : List UInt8
  byteLength : Nat

def documentPath (index : Nat) : String := "documents[" ++ toString index ++ "].documentId"

def prepareDocuments (index : Nat) : List Document → Outcome (List PreparedDocument)
  | [] => .ok []
  | document :: rest => do
    let documentId ← stringField document.documentId.val (documentPath index)
    let version ← varUintLength (some document.version.val)
    let prepared ← prepareDocuments (index + 1) rest
    return ⟨document, documentId.bytes, documentId.byteLength + version⟩ :: prepared

/-- The identities of the table are distinct, so the map from identity to index holds the first. -/
def documentIndex (documents : List Document) (entry : CompactEntry) : Option Int :=
  (documents.findIdx? (documentIdentity · == documentIdentity entry.document)).map Int.ofNat

def prepareEntry (documents : List Document) (entry : CompactEntry) : PreparedEntry :=
  ⟨entry, documentIndex documents entry⟩

def entryLength (entry : PreparedEntry) : Outcome Nat := do
  let documentIndex ← varUintLength entry.documentIndex
  let windowOrdinal ← varUintLength (some entry.entry.windowOrdinal.val)
  let startByte ← varUintLength (some entry.entry.startByte.val)
  let endByte ← varUintLength (some entry.entry.endByte.val)
  return 8 + documentIndex + windowOrdinal + startByte + endByte

def prepareSnapshot (snapshot : Snapshot) : Outcome Prepared := do
  let header ← expectedSnapshot snapshot.fingerprint snapshot.project snapshot.dimensions
    Expected.nothing
  let entries ← normalizeEntries snapshot.entries
  let documents := (documentsByIdentity [] entries).insertionSort
    (fun left right => documentLe left right)
  let fingerprint ← stringField header.fingerprint.val "fingerprint"
  let project ← stringField header.project.val "project"
  let preparedDocuments ← prepareDocuments 0 documents
  let preparedEntries := entries.map (prepareEntry documents)
  let documentCount ← varUintLength (some preparedDocuments.length)
  let entryCount ← varUintLength (some preparedEntries.length)
  let entryLengths ← preparedEntries.mapM entryLength
  return {
    header, entries := preparedEntries, documents := preparedDocuments,
    fingerprintBytes := fingerprint.bytes, projectBytes := project.bytes,
    byteLength := MAGIC.length + 4 + 4 + fingerprint.byteLength + project.byteLength +
      documentCount + (preparedDocuments.map PreparedDocument.byteLength).sum +
      entryCount + entryLengths.sum }

/-- The loop that writes an integer, seven bits at a time. -/
def varUintBytes (integer : Nat) : List UInt8 :=
  if integer >>> 7 > 0 then
    UInt8.ofNat (integer &&& 0x7f ||| 0x80) :: varUintBytes (integer >>> 7)
  else [UInt8.ofNat (integer &&& 0x7f)]
termination_by integer
decreasing_by
  rw [Nat.shiftRight_eq_div_pow] at *
  omega

def writeVarUint (value : Option Int) : Outcome (List UInt8) := do
  let integer ← nonNegativeInteger value "varuint"
  return varUintBytes integer.val

def writeString (bytes : List UInt8) : Outcome (List UInt8) := do
  let length ← writeVarUint (some bytes.length)
  return length ++ bytes

def writeDocument (document : PreparedDocument) : Outcome (List UInt8) := do
  let documentId ← writeString document.documentIdBytes
  let version ← writeVarUint (some document.document.version.val)
  return documentId ++ version

def writeEntry (entry : PreparedEntry) : Outcome (List UInt8) := do
  let documentIndex ← writeVarUint entry.documentIndex
  let windowOrdinal ← writeVarUint (some entry.entry.windowOrdinal.val)
  let startByte ← writeVarUint (some entry.entry.startByte.val)
  let endByte ← writeVarUint (some entry.entry.endByte.val)
  return bigEndian 8 entry.entry.label.val ++ documentIndex ++ windowOrdinal ++ startByte ++ endByte

def writeSnapshot (prepared : Prepared) : Outcome (List UInt8) := do
  let fingerprint ← writeString prepared.fingerprintBytes
  let project ← writeString prepared.projectBytes
  let documentCount ← writeVarUint (some prepared.documents.length)
  let documents ← prepared.documents.mapM writeDocument
  let entryCount ← writeVarUint (some prepared.entries.length)
  let entries ← prepared.entries.mapM writeEntry
  return MAGIC ++ bigEndian 4 FORMAT_VERSION ++ bigEndian 4 prepared.header.dimensions.val ++
    fingerprint ++ project ++ documentCount ++ documents.flatten ++ entryCount ++ entries.flatten

inductive Failure where
  | typeError (message : String)
  | error (message : String)

/-- The writer's buffer has the computed length, so what is written fills it exactly when its length
    is the computed one. -/
def encodeSemanticMetadata (snapshot : Snapshot) : Except Failure (List UInt8) := do
  let prepared ← (prepareSnapshot snapshot).mapError Failure.typeError
  let written ← (writeSnapshot prepared).mapError Failure.typeError
  if written.length ≠ prepared.byteLength then
    .error (.error "Semantic metadata byte-length calculation is inconsistent.")
  else .ok written

/-! ## Reading -/

abbrev Read (α : Type) : Type := Reader String UInt8 α

def truncated : String := "Semantic metadata is truncated."

namespace Read

def bytes (length : Nat) : Read (List UInt8) := fun rest =>
  if (length : Int) > MAX_SAFE_INTEGER ∨ length > rest.length then .error truncated
  else .ok (rest.take length, rest.drop length)

/-- A big-endian integer of so many bytes. -/
def integer (width : Nat) : Read Nat := fun rest =>
  if rest.length < width then .error truncated
  else .ok (ofBigEndian (rest.take width), rest.drop width)

def uint32 : Read Nat := integer 4

def uint64 : Read Nat := integer 8

/-- What is left of the eight rounds, from the value and the shift of the rounds before. -/
def varUintRounds : Nat → Nat → Nat → Read Nat
  | 0, _, _ => fun _ => .error "Semantic metadata varuint is malformed."
  | rounds + 1, value, shift => fun
      | [] => .error "Semantic metadata varuint is truncated."
      | byte :: rest =>
        let value := value ||| (byte.toNat &&& 0x7f) <<< shift
        if byte.toNat &&& 0x80 = 0 then
          if (value : Int) > MAX_SAFE_INTEGER then
            .error "Semantic metadata varuint exceeds JavaScript's safe integer range."
          else .ok (value, rest)
        else varUintRounds rounds value (shift + 7) rest

def varUint : Read Nat := varUintRounds 8 0 0

def string (label : String) : Read NonEmptyString :=
  Reader.bind varUint fun length => Reader.bind (bytes length) fun value =>
    Reader.lift (nonEmptyString (some (decode value)) label)

end Read

def require (condition : Bool) (message : String) : Read Unit :=
  Reader.lift (if condition then .ok () else .error message)

/-- One round of the loop that reads the documents. -/
def readDocument (documents : List Document) : Read (List Document) :=
  Reader.bind (Read.string (documentPath documents.length)) fun documentId =>
  Reader.bind Read.varUint fun version =>
  Reader.bind (Reader.lift (positiveInteger (some version)
    ("documents[" ++ toString documents.length ++ "].version"))) fun version =>
  Reader.pure (documents ++ [⟨documentId, version⟩])

def documentAt (documents : List Document) (index : Nat) : Outcome Document :=
  match documents[index]? with
  | none => .error "Semantic metadata document index is invalid."
  | some document => .ok document

/-- One round of the loop that reads the entries. -/
def readEntry (documents : List Document) (entries : List CompactEntry) :
    Read (List CompactEntry) :=
  Reader.bind Read.uint64 fun label =>
  Reader.bind (require (label ≠ 0) "Semantic metadata labels must be positive.") fun _ =>
  Reader.bind Read.varUint fun documentIndex =>
  Reader.bind (Reader.lift (documentAt documents documentIndex)) fun document =>
  Reader.bind Read.varUint fun windowOrdinal =>
  Reader.bind Read.varUint fun startByte =>
  Reader.bind Read.varUint fun endByte =>
  Reader.bind (Reader.lift (compactEntry {
      label := some label, documentId := some document.documentId.val,
      version := some document.version.val, windowOrdinal := some windowOrdinal,
      startByte := some startByte, endByte := some endByte } (entryPath entries.length)))
    fun entry => Reader.lift (addEntry entries entry)

def readSnapshot (expected : Expected) : Read SnapshotResult :=
  Reader.bind (Read.bytes MAGIC.length) fun magic =>
  Reader.bind (require (magic = MAGIC) "Semantic metadata magic is invalid.") fun _ =>
  Reader.bind Read.uint32 fun version =>
  Reader.bind (require (version = FORMAT_VERSION) "Unsupported semantic metadata format.") fun _ =>
  Reader.bind Read.uint32 fun dimensions =>
  Reader.bind (Read.string "fingerprint") fun fingerprint =>
  Reader.bind (Read.string "project") fun project =>
  Reader.bind (Reader.lift (expectedSnapshot (some fingerprint.val) (some project.val)
    (some dimensions) expected)) fun header =>
  Reader.bind Read.varUint fun documentCount =>
  Reader.bind (Reader.loop readDocument documentCount []) fun documents =>
  Reader.bind Read.varUint fun entryCount =>
  Reader.bind (Reader.loop (readEntry documents) entryCount []) fun entries =>
  Reader.pure (snapshotResult header entries)

def decodeSemanticMetadata (value : List UInt8) (expected : Expected) : Outcome SnapshotResult :=
  Reader.complete "Semantic metadata has trailing bytes." (readSnapshot expected) value

end ContextStore.Metadata
