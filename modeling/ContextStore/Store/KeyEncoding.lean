import ContextStore.Foundation.OrderedCodes
import ContextStore.Foundation.Program
import ContextStore.Foundation.Unicode
import ContextStore.Store.KeyFields
import Mathlib.Tactic.Linarith
import Mathlib.Tactic.Ring

/-! # The encoding of keys

A key is a tuple of fields behind a format version. A field has a tag; texts and bytes carry their
length, integers take eight bytes, and the other values are their tag. Reading takes one field
after the other, so what is read back is what was written, up to the representation of integers and
unpaired surrogates. -/

namespace ContextStore.KeyEncoding

open Unicode
open Concurrent (bind_ok_iff)

/-- A value that a caller passes as a field. Numbers that are no integers are among the unsupported
    values. -/
inductive KeyField where
  | string (value : Text)
  | bytes (value : List UInt8)
  | number (value : Int)
  | bigint (value : Int)
  | boolean (value : Bool)
  | null
  | unsupported (type : String)
deriving DecidableEq

structure TypeError where
  message : String
  code : String

def invalidKey (message : String) : TypeError := ⟨message, "ERR_ROCKSDB_KEY"⟩

abbrev Result (α : Type) : Type := Except TypeError α

def KEY_FORMAT_VERSION : UInt8 := 1

def MAX_KEY_BYTES : Nat := 1024 * 1024

/-- `Number.MAX_SAFE_INTEGER` -/
def MAX_SAFE_INTEGER : Int := 2 ^ 53 - 1

namespace FIELD

def STRING : UInt8 := 0x10
def BYTES : UInt8 := 0x11
def UNSIGNED_INTEGER : UInt8 := 0x12
def FALSE : UInt8 := 0x13
def TRUE : UInt8 := 0x14
def NULL : UInt8 := 0x15

end FIELD

/-! ## Writing -/

def lengthPrefix (length : Nat) : Result (List UInt8) :=
  if length > 0xffffffff then
    .error (invalidKey ("Key field length " ++ toString length ++ " is outside the uint32 range."))
  else .ok (bigEndian 4 length)

def integerBytes (value : Int) : Result (List UInt8) :=
  if value < 0 ∨ value > 0xffffffffffffffff then
    .error (invalidKey "Integer key fields must fit in an unsigned 64-bit integer.")
  else .ok (bigEndian 8 value.toNat)

/-- `Number.isSafeInteger` -/
def isSafeInteger (value : Int) : Bool := -MAX_SAFE_INTEGER ≤ value && value ≤ MAX_SAFE_INTEGER

def unsupportedField (type : String) : TypeError :=
  invalidKey ("Unsupported key field type: " ++ type ++ ".")

def encodeField : KeyField → Result (List UInt8)
  | .string value => do
    let length ← lengthPrefix (utf8 value).length
    pure (FIELD.STRING :: (length ++ utf8 value))
  | .bytes value => do
    let length ← lengthPrefix value.length
    pure (FIELD.BYTES :: (length ++ value))
  | .number value =>
    if isSafeInteger value then do
      let integer ← integerBytes value
      pure (FIELD.UNSIGNED_INTEGER :: integer)
    else throw (unsupportedField "number")
  | .bigint value => do
    let integer ← integerBytes value
    pure (FIELD.UNSIGNED_INTEGER :: integer)
  | .boolean false => pure [FIELD.FALSE]
  | .boolean true => pure [FIELD.TRUE]
  | .null => pure [FIELD.NULL]
  | .unsupported type => throw (unsupportedField type)

def normalizeParts (parts : List KeyField) : Result (List KeyField) :=
  if parts = [] then .error (invalidKey "A key must contain at least one field.") else .ok parts

/-- The last check of `encodeKey`. -/
def withinLimit (key : List UInt8) : Result (List UInt8) :=
  if key.length > MAX_KEY_BYTES then
    .error (invalidKey ("Encoded key is " ++ toString key.length ++ " bytes; the maximum is "
      ++ toString MAX_KEY_BYTES ++ "."))
  else .ok key

def encodeKey (parts : List KeyField) : Result (List UInt8) := do
  let parts ← normalizeParts parts
  let fields ← parts.mapM encodeField
  withinLimit (KEY_FORMAT_VERSION :: fields.flatten)

/-! ## Reading -/

/-- The value of bytes read as an unsigned big-endian integer. -/
def ofBigEndian (bytes : List UInt8) : Nat := bytes.foldl (fun n b => n * 256 + b.toNat) 0

/-- A field as it stands in a key, before its text is decoded or its integer represented. -/
inductive RawField where
  | string (field : List UInt8)
  | bytes (field : List UInt8)
  | integer (value : Nat)
  | boolean (value : Bool)
  | null

/-- What `decodeKey` returns for a field. -/
def RawField.value : RawField → KeyField
  | .string field => .string (decode field)
  | .bytes field => .bytes field
  | .integer value =>
    if (value : Int) ≤ MAX_SAFE_INTEGER then .number value else .bigint value
  | .boolean value => .boolean value
  | .null => .null

def requireBytes : List UInt8 → Result (List UInt8)
  | [] => .error (invalidKey "Unsupported key format version empty.")
  | version :: rest =>
    if version ≠ KEY_FORMAT_VERSION then
      .error (invalidKey ("Unsupported key format version " ++ toString version.toNat ++ "."))
    else .ok (version :: rest)

def readLength (rest : List UInt8) : Result Nat :=
  if rest.length < 4 then .error (invalidKey "Truncated key field length.")
  else .ok (ofBigEndian (rest.take 4))

/-- The `length` bytes behind a length. -/
def readDelimited (length : Nat) (rest : List UInt8) : Result (List UInt8) :=
  if rest.length < length then .error (invalidKey "Truncated length-delimited key field.")
  else .ok (rest.take length)

/-- One turn of the loop of `decodeKey` behind the tag: the field and what is left of the bytes. -/
def readField (type : UInt8) (rest : List UInt8) : Result (RawField × List UInt8) :=
  if type = FIELD.STRING ∨ type = FIELD.BYTES then do
    let length ← readLength rest
    let field ← readDelimited length (rest.drop 4)
    pure (if type = FIELD.STRING then .string field else .bytes field, rest.drop (4 + length))
  else if type = FIELD.UNSIGNED_INTEGER then
    if rest.length < 8 then .error (invalidKey "Truncated integer key field.")
    else .ok (.integer (ofBigEndian (rest.take 8)), rest.drop 8)
  else if type = FIELD.FALSE then .ok (.boolean false, rest)
  else if type = FIELD.TRUE then .ok (.boolean true, rest)
  else if type = FIELD.NULL then .ok (.null, rest)
  else .error (invalidKey ("Unknown key field tag 0x"
    ++ String.ofList (Nat.toDigits 16 type.toNat) ++ "."))

/-- The loop of `decodeKey`; each field takes at least its tag. -/
def readFields : Nat → List UInt8 → Result (List RawField)
  | _, [] => pure []
  | 0, _ => pure []
  | fuel + 1, type :: rest => do
    let read ← readField type rest
    let fields ← readFields fuel read.2
    pure (read.1 :: fields)

/-- The fields of a key before their texts are decoded. -/
def rawFields (value : List UInt8) : Result (List RawField) := do
  let bytes ← requireBytes value
  readFields bytes.length bytes.tail

def decodeKey (value : List UInt8) : Result (List KeyField) := do
  let fields ← rawFields value
  pure (fields.map RawField.value)

/-- Validates a key that a caller supplies. -/
def encodedKey (value : List UInt8) : Result (List UInt8) := do
  let bytes ← requireBytes value
  let _ ← decodeKey bytes
  pure bytes

/-! ## Bounds -/

/-- The loop of `prefixSuccessor`, with the positions before `index` still to look at. -/
def successorBefore (bytes : List UInt8) : Nat → Option (List UInt8)
  | 0 => none
  | index + 1 =>
    let byte := bytes.getD index 0
    if byte = 0xff then successorBefore bytes index else some (bytes.take index ++ [byte + 1])

def prefixSuccessor (value : List UInt8) : Option (List UInt8) :=
  successorBefore value value.length

structure Bounds where
  start : List UInt8
  stop : List UInt8

def prefixBounds (parts : List KeyField) : Result Bounds := do
  let start ← encodeKey parts
  match prefixSuccessor start with
  | none => throw (invalidKey "Key prefix has no finite upper bound.")
  | some stop => pure ⟨start, stop⟩

/-! ## What a field is written as -/

/-- The encoding of a field that can be encoded. -/
def KeyField.word : KeyField → List UInt8
  | .string value => FIELD.STRING :: (bigEndian 4 (utf8 value).length ++ utf8 value)
  | .bytes value => FIELD.BYTES :: (bigEndian 4 value.length ++ value)
  | .number value => FIELD.UNSIGNED_INTEGER :: bigEndian 8 value.toNat
  | .bigint value => FIELD.UNSIGNED_INTEGER :: bigEndian 8 value.toNat
  | .boolean false => [FIELD.FALSE]
  | .boolean true => [FIELD.TRUE]
  | .null => [FIELD.NULL]
  | .unsupported _ => []

/-- Can the field be encoded? -/
def KeyField.Fits : KeyField → Prop
  | .string value => (utf8 value).length < 2 ^ 32
  | .bytes value => value.length < 2 ^ 32
  | .number value => 0 ≤ value ∧ value ≤ MAX_SAFE_INTEGER
  | .bigint value => 0 ≤ value ∧ value < 2 ^ 64
  | .boolean _ => True
  | .null => True
  | .unsupported _ => False

variable {parts : List KeyField} {bytes : List UInt8} {f : KeyField} {n : Nat}

theorem lengthPrefix_eq_ok_iff :
    lengthPrefix n = .ok bytes ↔ n < 2 ^ 32 ∧ bytes = bigEndian 4 n := by
  unfold lengthPrefix
  split
  · simp
    omega
  · simp only [Except.ok.injEq, eq_comm, iff_and_self]
    omega

theorem integerBytes_eq_ok_iff {value : Int} :
    integerBytes value = .ok bytes ↔
      (0 ≤ value ∧ value < 2 ^ 64) ∧ bytes = bigEndian 8 value.toNat := by
  unfold integerBytes
  split
  · simp
    omega
  · simp only [Except.ok.injEq, eq_comm, iff_and_self]
    omega

theorem isSafeInteger_iff {value : Int} :
    isSafeInteger value = true ↔ -MAX_SAFE_INTEGER ≤ value ∧ value ≤ MAX_SAFE_INTEGER := by
  simp [isSafeInteger]

theorem encodeField_eq_ok_iff : encodeField f = .ok bytes ↔ f.Fits ∧ bytes = f.word := by
  cases f with
  | string value =>
    simp only [encodeField, bind_ok_iff, lengthPrefix_eq_ok_iff, KeyField.Fits, KeyField.word]
    constructor
    · rintro ⟨_, ⟨hfits, rfl⟩, ⟨⟩⟩
      exact ⟨hfits, rfl⟩
    · rintro ⟨hfits, rfl⟩
      exact ⟨_, ⟨hfits, rfl⟩, rfl⟩
  | bytes value =>
    simp only [encodeField, bind_ok_iff, lengthPrefix_eq_ok_iff, KeyField.Fits, KeyField.word]
    constructor
    · rintro ⟨_, ⟨hfits, rfl⟩, ⟨⟩⟩
      exact ⟨hfits, rfl⟩
    · rintro ⟨hfits, rfl⟩
      exact ⟨_, ⟨hfits, rfl⟩, rfl⟩
  | number value =>
    simp only [encodeField, KeyField.Fits, KeyField.word]
    split
    · rename_i hsafe
      rw [isSafeInteger_iff] at hsafe
      simp only [bind_ok_iff, integerBytes_eq_ok_iff]
      constructor
      · rintro ⟨_, ⟨hrange, rfl⟩, ⟨⟩⟩
        exact ⟨⟨hrange.1, hsafe.2⟩, rfl⟩
      · rintro ⟨hfits, rfl⟩
        have hmax : MAX_SAFE_INTEGER < 2 ^ 64 := by decide
        exact ⟨_, ⟨⟨hfits.1, by omega⟩, rfl⟩, rfl⟩
    · rename_i hsafe
      rw [isSafeInteger_iff] at hsafe
      have hmin : -MAX_SAFE_INTEGER ≤ 0 := by decide
      constructor
      · rintro ⟨⟩
      · rintro ⟨hfits, -⟩
        exact absurd ⟨by omega, hfits.2⟩ hsafe
  | bigint value =>
    simp only [encodeField, bind_ok_iff, integerBytes_eq_ok_iff, KeyField.Fits, KeyField.word]
    constructor
    · rintro ⟨_, ⟨hfits, rfl⟩, ⟨⟩⟩
      exact ⟨hfits, rfl⟩
    · rintro ⟨hfits, rfl⟩
      exact ⟨_, ⟨hfits, rfl⟩, rfl⟩
  | boolean value => cases value <;> simp [encodeField, KeyField.Fits, KeyField.word, eq_comm,
      pure, Except.pure]
  | null => simp [encodeField, KeyField.Fits, KeyField.word, eq_comm, pure, Except.pure]
  | unsupported type => simp [encodeField, KeyField.Fits, throw, throwThe, MonadExceptOf.throw]

theorem mapM_encodeField_eq_ok_iff {fields : List (List UInt8)} :
    parts.mapM encodeField = .ok fields ↔
      (∀ f ∈ parts, f.Fits) ∧ fields = parts.map KeyField.word := by
  induction parts generalizing fields with
  | nil => simp [eq_comm, pure, Except.pure]
  | cons f parts ih =>
    simp only [List.mapM_cons, bind_ok_iff, encodeField_eq_ok_iff, ih, List.forall_mem_cons,
      List.map_cons]
    constructor
    · rintro ⟨_, ⟨hf, rfl⟩, _, ⟨hparts, rfl⟩, ⟨⟩⟩
      exact ⟨⟨hf, hparts⟩, rfl⟩
    · rintro ⟨⟨hf, hparts⟩, rfl⟩
      exact ⟨_, ⟨hf, rfl⟩, _, ⟨hparts, rfl⟩, rfl⟩

/-- What a tuple is encoded as. -/
def tupleBytes (parts : List KeyField) : List UInt8 :=
  KEY_FORMAT_VERSION :: parts.flatMap KeyField.word

/-- Can the tuple be encoded? -/
structure Encodable (parts : List KeyField) : Prop where
  nonempty : parts ≠ []
  fits : ∀ f ∈ parts, f.Fits
  size : (tupleBytes parts).length ≤ MAX_KEY_BYTES

theorem encodeKey_eq_ok_iff {key : List UInt8} :
    encodeKey parts = .ok key ↔ Encodable parts ∧ key = tupleBytes parts := by
  have hflatten : (parts.map KeyField.word).flatten = parts.flatMap KeyField.word := rfl
  simp only [encodeKey, normalizeParts, bind_ok_iff]
  constructor
  · rintro ⟨_, hparts, fields, hfields, hkey⟩
    split at hparts
    · cases hparts
    · rename_i hne
      cases hparts
      obtain ⟨hfits, rfl⟩ := mapM_encodeField_eq_ok_iff.mp hfields
      unfold withinLimit at hkey
      split at hkey
      · cases hkey
      · rename_i hsize
        cases hkey
        exact ⟨⟨hne, hfits, Nat.le_of_not_gt hsize⟩, rfl⟩
  · rintro ⟨⟨hne, hfits, hsize⟩, rfl⟩
    refine ⟨parts, by rw [if_neg hne], _, mapM_encodeField_eq_ok_iff.mpr ⟨hfits, rfl⟩, ?_⟩
    exact if_neg (Nat.not_lt_of_ge hsize)

/-! ## Integers in bytes -/

@[simp]
theorem length_bigEndian (count value : Nat) : (bigEndian count value).length = count := by
  induction count with
  | zero => rfl
  | succ count ih => rw [bigEndian, List.length_cons, ih]

theorem foldl_bigEndian (bytes : List UInt8) (start : Nat) :
    bytes.foldl (fun n b => n * 256 + b.toNat) start =
      start * 256 ^ bytes.length + ofBigEndian bytes := by
  induction bytes generalizing start with
  | nil => simp [ofBigEndian]
  | cons b bytes ih =>
    rw [ofBigEndian, List.foldl_cons, List.foldl_cons, ih, ih, List.length_cons, pow_succ]
    ring

theorem ofBigEndian_cons (b : UInt8) (bytes : List UInt8) :
    ofBigEndian (b :: bytes) = b.toNat * 256 ^ bytes.length + ofBigEndian bytes := by
  rw [ofBigEndian, List.foldl_cons, foldl_bigEndian, Nat.zero_mul, Nat.zero_add]

theorem ofBigEndian_lt (bytes : List UInt8) : ofBigEndian bytes < 256 ^ bytes.length := by
  induction bytes with
  | nil => decide
  | cons b bytes ih =>
    have hb : b.toNat < 256 := b.toNat_lt
    rw [ofBigEndian_cons, List.length_cons, pow_succ]
    nlinarith

theorem ofBigEndian_bigEndian (count value : Nat) :
    ofBigEndian (bigEndian count value) = value % 256 ^ count := by
  induction count with
  | zero => simp [bigEndian, ofBigEndian, Nat.mod_one]
  | succ count ih =>
    rw [bigEndian, ofBigEndian_cons, length_bigEndian, ih, Nat.mod_pow_succ, UInt8.toNat_ofNat']
    ring

theorem bigEndian_mul_add (count k value : Nat) :
    bigEndian count (k * 256 ^ count + value) = bigEndian count value := by
  induction count generalizing k value with
  | zero => rfl
  | succ count ih =>
    have hexpand : k * 256 ^ (count + 1) + value = k * 256 * 256 ^ count + value := by ring
    have hdiv : (k * 256 * 256 ^ count + value) / 256 ^ count = k * 256 + value / 256 ^ count := by
      rw [Nat.add_comm, Nat.add_mul_div_right _ _ (by positivity), Nat.add_comm]
    rw [hexpand, bigEndian, bigEndian, hdiv, ih]
    congr 1
    apply UInt8.toNat_inj.mp
    simp

theorem bigEndian_ofBigEndian (bytes : List UInt8) :
    bigEndian bytes.length (ofBigEndian bytes) = bytes := by
  induction bytes with
  | nil => rfl
  | cons b bytes ih =>
    have hdiv : (b.toNat * 256 ^ bytes.length + ofBigEndian bytes) / 256 ^ bytes.length
        = b.toNat := by
      rw [Nat.add_comm, Nat.add_mul_div_right _ _ (by positivity),
        Nat.div_eq_of_lt (ofBigEndian_lt bytes), Nat.zero_add]
    rw [List.length_cons, ofBigEndian_cons, bigEndian, hdiv, bigEndian_mul_add, ih]
    simp

/-! ## Reading what was written -/

/-- Is the text of the field without unpaired surrogates? -/
def KeyField.WellFormed : KeyField → Prop
  | .string value => isWellFormed value = true
  | _ => True

/-- The field with its integer as a number up to the safe range. -/
def KeyField.plain : KeyField → KeyField
  | .bigint value => if value ≤ MAX_SAFE_INTEGER then .number value else .bigint value
  | f => f

@[simp]
theorem plain_word (f : KeyField) : f.plain.word = f.word := by
  cases f with
  | bigint value => simp only [KeyField.plain]; split <;> rfl
  | _ => rfl

theorem plain_plain (f : KeyField) : f.plain.plain = f.plain := by
  cases f with
  | bigint value =>
    by_cases hsafe : value ≤ MAX_SAFE_INTEGER
    · simp [KeyField.plain, hsafe]
    · simp [KeyField.plain, hsafe]
  | _ => rfl

theorem fits_plain (h : f.Fits) : f.plain.Fits := by
  cases f with
  | bigint value =>
    simp only [KeyField.plain]
    split
    · rename_i hsafe
      exact ⟨h.1, hsafe⟩
    · exact h
  | _ => exact h

theorem wellFormed_plain (h : f.WellFormed) : f.plain.WellFormed := by
  cases f with
  | bigint value => simp only [KeyField.plain]; split <;> trivial
  | _ => exact h

theorem value_integer (n : Nat) : (RawField.integer n).value = (KeyField.bigint n).plain := rfl

theorem plain_number {value : Int} (h : value ≤ MAX_SAFE_INTEGER) :
    (KeyField.bigint value).plain = .number value := if_pos h

theorem word_ne_nil (h : f.Fits) : f.word ≠ [] := by
  cases f with
  | boolean value => cases value <;> exact List.cons_ne_nil _ _
  | unsupported type => exact h.elim
  | _ => exact List.cons_ne_nil _ _

theorem readDelimited_append (content rest : List UInt8) :
    readDelimited content.length (content ++ rest) = .ok content := by
  rw [readDelimited, if_neg (by simp), List.take_left]

theorem readLength_bigEndian (h : n < 2 ^ 32) (rest : List UInt8) :
    readLength (bigEndian 4 n ++ rest) = .ok n := by
  have htake : (bigEndian 4 n ++ rest).take 4 = bigEndian 4 n :=
    List.take_left' (length_bigEndian 4 n)
  rw [readLength, if_neg (by simp), htake, ofBigEndian_bigEndian,
    Nat.mod_eq_of_lt (Nat.lt_of_lt_of_eq h (by decide))]

/-- What `readField` returns behind the tag of a text or of bytes. -/
theorem readField_delimited {type : UInt8} (htype : type = FIELD.STRING ∨ type = FIELD.BYTES)
    {content : List UInt8} (h : content.length < 2 ^ 32) (rest : List UInt8) :
    readField type (bigEndian 4 content.length ++ content ++ rest) =
      .ok (if type = FIELD.STRING then .string content else .bytes content, rest) := by
  have hdrop : (bigEndian 4 content.length ++ (content ++ rest)).drop 4 = content ++ rest :=
    List.drop_left' (length_bigEndian 4 _)
  have hbehind : (bigEndian 4 content.length ++ (content ++ rest)).drop (4 + content.length)
      = rest := by
    rw [← List.drop_drop, hdrop, List.drop_left]
  rw [List.append_assoc, readField, if_pos htype, readLength_bigEndian h]
  show (readDelimited content.length
    ((bigEndian 4 content.length ++ (content ++ rest)).drop 4) >>= _) = _
  rw [hdrop, readDelimited_append]
  show Except.ok (_, (bigEndian 4 content.length ++ (content ++ rest)).drop
    (4 + content.length)) = _
  rw [hbehind]

theorem readField_integer (h : n < 2 ^ 64) (rest : List UInt8) :
    readField FIELD.UNSIGNED_INTEGER (bigEndian 8 n ++ rest) = .ok (.integer n, rest) := by
  have htake : (bigEndian 8 n ++ rest).take 8 = bigEndian 8 n :=
    List.take_left' (length_bigEndian 8 n)
  have hdrop : (bigEndian 8 n ++ rest).drop 8 = rest := List.drop_left' (length_bigEndian 8 n)
  rw [readField, if_neg (by decide), if_pos rfl, if_neg (by simp), htake, hdrop,
    ofBigEndian_bigEndian, Nat.mod_eq_of_lt (Nat.lt_of_lt_of_eq h (by decide))]

/-- A field is read back from its encoding, whatever follows. -/
theorem readField_word (hfits : f.Fits) (hwell : f.WellFormed) :
    ∃ type content raw, f.word = type :: content ∧ raw.value = f.plain ∧
      ∀ rest, readField type (content ++ rest) = .ok (raw, rest) := by
  cases f with
  | string value =>
    refine ⟨_, _, .string (utf8 value), rfl, ?_, readField_delimited (.inl rfl) hfits⟩
    show KeyField.string (decode (utf8 value)) = .string value
    rw [decode_utf8, toWellFormed, toWellFormed_of_isWellFormed hwell]
  | bytes value =>
    exact ⟨_, _, .bytes value, rfl, rfl, readField_delimited (.inr rfl) hfits⟩
  | number value =>
    obtain ⟨n, rfl⟩ := Int.eq_ofNat_of_zero_le hfits.1
    have hmax : MAX_SAFE_INTEGER < 2 ^ 64 := by decide
    have hn : n < 2 ^ 64 := by
      have := hfits.2
      omega
    exact ⟨_, _, .integer n, rfl, plain_number hfits.2, readField_integer hn⟩
  | bigint value =>
    obtain ⟨n, rfl⟩ := Int.eq_ofNat_of_zero_le hfits.1
    have hn : n < 2 ^ 64 := by
      have := hfits.2
      omega
    exact ⟨_, _, .integer n, rfl, rfl, readField_integer hn⟩
  | boolean value =>
    cases value with
    | false => exact ⟨_, [], .boolean false, rfl, rfl, fun _ => rfl⟩
    | true => exact ⟨_, [], .boolean true, rfl, rfl, fun _ => rfl⟩
  | null => exact ⟨_, [], .null, rfl, rfl, fun _ => rfl⟩
  | unsupported type => exact hfits.elim

theorem readFields_words (hfits : ∀ f ∈ parts, f.Fits) (hwell : ∀ f ∈ parts, f.WellFormed)
    (fuel : Nat) (hfuel : (parts.flatMap KeyField.word).length ≤ fuel) :
    ∃ raws, readFields fuel (parts.flatMap KeyField.word) = .ok raws ∧
      raws.map RawField.value = parts.map KeyField.plain := by
  induction parts generalizing fuel with
  | nil => exact ⟨[], by cases fuel <;> rfl, rfl⟩
  | cons f parts ih =>
    rw [List.forall_mem_cons] at hfits hwell
    obtain ⟨type, content, raw, hword, hvalue, hread⟩ := readField_word hfits.1 hwell.1
    rw [List.flatMap_cons, hword, List.cons_append, List.length_cons, List.length_append] at hfuel
    obtain ⟨fuel, rfl⟩ : ∃ n, fuel = n + 1 := ⟨fuel - 1, by omega⟩
    obtain ⟨raws, hraws, hvalues⟩ := ih hfits.2 hwell.2 fuel (by omega)
    refine ⟨raw :: raws, ?_, by rw [List.map_cons, List.map_cons, hvalue, hvalues]⟩
    rw [List.flatMap_cons, hword, List.cons_append, readFields, hread]
    show (readFields fuel (parts.flatMap KeyField.word) >>= _) = _
    rw [hraws]
    rfl

theorem decodeKey_tupleBytes (hfits : ∀ f ∈ parts, f.Fits) (hwell : ∀ f ∈ parts, f.WellFormed) :
    decodeKey (tupleBytes parts) = .ok (parts.map KeyField.plain) := by
  obtain ⟨raws, hraws, hvalues⟩ := readFields_words hfits hwell
    (tupleBytes parts).length (by simp [tupleBytes])
  have hraw : rawFields (tupleBytes parts) = .ok raws := hraws
  rw [decodeKey, hraw]
  show Except.ok (raws.map RawField.value) = _
  rw [hvalues]

/-! ## Writing what was read -/

/-- Are the bytes of the text UTF-8? -/
def RawField.WellFormed : RawField → Prop
  | .string field => ∃ chars, field = encodeChars chars
  | _ => True

theorem readLength_eq_ok_iff {rest : List UInt8} :
    readLength rest = .ok n ↔ 4 ≤ rest.length ∧ n = ofBigEndian (rest.take 4) := by
  unfold readLength
  split
  · simp
    omega
  · simp only [Except.ok.injEq, eq_comm, iff_and_self]
    omega

theorem readDelimited_eq_ok_iff {rest content : List UInt8} :
    readDelimited n rest = .ok content ↔ n ≤ rest.length ∧ content = rest.take n := by
  unfold readDelimited
  split
  · simp
    omega
  · simp only [Except.ok.injEq, eq_comm, iff_and_self]
    omega

theorem delimited_bytes {rest content : List UInt8} (hn : readLength rest = .ok n)
    (hcontent : readDelimited n (rest.drop 4) = .ok content) :
    content.length < 2 ^ 32 ∧
      rest = bigEndian 4 content.length ++ content ++ rest.drop (4 + n) := by
  obtain ⟨hfour, rfl⟩ := readLength_eq_ok_iff.mp hn
  obtain ⟨hle, rfl⟩ := readDelimited_eq_ok_iff.mp hcontent
  have hlength : (rest.take 4).length = 4 := List.length_take_of_le hfour
  have hlt := ofBigEndian_lt (rest.take 4)
  rw [hlength] at hlt
  have hbytes : bigEndian 4 (ofBigEndian (rest.take 4)) = rest.take 4 := by
    have := bigEndian_ofBigEndian (rest.take 4)
    rwa [hlength] at this
  rw [List.length_take_of_le hle, hbytes, ← List.drop_drop, List.append_assoc,
    List.take_append_drop, List.take_append_drop]
  exact ⟨hlt, rfl⟩

theorem readField_sound {type : UInt8} {rest left : List UInt8} {raw : RawField}
    (h : readField type rest = .ok (raw, left)) (hwell : raw.WellFormed) :
    raw.value.Fits ∧ type :: rest = raw.value.word ++ left := by
  unfold readField at h
  split at h
  · rename_i htype
    simp only [bind_ok_iff] at h
    obtain ⟨n, hn, content, hcontent, hread⟩ := h
    obtain ⟨hsize, hrest⟩ := delimited_bytes hn hcontent
    cases hread
    obtain rfl | rfl := htype
    · obtain ⟨chars, rfl⟩ : ∃ chars, content = encodeChars chars := hwell
      have hvalue : utf8 (decode (encodeChars chars)) = encodeChars chars := by
        rw [decode_encodeChars, utf8_codeUnits]
      have hword : (RawField.string (encodeChars chars)).value.word =
          FIELD.STRING :: (bigEndian 4 (encodeChars chars).length ++ encodeChars chars) := by
        rw [RawField.value, KeyField.word, hvalue]
      refine ⟨?_, ?_⟩
      · show (utf8 (decode (encodeChars chars))).length < 2 ^ 32
        rw [hvalue]
        exact hsize
      · show FIELD.STRING :: rest = (RawField.string (encodeChars chars)).value.word ++ _
        rw [hword, List.cons_append, ← hrest]
    · refine ⟨hsize, ?_⟩
      show FIELD.BYTES :: rest = FIELD.BYTES :: (bigEndian 4 content.length ++ content) ++ _
      rw [List.cons_append, ← hrest]
  · split at h
    · rename_i htype
      subst htype
      split at h
      · cases h
      · rename_i height
        cases h
        have hlength : (rest.take 8).length = 8 := List.length_take_of_le (by omega)
        have hlt := ofBigEndian_lt (rest.take 8)
        have hbytes := bigEndian_ofBigEndian (rest.take 8)
        rw [hlength] at hlt hbytes
        rw [value_integer, plain_word]
        refine ⟨fits_plain ⟨Int.natCast_nonneg _, ?_⟩, ?_⟩
        · exact_mod_cast Nat.lt_of_lt_of_eq hlt (by decide)
        · show FIELD.UNSIGNED_INTEGER :: rest = FIELD.UNSIGNED_INTEGER ::
            (bigEndian 8 (Int.toNat (ofBigEndian (rest.take 8))) ++ rest.drop 8)
          rw [Int.toNat_natCast, hbytes, List.take_append_drop]
    · split at h
      · rename_i htype
        cases h
        exact ⟨trivial, by rw [htype]; rfl⟩
      · split at h
        · rename_i htype
          cases h
          exact ⟨trivial, by rw [htype]; rfl⟩
        · split at h
          · rename_i htype
            cases h
            exact ⟨trivial, by rw [htype]; rfl⟩
          · cases h

theorem readFields_sound {fuel : Nat} {raws : List RawField} (hfuel : bytes.length ≤ fuel)
    (h : readFields fuel bytes = .ok raws) (hwell : ∀ raw ∈ raws, raw.WellFormed) :
    (∀ raw ∈ raws, raw.value.Fits) ∧ bytes = (raws.map RawField.value).flatMap KeyField.word := by
  induction fuel generalizing bytes raws with
  | zero =>
    obtain rfl := List.eq_nil_of_length_eq_zero (Nat.le_zero.mp hfuel)
    cases h
    exact ⟨List.forall_mem_nil _, rfl⟩
  | succ fuel ih =>
    cases bytes with
    | nil =>
      cases h
      exact ⟨List.forall_mem_nil _, rfl⟩
    | cons type rest =>
      simp only [readFields, bind_ok_iff] at h
      obtain ⟨read, hread, tail, htail, h⟩ := h
      cases h
      rw [List.forall_mem_cons] at hwell
      obtain ⟨hfits, hbytes⟩ := readField_sound hread hwell.1
      have hshort : read.2.length ≤ fuel := by
        have hlength := congrArg List.length hbytes
        have hword := List.length_pos_iff.mpr (word_ne_nil hfits)
        rw [List.length_cons, List.length_append] at hlength
        rw [List.length_cons] at hfuel
        omega
      obtain ⟨htailfits, hleft⟩ := ih hshort htail hwell.2
      refine ⟨List.forall_mem_cons.mpr ⟨hfits, htailfits⟩, ?_⟩
      rw [List.map_cons, List.flatMap_cons, ← hleft]
      exact hbytes

theorem requireBytes_eq_ok_iff {value : List UInt8} :
    requireBytes value = .ok bytes ↔ bytes = value ∧ ∃ rest, value = KEY_FORMAT_VERSION :: rest := by
  cases value with
  | nil => simp [requireBytes]
  | cons version rest =>
    rw [requireBytes]
    split
    · rename_i hversion
      simp [hversion]
    · rename_i hversion
      rw [not_not] at hversion
      simp [hversion, eq_comm]

/-- A key that is read back is the encoding of its fields. -/
theorem tupleBytes_of_rawFields {value : List UInt8} {raws : List RawField}
    (h : rawFields value = .ok raws) (hwell : ∀ raw ∈ raws, raw.WellFormed) :
    (∀ f ∈ raws.map RawField.value, f.Fits) ∧ tupleBytes (raws.map RawField.value) = value := by
  simp only [rawFields, bind_ok_iff, requireBytes_eq_ok_iff] at h
  obtain ⟨_, ⟨rfl, rest, rfl⟩, hread⟩ := h
  obtain ⟨hfits, hbytes⟩ := readFields_sound (by simp) hread hwell
  refine ⟨?_, by rw [tupleBytes, ← hbytes, List.tail_cons]⟩
  intro f hf
  obtain ⟨raw, hraw, rfl⟩ := List.mem_map.mp hf
  exact hfits raw hraw

end ContextStore.KeyEncoding
