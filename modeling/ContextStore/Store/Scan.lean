import ContextStore.Foundation.Paging
import ContextStore.Store.KeyOrder

/-! # Scans of the store

A scan reads the stored keys that begin with a tuple, in either direction, a page at a time. Its
bounds are computed from the encoding of the tuple: the successor above, the tuple itself or the
cursor with a NUL below, and for the inclusive lower end of a reverse range the word below the
tuple, padded. -/

namespace ContextStore.StoreScan

open KeyEncoding OrderedCodes
open Concurrent (bind_ok_iff)

inductive ScanError where
  | key (error : TypeError)
  | keySize (actualBytes maxBytes : Nat) (boundary : String)
  | type (message : String)
  | range (message : String)

abbrev Result (α : Type) : Type := Except ScanError α

def DEFAULT_SCAN_LIMIT : Nat := 1000
def MAX_SCAN_LIMIT : Nat := 100000
def MAX_ROCKSDB_KEY_BYTES : Nat := 4096
def MAX_ROCKSDB_SCAN_BOUND_BYTES : Nat := 4096
def MAX_ROCKSDB_PERSISTED_KEY_BYTES : Nat := 2047

/-- A key as a caller gives it: its fields or its encoding. -/
inductive KeyInput where
  | fields (parts : List KeyField)
  | encoded (bytes : List UInt8)

def ofKey {α : Type} : KeyEncoding.Result α → Result α
  | .ok a => .ok a
  | .error e => .error (.key e)

def assertNativeKeySize (bytes : List UInt8) (boundary : String) : Result (List UInt8) :=
  if bytes.length > MAX_ROCKSDB_KEY_BYTES then
    .error (.keySize bytes.length MAX_ROCKSDB_KEY_BYTES boundary)
  else .ok bytes

def keyBytes (key : KeyInput) : Result (List UInt8) := do
  let bytes ← ofKey (match key with
    | .fields parts => KeyEncoding.encodeKey parts
    | .encoded bytes => encodedKey bytes)
  assertNativeKeySize bytes "key"

def nativePrefixBounds (parts : List KeyField) (boundary : String) : Result Bounds := do
  let bounds ← ofKey (prefixBounds parts)
  let _ ← assertNativeKeySize bounds.start (boundary ++ " start")
  let _ ← assertNativeKeySize bounds.stop (boundary ++ " end")
  pure bounds

def assertNativeScanBounds (start stop : List UInt8) : Result Unit :=
  if start.length + stop.length > MAX_ROCKSDB_SCAN_BOUND_BYTES then
    .error (.keySize (start.length + stop.length) MAX_ROCKSDB_SCAN_BOUND_BYTES "scan bounds")
  else .ok ()

/-- The loop of `reverseInclusiveLowerBound`, with the positions before `index` still to look at. -/
def lowerBefore (bytes : List UInt8) (maximumBytes : Nat) : Nat → List UInt8
  | 0 => []
  | index + 1 =>
    let byte := bytes.getD index 0
    if byte = 0 then lowerBefore bytes maximumBytes index
    else (bytes.take index ++
      (byte - 1) :: List.replicate (maximumBytes - (index + 1)) 0xff).take maximumBytes

def reverseInclusiveLowerBound (value : List UInt8) (maximumBytes : Nat) : List UInt8 :=
  lowerBefore value maximumBytes value.length

def scanLimit : Option Int → Result Nat
  | none => .ok DEFAULT_SCAN_LIMIT
  | some value =>
    if value < 0 ∨ value > MAX_SCAN_LIMIT then
      .error (.range ("Scan limit must be between 0 and " ++ toString MAX_SCAN_LIMIT ++ "."))
    else .ok value.toNat

structure ScanOptions where
  limit : Option Int := none
  after : Option KeyInput := none
  before : Option KeyInput := none
  reverse : Bool := false

/-- What the source relies on of the native store: its keys, which `assertPersistableKey` admitted,
    in their order, and the ranges of them that it yields. -/
structure NativeStore (ν : Type) where
  entries : List (List UInt8 × ν)
  sorted : entries.Pairwise fun a b => a.1 < b.1
  encoded : ∀ e ∈ entries, ∃ parts, Encodable parts ∧ e.1 = tupleBytes parts
  persistable : ∀ e ∈ entries, e.1.length ≤ MAX_ROCKSDB_PERSISTED_KEY_BYTES
  getRange : (start stop : List UInt8) → (reverse : Bool) → (limit : Nat) → List (List UInt8 × ν)
  getRange_forward : ∀ start stop limit, getRange start stop false limit =
    (entries.filter fun e => start ≤ e.1 && e.1 < stop).take limit
  getRange_reverse : ∀ start stop limit, getRange start stop true limit =
    (entries.reverse.filter fun e => e.1 ≤ start && stop < e.1).take limit

/-- A native store over given entries. -/
def NativeStore.ofEntries {ν : Type} (entries : List (List UInt8 × ν))
    (sorted : entries.Pairwise fun a b => a.1 < b.1)
    (encoded : ∀ e ∈ entries, ∃ parts, Encodable parts ∧ e.1 = tupleBytes parts)
    (persistable : ∀ e ∈ entries, e.1.length ≤ MAX_ROCKSDB_PERSISTED_KEY_BYTES) :
    NativeStore ν where
  entries := entries
  sorted := sorted
  encoded := encoded
  persistable := persistable
  getRange start stop reverse limit :=
    if reverse then (entries.reverse.filter fun e => e.1 ≤ start && stop < e.1).take limit
    else (entries.filter fun e => start ≤ e.1 && e.1 < stop).take limit
  getRange_forward _ _ _ := rfl
  getRange_reverse _ _ _ := rfl

def insidePrefix (bounds : Bounds) (key : List UInt8) : Bool :=
  !(decide (key < bounds.start)) && !(decide (bounds.stop ≤ key))

/-- The checks on `scan.before`. -/
def beforeCursor (bounds : Bounds) (options : ScanOptions) : Result (Option (List UInt8)) :=
  match options.before with
  | none => .ok none
  | some key =>
    if options.reverse = false then
      .error (.type "scan.before is only supported for reverse scans.")
    else do
      let before ← keyBytes key
      if insidePrefix bounds before then pure (some before)
      else throw (.range "scan.before must identify a key inside the requested prefix.")

/-- The checks on `scan.after`. -/
def afterCursor (bounds : Bounds) (options : ScanOptions) : Result (Option (List UInt8)) :=
  match options.after with
  | none => .ok none
  | some key =>
    if options.reverse = true then
      .error (.type "scan.after is only supported for forward scans.")
    else if options.before.isSome then
      .error (.type "scan.after and scan.before cannot be combined.")
    else do
      let after ← keyBytes key
      if insidePrefix bounds after then pure (some after)
      else throw (.range "scan.after must identify a key inside the requested prefix.")

variable {ν : Type}

/-- The loop over the native range: the cursor is passed over, and the page ends at its limit. -/
def emit (before : Option (List UInt8)) : Nat → List (List UInt8 × ν) → List (List UInt8 × ν)
  | _, [] => []
  | remaining, record :: records =>
    if before = some record.1 then emit before remaining records
    else if remaining ≤ 1 then [record]
    else record :: emit before (remaining - 1) records

/-- The part of `iterate` behind the checks. -/
def readRange (dbi : NativeStore ν) (limit : Nat) (bounds : Bounds)
    (before after : Option (List UInt8)) (reverse : Bool) : Result (List (List UInt8 × ν)) :=
  let stop := before.getD bounds.stop
  let start := (after.map (· ++ [0])).getD bounds.start
  if after.isSome ∧ stop ≤ start then .ok []
  else do
    assertNativeScanBounds start stop
    let rangeStart := if reverse then stop else start
    let rangeEnd := if reverse then
      reverseInclusiveLowerBound start (MAX_ROCKSDB_SCAN_BOUND_BYTES - stop.length) else stop
    pure (emit before limit
      (dbi.getRange rangeStart rangeEnd reverse (if before.isNone then limit else limit + 1)))

/-- A record is given by its key and its stored value. -/
def iterate (dbi : NativeStore ν) (parts : List KeyField) (options : ScanOptions) :
    Result (List (List UInt8 × ν)) := do
  let limit ← scanLimit options.limit
  if limit = 0 then pure []
  else do
    let bounds ← nativePrefixBounds parts "scan prefix"
    let before ← beforeCursor bounds options
    let after ← afterCursor bounds options
    readRange dbi limit bounds before after options.reverse

/-! ## What a scan is for -/

def beginsWith (parts : List KeyField) (key : List UInt8) : Bool :=
  match decodeKey key with
  | .ok fields => (parts.map KeyField.stored).isPrefixOf fields
  | .error _ => false

def KeyInput.bytes : KeyInput → List UInt8
  | .fields parts => tupleBytes parts
  | .encoded bytes => bytes

/-- The records of a prefix between two cursors. -/
def NativeStore.matching (dbi : NativeStore ν) (parts : List KeyField)
    (after before : Option (List UInt8)) : List (List UInt8 × ν) :=
  dbi.entries.filter fun e =>
    beginsWith parts e.1 && after.all (· < e.1) && before.all (e.1 < ·)

/-- The same in the direction of the scan. -/
def NativeStore.directed (dbi : NativeStore ν) (parts : List KeyField)
    (after before : Option (List UInt8)) (reverse : Bool) : List (List UInt8 × ν) :=
  if reverse then (dbi.matching parts after before).reverse else dbi.matching parts after before

/-- The options of a caller that reads in pages, with the last key it has seen. -/
def pageOptions (limit : Nat) (reverse : Bool) (cursor : Option (List UInt8)) : ScanOptions where
  limit := some limit
  after := if reverse then none else cursor.map .encoded
  before := if reverse then cursor.map .encoded else none
  reverse := reverse

/-- A caller that passes the last key of a page as the cursor of the next. -/
def readAll (dbi : NativeStore ν) (parts : List KeyField) (limit : Nat) (reverse : Bool) :
    Nat → Option (List UInt8) → Result (List (List UInt8 × ν))
  | 0, _ => .ok []
  | fuel + 1, cursor => do
    let records ← iterate dbi parts (pageOptions limit reverse cursor)
    match records.getLast? with
    | none => pure []
    | some last => do
      let rest ← readAll dbi parts limit reverse fuel (some last.1)
      pure (records ++ rest)

def NativeStore.SuccessorFree (dbi : NativeStore ν) (parts : List KeyField) : Prop :=
  ∀ e ∈ dbi.entries, prefixSuccessor (tupleBytes parts) ≠ some e.1

/-- Can the prefix be scanned? -/
structure Scannable (parts : List KeyField) : Prop where
  encodable : Encodable parts
  size : ∀ stop, prefixSuccessor (tupleBytes parts) = some stop →
    (tupleBytes parts).length + stop.length ≤ MAX_ROCKSDB_SCAN_BOUND_BYTES

/-- Does the native range hold nothing outside the prefix that the page has room for? -/
def NativeStore.Contained (dbi : NativeStore ν) (parts : List KeyField) (options : ScanOptions)
    (limit : Nat) : Prop :=
  limit = 0 ∨ options.reverse = false ∨
    match options.before with
    | none => dbi.SuccessorFree parts
    | some before =>
      limit ≤ (dbi.matching parts none (some before.bytes)).length ∨
        ∀ e ∈ dbi.entries, e.1 < tupleBytes parts →
          e.1 ≤ reverseInclusiveLowerBound (tupleBytes parts)
            (MAX_ROCKSDB_SCAN_BOUND_BYTES - before.bytes.length)

end ContextStore.StoreScan
