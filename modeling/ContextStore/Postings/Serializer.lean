import ContextStore.Postings.Block
import Mathlib.Data.Nat.Digits.Defs

/-! # A serializer of plain data

What is asked of the serializer of the runtime is not asked in vain: a tag tells the kind of a
value, numbers are written in base 255 up to a byte that is no digit, and lists behind their
length. -/

namespace ContextStore.Postings.PlainSerializer

open Reader

def writeNat (n : Nat) : List UInt8 := (Nat.digits 255 n).map UInt8.ofNat ++ [255]

def readDigits : Reader Unit UInt8 (List Nat)
  | [] => .error ()
  | byte :: rest =>
    if byte = 255 then .ok ([], rest)
    else (readDigits rest).map fun read => (byte.toNat :: read.1, read.2)

def readNat : Reader Unit UInt8 Nat :=
  Reader.bind readDigits fun digits => Reader.pure (Nat.ofDigits 255 digits)

/-- A loop that reads as many items. -/
def readMany {β : Type} (read : Reader Unit UInt8 β) (count : Nat) : Reader Unit UInt8 (List β) :=
  Reader.loop (fun items => Reader.bind read fun item => Reader.pure (items ++ [item])) count []

mutual

def serialize : JsValue → List UInt8
  | .number value =>
    0 :: (writeNat value.num.toNat ++ (writeNat (-value.num).toNat ++ writeNat value.den))
  | .string value => 1 :: (writeNat value.length ++ value.flatMap fun unit => writeNat unit.toNat)
  | .null => [2]
  | .array items => 3 :: (writeNat items.length ++ serializeAll items)
  | .other => [4]

def serializeAll : List JsValue → List UInt8
  | [] => []
  | item :: rest => serialize item ++ serializeAll rest

end

def readNumber : Reader Unit UInt8 JsValue :=
  Reader.bind readNat fun positive => Reader.bind readNat fun negative =>
    Reader.bind readNat fun den => Reader.pure (.number (mkRat (positive - negative) den))

def readString : Reader Unit UInt8 JsValue :=
  Reader.bind readNat fun count =>
    Reader.bind (readMany (Reader.bind readNat fun unit => Reader.pure (UInt16.ofNat unit)) count)
      fun units => Reader.pure (.string units)

def readArray (read : Reader Unit UInt8 JsValue) : Reader Unit UInt8 JsValue :=
  Reader.bind readNat fun count => Reader.bind (readMany read count) fun items =>
    Reader.pure (.array items)

/-- Reads a value that is nested no deeper than the fuel. -/
def read : Nat → Reader Unit UInt8 JsValue
  | 0, _ => .error ()
  | _, [] => .error ()
  | fuel + 1, tag :: rest =>
    if tag = 0 then readNumber rest
    else if tag = 1 then readString rest
    else if tag = 2 then .ok (.null, rest)
    else if tag = 3 then readArray (read fuel) rest
    else if tag = 4 then .ok (.other, rest)
    else .error ()

def deserialize (bytes : List UInt8) : Option JsValue :=
  (Reader.complete () (read bytes.length) bytes).toOption

/-! ## Round trip -/

theorem reads_digits {digits : List Nat} (h : ∀ digit ∈ digits, digit < 255) :
    Reads readDigits (digits.map UInt8.ofNat ++ [255]) digits := by
  intro rest
  induction digits with
  | nil => rfl
  | cons digit digits ih =>
    have hdigit := h digit List.mem_cons_self
    have htoNat : (UInt8.ofNat digit).toNat = digit := by
      rw [UInt8.toNat_ofNat']
      omega
    have hne : UInt8.ofNat digit ≠ 255 := by
      intro heq
      have := congrArg UInt8.toNat heq
      rw [htoNat] at this
      exact absurd this (Nat.ne_of_lt hdigit)
    rw [List.map_cons, List.cons_append, List.cons_append, readDigits, if_neg hne,
      ih fun other hother => h other (List.mem_cons_of_mem _ hother), htoNat]
    rfl

theorem reads_nat (n : Nat) : Reads readNat (writeNat n) n := by
  have hdigits : Reads readDigits (writeNat n) (Nat.digits 255 n) :=
    reads_digits fun digit hdigit => Nat.digits_lt_base (by decide) hdigit
  have hread : Reads readNat (writeNat n) (Nat.ofDigits 255 (Nat.digits 255 n)) :=
    hdigits.bind_nil (.pure _)
  rwa [Nat.ofDigits_digits] at hread

theorem reads_many {β : Type} {read : Reader Unit UInt8 β} {write : β → List UInt8}
    {items : List β} (h : ∀ item ∈ items, Reads read (write item) item) :
    Reads (readMany read items.length) (items.flatMap write) items := by
  refine Reads.loop items [] fun before item after hsplit => ?_
  rw [List.nil_append] at hsplit
  exact (h item (by rw [hsplit]; simp)).bind_nil (.pure _)

theorem serializeAll_eq (items : List JsValue) : serializeAll items = items.flatMap serialize := by
  induction items with
  | nil => rfl
  | cons item rest ih => rw [serializeAll, ih, List.flatMap_cons]

theorem reads_number (value : ℚ) : Reads readNumber
    (writeNat value.num.toNat ++ (writeNat (-value.num).toNat ++ writeNat value.den))
    (.number value) := by
  have hvalue : mkRat ((value.num.toNat : Int) - (-value.num).toNat) value.den = value := by
    have hnum : (value.num.toNat : Int) - (-value.num).toNat = value.num := by omega
    rw [hnum]
    exact Rat.mkRat_self value
  refine (reads_nat _).bind ((reads_nat _).bind ((reads_nat _).bind_nil ?_))
  rw [hvalue]
  exact .pure _

theorem reads_string (value : Unicode.Text) : Reads readString
    (writeNat value.length ++ value.flatMap fun unit => writeNat unit.toNat) (.string value) := by
  refine (reads_nat _).bind ((reads_many fun unit _ => ?_).bind_nil (.pure _))
  have hunit : UInt16.ofNat unit.toNat = unit := UInt16.ofNat_toNat
  refine (reads_nat _).bind_nil ?_
  rw [hunit]
  exact .pure _

theorem reads_serialize {fuel : Nat} {value : JsValue} (h : (serialize value).length ≤ fuel) :
    Reads (read fuel) (serialize value) value := by
  induction fuel generalizing value with
  | zero => cases value <;> simp [serialize] at h
  | succ fuel ih =>
    intro rest
    cases value with
    | number value => exact reads_number value rest
    | string value => exact reads_string value rest
    | null => rfl
    | other => rfl
    | array items =>
      have hread : Reads (readArray (read fuel))
          (writeNat items.length ++ serializeAll items) (.array items) := by
        rw [serializeAll_eq]
        refine (reads_nat _).bind ((reads_many fun item hitem => ih ?_).bind_nil (.pure _))
        -- an item takes less than the array does
        have hitems : (serialize item).length ≤ (items.flatMap serialize).length :=
          (List.sublist_flatten_of_mem (List.mem_map_of_mem hitem)).length_le
        rw [serialize, serializeAll_eq, List.length_cons, List.length_append] at h
        omega
      exact hread rest

theorem deserialize_serialize (value : JsValue) : deserialize (serialize value) = some value := by
  have hread := reads_serialize (Nat.le_refl (serialize value).length) []
  rw [List.append_nil] at hread
  rw [deserialize, complete_eq_ok.mpr hread]
  rfl

def v8 : V8 where
  serialize := serialize
  deserialize := deserialize
  serialize_ne_nil := by
    intro value
    cases value <;> simp [serialize]
  deserialize_serialize := deserialize_serialize

end ContextStore.Postings.PlainSerializer
