import ContextStore.Foundation.Reader
import ContextStore.Store.KeyEncoding

/-! # Posting locators

An alias of canonical postings: a header, and the keys of the postings one after the other, each
with its length in front. What is written reads back as it is (`decode_encodePostingLocator`). -/

namespace ContextStore.Postings

open KeyEncoding (ofBigEndian ofBigEndian_bigEndian length_bigEndian)
open Reader (Reads)

/-- Every error is a `TypeError`, told by its message. -/
abbrev Outcome (α : Type) : Type := Except String α

namespace Locator

def MAGIC : List UInt8 := [0x43, 0x57, 0x50, 0x4f, 0x53, 0x54, 0x4c, 0x31]

def FORMAT_VERSION : UInt8 := 1

def HEADER_BYTES : Nat := 14

def MAX_TARGETS : Nat := 1024

def MAX_TARGET_KEY_BYTES : Nat := 1048576

end Locator

open Locator

inductive PostingLocatorKind where
  | bm25Session
  | exactFolded
deriving DecidableEq

def PostingLocatorKind.code : PostingLocatorKind → UInt8
  | .bm25Session => 1
  | .exactFolded => 2

def locatorKind (value : UInt8) : Outcome PostingLocatorKind :=
  if value = 1 then .ok .bm25Session
  else if value = 2 then .ok .exactFolded
  else .error "Posting locator kind is unsupported."

def targetKey (value : List UInt8) (label : String) : Outcome (List UInt8) :=
  if value = [] ∨ MAX_TARGET_KEY_BYTES < value.length then
    .error (label ++ " must contain between 1 and " ++ toString MAX_TARGET_KEY_BYTES ++ " bytes.")
  else .ok value

/-- A target as it is written, with its length in front. -/
def targetBytes (target : List UInt8) : List UInt8 := bigEndian 4 target.length ++ target

def encodePostingLocator (kind : PostingLocatorKind) (targetKeys : List (List UInt8)) :
    Outcome (List UInt8) :=
  if targetKeys = [] ∨ MAX_TARGETS < targetKeys.length then
    .error ("Posting locators require between 1 and " ++ toString MAX_TARGETS ++ " target keys.")
  else do
    let targets ← targetKeys.zipIdx.mapM fun target =>
      targetKey target.1 ("targetKeys[" ++ toString target.2 ++ "]")
    pure (MAGIC ++ ([FORMAT_VERSION] ++ ([kind.code] ++
      (bigEndian 4 targets.length ++ targets.flatMap targetBytes))))

/-! ## Decoding -/

def readByte : Reader String UInt8 UInt8
  | [] => .error "Posting locator has an unknown format."
  | byte :: rest => .ok (byte, rest)

def readUInt32 : Reader String UInt8 Nat := fun bytes =>
  if bytes.length < 4 then .error "Posting locator is truncated."
  else .ok (ofBigEndian (bytes.take 4), bytes.drop 4)

def readTarget (length : Nat) : Reader String UInt8 (List UInt8) := fun bytes =>
  if length = 0 ∨ MAX_TARGET_KEY_BYTES < length ∨ bytes.length < length then
    .error "Posting locator target length is invalid."
  else .ok (bytes.take length, bytes.drop length)

structure PostingLocator where
  version : UInt8
  kind : PostingLocatorKind
  targets : List (List UInt8)

def checkVersion (version : UInt8) : Outcome Unit :=
  if version = FORMAT_VERSION then .ok ()
  else .error ("Posting locator version " ++ toString version ++ " is unsupported.")

def checkKind (expectedKind : Option PostingLocatorKind) (kind : PostingLocatorKind) :
    Outcome Unit :=
  if expectedKind.all (· = kind) then .ok ()
  else .error "Posting locator kind does not match its index."

def checkCount (count : Nat) : Outcome Unit :=
  if count = 0 ∨ MAX_TARGETS < count then .error "Posting locator target count is invalid."
  else .ok ()

/-- One round of the loop over the targets. -/
def readNext (targets : List (List UInt8)) : Reader String UInt8 (List (List UInt8)) :=
  Reader.bind readUInt32 fun length =>
  Reader.bind (readTarget length) fun target =>
  Reader.pure (targets ++ [target])

/-- What stands behind the magic bytes. -/
def readLocator (expectedKind : Option PostingLocatorKind) : Reader String UInt8 PostingLocator :=
  Reader.bind readByte fun version =>
  Reader.bind (Reader.lift (checkVersion version)) fun _ =>
  Reader.bind readByte fun code =>
  Reader.bind (Reader.lift (locatorKind code)) fun kind =>
  Reader.bind (Reader.lift (checkKind expectedKind kind)) fun _ =>
  Reader.bind readUInt32 fun count =>
  Reader.bind (Reader.lift (checkCount count)) fun _ =>
  Reader.bind (Reader.loop readNext count []) fun targets =>
  Reader.pure ⟨version, kind, targets⟩

def decodePostingLocator (bytes : List UInt8) (expectedKind : Option PostingLocatorKind) :
    Outcome PostingLocator :=
  if bytes.length < HEADER_BYTES ∨ bytes.take MAGIC.length ≠ MAGIC then
    .error "Posting locator has an unknown format."
  else Reader.complete "Posting locator has trailing bytes." (readLocator expectedKind)
    (bytes.drop MAGIC.length)

def isPostingLocator (bytes : List UInt8) : Bool :=
  MAGIC.length ≤ bytes.length && bytes.take MAGIC.length = MAGIC

/-! ## What is written reads back -/

theorem targetKey_eq_ok {value target : List UInt8} {label : String} :
    targetKey value label = .ok target ↔
      target = value ∧ value ≠ [] ∧ value.length ≤ MAX_TARGET_KEY_BYTES := by
  rw [targetKey]
  split_ifs with h
  · simp only [false_iff]
    rintro ⟨-, hne, hle⟩
    rcases h with h | h
    · exact hne h
    · omega
  · rw [not_or] at h
    simp only [Except.ok.injEq]
    constructor
    · rintro rfl
      exact ⟨rfl, h.1, Nat.le_of_not_lt h.2⟩
    · rintro ⟨rfl, -⟩
      rfl

def Encodable (targets : List (List UInt8)) : Prop :=
  targets ≠ [] ∧ targets.length ≤ MAX_TARGETS ∧
    ∀ target ∈ targets, target ≠ [] ∧ target.length ≤ MAX_TARGET_KEY_BYTES

variable {targets : List (List UInt8)} {kind : PostingLocatorKind} {target : List UInt8}

theorem mapM_targetKey (start : Nat)
    (h : ∀ target ∈ targets, target ≠ [] ∧ target.length ≤ MAX_TARGET_KEY_BYTES) :
    ((targets.zipIdx start).mapM fun target =>
      targetKey target.1 ("targetKeys[" ++ toString target.2 ++ "]")) = .ok targets := by
  induction targets generalizing start with
  | nil => rfl
  | cons target rest ih =>
    have hfirst : targetKey target ("targetKeys[" ++ toString start ++ "]") = .ok target :=
      targetKey_eq_ok.mpr ⟨rfl, h target List.mem_cons_self⟩
    rw [List.zipIdx_cons, List.mapM_cons, hfirst,
      ih (start + 1) fun other hother => h other (List.mem_cons_of_mem _ hother)]
    rfl

/-- Such targets are written behind a header. -/
theorem encodePostingLocator_eq (h : Encodable targets) :
    encodePostingLocator kind targets = .ok (MAGIC ++ ([FORMAT_VERSION] ++ ([kind.code] ++
      (bigEndian 4 targets.length ++ targets.flatMap targetBytes)))) := by
  obtain ⟨hne, hlength, hall⟩ := h
  rw [encodePostingLocator, if_neg (by rw [not_or]; exact ⟨hne, Nat.not_lt_of_le hlength⟩),
    mapM_targetKey 0 hall]
  rfl

theorem reads_byte (byte : UInt8) : Reads readByte [byte] byte := by
  intro rest
  rfl

theorem reads_uint32 {n : Nat} (h : n < 2 ^ 32) : Reads readUInt32 (bigEndian 4 n) n := by
  intro rest
  have hlength : (bigEndian 4 n).length = 4 := length_bigEndian 4 n
  rw [readUInt32, if_neg (by rw [List.length_append]; omega), List.take_left' hlength,
    List.drop_left' hlength, ofBigEndian_bigEndian,
    Nat.mod_eq_of_lt (Nat.lt_of_lt_of_eq h (by decide))]

theorem reads_target (hne : target ≠ []) (hle : target.length ≤ MAX_TARGET_KEY_BYTES) :
    Reads (readTarget target.length) target target := by
  intro rest
  have hpos := List.length_pos_iff.mpr hne
  rw [readTarget, if_neg (by rw [List.length_append]; omega), List.take_left, List.drop_left]

theorem reads_next (done : List (List UInt8)) (hne : target ≠ [])
    (hle : target.length ≤ MAX_TARGET_KEY_BYTES) :
    Reads (readNext done) (targetBytes target) (done ++ [target]) := by
  have hsize : target.length < 2 ^ 32 := by
    have hmax : MAX_TARGET_KEY_BYTES < 2 ^ 32 := by decide
    omega
  exact (reads_uint32 hsize).bind ((reads_target hne hle).bind_nil (Reads.pure _))

theorem locatorKind_code (kind : PostingLocatorKind) : locatorKind kind.code = .ok kind := by
  cases kind <;> rfl

/-- What is written behind the magic bytes is read. -/
theorem reads_locator {kind : PostingLocatorKind} {targets : List (List UInt8)}
    (h : Encodable targets) {expectedKind : Option PostingLocatorKind}
    (hkind : expectedKind.all (· = kind) = true) :
    Reads (readLocator expectedKind) ([FORMAT_VERSION] ++ ([kind.code] ++
      (bigEndian 4 targets.length ++ targets.flatMap targetBytes)))
      ⟨FORMAT_VERSION, kind, targets⟩ := by
  obtain ⟨hne, hlength, hall⟩ := h
  have hmax : MAX_TARGETS < 2 ^ 32 := by decide
  have hcount : checkCount targets.length = .ok () := by
    have hpos := List.length_pos_iff.mpr hne
    exact if_neg (by omega)
  have hloop : Reads (Reader.loop readNext targets.length [])
      (targets.flatMap targetBytes) targets := by
    refine Reads.loop targets [] fun before item after hsplit => ?_
    rw [List.nil_append] at hsplit
    obtain ⟨hitem, hsize⟩ := hall item (by rw [hsplit]; simp)
    exact reads_next before hitem hsize
  refine (reads_byte FORMAT_VERSION).bind (.lift_bind rfl ((reads_byte kind.code).bind ?_))
  refine .lift_bind (locatorKind_code kind) (.lift_bind (if_pos hkind) ?_)
  refine (reads_uint32 (by omega)).bind (.lift_bind hcount ?_)
  exact hloop.bind_nil (Reads.pure _)

theorem decode_encodePostingLocator (h : Encodable targets) {bytes : List UInt8}
    (hbytes : encodePostingLocator kind targets = .ok bytes) :
    decodePostingLocator bytes (some kind) = .ok ⟨FORMAT_VERSION, kind, targets⟩ := by
  rw [encodePostingLocator_eq h] at hbytes
  obtain rfl := Except.ok.inj hbytes
  have hread := @reads_locator kind targets h (some kind) (by simp)
  have hheader : ¬ ((MAGIC ++ ([FORMAT_VERSION] ++ ([kind.code] ++
      (bigEndian 4 targets.length ++ targets.flatMap targetBytes)))).length < HEADER_BYTES ∨
      (MAGIC ++ ([FORMAT_VERSION] ++ ([kind.code] ++
        (bigEndian 4 targets.length ++ targets.flatMap targetBytes)))).take MAGIC.length ≠
          MAGIC) := by
    rw [not_or, List.take_left]
    refine ⟨?_, not_not.mpr rfl⟩
    simp [MAGIC, HEADER_BYTES, length_bigEndian]
  rw [decodePostingLocator, if_neg hheader, List.drop_left]
  exact hread.complete_eq _

end ContextStore.Postings
