import ContextStore.Postings.Locator

/-! # Posting locators in a buffer

The decoder walks through a buffer with an offset. It never reads behind the end, and makes of the
buffer what the reader of the layout does (`decodePostingLocator_eq`). What it accepts is therefore
exactly what is written for some targets, and neither a beginning nor an extension of that
(`posting_locators_exact`). -/

namespace ContextStore.Postings.LocatorBuffer

open KeyEncoding (ofBigEndian ofBigEndian_bigEndian bigEndian_ofBigEndian length_bigEndian
  ofBigEndian_lt)
open Reader (Reads)
open Locator

inductive Failure where
  /-- An error of the decoder's own. -/
  | typeError (message : String)
  /-- A read behind the end of the buffer. -/
  | outOfRange

/-- `bytes[offset]`, a check on which stands for one on `undefined`. -/
def byteAt (bytes : List UInt8) (offset : Nat) : Except Failure UInt8 :=
  match bytes[offset]? with
  | some byte => .ok byte
  | none => .error .outOfRange

def readUInt32BE (bytes : List UInt8) (offset : Nat) : Except Failure Nat :=
  if bytes.length < offset + 4 then .error .outOfRange
  else .ok (ofBigEndian ((bytes.drop offset).take 4))

/-- A check that throws a `TypeError`. -/
def raise {α : Type} (outcome : Outcome α) : Except Failure α := outcome.mapError .typeError

/-- The loop over the targets. -/
def readTargets (bytes : List UInt8) :
    Nat → Nat → List (List UInt8) → Except Failure (List (List UInt8) × Nat)
  | 0, offset, targets => .ok (targets, offset)
  | count + 1, offset, targets =>
    if bytes.length < offset + 4 then .error (.typeError "Posting locator is truncated.")
    else do
      let length ← readUInt32BE bytes offset
      if length = 0 ∨ MAX_TARGET_KEY_BYTES < length ∨ bytes.length < offset + 4 + length then
        throw (.typeError "Posting locator target length is invalid.")
      readTargets bytes count (offset + 4 + length)
        (targets ++ [(bytes.drop (offset + 4)).take length])

def decodePostingLocator (bytes : List UInt8) (expectedKind : Option PostingLocatorKind) :
    Except Failure PostingLocator :=
  if bytes.length < HEADER_BYTES ∨ bytes.take MAGIC.length ≠ MAGIC then
    .error (.typeError "Posting locator has an unknown format.")
  else do
    let version ← byteAt bytes MAGIC.length
    raise (checkVersion version)
    let kind ← raise (locatorKind (← byteAt bytes (MAGIC.length + 1)))
    raise (checkKind expectedKind kind)
    let count ← readUInt32BE bytes (MAGIC.length + 2)
    raise (checkCount count)
    let read ← readTargets bytes count HEADER_BYTES []
    if read.2 ≠ bytes.length then
      throw (.typeError "Posting locator has trailing bytes.")
    return ⟨version, kind, read.1⟩

/-! ## The offset and what stands behind it -/

/-- What a reader hands on, told by the offset at which it begins. -/
def located {α : Type} (size : Nat) (outcome : Outcome (α × List UInt8)) :
    Except Failure (α × Nat) :=
  match outcome with
  | .ok (value, rest) => .ok (value, size - rest.length)
  | .error message => .error (.typeError message)

section Reading

variable {bytes : List UInt8}

theorem readTargets_eq (count : Nat) : ∀ (offset : Nat) (targets : List (List UInt8)),
    offset ≤ bytes.length → readTargets bytes count offset targets =
        located bytes.length (Reader.loop readNext count targets (bytes.drop offset)) := by
  induction count with
  | zero =>
    intro offset targets hle
    show Except.ok (targets, offset) = .ok (targets, bytes.length - (bytes.drop offset).length)
    rw [List.length_drop, Nat.sub_sub_self hle]
  | succ count ih =>
    intro offset targets hle
    have hrest : (bytes.drop offset).length = bytes.length - offset := List.length_drop
    rw [readTargets, Reader.loop]
    simp only [Reader.bind, readNext, readUInt32]
    by_cases hshort : bytes.length < offset + 4
    · rw [if_pos hshort, if_pos (by omega)]
      rfl
    rw [if_neg hshort, if_neg (by omega), readUInt32BE, if_neg hshort]
    simp only [Bind.bind, Except.bind, readTarget, List.drop_drop, List.length_drop]
    generalize ofBigEndian ((bytes.drop offset).take 4) = length
    by_cases hlength : length = 0 ∨ MAX_TARGET_KEY_BYTES < length ∨
        bytes.length < offset + 4 + length
    · rw [if_pos hlength, if_pos (by omega)]
      rfl
    · rw [if_neg hlength, if_neg (by omega)]
      exact ih _ _ (by omega)

/-- The buffer behind a header. -/
theorem exists_header (h : ¬ (bytes.length < HEADER_BYTES ∨ bytes.take MAGIC.length ≠ MAGIC)) :
    ∃ version code body, bytes = MAGIC ++ version :: code :: body ∧ 4 ≤ body.length := by
  rw [not_or, not_not] at h
  obtain ⟨hlength, hmagic⟩ := h
  have hsplit := List.take_append_drop MAGIC.length bytes
  rw [hmagic] at hsplit
  have hrest : 6 ≤ (bytes.drop MAGIC.length).length := by
    rw [List.length_drop]
    exact Nat.le_sub_of_add_le (Nat.le_of_not_lt hlength)
  cases hdrop : bytes.drop MAGIC.length with
  | nil =>
    rw [hdrop] at hrest
    cases hrest
  | cons version rest =>
    rw [hdrop] at hsplit hrest
    cases rest with
    | nil => simp at hrest
    | cons code body =>
      refine ⟨version, code, body, hsplit.symm, ?_⟩
      simpa using hrest

/-- The decoder is the reader of the layout, so that it never reads behind the end. -/
theorem decodePostingLocator_eq (bytes : List UInt8) (expectedKind : Option PostingLocatorKind) :
    decodePostingLocator bytes expectedKind =
      (Postings.decodePostingLocator bytes expectedKind).mapError .typeError := by
  rw [decodePostingLocator, Postings.decodePostingLocator]
  by_cases hheader : bytes.length < HEADER_BYTES ∨ bytes.take MAGIC.length ≠ MAGIC
  · rw [if_pos hheader, if_pos hheader]
    rfl
  rw [if_neg hheader, if_neg hheader]
  obtain ⟨version, code, body, hbytes, hbody⟩ := exists_header hheader
  have hversion : byteAt bytes MAGIC.length = .ok version := by rw [hbytes]; rfl
  have hcode : byteAt bytes (MAGIC.length + 1) = .ok code := by rw [hbytes]; rfl
  have hrest : bytes.drop MAGIC.length = version :: code :: body := by rw [hbytes]; rfl
  have hsize : bytes.length = 10 + body.length := by
    rw [hbytes, List.length_append, List.length_cons, List.length_cons]
    simp only [MAGIC, List.length_cons, List.length_nil]
    omega
  have hcount : readUInt32BE bytes (MAGIC.length + 2) = .ok (ofBigEndian (body.take 4)) := by
    rw [readUInt32BE, if_neg (by rw [hsize]; exact Nat.not_lt.mpr (Nat.add_le_add_left hbody 10)),
      hbytes]
    rfl
  have htargets : bytes.drop HEADER_BYTES = body.drop 4 := by rw [hbytes]; rfl
  rw [hversion, hcode, hcount, hrest, Reader.complete, readLocator]
  have henough : ¬ body.length < 4 := Nat.not_lt.mpr hbody
  simp only [Reader.bind, readByte, Reader.lift, Bind.bind, Except.bind, raise]
  -- the checks fail alike
  cases checkVersion version with
  | error message => rfl
  | ok _ =>
  simp only [Except.mapError, Except.map]
  cases locatorKind code with
  | error message => rfl
  | ok kind =>
  simp only []
  cases checkKind expectedKind kind with
  | error message => rfl
  | ok _ =>
  simp only [readUInt32, if_neg henough]
  cases checkCount (ofBigEndian (body.take 4)) with
  | error message => rfl
  | ok _ =>
  simp only []
  rw [readTargets_eq _ HEADER_BYTES [] (by rw [hsize]; exact Nat.add_le_add_left hbody 10),
    htargets]
  cases Reader.loop readNext (ofBigEndian (body.take 4)) [] (body.drop 4) with
  | error message => rfl
  | ok read =>
  obtain ⟨targets, rest⟩ := read
  simp only [located, Reader.pure]
  cases rest with
  | nil => simp; rfl
  | cons byte rest =>
    have hbehind : bytes.length - (byte :: rest).length ≠ bytes.length := by
      rw [List.length_cons]
      omega
    rw [if_pos hbehind]
    rfl

end Reading

/-! ## What is accepted -/

section Accepted

variable {bytes : List UInt8} {kind : PostingLocatorKind} {targets : List (List UInt8)}
  {expectedKind : Option PostingLocatorKind} {locator : PostingLocator}

theorem targets_of_mapM {labelled : List (List UInt8)} : ∀ {start : Nat} {read : List (List UInt8)},
    ((labelled.zipIdx start).mapM fun target =>
      targetKey target.1 ("targetKeys[" ++ toString target.2 ++ "]")) = .ok read →
      ∀ target ∈ labelled, target ≠ [] ∧ target.length ≤ MAX_TARGET_KEY_BYTES := by
  induction labelled with
  | nil =>
    intro start read _ target htarget
    cases htarget
  | cons first rest ih =>
    intro start read h target htarget
    rw [List.zipIdx_cons, List.mapM_cons] at h
    obtain ⟨key, hkey, h⟩ := Concurrent.bind_ok_iff.mp h
    obtain ⟨others, hothers, -⟩ := Concurrent.bind_ok_iff.mp h
    rcases List.mem_cons.mp htarget with rfl | htarget
    · exact (targetKey_eq_ok.mp hkey).2
    · exact ih hothers target htarget

/-- What is written for targets, behind the magic bytes. -/
def layout (kind : PostingLocatorKind) (targets : List (List UInt8)) : List UInt8 :=
  [FORMAT_VERSION] ++ ([kind.code] ++ (bigEndian 4 targets.length ++ targets.flatMap targetBytes))

theorem encodePostingLocator_eq_ok : encodePostingLocator kind targets = .ok bytes ↔
    Encodable targets ∧ bytes = MAGIC ++ layout kind targets := by
  constructor
  · intro h
    have hencodable : Encodable targets := by
      rw [encodePostingLocator] at h
      split at h
      · cases h
      · next hcount =>
        rw [not_or] at hcount
        obtain ⟨read, hread, -⟩ := Concurrent.bind_ok_iff.mp h
        exact ⟨hcount.1, Nat.le_of_not_lt hcount.2, targets_of_mapM hread⟩
    rw [encodePostingLocator_eq hencodable] at h
    exact ⟨hencodable, (Except.ok.inj h).symm⟩
  · rintro ⟨hencodable, rfl⟩
    exact encodePostingLocator_eq hencodable

theorem readUInt32_eq_ok {n : Nat} {rest : List UInt8} (h : readUInt32 bytes = .ok (n, rest)) :
    bytes = bigEndian 4 n ++ rest ∧ n < 2 ^ 32 := by
  rw [readUInt32] at h
  split at h
  · cases h
  · next hlength =>
    cases h
    have htake : (bytes.take 4).length = 4 := List.length_take_of_le (Nat.le_of_not_lt hlength)
    have hsame := bigEndian_ofBigEndian (bytes.take 4)
    have hlt := ofBigEndian_lt (bytes.take 4)
    rw [htake] at hsame hlt
    exact ⟨by rw [hsame, List.take_append_drop], hlt⟩

theorem readByte_eq_ok {byte : UInt8} {rest : List UInt8}
    (h : readByte bytes = .ok (byte, rest)) : bytes = byte :: rest := by
  cases bytes with
  | nil => cases h
  | cons first others =>
    cases h
    rfl

theorem locatorKind_eq_ok {code : UInt8} (h : locatorKind code = .ok kind) : code = kind.code := by
  rw [locatorKind] at h
  split at h
  · next hone =>
    cases h
    exact hone
  · split at h
    · next htwo =>
      cases h
      exact htwo
    · cases h

/-- A round reads a target that can be written. -/
theorem readNext_eq_ok {done next : List (List UInt8)} {rest : List UInt8}
    (h : readNext done bytes = .ok (next, rest)) :
    ∃ target, next = done ++ [target] ∧ bytes = targetBytes target ++ rest ∧ target ≠ [] ∧
      target.length ≤ MAX_TARGET_KEY_BYTES := by
  obtain ⟨length, middle, hlength, h⟩ := Reader.bind_eq_ok.mp h
  obtain ⟨target, last, htarget, h⟩ := Reader.bind_eq_ok.mp h
  cases h
  obtain ⟨hbytes, -⟩ := readUInt32_eq_ok hlength
  rw [readTarget] at htarget
  split at htarget
  · cases htarget
  · next hfits =>
    cases htarget
    rw [not_or, not_or] at hfits
    obtain ⟨hpos, hle, henough⟩ := hfits
    have hsize : (middle.take length).length = length :=
      List.length_take_of_le (Nat.le_of_not_lt henough)
    refine ⟨middle.take length, rfl, ?_, ?_, by rw [hsize]; exact Nat.le_of_not_lt hle⟩
    · rw [targetBytes, hsize, List.append_assoc, List.take_append_drop, hbytes]
    · intro hnil
      rw [hnil] at hsize
      exact hpos hsize.symm

/-- The loop reads targets that can be written, as they are written. -/
theorem loop_eq_ok (count : Nat) : ∀ {done read : List (List UInt8)} {bytes rest : List UInt8},
    Reader.loop readNext count done bytes = .ok (read, rest) →
      ∃ targets, read = done ++ targets ∧ targets.length = count ∧
        bytes = targets.flatMap targetBytes ++ rest ∧
        ∀ target ∈ targets, target ≠ [] ∧ target.length ≤ MAX_TARGET_KEY_BYTES := by
  induction count with
  | zero =>
    intro done read bytes rest h
    cases h
    exact ⟨[], (List.append_nil _).symm, rfl, rfl, by simp⟩
  | succ count ih =>
    intro done read bytes rest h
    obtain ⟨next, middle, hnext, hothers⟩ := Reader.bind_eq_ok.mp h
    obtain ⟨target, rfl, rfl, htarget⟩ := readNext_eq_ok hnext
    obtain ⟨targets, rfl, hlength, rfl, hall⟩ := ih hothers
    refine ⟨target :: targets, by simp, by rw [List.length_cons, hlength], by simp, ?_⟩
    intro other hother
    rcases List.mem_cons.mp hother with rfl | hother
    · exact htarget
    · exact hall other hother

theorem reads_layout (h : Encodable targets) (hkind : expectedKind.all (· = kind) = true) :
    Reads (readLocator expectedKind) (layout kind targets) ⟨FORMAT_VERSION, kind, targets⟩ :=
  reads_locator h hkind

theorem readLocator_eq_ok {rest : List UInt8}
    (h : readLocator expectedKind bytes = .ok (locator, rest)) :
    locator.version = FORMAT_VERSION ∧ expectedKind.all (· = locator.kind) = true ∧
      Encodable locator.targets ∧ bytes = layout locator.kind locator.targets ++ rest := by
  obtain ⟨version, coded, hversion, h⟩ := Reader.bind_eq_ok.mp h
  obtain ⟨_, hformat, h⟩ := Reader.lift_bind_eq_ok.mp h
  obtain ⟨code, body, hcode, h⟩ := Reader.bind_eq_ok.mp h
  obtain ⟨kind, hkind, h⟩ := Reader.lift_bind_eq_ok.mp h
  obtain ⟨_, hexpected, h⟩ := Reader.lift_bind_eq_ok.mp h
  obtain ⟨count, behind, hcount, h⟩ := Reader.bind_eq_ok.mp h
  obtain ⟨_, hlimit, h⟩ := Reader.lift_bind_eq_ok.mp h
  obtain ⟨read, last, hloop, h⟩ := Reader.bind_eq_ok.mp h
  cases h
  obtain ⟨targets, rfl, hlength, hbehind, hall⟩ := loop_eq_ok count hloop
  have hbody := (readUInt32_eq_ok hcount).1
  rw [checkVersion] at hformat
  rw [checkKind] at hexpected
  rw [checkCount] at hlimit
  split at hformat
  · next hone =>
    split at hexpected
    · next hsame =>
      split at hlimit
      · cases hlimit
      · next hfits =>
        rw [not_or] at hfits
        have hfew : read.length ≤ MAX_TARGETS := by omega
        refine ⟨hone, hsame, ⟨?_, hfew, hall⟩, ?_⟩
        · intro hnil
          dsimp only at hnil
          rw [hnil] at hlength
          exact hfits.1 hlength.symm
        · have hfirst := readByte_eq_ok hversion
          have hsecond := readByte_eq_ok hcode
          have hsame := locatorKind_eq_ok hkind
          rw [hfirst, hsecond, hbody, hbehind, layout, hlength, hsame, hone]
          simp
    · cases hexpected
  · cases hformat

/-- The buffers that are accepted are those that are written. -/
theorem decode_eq_ok : Postings.decodePostingLocator bytes expectedKind = .ok locator ↔
    locator.version = FORMAT_VERSION ∧ expectedKind.all (· = locator.kind) = true ∧
      encodePostingLocator locator.kind locator.targets = .ok bytes := by
  rw [encodePostingLocator_eq_ok, Postings.decodePostingLocator]
  constructor
  · intro h
    split at h
    · cases h
    · next hheader =>
      rw [not_or, not_not] at hheader
      obtain ⟨hversion, hkind, hencodable, hbytes⟩ := readLocator_eq_ok (Reader.complete_eq_ok.mp h)
      rw [List.append_nil] at hbytes
      refine ⟨hversion, hkind, hencodable, ?_⟩
      have hsplit := List.take_append_drop MAGIC.length bytes
      rw [hheader.2, hbytes] at hsplit
      exact hsplit.symm
  · rintro ⟨hversion, hkind, hencodable, rfl⟩
    have hheader : ¬ ((MAGIC ++ layout locator.kind locator.targets).length < HEADER_BYTES ∨
        (MAGIC ++ layout locator.kind locator.targets).take MAGIC.length ≠ MAGIC) := by
      rw [not_or, List.take_left]
      refine ⟨?_, not_not.mpr rfl⟩
      simp [MAGIC, HEADER_BYTES, layout, length_bigEndian]
    rw [if_neg hheader, List.drop_left, (reads_layout hencodable hkind).complete_eq, ← hversion]

theorem rejected (h : ∀ other, Postings.decodePostingLocator bytes expectedKind ≠ .ok other) :
    ∃ message, decodePostingLocator bytes expectedKind = .error (.typeError message) := by
  rw [decodePostingLocator_eq]
  cases hdecode : Postings.decodePostingLocator bytes expectedKind with
  | ok other => exact absurd hdecode (h other)
  | error message => exact ⟨message, rfl⟩

theorem mapError_eq_ok {outcome : Outcome PostingLocator} :
    outcome.mapError Failure.typeError = .ok locator ↔ outcome = .ok locator := by
  cases outcome with
  | error message => simp [Except.mapError]
  | ok other => simp [Except.mapError]

/-- More bytes behind a buffer that is accepted are not. -/
theorem extension_ne_ok {more : List UInt8} (hmore : more ≠ [])
    (h : Postings.decodePostingLocator bytes expectedKind = .ok locator) (other : PostingLocator) :
    Postings.decodePostingLocator (bytes ++ more) expectedKind ≠ .ok other := by
  obtain ⟨-, hkind, hencode⟩ := decode_eq_ok.mp h
  obtain ⟨hencodable, rfl⟩ := encodePostingLocator_eq_ok.mp hencode
  intro hok
  rw [Postings.decodePostingLocator] at hok
  split at hok
  · cases hok
  · rw [List.append_assoc, List.drop_left] at hok
    exact (reads_layout hencodable hkind).complete_append_ne_ok _ hmore other hok

/-- Every kind and targets that are encoded are decoded; every buffer that is accepted is what is
encoded for its kind and targets, and neither a beginning of it nor an extension is accepted; and
no buffer is read behind its end. -/
theorem posting_locators_exact :
    (∀ kind targets bytes expectedKind, encodePostingLocator kind targets = .ok bytes →
      expectedKind.all (· = kind) = true →
        decodePostingLocator bytes expectedKind = .ok ⟨FORMAT_VERSION, kind, targets⟩) ∧
    (∀ bytes expectedKind locator, decodePostingLocator bytes expectedKind = .ok locator →
      encodePostingLocator locator.kind locator.targets = .ok bytes ∧
      (∀ first, first <+: bytes → first ≠ bytes →
        ∃ message, decodePostingLocator first expectedKind = .error (.typeError message)) ∧
      ∀ more, more ≠ [] → ∃ message, decodePostingLocator (bytes ++ more) expectedKind =
          .error (.typeError message)) ∧
    ∀ bytes expectedKind, decodePostingLocator bytes expectedKind ≠ .error .outOfRange := by
  refine ⟨fun kind targets bytes expectedKind hencode hkind => ?_,
    fun bytes expectedKind locator h => ?_, fun bytes expectedKind h => ?_⟩
  · rw [decodePostingLocator_eq, mapError_eq_ok, decode_eq_ok]
    exact ⟨rfl, hkind, hencode⟩
  · rw [decodePostingLocator_eq, mapError_eq_ok] at h
    refine ⟨(decode_eq_ok.mp h).2.2, fun first hfirst hne => rejected fun other hother => ?_,
      fun more hmore => rejected (extension_ne_ok hmore h)⟩
    obtain ⟨more, rfl⟩ := hfirst
    have hmore : more ≠ [] := by
      intro hnil
      exact hne (by rw [hnil, List.append_nil])
    exact extension_ne_ok hmore hother locator h
  · rw [decodePostingLocator_eq] at h
    cases hdecode : Postings.decodePostingLocator bytes expectedKind with
    | ok other =>
      rw [hdecode] at h
      cases h
    | error message =>
      rw [hdecode] at h
      cases h

theorem posting_locators_exact_byte :
    decodePostingLocator (MAGIC ++ [1, 1, 0, 0, 0, 1, 0, 0, 0, 1, 7]) none =
        .ok ⟨1, .bm25Session, [[7]]⟩ ∧
      ∃ message, decodePostingLocator (MAGIC ++ [1, 1, 0, 0, 0, 1, 0, 0, 0, 1, 7] ++ [0]) none =
        .error (.typeError message) := by
  have hdecode := posting_locators_exact.1 .bm25Session [[7]]
    (MAGIC ++ [1, 1, 0, 0, 0, 1, 0, 0, 0, 1, 7]) none rfl rfl
  exact ⟨hdecode, (posting_locators_exact.2.1 _ none _ hdecode).2.2 [0] (List.cons_ne_nil _ _)⟩

end Accepted

end ContextStore.Postings.LocatorBuffer
