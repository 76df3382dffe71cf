import ContextStore.Foundation.Unicode

/-! # Base64url

Bytes as text of 64 letters, without padding: three bytes are four letters, and what is left over
two or three. Only one text of letters is the encoding of given bytes, and it is decoded to them
(`decode_encode`); others may be decoded to the same bytes. -/

namespace Base64Url

open Unicode (Text)

/-- `A-Z`, `a-z`, `0-9`, `-` and `_`. -/
def letter (n : Nat) : UInt16 :=
  if n < 26 then UInt16.ofNat (65 + n)
  else if n < 52 then UInt16.ofNat (71 + n)
  else if n < 62 then UInt16.ofNat (n - 4)
  else if n = 62 then 0x2d
  else 0x5f

def index (u : UInt16) : Option Nat :=
  if 65 ≤ u.toNat ∧ u.toNat < 91 then some (u.toNat - 65)
  else if 97 ≤ u.toNat ∧ u.toNat < 123 then some (u.toNat - 71)
  else if 48 ≤ u.toNat ∧ u.toNat < 58 then some (u.toNat + 4)
  else if u = 0x2d then some 62
  else if u = 0x5f then some 63
  else none

/-- `/^[A-Za-z0-9_-]+$/u.test(text)` -/
def isBase64Url (t : Text) : Bool := t ≠ [] && t.all fun u => (index u).isSome

/-- `bytes.toString("base64url")` -/
def encode : List UInt8 → Text
  | [] => []
  | [a] => [letter (a.toNat / 4), letter (a.toNat % 4 * 16)]
  | [a, b] =>
    [letter (a.toNat / 4), letter (a.toNat % 4 * 16 + b.toNat / 16), letter (b.toNat % 16 * 4)]
  | a :: b :: c :: rest =>
    letter (a.toNat / 4) :: letter (a.toNat % 4 * 16 + b.toNat / 16) ::
      letter (b.toNat % 16 * 4 + c.toNat / 64) :: letter (c.toNat % 64) :: encode rest

def ofIndices : List Nat → List UInt8
  | a :: b :: c :: d :: rest =>
    UInt8.ofNat (a * 4 + b / 16) :: UInt8.ofNat (b % 16 * 16 + c / 4) ::
      UInt8.ofNat (c % 4 * 64 + d) :: ofIndices rest
  | [a, b, c] => [UInt8.ofNat (a * 4 + b / 16), UInt8.ofNat (b % 16 * 16 + c / 4)]
  | [a, b] => [UInt8.ofNat (a * 4 + b / 16)]
  | _ => []

/-- `Buffer.from(text, "base64url")` of a text of letters; a letter that is left over is no byte. -/
def decode (t : Text) : List UInt8 := ofIndices (t.filterMap index)

theorem index_letter : ∀ n < 64, index (letter n) = some n := by
  decide

theorem letter_plain : ∀ n < 64, (letter n).toNat < 128 ∧ letter n ≠ 0x2e := by
  decide

/-- A letter is an ASCII character, and no dot. -/
theorem plain_of_index {u : UInt16} (h : (index u).isSome) : u.toNat < 128 ∧ u ≠ 0x2e := by
  have hdot : u = 0x2e → False := by
    rintro rfl
    exact absurd h (by decide)
  refine ⟨?_, hdot⟩
  unfold index at h
  split at h
  · omega
  split at h
  · omega
  split at h
  · omega
  split at h
  · next heq => exact heq ▸ by decide
  split at h
  · next heq => exact heq ▸ by decide
  · cases h

theorem exists_indices (bytes : List UInt8) : ∃ indices : List Nat,
    (∀ n ∈ indices, n < 64) ∧ encode bytes = indices.map letter ∧ ofIndices indices = bytes ∧
      indices.length = (4 * bytes.length + 2) / 3 := by
  induction bytes using encode.induct with
  | case1 => exact ⟨[], by simp, rfl, rfl, rfl⟩
  | case2 a =>
    have ha := a.toNat_lt
    refine ⟨[a.toNat / 4, a.toNat % 4 * 16], ?_, rfl, ?_, by simp⟩
    · simp only [List.mem_cons, List.not_mem_nil, or_false]
      omega
    · have hbyte : a.toNat / 4 * 4 + a.toNat % 4 * 16 / 16 = a.toNat := by omega
      rw [ofIndices, hbyte, UInt8.ofNat_toNat]
  | case3 a b =>
    have ha := a.toNat_lt
    have hb := b.toNat_lt
    refine ⟨[a.toNat / 4, a.toNat % 4 * 16 + b.toNat / 16, b.toNat % 16 * 4], ?_, rfl, ?_, by simp⟩
    · simp only [List.mem_cons, List.not_mem_nil, or_false]
      omega
    · have hfirst : a.toNat / 4 * 4 + (a.toNat % 4 * 16 + b.toNat / 16) / 16 = a.toNat := by omega
      have hsecond : (a.toNat % 4 * 16 + b.toNat / 16) % 16 * 16 + b.toNat % 16 * 4 / 4 =
          b.toNat := by omega
      rw [ofIndices, hfirst, hsecond, UInt8.ofNat_toNat, UInt8.ofNat_toNat]
  | case4 a b c rest ih =>
    have ha := a.toNat_lt
    have hb := b.toNat_lt
    have hc := c.toNat_lt
    obtain ⟨indices, hsmall, hencode, hdecode, hlength⟩ := ih
    refine ⟨a.toNat / 4 :: (a.toNat % 4 * 16 + b.toNat / 16) ::
      (b.toNat % 16 * 4 + c.toNat / 64) :: c.toNat % 64 :: indices, ?_, ?_, ?_, ?_⟩
    · intro n hn
      simp only [List.mem_cons] at hn
      rcases hn with rfl | rfl | rfl | rfl | hn
      · omega
      · omega
      · omega
      · omega
      · exact hsmall n hn
    · rw [encode, hencode]
      rfl
    · have hfirst : a.toNat / 4 * 4 + (a.toNat % 4 * 16 + b.toNat / 16) / 16 = a.toNat := by omega
      have hsecond : (a.toNat % 4 * 16 + b.toNat / 16) % 16 * 16 +
          (b.toNat % 16 * 4 + c.toNat / 64) / 4 = b.toNat := by omega
      have hthird : (b.toNat % 16 * 4 + c.toNat / 64) % 4 * 64 + c.toNat % 64 = c.toNat := by
        omega
      rw [ofIndices, hfirst, hsecond, hthird, hdecode, UInt8.ofNat_toNat, UInt8.ofNat_toNat,
        UInt8.ofNat_toNat]
    · simp only [List.length_cons]
      omega

theorem decode_encode (bytes : List UInt8) : decode (encode bytes) = bytes := by
  obtain ⟨indices, hsmall, hencode, hdecode, -⟩ := exists_indices bytes
  have hindices : (indices.map letter).filterMap index = indices := by
    rw [List.filterMap_map]
    refine (List.filterMap_congr fun n hn => ?_).trans List.filterMap_some
    exact index_letter n (hsmall n hn)
  rw [decode, hencode, hindices, hdecode]

theorem length_encode (bytes : List UInt8) :
    (encode bytes).length = (4 * bytes.length + 2) / 3 := by
  obtain ⟨indices, -, hencode, -, hlength⟩ := exists_indices bytes
  rw [hencode, List.length_map, hlength]

theorem isBase64Url_encode {bytes : List UInt8} (h : bytes ≠ []) :
    isBase64Url (encode bytes) = true := by
  obtain ⟨indices, hsmall, hencode, -, hlength⟩ := exists_indices bytes
  have hpos := List.length_pos_iff.mpr h
  rw [isBase64Url, Bool.and_eq_true, decide_eq_true_eq]
  refine ⟨?_, ?_⟩
  · intro hnil
    have := congrArg List.length hnil
    rw [length_encode, List.length_nil] at this
    omega
  · rw [hencode, List.all_eq_true]
    intro u hu
    obtain ⟨n, hn, rfl⟩ := List.mem_map.mp hu
    rw [index_letter n (hsmall n hn)]
    rfl

end Base64Url
