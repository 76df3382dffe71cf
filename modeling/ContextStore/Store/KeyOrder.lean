import ContextStore.Store.KeyEncoding
import Mathlib.Data.List.Shortlex

/-! # The order of keys

The encodings of fields differ at the first position where they are not equal, and in the order of
the fields, so keys are ordered as tuples and the keys of a tuple prefix are an interval. Scans,
paging and the separation of projects rest on this. -/

namespace ContextStore.KeyEncoding

open Unicode OrderedCodes

/-! ## The order of fields -/

def KeyField.tag : KeyField → UInt8
  | .string _ => FIELD.STRING
  | .bytes _ => FIELD.BYTES
  | .number _ => FIELD.UNSIGNED_INTEGER
  | .bigint _ => FIELD.UNSIGNED_INTEGER
  | .boolean false => FIELD.FALSE
  | .boolean true => FIELD.TRUE
  | .null => FIELD.NULL
  | .unsupported _ => 0

def KeyField.amount : KeyField → Int
  | .number value => value
  | .bigint value => value
  | _ => 0

/-- The order of two fields with one tag: texts and bytes by their length and then by their bytes,
    integers by their value. -/
def KeyField.contentBefore : KeyField → KeyField → Prop
  | .string s, .string t => List.Shortlex (· < ·) (utf8 s) (utf8 t)
  | .bytes s, .bytes t => List.Shortlex (· < ·) s t
  | f, g => f.amount < g.amount

/-- The order of fields: the tag first. -/
def KeyField.before (f g : KeyField) : Prop :=
  f.tag < g.tag ∨ f.tag = g.tag ∧ f.contentBefore g

variable {parts : List KeyField} {f : KeyField}

theorem word_eq_tag_cons (h : f.Fits) : ∃ content, f.word = f.tag :: content := by
  cases f with
  | boolean value => cases value <;> exact ⟨[], rfl⟩
  | unsupported type => exact h.elim
  | _ => exact ⟨_, rfl⟩

theorem tag_ne_zero (h : f.Fits) : f.tag ≠ 0 := by
  cases f with
  | string value => exact (by decide : FIELD.STRING ≠ 0)
  | bytes value => exact (by decide : FIELD.BYTES ≠ 0)
  | number value => exact (by decide : FIELD.UNSIGNED_INTEGER ≠ 0)
  | bigint value => exact (by decide : FIELD.UNSIGNED_INTEGER ≠ 0)
  | boolean value => cases value <;> decide
  | null => decide
  | unsupported type => exact h.elim

/-- Bytes of one length are ordered as the integers they stand for. -/
theorem ofBigEndian_mono {s t : List UInt8} (hlength : s.length = t.length) (h : s < t) :
    ofBigEndian s < ofBigEndian t := by
  induction s generalizing t with
  | nil =>
    obtain rfl := List.eq_nil_of_length_eq_zero hlength.symm
    exact absurd h (lt_irrefl _)
  | cons a s ih =>
    cases t with
    | nil => simp at hlength
    | cons b t =>
      rw [List.length_cons, List.length_cons, Nat.succ_inj] at hlength
      rw [ofBigEndian_cons, ofBigEndian_cons, hlength]
      obtain hhead | ⟨rfl, htail⟩ := List.cons_lt_cons_iff.mp h
      · have hlt := ofBigEndian_lt s
        rw [hlength] at hlt
        have hmul : (a.toNat + 1) * 256 ^ t.length ≤ b.toNat * 256 ^ t.length :=
          Nat.mul_le_mul_right _ (UInt8.lt_iff_toNat_lt.mp hhead)
        rw [Nat.add_mul, Nat.one_mul] at hmul
        omega
      · have := ih hlength htail
        omega

theorem bigEndian_diverges {count m n : Nat} (hmn : m < n) (hn : n < 256 ^ count) :
    Diverges (bigEndian count m) (bigEndian count n) := by
  refine diverges_of_lt ?_ (by simp)
  have hm : m < 256 ^ count := hmn.trans hn
  obtain h | h | h := lt_trichotomy (bigEndian count m) (bigEndian count n)
  · exact h
  · have heq := congrArg ofBigEndian h
    rw [ofBigEndian_bigEndian, ofBigEndian_bigEndian, Nat.mod_eq_of_lt hm, Nat.mod_eq_of_lt hn]
      at heq
    omega
  · have hlt := ofBigEndian_mono (by simp) h
    rw [ofBigEndian_bigEndian, ofBigEndian_bigEndian, Nat.mod_eq_of_lt hm, Nat.mod_eq_of_lt hn]
      at hlt
    omega

/-- Delimited contents differ in the order of their lengths and then of their bytes. -/
theorem delimited_diverges {s t : List UInt8} (ht : t.length < 2 ^ 32)
    (h : List.Shortlex (· < ·) s t) :
    Diverges (bigEndian 4 s.length ++ s) (bigEndian 4 t.length ++ t) := by
  obtain hlength | ⟨hlength, hlex⟩ := List.shortlex_def.mp h
  · exact (bigEndian_diverges hlength (Nat.lt_of_lt_of_eq ht (by decide))).append s t
  · rw [hlength]
    exact (diverges_of_lt hlex hlength).prepend _

theorem shortlex_total (s t : List UInt8) :
    List.Shortlex (· < ·) s t ∨ s = t ∨ List.Shortlex (· < ·) t s := by
  obtain h | h | h := lt_trichotomy s.length t.length
  · exact .inl (.of_length_lt h)
  · obtain hlt | rfl | hlt := lt_trichotomy s t
    · exact .inl (.of_lex h hlt)
    · exact .inr (.inl rfl)
    · exact .inr (.inr (.of_lex h.symm hlt))
  · exact .inr (.inr (.of_length_lt h))

theorem integer_diverges {v w : Int} (hv : 0 ≤ v) (hw : w < 2 ^ 64) (h : v < w) :
    Diverges (bigEndian 8 v.toNat) (bigEndian 8 w.toNat) := by
  have hlt : w.toNat < 2 ^ 64 := by omega
  exact bigEndian_diverges (by omega) (Nat.lt_of_lt_of_eq hlt (by decide))

theorem number_lt {value : Int} (h : value ≤ MAX_SAFE_INTEGER) : value < 2 ^ 64 := by
  have hmax : MAX_SAFE_INTEGER < 2 ^ 64 := by decide
  omega

/-- Encodings of fields differ in the order of the fields. -/
theorem word_diverges {g : KeyField} (hf : f.Fits) (hg : g.Fits) (h : f.before g) :
    Diverges f.word g.word := by
  obtain htag | ⟨htag, hcontent⟩ := h
  · obtain ⟨s, hs⟩ := word_eq_tag_cons hf
    obtain ⟨t, ht⟩ := word_eq_tag_cons hg
    rw [hs, ht]
    exact diverges_of_head_lt htag s t
  · cases f with
    | string s =>
      cases g with
      | string t => exact (delimited_diverges hg hcontent).cons _
      | boolean b => cases b <;> cases htag
      | _ => cases htag
    | bytes s =>
      cases g with
      | bytes t => exact (delimited_diverges hg hcontent).cons _
      | boolean b => cases b <;> cases htag
      | _ => cases htag
    | number v =>
      cases g with
      | number w => exact (integer_diverges hf.1 (number_lt hg.2) hcontent).cons _
      | bigint w => exact (integer_diverges hf.1 hg.2 hcontent).cons _
      | boolean b => cases b <;> cases htag
      | _ => cases htag
    | bigint v =>
      cases g with
      | number w => exact (integer_diverges hf.1 (number_lt hg.2) hcontent).cons _
      | bigint w => exact (integer_diverges hf.1 hg.2 hcontent).cons _
      | boolean b => cases b <;> cases htag
      | _ => cases htag
    | boolean a =>
      cases g with
      | number w => cases a <;> cases htag
      | bigint w => cases a <;> cases htag
      | _ => exact absurd hcontent (lt_irrefl 0)
    | null =>
      cases g with
      | number w => cases htag
      | bigint w => cases htag
      | _ => exact absurd hcontent (lt_irrefl 0)
    | unsupported type => exact hf.elim

/-! ## The code -/

/-- A field as `decodeKey` returns it. -/
structure Canonical (f : KeyField) : Prop where
  fits : f.Fits
  wellFormed : f.WellFormed
  plain : f.plain = f

/-- What is read back of a field: its integer is plain, unpaired surrogates are replaced. -/
def KeyField.stored : KeyField → KeyField
  | .string value => .string (toWellFormed value)
  | f => f.plain

@[simp]
theorem stored_word (f : KeyField) : f.stored.word = f.word := by
  cases f with
  | string value =>
    have hutf8 : utf8 (toWellFormed value) = utf8 value := utf8_codeUnits _
    rw [KeyField.stored, KeyField.word, hutf8]
    rfl
  | bigint value => exact plain_word (.bigint value)
  | _ => rfl

theorem canonical_stored (h : f.Fits) : Canonical f.stored := by
  cases f with
  | string value =>
    refine ⟨?_, isWellFormed_codeUnits _, rfl⟩
    have hutf8 : utf8 (toWellFormed value) = utf8 value := utf8_codeUnits _
    show (utf8 (toWellFormed value)).length < 2 ^ 32
    rw [hutf8]
    exact h
  | bigint value =>
    have hwell : (KeyField.bigint value).WellFormed := trivial
    exact ⟨fits_plain h, wellFormed_plain hwell, plain_plain (.bigint value)⟩
  | _ => exact ⟨h, trivial, rfl⟩

theorem stored_of_wellFormed (h : f.WellFormed) : f.stored = f.plain := by
  cases f with
  | string value =>
    rw [KeyField.stored, toWellFormed, toWellFormed_of_isWellFormed h]
    rfl
  | _ => rfl

theorem safe_lt_of_plain {value : Int} (h : (KeyField.bigint value).plain = .bigint value) :
    MAX_SAFE_INTEGER < value := by
  by_contra hle
  rw [plain_number (not_lt.mp hle)] at h
  cases h

theorem field_total {g : KeyField} (hf : Canonical f) (hg : Canonical g) :
    f.before g ∨ f = g ∨ g.before f := by
  obtain htag | htag | htag := lt_trichotomy f.tag g.tag
  · exact .inl (.inl htag)
  · suffices h : f.contentBefore g ∨ f = g ∨ g.contentBefore f from
      h.imp (fun h => .inr ⟨htag, h⟩) (Or.imp_right fun h => .inr ⟨htag.symm, h⟩)
    cases f with
    | string s =>
      cases g with
      | string t =>
        obtain h | h | h := shortlex_total (utf8 s) (utf8 t)
        · exact .inl h
        · exact .inr (.inl (congrArg KeyField.string
            (eq_of_codePoints_eq hf.wellFormed hg.wellFormed (utf8_eq_iff.mp h))))
        · exact .inr (.inr h)
      | boolean b => cases b <;> cases htag
      | _ => cases htag
    | bytes s =>
      cases g with
      | bytes t => exact (shortlex_total s t).imp id (Or.imp_left (congrArg KeyField.bytes))
      | boolean b => cases b <;> cases htag
      | _ => cases htag
    | number v =>
      cases g with
      | number w => exact (lt_trichotomy v w).imp id (Or.imp_left (congrArg KeyField.number))
      | bigint w => exact .inl (lt_of_le_of_lt hf.fits.2 (safe_lt_of_plain hg.plain))
      | boolean b => cases b <;> cases htag
      | _ => cases htag
    | bigint v =>
      cases g with
      | number w => exact .inr (.inr (lt_of_le_of_lt hg.fits.2 (safe_lt_of_plain hf.plain)))
      | bigint w => exact (lt_trichotomy v w).imp id (Or.imp_left (congrArg KeyField.bigint))
      | boolean b => cases b <;> cases htag
      | _ => cases htag
    | boolean a =>
      cases g with
      | boolean b => cases a <;> cases b <;> first | exact .inr (.inl rfl) | cases htag
      | unsupported type => exact hg.fits.elim
      | _ => cases a <;> cases htag
    | null =>
      cases g with
      | null => exact .inr (.inl rfl)
      | boolean b => cases b <;> cases htag
      | _ => cases htag
    | unsupported type => exact hf.fits.elim
  · exact .inr (.inr (.inl htag))

theorem fieldCode : OrderedOn Canonical KeyField.word KeyField.before where
  nonempty _ h := word_ne_nil h.fits
  diverges _ _ hf hg := word_diverges hf.fits hg.fits
  total _ _ := field_total

/-! ## Bounds of a prefix -/

theorem le_greatest (b : UInt8) : b ≤ 0xff := by
  have := b.toNat_lt
  rw [UInt8.le_iff_toNat_le]
  show b.toNat ≤ 255
  omega

theorem toNat_succ {b : UInt8} (h : b ≠ 0xff) : (b + 1).toNat = b.toNat + 1 := by
  have hlt := lt_of_le_of_ne (le_greatest b) h
  rw [UInt8.lt_iff_toNat_lt] at hlt
  have hbound : b.toNat < 255 := hlt
  rw [UInt8.toNat_add]
  show (b.toNat + 1) % 256 = _
  omega

theorem successorBefore_spec {bytes bound : List UInt8} {index : Nat} (hindex : index ≤ bytes.length)
    (htail : ∀ c ∈ bytes.drop index, c = 0xff) (h : successorBefore bytes index = some bound) :
    IsSuccessor bytes bound := by
  induction index with
  | zero => cases h
  | succ index ih =>
    have hget : bytes.getD index 0 = bytes[index] := by
      rw [List.getD_eq_getElem?_getD, List.getElem?_eq_getElem (by omega), Option.getD_some]
    have hdrop : bytes.drop index = bytes[index] :: bytes.drop (index + 1) :=
      List.drop_eq_getElem_cons (by omega)
    simp only [successorBefore, hget] at h
    split at h
    · rename_i hbyte
      refine ih (by omega) ?_ h
      rw [hdrop, List.forall_mem_cons]
      exact ⟨hbyte, htail⟩
    · rename_i hbyte
      have hsucc := toNat_succ hbyte
      refine ⟨bytes.take index, bytes[index], bytes[index] + 1, bytes.drop (index + 1), ?_,
        (Option.some.inj h).symm, ?_, ?_, ?_⟩
      · rw [← hdrop, List.take_append_drop]
      · rw [UInt8.lt_iff_toNat_lt, hsucc]
        omega
      · intro c hc
        rw [UInt8.lt_iff_toNat_lt] at hc
        rw [UInt8.le_iff_toNat_le, hsucc]
        exact hc
      · intro c hc d
        rw [htail c hc]
        exact not_lt_of_ge (le_greatest d)

/-- A bound exists where the first byte is not the greatest. -/
theorem exists_successorBefore (version : UInt8) (hversion : version ≠ 0xff) (rest : List UInt8)
    (index : Nat) : ∃ bound, successorBefore (version :: rest) (index + 1) = some bound := by
  induction index with
  | zero => exact ⟨_, if_neg hversion⟩
  | succ index ih =>
    rw [successorBefore]
    split
    · exact ih
    · exact ⟨_, rfl⟩

theorem exists_prefixSuccessor (parts : List KeyField) : ∃ bound,
    prefixSuccessor (tupleBytes parts) = some bound ∧ IsSuccessor (tupleBytes parts) bound := by
  obtain ⟨bound, hbound⟩ := exists_successorBefore KEY_FORMAT_VERSION (by decide)
    (parts.flatMap KeyField.word) (parts.flatMap KeyField.word).length
  refine ⟨bound, hbound, successorBefore_spec (Nat.le_refl _) ?_ hbound⟩
  rw [tupleBytes, List.length_cons, List.drop_of_length_le (by simp)]
  exact List.forall_mem_nil _

theorem prefixBounds_eq_ok (h : Encodable parts) : ∃ bounds,
    prefixBounds parts = .ok bounds ∧ bounds.start = tupleBytes parts ∧
      IsSuccessor (tupleBytes parts) bounds.stop := by
  obtain ⟨bound, hbound, hsuccessor⟩ := exists_prefixSuccessor parts
  refine ⟨⟨tupleBytes parts, bound⟩, ?_, rfl, hsuccessor⟩
  rw [prefixBounds, encodeKey_eq_ok_iff.mpr ⟨h, rfl⟩]
  simp only [Bind.bind, Except.bind, hbound]
  rfl

/-! ## Keys of tuples -/

/-- A tuple that can be encoded, its texts without unpaired surrogates. -/
structure Admissible (parts : List KeyField) : Prop where
  encodable : Encodable parts
  wellFormed : ∀ f ∈ parts, f.WellFormed

theorem Admissible.map_stored (h : Admissible parts) :
    parts.map KeyField.stored = parts.map KeyField.plain :=
  List.map_congr_left fun f hf => stored_of_wellFormed (h.wellFormed f hf)

@[simp]
theorem tupleBytes_stored (parts : List KeyField) :
    tupleBytes (parts.map KeyField.stored) = tupleBytes parts := by
  rw [tupleBytes, tupleBytes, List.flatMap_map]
  simp

theorem Encodable.canonical (h : Encodable parts) :
    ∀ f ∈ parts.map KeyField.stored, Canonical f := by
  intro g hg
  obtain ⟨f, hf, rfl⟩ := List.mem_map.mp hg
  exact canonical_stored (h.fits f hf)

theorem decodeKey_encoded (h : Encodable parts) :
    decodeKey (tupleBytes parts) = .ok (parts.map KeyField.stored) := by
  have hmap : (parts.map KeyField.stored).map KeyField.plain = parts.map KeyField.stored := by
    refine (List.map_congr_left fun f hf => ?_).trans (List.map_id _)
    exact (h.canonical f hf).plain
  rw [← tupleBytes_stored, decodeKey_tupleBytes (fun f hf => (h.canonical f hf).fits)
    fun f hf => (h.canonical f hf).wellFormed, hmap]

section

variable {s t : List KeyField} (hs : Encodable s) (ht : Encodable t)

include hs ht

theorem tupleBytes_lt_iff : tupleBytes s < tupleBytes t ↔
    List.Lex KeyField.before (s.map KeyField.stored) (t.map KeyField.stored) := by
  rw [← fieldCode.flatMap_lt_iff hs.canonical ht.canonical, ← tupleBytes_stored s,
    ← tupleBytes_stored t, tupleBytes, tupleBytes, List.cons_lt_cons_iff]
  simp

theorem tupleBytes_prefix_iff : tupleBytes s <+: tupleBytes t ↔
    s.map KeyField.stored <+: t.map KeyField.stored := by
  rw [← fieldCode.flatMap_prefix_iff hs.canonical ht.canonical, ← tupleBytes_stored s,
    ← tupleBytes_stored t, tupleBytes, tupleBytes, List.cons_prefix_cons]
  simp

end

/-- Are the texts of a key that is read UTF-8? -/
def Utf8Texts (value : List UInt8) : Prop :=
  ∃ raws, rawFields value = .ok raws ∧ ∀ raw ∈ raws, raw.WellFormed

theorem encodeKey_decodeKey {value : List UInt8}
    (h : decodeKey value = .ok parts) (hwell : Utf8Texts value) :
    encodeKey parts = .ok value ↔ parts ≠ [] ∧ value.length ≤ MAX_KEY_BYTES := by
  obtain ⟨raws, hraws, hraw⟩ := hwell
  rw [decodeKey, hraws] at h
  obtain rfl : raws.map RawField.value = parts := Except.ok.inj h
  obtain ⟨hfits, hbytes⟩ := tupleBytes_of_rawFields hraws hraw
  rw [encodeKey_eq_ok_iff, hbytes]
  constructor
  · rintro ⟨hencodable, -⟩
    exact ⟨hencodable.nonempty, hbytes ▸ hencodable.size⟩
  · rintro ⟨hne, hsize⟩
    exact ⟨⟨hne, hfits, hbytes.symm ▸ hsize⟩, rfl⟩

/-- Keys are decoded to the tuples they encode, ordered as tuples, and bounded by tuple prefixes.
    What is decoded is encoded again as it was, where it has fields and is not too long. -/
theorem tuple_keys_ordered :
    (∀ s t, Admissible s → Admissible t → ∃ k l bounds,
      encodeKey s = .ok k ∧ encodeKey t = .ok l ∧ prefixBounds s = .ok bounds ∧
      decodeKey l = .ok (t.map KeyField.plain) ∧
      (k < l ↔ List.Lex KeyField.before (s.map KeyField.plain) (t.map KeyField.plain)) ∧
      (bounds.start ≤ l ∧ l < bounds.stop ↔ s.map KeyField.plain <+: t.map KeyField.plain)) ∧
    ∀ value parts, decodeKey value = .ok parts → Utf8Texts value →
      (encodeKey parts = .ok value ↔ parts ≠ [] ∧ value.length ≤ MAX_KEY_BYTES) := by
  refine ⟨?_, fun _ _ h hwell => encodeKey_decodeKey h hwell⟩
  intro s t hs ht
  obtain ⟨bounds, hbounds, hstart, hsuccessor⟩ := prefixBounds_eq_ok hs.encodable
  refine ⟨_, _, bounds, encodeKey_eq_ok_iff.mpr ⟨hs.encodable, rfl⟩,
    encodeKey_eq_ok_iff.mpr ⟨ht.encodable, rfl⟩, hbounds,
    decodeKey_tupleBytes ht.encodable.fits ht.wellFormed, ?_, ?_⟩
  · rw [tupleBytes_lt_iff hs.encodable ht.encodable, hs.map_stored, ht.map_stored]
  · rw [hstart, hsuccessor.range_iff, tupleBytes_prefix_iff hs.encodable ht.encodable,
      hs.map_stored, ht.map_stored]

/-- A key below a prefix, with an integer beyond the safe range. -/
theorem tuple_keys_ordered_example : ∃ k l bounds, encodeKey [.string (text "é")] = .ok k ∧
      encodeKey [.string (text "é"), .bigint (2 ^ 53), .null] = .ok l ∧
      prefixBounds [.string (text "é")] = .ok bounds ∧
      decodeKey l = .ok [.string (text "é"), .bigint (2 ^ 53), .null] ∧ k < l ∧
      bounds.start ≤ l ∧ l < bounds.stop := by
  have hs : Admissible [.string (text "é")] :=
    ⟨⟨by decide, by simp [KeyField.Fits]; decide, by decide⟩, by simp [KeyField.WellFormed]⟩
  have ht : Admissible [.string (text "é"), .bigint (2 ^ 53), .null] :=
    ⟨⟨by decide, by simp [KeyField.Fits]; decide, by decide⟩, by simp [KeyField.WellFormed]⟩
  obtain ⟨k, l, bounds, hk, hl, hbounds, hdecode, horder, hrange⟩ :=
    tuple_keys_ordered.1 _ _ hs ht
  exact ⟨k, l, bounds, hk, hl, hbounds, hdecode, horder.mpr (.cons .nil),
    hrange.mpr ⟨[.bigint (2 ^ 53), .null], rfl⟩⟩

/-- A key that has only a version is decoded, and no tuple is encoded so. -/
theorem version_alone_not_encoded : decodeKey [1] = .ok [] ∧ Utf8Texts [1] ∧
    encodeKey [] = .error (invalidKey "A key must contain at least one field.") :=
  ⟨rfl, ⟨[], rfl, List.forall_mem_nil _⟩, rfl⟩

/-! ## The keys of the store -/

end ContextStore.KeyEncoding
