import ContextStore.Foundation.Delimited
import ContextStore.Semantic.Metadata
import Mathlib.Data.List.Perm.Basic
import Mathlib.Data.Set.List

/-! # What the readers make of the layout -/

namespace ContextStore.Metadata

open Unicode
open KeyEncoding (MAX_SAFE_INTEGER ofBigEndian length_bigEndian ofBigEndian_bigEndian)
open Reader (Reads Local)
open Concurrent (bind_ok_iff)

/-! ## Integers, seven bits at a time -/

theorem shiftRight_seven (n : Nat) : n >>> 7 = n / 128 := Nat.shiftRight_eq_div_pow n 7

theorem and_lowBits (n : Nat) : n &&& 0x7f = n % 128 := Nat.and_two_pow_sub_one_eq_mod n 7

theorem or_highBit : ∀ group < 128, group ||| 0x80 = group + 128 := by decide

theorem and_highBit : ∀ byte < 256, (byte &&& 0x80 = 0 ↔ byte < 128) := by decide +kernel

theorem varUintBytes_eq (n : Nat) :
    varUintBytes n =
      if n < 128 then [UInt8.ofNat n]
      else UInt8.ofNat (n % 128 + 128) :: varUintBytes (n / 128) := by
  rw [varUintBytes, shiftRight_seven, and_lowBits]
  by_cases hn : n < 128
  · rw [if_pos hn, if_neg (by omega), Nat.mod_eq_of_lt hn]
  · rw [if_neg hn, if_pos (by omega), or_highBit _ (Nat.mod_lt n (by decide))]

theorem varUintGroups_eq (n : Nat) : varUintGroups n = (varUintBytes n).length := by
  induction n using Nat.strongRecOn with
  | ind n ih =>
    rw [varUintGroups, varUintBytes_eq, shiftRight_seven]
    by_cases hn : n < 128
    · rw [if_pos hn, if_neg (by omega), List.length_singleton]
    · rw [if_neg hn, if_pos (by omega), List.length_cons, ih (n / 128) (by omega)]

/-- A group is read into the bits above those that are read already. -/
theorem or_shiftLeft {value shift : Nat} (h : value < 2 ^ shift) (group : Nat) :
    value ||| group <<< shift = value + group * 2 ^ shift := by
  have hadd := Nat.shiftLeft_add_eq_or_of_lt h group
  rw [Nat.or_comm, ← hadd, Nat.shiftLeft_eq]
  omega

theorem reads_varUintRounds {rounds n value shift : Nat} (hn : n < 128 ^ rounds)
    (hvalue : value < 2 ^ shift) (hsafe : ((value + n * 2 ^ shift : Nat) : Int) ≤ MAX_SAFE_INTEGER)
    (hrounds : 0 < rounds) :
    Reads (Read.varUintRounds rounds value shift) (varUintBytes n) (value + n * 2 ^ shift) := by
  induction rounds generalizing n value shift with
  | zero => exact absurd hrounds (Nat.lt_irrefl 0)
  | succ rounds ih =>
    intro rest
    rw [varUintBytes_eq]
    by_cases hsmall : n < 128
    · -- the last group of the integer
      have hbyte : (UInt8.ofNat n).toNat = n := by
        rw [UInt8.toNat_ofNat']
        omega
      have hlast : n &&& 0x80 = 0 := (and_highBit n (by omega)).mpr hsmall
      simp only [hsmall, if_true, List.singleton_append, Read.varUintRounds, hbyte, hlast,
        and_lowBits, Nat.mod_eq_of_lt hsmall, or_shiftLeft hvalue]
      rw [if_neg (by omega)]
    · have hbyte : (UInt8.ofNat (n % 128 + 128)).toNat = n % 128 + 128 := by
        rw [UInt8.toNat_ofNat']
        omega
      have hmore : n % 128 + 128 &&& 0x80 ≠ 0 := by
        rw [Ne, and_highBit _ (by omega)]
        omega
      have hgroup : n % 128 + 128 &&& 0x7f = n % 128 := by
        rw [and_lowBits]
        omega
      have hbelow : value + n % 128 * 2 ^ shift < 2 ^ (shift + 7) := by
        have hlt : n % 128 < 128 := Nat.mod_lt n (by decide)
        rw [pow_add]
        nlinarith
      have hsum : value + n % 128 * 2 ^ shift + n / 128 * 2 ^ (shift + 7) =
          value + n * 2 ^ shift := by
        have hn128 := Nat.div_add_mod n 128
        rw [pow_add]
        nlinarith
      have hrounds : 0 < rounds := by
        rcases rounds with _ | rounds
        · simp only [Nat.zero_add, pow_one] at hn
          omega
        · exact Nat.succ_pos rounds
      have hdiv : n / 128 < 128 ^ rounds := by
        rw [Nat.div_lt_iff_lt_mul (by decide), ← pow_succ]
        exact hn
      have hread := ih hdiv hbelow (by rwa [hsum]) hrounds rest
      simp only [hsmall, if_false, List.cons_append, Read.varUintRounds, hbyte, hmore, hgroup,
        or_shiftLeft hvalue]
      rw [hread, hsum]

theorem reads_varUint {n : Nat} (hn : (n : Int) ≤ MAX_SAFE_INTEGER) :
    Reads Read.varUint (varUintBytes n) n := by
  have hsafe : n < 128 ^ 8 := by
    rw [MAX_SAFE_INTEGER] at hn
    omega
  have h : Reads (Read.varUintRounds 8 0 0) (varUintBytes n) (0 + n * 2 ^ 0) :=
    reads_varUintRounds hsafe Nat.zero_lt_one (by simpa using hn) (by decide)
  simpa [Read.varUint] using h

theorem local_varUintRounds (rounds value shift : Nat) :
    Local (Read.varUintRounds rounds value shift) := by
  induction rounds generalizing value shift with
  | zero =>
    intro bytes v rest more h
    simp [Read.varUintRounds] at h
  | succ rounds ih =>
    intro bytes v rest more h
    rcases bytes with _ | ⟨byte, bytes⟩
    · simp [Read.varUintRounds] at h
    · simp only [Read.varUintRounds, List.cons_append] at h ⊢
      split_ifs at h ⊢ with hlast hlarge
      · simp only [Except.ok.injEq, Prod.mk.injEq] at h ⊢
        exact ⟨h.1, by rw [h.2]⟩
      · exact ih _ _ _ _ _ more h

/-! ## Bytes and texts -/

theorem reads_bytes {content : List UInt8} (h : (content.length : Int) ≤ MAX_SAFE_INTEGER) :
    Reads (Read.bytes content.length) content content := by
  intro rest
  rw [Read.bytes, if_neg (by rw [List.length_append]; omega), List.take_left, List.drop_left]

theorem local_bytes (length : Nat) : Local (Read.bytes length) := by
  intro bytes v rest more h
  rw [Read.bytes] at h ⊢
  split_ifs at h with hshort
  · rw [Except.ok.injEq, Prod.mk.injEq] at h
    have hle : length ≤ bytes.length := by omega
    rw [if_neg (by rw [List.length_append]; omega), ← h.1, ← h.2,
      List.take_append_of_le_length hle, List.drop_append_of_le_length hle]

theorem reads_integer {width n : Nat} (h : n < 256 ^ width) :
    Reads (Read.integer width) (bigEndian width n) n := by
  intro rest
  have hlength := length_bigEndian width n
  rw [Read.integer, if_neg (by rw [List.length_append, hlength]; omega),
    List.take_left' hlength, List.drop_left' hlength, ofBigEndian_bigEndian, Nat.mod_eq_of_lt h]

theorem local_integer (width : Nat) : Local (Read.integer width) := by
  intro bytes v rest more h
  rw [Read.integer] at h ⊢
  split_ifs at h with hshort
  · rw [Except.ok.injEq, Prod.mk.injEq] at h
    have hle : width ≤ bytes.length := by omega
    rw [if_neg (by rw [List.length_append]; omega), ← h.1, ← h.2,
      List.take_append_of_le_length hle, List.drop_append_of_le_length hle]

/-- A text with its length in front. -/
def stringWord (content : List UInt8) : List UInt8 := varUintBytes content.length ++ content

theorem reads_string {value : NonEmptyString} (hwell : isWellFormed value.val = true)
    (hsafe : ((utf8 value.val).length : Int) ≤ MAX_SAFE_INTEGER) (label : String) :
    Reads (Read.string label) (stringWord (utf8 value.val)) value := by
  have hdecode : decode (utf8 value.val) = value.val := by
    rw [decode_utf8]
    exact toWellFormed_of_isWellFormed hwell
  refine Reads.bind (reads_varUint hsafe) (Reads.bind_nil (reads_bytes hsafe) (Reads.lift ?_))
  rw [hdecode]
  exact nonEmptyString_eq_ok.mpr rfl

theorem local_string (label : String) : Local (Read.string label) :=
  Local.bind (local_varUintRounds 8 0 0) fun length =>
    Local.bind (local_bytes length) fun _ => Local.lift _

/-! ## Identities -/

theorem zero_notMem_decimal (n : Nat) : (0 : UInt16) ∉ text (toString n) := by
  rw [text, codeUnits, List.mem_flatMap]
  rintro ⟨c, hc, hzero⟩
  rw [Nat.toString_eq_repr, Nat.toList_repr] at hc
  have hdigit := Nat.isDigit_of_mem_toDigits (by decide) (by decide) hc
  simp only [Char.isDigit, Bool.and_eq_true, decide_eq_true_eq, UInt32.le_iff_toNat_le] at hdigit
  have hlow : 48 ≤ c.toNat := hdigit.1
  have hhigh : c.toNat ≤ 57 := hdigit.2
  rw [charUnits, if_pos (by omega), List.mem_singleton] at hzero
  have hval := congrArg UInt16.toNat hzero
  rw [UInt16.toNat_ofNat'] at hval
  simp only [UInt16.toNat_zero] at hval
  omega

theorem decimal_injective {m n : Nat} (h : text (toString m) = text (toString n)) : m = n := by
  have hlist : (toString m).toList = (toString n).toList := by
    rw [← codePoints_codeUnits (toString m).toList, ← codePoints_codeUnits (toString n).toList]
    exact congrArg codePoints h
  rw [Nat.toString_eq_repr, Nat.toString_eq_repr, Nat.toList_repr, Nat.toList_repr] at hlist
  rw [← Nat.ofDigitChars_ten_toDigits (n := m), hlist, Nat.ofDigitChars_ten_toDigits]

/-- The last NUL stands before the number. -/
theorem append_decimal_inj {a b : Text} {m n : Nat}
    (h : a ++ 0 :: text (toString m) = b ++ 0 :: text (toString n)) : a = b ∧ m = n := by
  have htail := congrArg (Delimited.tail 0) h
  rw [Delimited.tail_append_delimiter (zero_notMem_decimal m),
    Delimited.tail_append_delimiter (zero_notMem_decimal n)] at htail
  exact ⟨(List.append_inj' h (by rw [List.length_cons, List.length_cons, htail])).1,
    decimal_injective htail⟩

theorem documentIdentity_injective {a b : Document} (h : documentIdentity a = documentIdentity b) :
    a = b := by
  obtain ⟨hid, hversion⟩ := append_decimal_inj h
  rcases a with ⟨ida, versiona⟩
  rcases b with ⟨idb, versionb⟩
  rw [Document.mk.injEq]
  exact ⟨Subtype.ext hid, Subtype.ext hversion⟩

variable {entry : CompactEntry} {entries : List CompactEntry} {documents : List Document}

theorem mem_documentsByIdentity {known : List Document} {document : Document} :
    document ∈ documentsByIdentity known entries ↔
      document ∈ known ∨ ∃ entry ∈ entries, entry.document = document := by
  induction entries generalizing known with
  | nil => simp [documentsByIdentity]
  | cons entry entries ih =>
    rw [documentsByIdentity]
    split_ifs with hknown
    · have hmem : entry.document ∈ known := by
        obtain ⟨found, hfound, heq⟩ := List.any_eq_true.mp hknown
        rwa [← documentIdentity_injective (beq_iff_eq.mp heq)]
      rw [ih, List.exists_mem_cons_iff]
      constructor
      · rintro (h | h)
        · exact Or.inl h
        · exact Or.inr (Or.inr h)
      · rintro (h | rfl | h)
        · exact Or.inl h
        · exact Or.inl hmem
        · exact Or.inr h
    · rw [ih, List.exists_mem_cons_iff, List.mem_append, List.mem_singleton, or_assoc,
        eq_comm (a := document)]

theorem documentIndex_spec (h : entry.document ∈ documents) :
    ∃ index : Nat, documentIndex documents entry = some (index : Int) ∧
      documents[index]? = some entry.document := by
  rcases hfind : documents.findIdx? (documentIdentity · == documentIdentity entry.document) with
    _ | index
  · have hnone := List.findIdx?_eq_none_iff.mp hfind entry.document h
    simp at hnone
  · obtain ⟨hlt, hsame, -⟩ := List.findIdx?_eq_some_iff_getElem.mp hfind
    refine ⟨index, by rw [documentIndex, hfind]; rfl, ?_⟩
    rw [List.getElem?_eq_getElem hlt, documentIdentity_injective (beq_iff_eq.mp hsame)]

/-! ## Normalised entries -/

/-- An entry that has passed the checks, as a caller passes it. -/
def CompactEntry.raw (entry : CompactEntry) : RawEntry where
  label := some entry.label.val
  documentId := some entry.documentId.val
  version := some entry.version.val
  windowOrdinal := some entry.windowOrdinal.val
  startByte := some entry.startByte.val
  endByte := some entry.endByte.val

theorem CompactEntry.raw_injective {a b : CompactEntry} (h : a.raw = b.raw) : a = b := by
  cases a
  cases b
  simp only [CompactEntry.raw, RawEntry.mk.injEq, Option.some.injEq, Nat.cast_inj] at h
  simp only [CompactEntry.mk.injEq, Subtype.ext_iff]
  tauto

theorem compactEntry_eq_ok {raw : RawEntry} {label : String} :
    compactEntry raw label = .ok entry ↔ raw = entry.raw := by
  rw [compactEntry, bind_ok_iff]
  simp only [nonNegativeInteger_eq_ok, bind_ok_iff]
  constructor
  · rintro ⟨startByte, hstart, endByte, hend, h⟩
    split_ifs at h with hbefore
    simp only [bind_ok_iff, uint64_eq_ok, nonEmptyString_eq_ok, positiveInteger_eq_ok,
      nonNegativeInteger_eq_ok] at h
    obtain ⟨entryLabel, hlabel, documentId, hid, version, hversion, ordinal, hordinal, h⟩ := h
    cases h
    cases raw
    simp only [CompactEntry.raw, RawEntry.mk.injEq]
    exact ⟨hlabel, hid, hversion, hordinal, hstart, hend⟩
  · rintro rfl
    refine ⟨entry.startByte, rfl, entry.endByte, rfl, ?_⟩
    rw [dif_neg (Nat.not_lt.mpr entry.startByte_le)]
    simp only [bind_ok_iff, uint64_eq_ok, nonEmptyString_eq_ok, positiveInteger_eq_ok,
      nonNegativeInteger_eq_ok]
    exact ⟨entry.label, rfl, entry.documentId, rfl, entry.version, rfl, entry.windowOrdinal, rfl,
      rfl⟩

theorem addEntry_eq_ok {result : List CompactEntry} :
    addEntry entries entry = .ok result ↔
      entry.label ∉ entries.map CompactEntry.label ∧ result = entries ++ [entry] := by
  rw [addEntry]
  split_ifs with h
  · simp [h]
  · simp only [Except.ok.injEq, h, not_false_eq_true, true_and]
    exact eq_comm

theorem nodup_labels_append :
    ((entries ++ [entry]).map CompactEntry.label).Nodup ↔
      entry.label ∉ entries.map CompactEntry.label ∧ (entries.map CompactEntry.label).Nodup := by
  rw [List.map_append, List.map_singleton, ← List.nodup_cons]
  exact (List.perm_append_singleton _ _).nodup_iff

variable {result : List CompactEntry} {raws : List RawEntry}

theorem compactEntries_eq_ok {checked : List CompactEntry}
    (hchecked : (checked.map CompactEntry.label).Nodup) :
    compactEntries checked raws = .ok result ↔ (result.map CompactEntry.label).Nodup ∧
        ∃ entries, raws = entries.map CompactEntry.raw ∧ result = checked ++ entries := by
  induction raws generalizing checked with
  | nil =>
    simp only [compactEntries, Except.ok.injEq]
    constructor
    · rintro rfl
      exact ⟨hchecked, [], rfl, by rw [List.append_nil]⟩
    · rintro ⟨-, entries, hentries, rfl⟩
      rw [List.map_eq_nil_iff.mp hentries.symm, List.append_nil]
  | cons raw raws ih =>
    simp only [compactEntries, bind_ok_iff, compactEntry_eq_ok, addEntry_eq_ok]
    constructor
    · rintro ⟨entry, rfl, _, ⟨hnew, rfl⟩, h⟩
      have hnodup := nodup_labels_append.mpr ⟨hnew, hchecked⟩
      obtain ⟨hresult, entries, rfl, rfl⟩ := (ih hnodup).mp h
      exact ⟨hresult, entry :: entries, rfl, by rw [List.append_assoc, List.singleton_append]⟩
    · rintro ⟨hresult, entries, hentries, rfl⟩
      rcases entries with _ | ⟨entry, entries⟩
      · simp at hentries
      · rw [List.map_cons, List.cons.injEq] at hentries
        have hsplit : checked ++ entry :: entries = checked ++ [entry] ++ entries := by
          rw [List.append_assoc, List.singleton_append]
        have hnodup : ((checked ++ [entry]).map CompactEntry.label).Nodup := by
          rw [hsplit, List.map_append] at hresult
          exact hresult.of_append_left
        refine ⟨entry, hentries.1, _, ⟨?_, rfl⟩, (ih hnodup).mpr ?_⟩
        · exact (nodup_labels_append.mp hnodup).1
        · exact ⟨hresult, entries, hentries.2, hsplit⟩

/-- The entries of a snapshot in the order of their labels. -/
def byLabel (entries : List CompactEntry) : List CompactEntry :=
  entries.insertionSort (fun left right => left.label.val ≤ right.label.val)

theorem byLabel_perm (entries : List CompactEntry) : (byLabel entries).Perm entries :=
  List.perm_insertionSort _ entries

theorem pairwise_byLabel (h : (entries.map CompactEntry.label).Nodup) :
    (byLabel entries).Pairwise fun a b => a.label.val < b.label.val := by
  have hle : (byLabel entries).Pairwise fun a b => a.label.val ≤ b.label.val :=
    List.pairwise_insertionSort _ entries
  have hne : (byLabel entries).Pairwise fun a b => a.label ≠ b.label := by
    rw [← List.pairwise_map]
    exact ((byLabel_perm entries).map _).nodup_iff.mpr h
  refine List.Pairwise.imp₂ (fun a b hlabels hdiffer => ?_) hle hne
  exact Nat.lt_of_le_of_ne hlabels fun heq => hdiffer (Subtype.ext heq)

/-- The order in which a snapshot's entries were passed leaves no trace. -/
theorem byLabel_eq_of_perm {a b : List CompactEntry} (h : a.Perm b)
    (hnodup : (a.map CompactEntry.label).Nodup) : byLabel a = byLabel b := by
  refine List.Perm.eq_of_pairwise ?_ (pairwise_byLabel hnodup)
    (pairwise_byLabel ((h.map _).nodup_iff.mp hnodup))
    (((byLabel_perm a).trans h).trans (byLabel_perm b).symm)
  intro x y _ _ hxy hyx
  exact absurd hxy (Nat.lt_asymm hyx)

theorem normalizeEntries_eq_ok :
    normalizeEntries raws = .ok result ↔
      ∃ entries, raws = entries.map CompactEntry.raw ∧ (entries.map CompactEntry.label).Nodup ∧
        result = byLabel entries := by
  have hnil : (([] : List CompactEntry).map CompactEntry.label).Nodup := List.nodup_nil
  rw [normalizeEntries, bind_ok_iff]
  simp only [compactEntries_eq_ok hnil, List.nil_append]
  constructor
  · rintro ⟨_, ⟨hnodup, entries, rfl, rfl⟩, h⟩
    cases h
    exact ⟨_, rfl, hnodup, rfl⟩
  · rintro ⟨entries, rfl, hnodup, rfl⟩
    exact ⟨entries, ⟨hnodup, entries, rfl, rfl⟩, rfl⟩

theorem normalizeEntries_of_perm {raws' : List RawEntry} (hperm : raws'.Perm raws)
    (h : normalizeEntries raws = .ok result) : normalizeEntries raws' = .ok result := by
  obtain ⟨entries, rfl, hnodup, rfl⟩ := normalizeEntries_eq_ok.mp h
  have hrange : raws' ∈ Set.range (List.map CompactEntry.raw) := by
    rw [Set.range_list_map]
    intro raw hraw
    obtain ⟨entry, -, rfl⟩ := List.mem_map.mp (hperm.mem_iff.mp hraw)
    exact Set.mem_range_self entry
  obtain ⟨entries', rfl⟩ := hrange
  have hentries : entries'.Perm entries :=
    (List.map_perm_map_iff fun _ _ => CompactEntry.raw_injective).mp hperm
  refine normalizeEntries_eq_ok.mpr ⟨entries', rfl, ?_, byLabel_eq_of_perm hentries.symm hnodup⟩
  exact (hentries.map _).nodup_iff.mpr hnodup

/-! ## The layout

What stands in the file for a header, the table of the documents and the entries. -/

def documentWord (document : Document) : List UInt8 :=
  stringWord (utf8 document.documentId.val) ++ varUintBytes document.version.val

def documentPosition (documents : List Document) (entry : CompactEntry) : Nat :=
  ((documentIndex documents entry).getD 0).toNat

def entryWord (documents : List Document) (entry : CompactEntry) : List UInt8 :=
  bigEndian 8 entry.label.val ++ varUintBytes (documentPosition documents entry) ++
    varUintBytes entry.windowOrdinal.val ++ varUintBytes entry.startByte.val ++
    varUintBytes entry.endByte.val

def layout (header : Header) (documents : List Document) (entries : List CompactEntry) :
    List UInt8 :=
  MAGIC ++ bigEndian 4 FORMAT_VERSION ++ bigEndian 4 header.dimensions.val ++
    stringWord (utf8 header.fingerprint.val) ++ stringWord (utf8 header.project.val) ++
    varUintBytes documents.length ++ documents.flatMap documentWord ++
    varUintBytes entries.length ++ entries.flatMap (entryWord documents)

/-- The lengths and counts of the layout are numbers, and the table has the entries' documents. -/
structure Fits (header : Header) (documents : List Document) (entries : List CompactEntry) :
    Prop where
  fingerprint : ((utf8 header.fingerprint.val).length : Int) ≤ MAX_SAFE_INTEGER
  project : ((utf8 header.project.val).length : Int) ≤ MAX_SAFE_INTEGER
  documentIds : ∀ document ∈ documents,
    ((utf8 document.documentId.val).length : Int) ≤ MAX_SAFE_INTEGER
  documentCount : (documents.length : Int) ≤ MAX_SAFE_INTEGER
  entryCount : (entries.length : Int) ≤ MAX_SAFE_INTEGER
  mem_documents : ∀ document, document ∈ documents ↔ ∃ entry ∈ entries, entry.document = document

theorem Fits.document_mem {header : Header} (h : Fits header documents entries)
    (hentry : entry ∈ entries) : entry.document ∈ documents :=
  (h.mem_documents _).mpr ⟨entry, hentry, rfl⟩

theorem documentPosition_spec (h : entry.document ∈ documents) :
    documentIndex documents entry = some (documentPosition documents entry : Int) ∧
      documents[documentPosition documents entry]? = some entry.document := by
  obtain ⟨index, hindex, hat⟩ := documentIndex_spec h
  have hposition : documentPosition documents entry = index := by
    rw [documentPosition, hindex]
    rfl
  rw [hposition]
  exact ⟨hindex, hat⟩

theorem documentPosition_le (h : entry.document ∈ documents)
    (hcount : (documents.length : Int) ≤ MAX_SAFE_INTEGER) :
    (documentPosition documents entry : Int) ≤ MAX_SAFE_INTEGER := by
  obtain ⟨hlt, -⟩ := List.getElem?_eq_some_iff.mp (documentPosition_spec h).2
  omega

/-! ## The size and the bytes agree -/

section MapM

variable {ε α β : Type} {f : α → Except ε β} {g : α → β} {xs : List α}

theorem except_mapM_eq_ok (h : ∀ x ∈ xs, f x = .ok (g x)) : xs.mapM f = .ok (xs.map g) := by
  induction xs with
  | nil => rfl
  | cons x xs ih =>
    rw [List.forall_mem_cons] at h
    rw [List.mapM_cons, h.1, ih h.2]
    rfl

theorem except_mapM_eq_map {ys : List β} (h : ∀ x ∈ xs, ∀ y, f x = .ok y → y = g x)
    (hok : xs.mapM f = .ok ys) : ys = xs.map g := by
  induction xs generalizing ys with
  | nil =>
    cases hok
    rfl
  | cons x xs ih =>
    rw [List.forall_mem_cons] at h
    rw [List.mapM_cons] at hok
    obtain ⟨y, hy, hok⟩ := bind_ok_iff.mp hok
    obtain ⟨rest, hrest, hok⟩ := bind_ok_iff.mp hok
    cases hok
    rw [List.map_cons, h.1 y hy, ih h.2 hrest]

end MapM

theorem varUintLength_eq_ok {n length : Nat} :
    varUintLength (some (n : Int)) = .ok length ↔
      (n : Int) ≤ MAX_SAFE_INTEGER ∧ length = (varUintBytes n).length := by
  rw [varUintLength, bind_ok_iff]
  simp only [nonNegativeInteger_eq_ok, Option.some.injEq, Nat.cast_inj, varUintGroups_eq]
  constructor
  · rintro ⟨integer, rfl, h⟩
    cases h
    exact ⟨integer.property, rfl⟩
  · rintro ⟨hsafe, rfl⟩
    exact ⟨⟨n, hsafe⟩, rfl, rfl⟩

theorem writeVarUint_eq_ok {n : Nat} (h : (n : Int) ≤ MAX_SAFE_INTEGER) :
    writeVarUint (some (n : Int)) = .ok (varUintBytes n) :=
  bind_ok_iff.mpr ⟨⟨n, h⟩, nonNegativeInteger_eq_ok.mpr rfl, rfl⟩

theorem stringField_eq_ok {value : NonEmptyString} {label : String} {field : StringField}
    (h : stringField value.val label = .ok field) :
    ((utf8 value.val).length : Int) ≤ MAX_SAFE_INTEGER ∧
      field = ⟨utf8 value.val, (stringWord (utf8 value.val)).length⟩ := by
  simp only [stringField, bind_ok_iff, nonEmptyString_eq_ok, varUintLength_eq_ok] at h
  obtain ⟨text, htext, length, ⟨hsafe, rfl⟩, h⟩ := h
  cases Subtype.ext (Option.some.inj htext)
  cases h
  exact ⟨hsafe, by rw [stringWord, List.length_append]⟩

theorem writeString_eq_ok {content : List UInt8} (h : (content.length : Int) ≤ MAX_SAFE_INTEGER) :
    writeString content = .ok (stringWord content) :=
  bind_ok_iff.mpr ⟨_, writeVarUint_eq_ok h, rfl⟩

def preparedDocument (document : Document) : PreparedDocument :=
  ⟨document, utf8 document.documentId.val, (documentWord document).length⟩

variable {documents : List Document} {entries : List CompactEntry} {snapshot : Snapshot}
  {expected : Expected} {bytes : List UInt8} {header : Header}

theorem prepareDocuments_eq_ok {index : Nat} {prepared : List PreparedDocument}
    (h : prepareDocuments index documents = .ok prepared) :
    (∀ document ∈ documents, ((utf8 document.documentId.val).length : Int) ≤ MAX_SAFE_INTEGER) ∧
      prepared = documents.map preparedDocument := by
  induction documents generalizing index prepared with
  | nil =>
    cases h
    exact ⟨by simp, rfl⟩
  | cons document documents ih =>
    simp only [prepareDocuments, bind_ok_iff, varUintLength_eq_ok] at h
    obtain ⟨field, hfield, length, ⟨-, rfl⟩, rest, hrest, h⟩ := h
    obtain ⟨hsafe, rfl⟩ := stringField_eq_ok hfield
    obtain ⟨hall, rfl⟩ := ih hrest
    cases h
    refine ⟨List.forall_mem_cons.mpr ⟨hsafe, hall⟩, ?_⟩
    rw [List.map_cons, preparedDocument, documentWord, List.length_append]

variable {entry : CompactEntry} {result : SnapshotResult} {document : Document}

theorem writeDocument_eq_ok (h : ((utf8 document.documentId.val).length : Int) ≤ MAX_SAFE_INTEGER) :
    writeDocument (preparedDocument document) = .ok (documentWord document) :=
  bind_ok_iff.mpr ⟨_, writeString_eq_ok h,
    bind_ok_iff.mpr ⟨_, writeVarUint_eq_ok document.version.property.2, rfl⟩⟩

theorem entryLength_eq_ok {length : Nat} (hmem : entry.document ∈ documents)
    (h : entryLength (prepareEntry documents entry) = .ok length) :
    length = (entryWord documents entry).length := by
  simp only [entryLength, prepareEntry, (documentPosition_spec hmem).1, bind_ok_iff,
    varUintLength_eq_ok] at h
  obtain ⟨index, ⟨-, rfl⟩, ordinal, ⟨-, rfl⟩, start, ⟨-, rfl⟩, stop, ⟨-, rfl⟩, h⟩ := h
  cases h
  simp only [entryWord, List.length_append, length_bigEndian]

theorem writeEntry_eq_ok (hmem : entry.document ∈ documents)
    (hcount : (documents.length : Int) ≤ MAX_SAFE_INTEGER) :
    writeEntry (prepareEntry documents entry) = .ok (entryWord documents entry) := by
  simp only [writeEntry, prepareEntry, (documentPosition_spec hmem).1,
    writeVarUint_eq_ok (documentPosition_le hmem hcount),
    writeVarUint_eq_ok entry.windowOrdinal.property, writeVarUint_eq_ok entry.startByte.property,
    writeVarUint_eq_ok entry.endByte.property]
  rfl

theorem prepareSnapshot_eq_ok {prepared : Prepared} (h : prepareSnapshot snapshot = .ok prepared) :
    ∃ header documents entries,
      expectedSnapshot snapshot.fingerprint snapshot.project snapshot.dimensions
          Expected.nothing = .ok header ∧
        normalizeEntries snapshot.entries = .ok entries ∧ Fits header documents entries ∧
        prepared = {
          header, entries := entries.map (prepareEntry documents),
          documents := documents.map preparedDocument,
          fingerprintBytes := utf8 header.fingerprint.val,
          projectBytes := utf8 header.project.val,
          byteLength := (layout header documents entries).length } := by
  simp only [prepareSnapshot, bind_ok_iff] at h
  obtain ⟨header, hheader, entries, hentries, field, hfield, projectField, hproject, prepareds,
    hprepareds, documentCount, hdocumentCount, entryCount, hentryCount, lengths, hlengths, h⟩ := h
  generalize hdocuments : (documentsByIdentity [] entries).insertionSort
    (fun left right => documentLe left right) = documents at hprepareds hlengths hentryCount h
  have hall : ∀ document, document ∈ documents ↔ ∃ entry ∈ entries, entry.document = document := by
    intro document
    rw [← hdocuments, List.mem_insertionSort, mem_documentsByIdentity]
    simp
  have hmem : ∀ entry ∈ entries, entry.document ∈ documents := fun entry hentry =>
    (hall _).mpr ⟨entry, hentry, rfl⟩
  obtain ⟨hfingerprint, rfl⟩ := stringField_eq_ok hfield
  obtain ⟨hprojectSafe, rfl⟩ := stringField_eq_ok hproject
  obtain ⟨hids, rfl⟩ := prepareDocuments_eq_ok hprepareds
  rw [List.length_map] at hdocumentCount hentryCount
  obtain ⟨hdocumentsSafe, rfl⟩ := varUintLength_eq_ok.mp hdocumentCount
  obtain ⟨hentriesSafe, rfl⟩ := varUintLength_eq_ok.mp hentryCount
  rw [List.mapM_map] at hlengths
  have hsizes : lengths = entries.map fun entry => (entryWord documents entry).length :=
    except_mapM_eq_map (fun entry hentry _ hlength => entryLength_eq_ok (hmem entry hentry) hlength)
      hlengths
  subst hsizes
  refine ⟨header, documents, entries, hheader, hentries,
    ⟨hfingerprint, hprojectSafe, hids, hdocumentsSafe, hentriesSafe, hall⟩, ?_⟩
  cases h
  have hwords : (documents.map preparedDocument).map PreparedDocument.byteLength =
      documents.map fun document => (documentWord document).length := by
    rw [List.map_map]
    rfl
  simp only [hwords, layout, List.length_append, length_bigEndian, List.length_flatMap]

theorem writeSnapshot_eq_ok (h : Fits header documents entries) (byteLength : Nat) :
    writeSnapshot {
        header, entries := entries.map (prepareEntry documents),
        documents := documents.map preparedDocument,
        fingerprintBytes := utf8 header.fingerprint.val,
        projectBytes := utf8 header.project.val, byteLength } =
      .ok (layout header documents entries) := by
  have hdocuments : (documents.map preparedDocument).mapM writeDocument =
      .ok (documents.map documentWord) := by
    rw [List.mapM_map]
    exact except_mapM_eq_ok fun document hdocument =>
      writeDocument_eq_ok (h.documentIds document hdocument)
  have hentries : (entries.map (prepareEntry documents)).mapM writeEntry =
      .ok (entries.map (entryWord documents)) := by
    rw [List.mapM_map]
    exact except_mapM_eq_ok fun entry hentry =>
      writeEntry_eq_ok (h.document_mem hentry) h.documentCount
  simp only [writeSnapshot, List.length_map, writeString_eq_ok h.fingerprint,
    writeString_eq_ok h.project, writeVarUint_eq_ok h.documentCount,
    writeVarUint_eq_ok h.entryCount, hdocuments, hentries]
  simp only [layout, List.flatMap]
  rfl

/-- What is written has the computed length, whatever is written. -/
theorem encodeSemanticMetadata_cases (snapshot : Snapshot) :
    (∃ message, encodeSemanticMetadata snapshot = .error (.typeError message)) ∨
      ∃ header documents entries,
        expectedSnapshot snapshot.fingerprint snapshot.project snapshot.dimensions
            Expected.nothing = .ok header ∧
          normalizeEntries snapshot.entries = .ok entries ∧ Fits header documents entries ∧
          encodeSemanticMetadata snapshot = .ok (layout header documents entries) := by
  rcases hprepare : prepareSnapshot snapshot with message | prepared
  · refine Or.inl ⟨message, ?_⟩
    rw [encodeSemanticMetadata, hprepare]
    rfl
  · obtain ⟨header, documents, entries, hheader, hentries, hfits, rfl⟩ :=
      prepareSnapshot_eq_ok hprepare
    refine Or.inr ⟨header, documents, entries, hheader, hentries, hfits, ?_⟩
    simp only [encodeSemanticMetadata, hprepare, writeSnapshot_eq_ok hfits, Except.mapError,
      Bind.bind, Except.bind]
    exact if_neg (not_not.mpr rfl)

/-! ## Reading the layout -/

theorem expectedSnapshot_eq_ok {fingerprint project : Option Text} {dimensions : Option Int}
    (h : expectedSnapshot fingerprint project dimensions expected = .ok header) :
    fingerprint = some header.fingerprint.val ∧ project = some header.project.val ∧
      dimensions = some (header.dimensions.val : Int) := by
  simp only [expectedSnapshot, bind_ok_iff, nonEmptyString_eq_ok, positiveInteger_eq_ok] at h
  obtain ⟨f, hf, p, hp, d, hd, h⟩ := h
  split_ifs at h
  cases h
  exact ⟨hf, hp, hd⟩

theorem expectedSnapshot_nothing (header : Header) :
    expectedSnapshot (some header.fingerprint.val) (some header.project.val)
      (some (header.dimensions.val : Int)) Expected.nothing = .ok header := by
  simp only [expectedSnapshot, bind_ok_iff, nonEmptyString_eq_ok, positiveInteger_eq_ok]
  refine ⟨header.fingerprint, rfl, header.project, rfl, header.dimensions, rfl, ?_⟩
  rw [dif_neg (Int.not_lt.mpr header.dimensions_le)]
  rfl

theorem reads_readDocument (hwell : isWellFormed document.documentId.val = true)
    (hsafe : ((utf8 document.documentId.val).length : Int) ≤ MAX_SAFE_INTEGER)
    (documents : List Document) :
    Reads (readDocument documents) (documentWord document) (documents ++ [document]) := by
  refine Reads.bind (reads_string hwell hsafe _) ?_
  refine Reads.bind_nil (reads_varUint document.version.property.2) ?_
  exact Reads.lift_bind (positiveInteger_eq_ok.mpr rfl) (Reads.pure _)

theorem local_require (condition : Bool) (message : String) : Local (require condition message) :=
  Local.lift _

theorem local_varUint : Local Read.varUint := local_varUintRounds 8 0 0

theorem local_readDocument (documents : List Document) : Local (readDocument documents) :=
  Local.bind (local_string _) fun _ => Local.bind local_varUint fun _ =>
    Local.bind (Local.lift _) fun _ => Local.pure _

theorem reads_readEntry (hmem : entry.document ∈ documents)
    (hcount : (documents.length : Int) ≤ MAX_SAFE_INTEGER)
    (hnew : entry.label ∉ entries.map CompactEntry.label) :
    Reads (readEntry documents entries) (entryWord documents entry) (entries ++ [entry]) := by
  have hlabel : entry.label.val < 256 ^ 8 := by
    have h : (entry.label.val : Int) ≤ 0xffffffffffffffff := entry.label.property.2
    omega
  have hposition := (documentPosition_spec hmem).2
  simp only [entryWord, List.append_assoc]
  refine Reads.bind (reads_integer hlabel) (Reads.lift_bind (b := ()) ?_ ?_)
  · exact if_pos (decide_eq_true (Nat.pos_iff_ne_zero.mp entry.label.property.1))
  refine Reads.bind (reads_varUint (documentPosition_le hmem hcount)) (Reads.lift_bind
    (b := entry.document) ?_ ?_)
  · rw [documentAt, hposition]
  refine Reads.bind (reads_varUint entry.windowOrdinal.property) ?_
  refine Reads.bind (reads_varUint entry.startByte.property) ?_
  refine Reads.bind_nil (reads_varUint entry.endByte.property) ?_
  have hentry : compactEntry entry.raw (entryPath entries.length) = .ok entry :=
    compactEntry_eq_ok.mpr rfl
  refine Reads.lift_bind hentry (Reads.lift ?_)
  exact addEntry_eq_ok.mpr ⟨hnew, rfl⟩

theorem local_readEntry (documents : List Document) (entries : List CompactEntry) :
    Local (readEntry documents entries) :=
  Local.bind (local_integer 8) fun _ => Local.bind (local_require _ _) fun _ =>
    Local.bind local_varUint fun _ => Local.bind (Local.lift _) fun _ =>
    Local.bind local_varUint fun _ => Local.bind local_varUint fun _ =>
    Local.bind local_varUint fun _ => Local.bind (Local.lift _) fun _ => Local.lift _

theorem reads_readSnapshot (h : Fits header documents entries)
    (hnodup : (entries.map CompactEntry.label).Nodup)
    (hfingerprint : isWellFormed header.fingerprint.val = true)
    (hproject : isWellFormed header.project.val = true)
    (hids : ∀ document ∈ documents, isWellFormed document.documentId.val = true) :
    Reads (readSnapshot Expected.nothing) (layout header documents entries)
      (snapshotResult header entries) := by
  have hdimensions : header.dimensions.val < 256 ^ 4 := by
    have h := header.dimensions_le
    rw [MAX_UINT32] at h
    omega
  simp only [layout, List.append_assoc]
  refine Reads.bind (reads_bytes (by decide)) (Reads.lift_bind (b := ()) rfl ?_)
  refine Reads.bind (reads_integer (by decide)) (Reads.lift_bind (b := ()) rfl ?_)
  refine Reads.bind (reads_integer hdimensions) ?_
  refine Reads.bind (reads_string hfingerprint h.fingerprint _) ?_
  refine Reads.bind (reads_string hproject h.project _) ?_
  refine Reads.lift_bind (expectedSnapshot_nothing header) ?_
  refine Reads.bind (reads_varUint h.documentCount) ?_
  refine Reads.bind (Reads.loop documents [] fun before document after hsplit => ?_) ?_
  · have hmem : document ∈ documents := by
      rw [List.nil_append] at hsplit
      simp [hsplit]
    exact reads_readDocument (hids document hmem) (h.documentIds document hmem) before
  refine Reads.bind (reads_varUint h.entryCount) ?_
  refine Reads.bind_nil (Reads.loop entries [] fun before entry after hsplit => ?_) (Reads.pure _)
  rw [List.nil_append] at hsplit ⊢
  have hmem : entry ∈ entries := by simp [hsplit]
  refine reads_readEntry (h.document_mem hmem) h.documentCount ?_
  rw [hsplit, List.map_append, List.map_cons] at hnodup
  intro hlabel
  exact List.disjoint_of_nodup_append hnodup hlabel List.mem_cons_self

theorem local_readSnapshot (expected : Expected) : Local (readSnapshot expected) :=
  Local.bind (local_bytes _) fun _ => Local.bind (local_require _ _) fun _ =>
    Local.bind (local_integer 4) fun _ => Local.bind (local_require _ _) fun _ =>
    Local.bind (local_integer 4) fun _ => Local.bind (local_string _) fun _ =>
    Local.bind (local_string _) fun _ => Local.bind (Local.lift _) fun _ =>
    Local.bind local_varUint fun count =>
    Local.bind (Local.loop local_readDocument count []) fun _ => Local.bind local_varUint fun count => Local.bind (Local.loop (local_readEntry _) count [])
    fun _ => Local.pure _

theorem readSnapshot_nothing {outcome : SnapshotResult × List UInt8}
    (h : readSnapshot expected bytes = .ok outcome) :
    readSnapshot Expected.nothing bytes = .ok outcome := by
  simp only [readSnapshot, Reader.bind_eq_ok, Reader.lift_eq_ok] at h ⊢
  obtain ⟨magic, r₁, hmagic, checked, r₂, hcheck, version, r₃, hversion, checked', r₄, hcheck',
    dimensions, r₅, hdimensions, fingerprint, r₆, hfingerprint, project, r₇, hproject, header, r₈,
    ⟨hheader, hr₈⟩, hrest⟩ := h
  obtain ⟨hf, hp, hd⟩ := expectedSnapshot_eq_ok hheader
  refine ⟨magic, r₁, hmagic, checked, r₂, hcheck, version, r₃, hversion, checked', r₄, hcheck',
    dimensions, r₅, hdimensions, fingerprint, r₆, hfingerprint, project, r₇, hproject, header, r₈,
    ⟨?_, hr₈⟩, hrest⟩
  rw [hf, hp, hd]
  exact expectedSnapshot_nothing header

/-! ## Labels -/

theorem nodup_labels_normalizeSnapshot (h : normalizeSnapshot snapshot expected = .ok result) :
    (result.entries.map CompactEntry.label).Nodup := by
  simp only [normalizeSnapshot, bind_ok_iff] at h
  obtain ⟨header, -, entries, hentries, h⟩ := h
  cases h
  obtain ⟨raws, -, hnodup, rfl⟩ := normalizeEntries_eq_ok.mp hentries
  exact ((byLabel_perm raws).map _).nodup_iff.mpr hnodup

theorem nodup_labels_decodeSemanticMetadata
    (h : decodeSemanticMetadata bytes expected = .ok result) :
    (result.entries.map CompactEntry.label).Nodup := by
  have hread := Reader.complete_eq_ok.mp h
  simp only [readSnapshot, Reader.bind_eq_ok] at hread
  obtain ⟨_, _, -, _, _, -, _, _, -, _, _, -, _, _, -, _, _, -, _, _, -, _, _, -, _, _, -,
    documents, _, -, _, _, -, entries, _, hentries, hresult⟩ := hread
  cases hresult
  have hkept : ∀ before bytes after rest, (before.map CompactEntry.label).Nodup →
      readEntry documents before bytes = .ok (after, rest) →
      (after.map CompactEntry.label).Nodup := by
    intro before bytes after rest hbefore hround
    simp only [readEntry, Reader.bind_eq_ok, Reader.lift_eq_ok] at hround
    obtain ⟨_, _, -, _, _, -, _, _, -, _, _, -, _, _, -, _, _, -, _, _, -, entry, _, -, hadd, -⟩ :=
      hround
    obtain ⟨hnew, rfl⟩ := addEntry_eq_ok.mp hadd
    exact nodup_labels_append.mpr ⟨hnew, hbefore⟩
  exact Reader.loop_invariant (s := []) hkept List.nodup_nil hentries

/-! ## Snapshots in the file -/

/-- The snapshot's texts have no unpaired surrogates. -/
structure Snapshot.WellFormed (snapshot : Snapshot) : Prop where
  fingerprint : ∀ value, snapshot.fingerprint = some value → isWellFormed value = true
  project : ∀ value, snapshot.project = some value → isWellFormed value = true
  documentIds : ∀ entry ∈ snapshot.entries, ∀ value, entry.documentId = some value →
    isWellFormed value = true

theorem encodeSemanticMetadata_reads (hwell : snapshot.WellFormed)
    (h : encodeSemanticMetadata snapshot = .ok bytes) :
    ∃ header entries, expectedSnapshot snapshot.fingerprint snapshot.project snapshot.dimensions
          Expected.nothing = .ok header ∧
        normalizeEntries snapshot.entries = .ok entries ∧
        Reads (readSnapshot Expected.nothing) bytes (snapshotResult header entries) := by
  rcases encodeSemanticMetadata_cases snapshot with ⟨message, herror⟩ |
    ⟨header, documents, entries, hheader, hentries, hfits, hok⟩
  · rw [h] at herror
    cases herror
  · rw [h, Except.ok.injEq] at hok
    obtain ⟨hf, hp, -⟩ := expectedSnapshot_eq_ok hheader
    obtain ⟨raws, hraws, hnodup, hsorted⟩ := normalizeEntries_eq_ok.mp hentries
    have hlabels : (entries.map CompactEntry.label).Nodup := by
      rw [hsorted]
      exact ((byLabel_perm raws).map _).nodup_iff.mpr hnodup
    have hids : ∀ document ∈ documents, isWellFormed document.documentId.val = true := by
      intro document hdocument
      obtain ⟨entry, hentry, rfl⟩ := (hfits.mem_documents document).mp hdocument
      rw [hsorted, (byLabel_perm raws).mem_iff] at hentry
      refine hwell.documentIds entry.raw ?_ _ rfl
      rw [hraws]
      exact List.mem_map_of_mem hentry
    refine ⟨header, entries, hheader, hentries, ?_⟩
    rw [hok]
    exact reads_readSnapshot hfits hlabels (hwell.fingerprint _ hf) (hwell.project _ hp) hids

theorem encodeSemanticMetadata_of_perm {entries : List RawEntry}
    (hperm : entries.Perm snapshot.entries) (h : encodeSemanticMetadata snapshot = .ok bytes) :
    encodeSemanticMetadata { snapshot with entries := entries } = .ok bytes := by
  rcases encodeSemanticMetadata_cases snapshot with ⟨message, herror⟩ |
    ⟨header, documents, normalized, hheader, hentries, hfits, hok⟩
  · rw [h] at herror
    cases herror
  · have hprepare : prepareSnapshot { snapshot with entries := entries } =
        prepareSnapshot snapshot := by
      simp only [prepareSnapshot, hentries, normalizeEntries_of_perm hperm hentries]
    rw [← h, encodeSemanticMetadata, encodeSemanticMetadata, hprepare]

theorem mem_documents_snapshotResult {identity : Text} :
    identity ∈ (snapshotResult header entries).documents ↔
      ∃ entry ∈ entries, documentIdentity entry.document = identity := by
  rw [snapshotResult, List.mem_eraseDups, List.mem_map]

/-- For a snapshot that is accepted, the file decodes to the snapshot as it was normalised, with its
    entries by label and the identities of their documents; the order of the entries leaves no
    trace in the file, and no beginning and no extension of the file is a file. The check that the
    computed length is the length written never fails. -/
theorem encodeSemanticMetadata_round_trip {snapshot : Snapshot} {bytes : List UInt8}
    (hwell : snapshot.WellFormed) (h : encodeSemanticMetadata snapshot = .ok bytes) :
    (∃ result, normalizeSnapshot snapshot Expected.nothing = .ok result ∧
        decodeSemanticMetadata bytes Expected.nothing = .ok result ∧
        result.entries.Pairwise (fun a b => a.label.val < b.label.val) ∧
        (result.entries.map CompactEntry.raw).Perm snapshot.entries ∧
        ∀ identity, identity ∈ result.documents ↔
          ∃ entry ∈ result.entries, documentIdentity entry.document = identity) ∧
      (∀ other message, encodeSemanticMetadata other ≠ .error (.error message)) ∧
      (∀ entries, entries.Perm snapshot.entries →
        encodeSemanticMetadata { snapshot with entries := entries } = .ok bytes) ∧
      (∀ first more, first ++ more = bytes → more ≠ [] →
        ∀ expected result, decodeSemanticMetadata first expected ≠ .ok result) ∧
      ∀ more, more ≠ [] →
        ∀ expected result, decodeSemanticMetadata (bytes ++ more) expected ≠ .ok result := by
  obtain ⟨header, entries, hheader, hentries, hreads⟩ := encodeSemanticMetadata_reads hwell h
  -- a snapshot that is refused without expectations is refused with them
  have hnothing : ∀ value expected result, decodeSemanticMetadata value expected = .ok result →
      decodeSemanticMetadata value Expected.nothing = .ok result := by
    intro value expected result hok
    exact Reader.complete_eq_ok.mpr (readSnapshot_nothing (Reader.complete_eq_ok.mp hok))
  refine ⟨⟨snapshotResult header entries, ?_, hreads.complete_eq _, ?_, ?_, fun identity =>
    mem_documents_snapshotResult⟩, ?_, fun entries hperm => encodeSemanticMetadata_of_perm hperm h,
    ?_, ?_⟩
  · rw [normalizeSnapshot, hheader, hentries]
    rfl
  · obtain ⟨raws, -, hnodup, rfl⟩ := normalizeEntries_eq_ok.mp hentries
    exact pairwise_byLabel hnodup
  · obtain ⟨raws, hraws, -, rfl⟩ := normalizeEntries_eq_ok.mp hentries
    rw [hraws]
    exact (byLabel_perm raws).map _
  · intro other message herror
    rcases encodeSemanticMetadata_cases other with ⟨_, htype⟩ | ⟨_, _, _, _, _, _, hok⟩
    · rw [herror] at htype
      cases htype
    · rw [herror] at hok
      cases hok
  · rintro first more rfl hmore expected result hok
    exact (local_readSnapshot _).complete_ne_ok _ hreads hmore result (hnothing _ _ _ hok)
  · intro more hmore expected result hok
    exact hreads.complete_append_ne_ok _ hmore result (hnothing _ _ _ hok)

/-- Two windows of one document version and one of another, passed out of order. -/
def sampleSnapshot : Snapshot where
  formatVersion := none
  fingerprint := some (text "f")
  project := some (text "p")
  dimensions := some 384
  entries := [
    ⟨some 300, some (text "b"), some 1, some 0, some 0, some 200⟩,
    ⟨some 7, some (text "é"), some 2, some 1, some 5, some 5⟩,
    ⟨some 9, some (text "b"), some 1, some 1, some 100, some 300⟩]

theorem sampleSnapshot_wellFormed : sampleSnapshot.WellFormed where
  fingerprint := by
    rintro _ ⟨⟩
    exact isWellFormed_text _
  project := by
    rintro _ ⟨⟩
    exact isWellFormed_text _
  documentIds := by
    intro entry hentry value hvalue
    simp only [sampleSnapshot, List.mem_cons, List.not_mem_nil, or_false] at hentry
    rcases hentry with rfl | rfl | rfl <;> cases hvalue <;> exact isWellFormed_text _

theorem encodeSemanticMetadata_sampleSnapshot :
    ∃ bytes result, encodeSemanticMetadata sampleSnapshot = .ok bytes ∧ bytes.length = 67 ∧
      decodeSemanticMetadata bytes Expected.nothing = .ok result ∧
      (result.entries.map CompactEntry.raw).Perm sampleSnapshot.entries ∧
      ∀ more, more ≠ [] → ∀ expected other,
        decodeSemanticMetadata (bytes ++ more) expected ≠ .ok other := by
  have haccepted : (encodeSemanticMetadata sampleSnapshot).toOption.map List.length = some 67 := by
    decide +kernel
  rcases hencode : encodeSemanticMetadata sampleSnapshot with failure | bytes
  · rw [hencode] at haccepted
    simp [Except.toOption] at haccepted
  · rw [hencode] at haccepted
    obtain ⟨⟨result, -, hdecode, -, hperm, -⟩, -, -, -, hextended⟩ :=
      encodeSemanticMetadata_round_trip sampleSnapshot_wellFormed hencode
    exact ⟨bytes, result, rfl, by simpa [Except.toOption] using haccepted, hdecode, hperm,
      hextended⟩

end ContextStore.Metadata
