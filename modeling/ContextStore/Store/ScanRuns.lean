import ContextStore.Store.Scan

/-! # What scans return

The range of a prefix holds exactly the keys of the prefix, so a forward scan is exact. A reverse scan
starts at the successor of the prefix and takes it along when it is stored; its padded lower bound
leaves out only keys that extend it, which are longer than any cursor a page returns allows. -/

namespace ContextStore.StoreScan

open KeyEncoding OrderedCodes
open Concurrent (bind_ok_iff)

variable {ν : Type}

/-! ## Inversion of the checks -/

theorem ofKey_eq_ok_iff {α : Type} {x : KeyEncoding.Result α} {a : α} :
    ofKey x = .ok a ↔ x = .ok a := by
  cases x <;> simp [ofKey]

theorem assertNativeKeySize_eq_ok_iff {bytes key : List UInt8} {boundary : String} :
    assertNativeKeySize bytes boundary = .ok key ↔
      key = bytes ∧ bytes.length ≤ MAX_ROCKSDB_KEY_BYTES := by
  unfold assertNativeKeySize
  split
  · simp
    omega
  · simp only [Except.ok.injEq, eq_comm, iff_self_and]
    omega

theorem bytes_of_keyBytes {key : KeyInput} {bytes : List UInt8} (h : keyBytes key = .ok bytes) :
    key.bytes = bytes := by
  simp only [keyBytes, bind_ok_iff, ofKey_eq_ok_iff, assertNativeKeySize_eq_ok_iff] at h
  obtain ⟨_, hencoded, rfl, -⟩ := h
  cases key with
  | fields parts => exact (encodeKey_eq_ok_iff.mp hencoded).2.symm
  | encoded bytes =>
    simp only [encodedKey, bind_ok_iff, requireBytes_eq_ok_iff] at hencoded
    obtain ⟨_, ⟨rfl, -⟩, _, -, hpure⟩ := hencoded
    exact Except.ok.inj hpure

variable {parts : List KeyField} {bounds : Bounds}

theorem encodable_of_bounds {boundary : String}
    (h : nativePrefixBounds parts boundary = .ok bounds) :
    Encodable parts ∧ bounds.start = tupleBytes parts ∧
      prefixSuccessor (tupleBytes parts) = some bounds.stop ∧
      IsSuccessor (tupleBytes parts) bounds.stop := by
  simp only [nativePrefixBounds, bind_ok_iff, ofKey_eq_ok_iff] at h
  obtain ⟨_, hbounds, _, -, _, -, hpure⟩ := h
  cases hpure
  simp only [prefixBounds, bind_ok_iff, encodeKey_eq_ok_iff] at hbounds
  obtain ⟨_, ⟨hencodable, rfl⟩, hbounds⟩ := hbounds
  obtain ⟨bound, hbound, hsuccessor⟩ := exists_prefixSuccessor parts
  rw [hbound] at hbounds
  cases hbounds
  exact ⟨hencodable, rfl, hbound, hsuccessor⟩

theorem insidePrefix_iff {key : List UInt8} :
    insidePrefix bounds key = true ↔ bounds.start ≤ key ∧ key < bounds.stop := by
  simp [insidePrefix]

variable {before : Option (List UInt8)} {options : ScanOptions} {dbi : NativeStore ν}
  {s t : List KeyField} {e : List UInt8 × ν}

theorem beforeCursor_eq_ok (h : beforeCursor bounds options = .ok before) :
    before = options.before.map KeyInput.bytes ∧
      ∀ key, before = some key → options.reverse = true ∧ bounds.start ≤ key ∧ key < bounds.stop := by
  unfold beforeCursor at h
  split at h
  · rename_i hnone
    cases h
    exact ⟨by rw [hnone]; rfl, by simp⟩
  · rename_i key hkey
    split at h
    · cases h
    · rename_i hreverse
      rw [bind_ok_iff] at h
      obtain ⟨bytes, hbytes, h⟩ := h
      split at h
      · rename_i hinside
        cases h
        refine ⟨by rw [hkey, Option.map_some, bytes_of_keyBytes hbytes], ?_⟩
        rintro _ ⟨⟩
        exact ⟨by simpa using hreverse, insidePrefix_iff.mp hinside⟩
      · cases h

theorem afterCursor_eq_ok {after : Option (List UInt8)}
    (h : afterCursor bounds options = .ok after) :
    after = options.after.map KeyInput.bytes ∧
      ∀ key, after = some key → options.reverse = false ∧ bounds.start ≤ key ∧ key < bounds.stop := by
  unfold afterCursor at h
  split at h
  · rename_i hnone
    cases h
    exact ⟨by rw [hnone]; rfl, by simp⟩
  · rename_i key hkey
    split at h
    · cases h
    · rename_i hreverse
      split at h
      · cases h
      · rw [bind_ok_iff] at h
        obtain ⟨bytes, hbytes, h⟩ := h
        split at h
        · rename_i hinside
          cases h
          refine ⟨by rw [hkey, Option.map_some, bytes_of_keyBytes hbytes], ?_⟩
          rintro _ ⟨⟩
          exact ⟨by simpa using hreverse, insidePrefix_iff.mp hinside⟩
        · cases h

/-! ## The native range -/

/-- A stored key lies in the range of a prefix when its tuple begins with the prefix. -/
theorem beginsWith_iff (he : e ∈ dbi.entries) (hparts : Encodable parts) {stop : List UInt8}
    (hstop : IsSuccessor (tupleBytes parts) stop) :
    beginsWith parts e.1 = true ↔ tupleBytes parts ≤ e.1 ∧ e.1 < stop := by
  obtain ⟨fields, hfields, hkey⟩ := dbi.encoded e he
  rw [hstop.range_iff, hkey, tupleBytes_prefix_iff hparts hfields, beginsWith,
    decodeKey_encoded hfields]
  exact List.isPrefixOf_iff_prefix

/-- A page of records the cursor among which is passed over. -/
theorem take_filter_ne {α : Type} {p : α → Bool} {l : List α} (n : Nat)
    (h : l.Pairwise fun a b => p a = true ∨ p b = true) :
    ((l.take (n + 1)).filter p).take n = (l.filter p).take n := by
  induction l generalizing n with
  | nil => rfl
  | cons a l ih =>
    obtain ⟨hrest, hl⟩ := List.pairwise_cons.mp h
    rw [List.take_succ_cons]
    cases ha : p a with
    | true =>
      rw [List.filter_cons_of_pos ha, List.filter_cons_of_pos ha]
      cases n with
      | zero => rfl
      | succ n => rw [List.take_succ_cons, List.take_succ_cons, ih n hl]
    | false =>
      -- The others are no cursors.
      have hall : ∀ b ∈ l, p b = true := by
        intro b hb
        have := hrest b hb
        simpa [ha] using this
      have htake : ∀ b ∈ l.take n, p b = true := fun b hb => hall b (List.mem_of_mem_take hb)
      rw [List.filter_cons_of_neg (by simp [ha]), List.filter_cons_of_neg (by simp [ha]),
        List.filter_eq_self.mpr hall, List.filter_eq_self.mpr htake, List.take_take,
        Nat.min_self]

theorem emit_eq {limit : Nat} (hlimit : 0 < limit) (records : List (List UInt8 × ν)) :
    emit before limit records =
      (records.filter fun e => decide (before ≠ some e.1)).take limit := by
  induction records generalizing limit with
  | nil => rw [emit, List.filter_nil, List.take_nil]
  | cons record records ih =>
    obtain ⟨n, rfl⟩ : ∃ n, limit = n + 1 := ⟨limit - 1, by omega⟩
    rw [emit]
    split
    · rename_i hcursor
      rw [List.filter_cons_of_neg (by simpa using hcursor), ih hlimit]
    · rename_i hcursor
      rw [List.filter_cons_of_pos (by simpa using hcursor), List.take_succ_cons]
      split
      · rename_i hone
        obtain rfl : n = 0 := by omega
        rw [List.take_zero]
      · rw [ih (by omega), Nat.add_sub_cancel]

/-- What a sorted list holds below a key comes before the rest. -/
theorem filter_split {l : List (List UInt8 × ν)} (hl : l.Pairwise fun a b => a.1 < b.1)
    (p : List UInt8 × ν → Bool) (key : List UInt8) :
    l.filter p = (l.filter fun e => p e && decide (e.1 < key)) ++
      l.filter fun e => p e && decide (key ≤ e.1) := by
  induction l with
  | nil => rfl
  | cons a l ih =>
    obtain ⟨hrest, hl⟩ := List.pairwise_cons.mp hl
    by_cases ha : a.1 < key
    · have hnot : ¬ key ≤ a.1 := not_le_of_gt ha
      cases hp : p a <;> simp [hp, ha, hnot, ih hl]
    · have hle : key ≤ a.1 := not_lt.mp ha
      have hnone : l.filter (fun e => p e && decide (e.1 < key)) = [] := by
        refine List.filter_eq_nil_iff.mpr fun b hb => ?_
        have := le_of_lt (lt_of_le_of_lt hle (hrest b hb))
        simp [not_lt_of_ge this]
      have hsplit := ih hl
      rw [hnone, List.nil_append] at hsplit
      cases hp : p a <;> simp [hp, ha, hle, hnone, hsplit]

/-- A page of a list goes on behind the list only where the list does not fill it. -/
theorem take_append_eq_iff {α : Type} {l m : List α} {n : Nat} :
    (l ++ m).take n = l.take n ↔ n ≤ l.length ∨ m = [] := by
  rw [List.take_append, List.append_right_eq_self, List.take_eq_nil_iff]
  exact or_congr_left Nat.sub_eq_zero_iff_le

/-! ## The inclusive lower bound -/

theorem toNat_pred {b : UInt8} (h : b ≠ 0) : (b - 1).toNat = b.toNat - 1 := by
  have hpos : b.toNat ≠ 0 := fun hzero => h (UInt8.toNat_inj.mp hzero)
  have hlt := b.toNat_lt
  rw [UInt8.toNat_sub]
  show (256 - 1 + b.toNat) % 256 = _
  omega

theorem lowerBefore_spec {bytes : List UInt8} {maximum index : Nat} (hindex : index ≤ bytes.length)
    (hmaximum : bytes.length ≤ maximum) (htail : ∀ c ∈ bytes.drop index, c = 0)
    (hbyte : ∃ b ∈ bytes, b ≠ 0) :
    ∃ head b tail pad, bytes = head ++ b :: tail ∧ b ≠ 0 ∧ (∀ c ∈ tail, c = 0) ∧
      (∀ c ∈ pad, c = 0xff) ∧ lowerBefore bytes maximum index = head ++ (b - 1) :: pad ∧
      (head ++ (b - 1) :: pad).length = maximum := by
  induction index with
  | zero =>
    obtain ⟨b, hb, hne⟩ := hbyte
    exact absurd (htail b hb) hne
  | succ index ih =>
    have hget : bytes.getD index 0 = bytes[index] := by
      rw [List.getD_eq_getElem?_getD, List.getElem?_eq_getElem (by omega), Option.getD_some]
    have hdrop : bytes.drop index = bytes[index] :: bytes.drop (index + 1) :=
      List.drop_eq_getElem_cons (by omega)
    simp only [lowerBefore, hget]
    split
    · rename_i hzero
      refine ih (by omega) ?_
      rw [hdrop, List.forall_mem_cons]
      exact ⟨hzero, htail⟩
    · rename_i hne
      have hlength : (bytes.take index ++
          (bytes[index] - 1) :: List.replicate (maximum - (index + 1)) 0xff).length = maximum := by
        rw [List.length_append, List.length_take_of_le (by omega), List.length_cons,
          List.length_replicate]
        omega
      refine ⟨bytes.take index, bytes[index], bytes.drop (index + 1),
        List.replicate (maximum - (index + 1)) 0xff, ?_, hne, htail,
        fun c hc => List.eq_of_mem_replicate hc, ?_, hlength⟩
      · rw [← hdrop, List.take_append_drop]
      · exact List.take_of_length_le (le_of_eq hlength)

theorem lowerBound_lt {maximum : Nat} (hmaximum : (tupleBytes parts).length ≤ maximum) :
    reverseInclusiveLowerBound (tupleBytes parts) maximum < tupleBytes parts := by
  obtain ⟨head, b, tail, pad, hbytes, hne, -, -, hlower, -⟩ := lowerBefore_spec (Nat.le_refl _)
    hmaximum (by simp) ⟨KEY_FORMAT_VERSION, List.mem_cons_self, by decide⟩
  rw [reverseInclusiveLowerBound, hlower, hbytes]
  refine (diverges_of_head_lt ?_ pad tail).prepend head |>.lt
  have hpos : b.toNat ≠ 0 := fun hzero => hne (UInt8.toNat_inj.mp hzero)
  rw [UInt8.lt_iff_toNat_lt, toNat_pred hne]
  omega

/-- A key that another key extends is followed by a tag, never by a zero. -/
theorem next_byte_ne_zero (hs : Encodable s) (ht : Encodable t) {c : UInt8} {rest : List UInt8}
    (h : tupleBytes t = tupleBytes s ++ c :: rest) : c ≠ 0 := by
  have hprefix : tupleBytes s <+: tupleBytes t := ⟨c :: rest, h.symm⟩
  obtain ⟨u, hu⟩ := (tupleBytes_prefix_iff hs ht).mp hprefix
  have hbytes : c :: rest = u.flatMap KeyField.word := by
    rw [← tupleBytes_stored t, ← hu, ← tupleBytes_stored s, tupleBytes, tupleBytes,
      List.flatMap_append, List.cons_append, List.cons.injEq] at h
    exact (List.append_cancel_left h.2).symm
  cases u with
  | nil => cases hbytes
  | cons f u =>
    have hf : Canonical f := ht.canonical f (hu ▸ List.mem_append_right _ List.mem_cons_self)
    obtain ⟨content, hcontent⟩ := word_eq_tag_cons hf.fits
    rw [List.flatMap_cons, hcontent, List.cons_append, List.cons.injEq] at hbytes
    rw [hbytes.1]
    exact tag_ne_zero hf.fits

theorem le_lowerBound (hs : Encodable s) (ht : Encodable t) {maximum : Nat}
    (hsize : (tupleBytes s).length ≤ maximum) (hmaximum : (tupleBytes t).length ≤ maximum)
    (h : tupleBytes s < tupleBytes t) :
    tupleBytes s ≤ reverseInclusiveLowerBound (tupleBytes t) maximum := by
  obtain ⟨head, b, tail, pad, hbytes, hne, htail, hpad, hlower, hlength⟩ :=
    lowerBefore_spec (Nat.le_refl _) hmaximum (by simp)
      ⟨KEY_FORMAT_VERSION, List.mem_cons_self, by decide⟩
  rw [reverseInclusiveLowerBound, hlower]
  by_contra hnot
  have hlow := not_le.mp hnot
  have hprev : ∀ c, c < b → c ≤ b - 1 := by
    intro c hc
    rw [UInt8.lt_iff_toNat_lt] at hc
    rw [UInt8.le_iff_toNat_le, toNat_pred hne]
    omega
  have hzero : ∀ c ∈ tail, ∀ d, ¬ d < c := by
    intro c hc d hd
    rw [htail c hc, UInt8.lt_iff_toNat_lt] at hd
    exact Nat.not_lt_zero _ hd
  have hgreatest : ∀ c ∈ pad, ∀ d, ¬ c < d := by
    intro c hc d
    rw [hpad c hc]
    exact not_lt_of_ge (le_greatest d)
  obtain hextends | ⟨rest, hrest, hleft⟩ := between_padded hprev hzero hgreatest hlow (hbytes ▸ h)
  · have heq := hextends.eq_of_length (Nat.le_antisymm hextends.length_le (hlength ▸ hsize))
    exact ne_of_lt hlow heq
  · obtain ⟨left, rfl⟩ := hleft
    have htuple : tupleBytes t = tupleBytes s ++ left := by rw [hbytes, hrest]; simp
    cases left with
    | nil =>
      rw [List.append_nil] at htuple
      exact ne_of_gt h htuple
    | cons c left => exact next_byte_ne_zero hs ht htuple (htail c (by simp))

/-! ## Pages -/

theorem mem_matching {after : Option (List UInt8)} :
    e ∈ dbi.matching parts after before ↔ e ∈ dbi.entries ∧ beginsWith parts e.1 = true ∧
      (∀ key, after = some key → key < e.1) ∧ ∀ key, before = some key → e.1 < key := by
  simp [NativeStore.matching, Option.all_eq_true, and_assoc]

section

variable {dbi : NativeStore ν} {parts : List KeyField} (hparts : Encodable parts) {bounds : Bounds}
  (hstart : bounds.start = tupleBytes parts) (hstop : IsSuccessor (tupleBytes parts) bounds.stop)
  {limit : Nat} (hlimit : 0 < limit) {records : List (List UInt8 × ν)}

include hparts hstart hstop hlimit

/-- A forward scan reads the records of the prefix behind its cursor. -/
theorem readRange_forward {after : Option (List UInt8)}
    (hafter : ∀ key, after = some key → bounds.start ≤ key)
    (h : readRange dbi limit bounds none after false = .ok records) :
    records = (dbi.matching parts after none).take limit := by
  unfold readRange at h
  simp only [Option.getD_none] at h
  split at h
  · -- No key lies behind the cursor.
    rename_i hbehind
    obtain ⟨hsome, hle⟩ := hbehind
    obtain ⟨key, rfl⟩ := Option.isSome_iff_exists.mp hsome
    cases h
    have hnone : dbi.matching parts (some key) none = [] := by
      refine List.eq_nil_iff_forall_not_mem.mpr fun e he => ?_
      obtain ⟨hentry, hbegins, hkey, -⟩ := mem_matching.mp he
      have hlt := ((beginsWith_iff hentry hparts hstop).mp hbegins).2
      have hge := (append_least_le_iff (fun c => UInt8.zero_le)).mpr (hkey key rfl)
      exact not_lt_of_ge (le_trans hle hge) hlt
    rw [hnone, List.take_nil]
  · rw [bind_ok_iff] at h
    obtain ⟨_, -, h⟩ := h
    cases h
    simp only [Bool.false_eq_true, if_false, Option.isNone_none, if_true]
    rw [dbi.getRange_forward, emit_eq hlimit]
    simp only [reduceCtorEq, not_false_eq_true, ne_eq, decide_true, List.filter_true]
    rw [List.take_take, Nat.min_self, NativeStore.matching]
    congr 1
    refine List.filter_congr fun e he => ?_
    have hbegins := beginsWith_iff he hparts hstop
    cases after with
    | none =>
      simp only [Option.map_none, Option.getD_none, Option.all_none, Bool.and_true, hstart]
      rw [Bool.eq_iff_iff, hbegins]
      simp
    | some key =>
      simp only [Option.map_some, Option.getD_some, Option.all_none, Option.all_some, Bool.and_true]
      rw [Bool.eq_iff_iff, Bool.and_eq_true, Bool.and_eq_true, hbegins]
      simp only [decide_eq_true_eq, append_least_le_iff (fun c => UInt8.zero_le)]
      have hle := hafter key rfl
      rw [hstart] at hle
      constructor
      · rintro ⟨hkey, hlt⟩
        exact ⟨⟨le_of_lt (lt_of_le_of_lt hle hkey), hlt⟩, hkey⟩
      · rintro ⟨⟨-, hlt⟩, hkey⟩
        exact ⟨hkey, hlt⟩

end

/-- What a reverse scan reads: above the bound, and up to the cursor or the end of the prefix. -/
theorem readRange_reverse {limit : Nat} (hlimit : 0 < limit)
    {records : List (List UInt8 × ν)}
    (h : readRange dbi limit bounds before none true = .ok records) :
    bounds.start.length + (before.getD bounds.stop).length ≤ MAX_ROCKSDB_SCAN_BOUND_BYTES ∧
    records = ((dbi.entries.filter fun e =>
      decide (reverseInclusiveLowerBound bounds.start
        (MAX_ROCKSDB_SCAN_BOUND_BYTES - (before.getD bounds.stop).length) < e.1) &&
      decide (e.1 ≤ before.getD bounds.stop) && decide (before ≠ some e.1)).reverse).take limit := by
  unfold readRange at h
  simp only [Option.isSome_none, Bool.false_eq_true, false_and, if_false, Option.map_none,
    Option.getD_none, bind_ok_iff] at h
  obtain ⟨_, hbounds, h⟩ := h
  cases h
  refine ⟨?_, ?_⟩
  · unfold assertNativeScanBounds at hbounds
    split at hbounds
    · cases hbounds
    · omega
  · simp only [if_true]
    rw [dbi.getRange_reverse, emit_eq hlimit]
    have hswap : ∀ stop lower : List UInt8, (dbi.entries.reverse.filter fun e =>
        decide (e.1 ≤ stop) && decide (lower < e.1)).filter
          (fun e => decide (before ≠ some e.1)) =
        (dbi.entries.filter fun e => decide (lower < e.1) && decide (e.1 ≤ stop) &&
          decide (before ≠ some e.1)).reverse := by
      intro stop lower
      rw [List.filter_filter, ← List.filter_reverse]
      refine List.filter_congr fun e _ => ?_
      rw [Bool.and_comm (decide (e.1 ≤ stop)), Bool.and_comm]
    rw [← hswap]
    cases before with
    | none =>
      simp only [Option.isNone_none, if_true, reduceCtorEq, not_false_eq_true, ne_eq, decide_true,
        List.filter_true]
      rw [List.take_take, Nat.min_self]
    | some key =>
      simp only [Option.isNone_some, Bool.false_eq_true, if_false]
      refine take_filter_ne limit ?_
      refine List.Pairwise.filter _ ?_
      rw [List.pairwise_reverse]
      refine dbi.sorted.imp fun {a b} hab => ?_
      by_cases hb : some key = some b.1
      · have : some key ≠ some a.1 := fun ha => ne_of_lt hab (Option.some.inj (ha.symm.trans hb))
        exact .inr (by simpa using this)
      · exact .inl (by simpa using hb)

section

variable {dbi : NativeStore ν} {parts : List KeyField} (hparts : Encodable parts)

include hparts

/-- The stored keys between the bound and the tuple are longer than the bound. -/
theorem filter_below_eq_nil (maximum : Nat) (htuple : (tupleBytes parts).length ≤ maximum)
    (hmaximum : MAX_ROCKSDB_PERSISTED_KEY_BYTES ≤ maximum) :
    ∀ e ∈ dbi.entries, e.1 < tupleBytes parts →
      e.1 ≤ reverseInclusiveLowerBound (tupleBytes parts) maximum := by
  intro e he hlt
  obtain ⟨fields, hfields, hkey⟩ := dbi.encoded e he
  have hsize := Nat.le_trans (dbi.persistable e he) hmaximum
  rw [hkey] at hlt hsize ⊢
  exact le_lowerBound hfields hparts hsize htuple hlt

variable {bounds : Bounds} (hstart : bounds.start = tupleBytes parts)
  (hstop : IsSuccessor (tupleBytes parts) bounds.stop)

include hstart hstop

/-- Above the bound come the keys below the prefix and then those of the prefix. -/
theorem filter_above {lower : List UInt8} (hlower : lower < tupleBytes parts)
    (stop : List UInt8) (before : Option (List UInt8)) (hbefore : bounds.start ≤ stop)
    (hend : ∀ e ∈ dbi.entries, beginsWith parts e.1 = true →
      (e.1 < stop ↔ ∀ key, before = some key → e.1 < key)) (hle : stop ≤ bounds.stop) :
    (dbi.entries.filter fun e => decide (lower < e.1) && decide (e.1 < stop)) =
      (dbi.entries.filter fun e => decide (lower < e.1) && decide (e.1 < tupleBytes parts)) ++
        dbi.matching parts none before := by
  rw [filter_split dbi.sorted _ (tupleBytes parts)]
  rw [hstart] at hbefore
  congr 1
  · refine List.filter_congr fun e _ => ?_
    by_cases hlt : e.1 < tupleBytes parts
    · have := lt_of_lt_of_le hlt hbefore
      simp [hlt, this]
    · simp [hlt]
  · rw [NativeStore.matching]
    refine List.filter_congr fun e he => ?_
    rw [Bool.eq_iff_iff]
    simp only [Bool.and_eq_true, decide_eq_true_eq, Option.all_none, Bool.and_true,
      Option.all_eq_true]
    constructor
    · rintro ⟨⟨-, hlt⟩, hge⟩
      have hbegins := (beginsWith_iff he hparts hstop).mpr ⟨hge, lt_of_lt_of_le hlt hle⟩
      exact ⟨hbegins, (hend e he hbegins).mp hlt⟩
    · rintro ⟨hbegins, hkey⟩
      have hge := ((beginsWith_iff he hparts hstop).mp hbegins).1
      exact ⟨⟨lt_of_lt_of_le hlower hge, (hend e he hbegins).mpr hkey⟩, hge⟩

variable {limit : Nat} (hlimit : 0 < limit) {records : List (List UInt8 × ν)}

include hlimit

/-- Before a cursor: the page is right unless it has room and a key below the prefix lies above the
bound. -/
theorem readRange_before_iff {key : List UInt8} (hkey : bounds.start ≤ key ∧ key < bounds.stop)
    (h : readRange dbi limit bounds (some key) none true = .ok records) :
    records = (dbi.matching parts none (some key)).reverse.take limit ↔
      limit ≤ (dbi.matching parts none (some key)).length ∨
        ∀ e ∈ dbi.entries, e.1 < tupleBytes parts →
          e.1 ≤ reverseInclusiveLowerBound (tupleBytes parts)
            (MAX_ROCKSDB_SCAN_BOUND_BYTES - key.length) := by
  obtain ⟨hsize, hrecords⟩ := readRange_reverse hlimit h
  rw [Option.getD_some, hstart] at hsize hrecords
  have hlower : reverseInclusiveLowerBound (tupleBytes parts)
      (MAX_ROCKSDB_SCAN_BOUND_BYTES - key.length) < tupleBytes parts := lowerBound_lt (by omega)
  have hcongr : ∀ e ∈ dbi.entries, (decide (reverseInclusiveLowerBound (tupleBytes parts)
        (MAX_ROCKSDB_SCAN_BOUND_BYTES - key.length) < e.1) && decide (e.1 ≤ key) &&
        decide (some key ≠ some e.1)) =
      (decide (reverseInclusiveLowerBound (tupleBytes parts)
        (MAX_ROCKSDB_SCAN_BOUND_BYTES - key.length) < e.1) && decide (e.1 < key)) := by
    intro e _
    rw [Bool.and_assoc]
    congr 1
    rw [Bool.eq_iff_iff, Bool.and_eq_true, decide_eq_true_eq, decide_eq_true_eq,
      decide_eq_true_eq, lt_iff_le_and_ne]
    refine and_congr_right fun _ => ?_
    rw [ne_eq, Option.some.injEq, ne_eq, eq_comm]
  rw [List.filter_congr hcongr, filter_above hparts hstart hstop hlower key (some key) hkey.1
    (by simp) (le_of_lt hkey.2), List.reverse_append] at hrecords
  rw [hrecords, take_append_eq_iff, List.length_reverse, List.reverse_eq_nil_iff,
    List.filter_eq_nil_iff]
  refine or_congr_right (forall₂_congr fun e _ => ?_)
  rw [Bool.and_eq_true, decide_eq_true_eq, decide_eq_true_eq, and_comm, not_and, not_lt]

/-- Without a cursor: the successor of the prefix is read along when it is stored. -/
theorem readRange_end (h : readRange dbi limit bounds none none true = .ok records)
    (hshort : bounds.stop.length ≤ bounds.start.length) :
    records = ((dbi.entries.filter fun e => decide (bounds.stop = e.1)).reverse ++
      (dbi.matching parts none none).reverse).take limit := by
  obtain ⟨hsize, hrecords⟩ := readRange_reverse hlimit h
  rw [Option.getD_none] at hsize hrecords
  rw [hstart] at hsize hshort hrecords
  set lower := reverseInclusiveLowerBound (tupleBytes parts)
    (MAX_ROCKSDB_SCAN_BOUND_BYTES - bounds.stop.length) with hlowerdef
  have hlower : lower < tupleBytes parts := lowerBound_lt (by omega)
  have hbelow : (dbi.entries.filter fun e => decide (lower < e.1) &&
      decide (e.1 < tupleBytes parts)) = [] := by
    refine List.filter_eq_nil_iff.mpr fun e he => ?_
    have hle := filter_below_eq_nil hparts (MAX_ROCKSDB_SCAN_BOUND_BYTES -
      bounds.stop.length) (by omega) (by unfold MAX_ROCKSDB_PERSISTED_KEY_BYTES
                                         unfold MAX_ROCKSDB_SCAN_BOUND_BYTES at hsize ⊢
                                         omega) e he
    rw [Bool.and_eq_true, decide_eq_true_eq, decide_eq_true_eq, and_comm, not_and, not_lt]
    exact hle
  have hrange : (dbi.entries.filter fun e => decide (lower < e.1) && decide (e.1 ≤ bounds.stop) &&
      decide ((none : Option (List UInt8)) ≠ some e.1)) =
      dbi.matching parts none none ++ dbi.entries.filter fun e => decide (bounds.stop = e.1) := by
    have hinside : ∀ e ∈ dbi.entries, beginsWith parts e.1 = true →
        (e.1 < bounds.stop ↔ ∀ key, (none : Option (List UInt8)) = some key → e.1 < key) := by
      intro e he hbegins
      have hlt := ((beginsWith_iff he hparts hstop).mp hbegins).2
      simp [hlt]
    have hstartstop : bounds.start ≤ bounds.stop := by
      rw [hstart]
      exact le_of_lt ((hstop.range_iff (k := tupleBytes parts)).mpr List.prefix_rfl).2
    have hmatching := filter_above hparts hstart hstop hlower bounds.stop none
      hstartstop hinside (le_refl _)
    rw [hbelow, List.nil_append] at hmatching
    rw [filter_split dbi.sorted _ bounds.stop, ← hmatching]
    have hlowerstop := lt_of_lt_of_le hlower (hstart ▸ hstartstop)
    congr 1
    · refine List.filter_congr fun e _ => ?_
      rw [Bool.eq_iff_iff]
      simp only [reduceCtorEq, not_false_eq_true, ne_eq, decide_true, Bool.and_true,
        Bool.and_eq_true, decide_eq_true_eq]
      constructor
      · rintro ⟨⟨hlow, -⟩, hlt⟩
        exact ⟨hlow, hlt⟩
      · rintro ⟨hlow, hlt⟩
        exact ⟨⟨hlow, le_of_lt hlt⟩, hlt⟩
    · refine List.filter_congr fun e _ => ?_
      rw [Bool.eq_iff_iff]
      simp only [reduceCtorEq, not_false_eq_true, ne_eq, decide_true, Bool.and_true,
        Bool.and_eq_true, decide_eq_true_eq]
      constructor
      · rintro ⟨⟨-, hle⟩, hge⟩
        exact le_antisymm hge hle
      · intro heq
        rw [← heq]
        exact ⟨⟨hlowerstop, le_refl _⟩, le_refl _⟩
  rwa [hrange, List.reverse_append] at hrecords

/-- The stored successor is the first record of the page. -/
theorem exists_stop_record (h : readRange dbi limit bounds none none true = .ok records)
    (hshort : bounds.stop.length ≤ bounds.start.length) (he : e ∈ dbi.entries)
    (hkey : bounds.stop = e.1) : ∃ top ∈ records, bounds.stop = top.1 := by
  have hmem : e ∈ (dbi.entries.filter fun e => decide (bounds.stop = e.1)).reverse :=
    List.mem_reverse.mpr (List.mem_filter.mpr ⟨he, by simpa using hkey⟩)
  obtain ⟨top, rest, htop⟩ := List.exists_cons_of_ne_nil (List.ne_nil_of_mem hmem)
  have htopmem : top ∈ (dbi.entries.filter fun e => decide (bounds.stop = e.1)).reverse := by
    rw [htop]
    exact List.mem_cons_self
  refine ⟨top, ?_, by simpa using (List.mem_filter.mp (List.mem_reverse.mp htopmem)).2⟩
  obtain ⟨n, rfl⟩ : ∃ n, limit = n + 1 := ⟨limit - 1, by omega⟩
  rw [readRange_end hparts hstart hstop hlimit h hshort, htop, List.cons_append,
    List.take_succ_cons]
  exact List.mem_cons_self

omit hstart hlimit in
theorem stop_not_matching (he : e ∈ dbi.matching parts none none) : bounds.stop ≠ e.1 := by
  obtain ⟨hentry, hbegins, -, -⟩ := mem_matching.mp he
  exact ne_of_gt ((beginsWith_iff hentry hparts hstop).mp hbegins).2

/-- Without a cursor: the page is right unless the successor of the prefix is stored. -/
theorem readRange_end_iff (h : readRange dbi limit bounds none none true = .ok records)
    (hshort : bounds.stop.length ≤ bounds.start.length) :
    records = (dbi.matching parts none none).reverse.take limit ↔
      ∀ e ∈ dbi.entries, bounds.stop ≠ e.1 := by
  constructor
  · intro hexact e he hkey
    obtain ⟨top, htop, htopkey⟩ :=
      exists_stop_record hparts hstart hstop hlimit h hshort he hkey
    rw [hexact] at htop
    exact stop_not_matching hparts hstop
      (List.mem_reverse.mp (List.mem_of_mem_take htop)) htopkey
  · intro hfree
    have hnone : (dbi.entries.filter fun e => decide (bounds.stop = e.1)) = [] :=
      List.filter_eq_nil_iff.mpr fun e he => by simpa using hfree e he
    rw [readRange_end hparts hstart hstop hlimit h hshort, hnone, List.reverse_nil, List.nil_append]

end

variable {parts : List KeyField} {dbi : NativeStore ν}

/-- A scan that is accepted returns the page of its prefix exactly when it reads nothing else. -/
theorem iterate_page_iff {limit : Nat} {records : List (List UInt8 × ν)}
    (hlimit : scanLimit options.limit = .ok limit) (h : iterate dbi parts options = .ok records) :
    records = (dbi.directed parts (options.after.map KeyInput.bytes)
      (options.before.map KeyInput.bytes) options.reverse).take limit ↔
      dbi.Contained parts options limit := by
  simp only [iterate, bind_ok_iff, hlimit, Except.ok.injEq, exists_eq_left'] at h
  split at h
  · rename_i hzero
    cases h
    rw [hzero, List.take_zero]
    exact iff_of_true rfl (.inl rfl)
  · rename_i hzero
    have hpos : 0 < limit := Nat.pos_of_ne_zero hzero
    simp only [bind_ok_iff] at h
    obtain ⟨bounds, hbounds, before, hbefore, after, hafter, hread⟩ := h
    obtain ⟨hparts, hstart, hsuccessor, hstop⟩ := encodable_of_bounds hbounds
    obtain ⟨rfl, hbefore⟩ := beforeCursor_eq_ok hbefore
    obtain ⟨rfl, hafter⟩ := afterCursor_eq_ok hafter
    unfold NativeStore.Contained NativeStore.directed
    cases hreverse : options.reverse with
    | false =>
      have hnone : options.before = none := by
        cases hkey : options.before with
        | none => rfl
        | some key =>
          have := (hbefore key.bytes (by rw [hkey]; rfl)).1
          rw [hreverse] at this
          cases this
      rw [hnone, hreverse] at hread
      rw [hnone]
      have hexact := readRange_forward hparts hstart hstop hpos
        (fun key hkey => (hafter key hkey).2.1) hread
      exact iff_of_true hexact (.inr (.inl rfl))
    | true =>
      have hnone : options.after = none := by
        cases hkey : options.after with
        | none => rfl
        | some key =>
          have := (hafter key.bytes (by rw [hkey]; rfl)).1
          rw [hreverse] at this
          cases this
      rw [hnone, hreverse] at hread
      rw [hnone]
      simp only [hzero, reduceCtorEq, false_or, if_true]
      cases hkey : options.before with
      | none =>
        rw [hkey] at hread
        have hshort := hstop.length_le
        rw [← hstart] at hshort
        refine (readRange_end_iff hparts hstart hstop hpos hread hshort).trans ?_
        refine forall₂_congr fun e _ => ?_
        rw [hsuccessor, ne_eq, ne_eq, Option.some.injEq]
      | some key =>
        rw [hkey] at hread
        exact readRange_before_iff hparts hstart hstop hpos
          (hbefore key.bytes (by rw [hkey]; rfl)).2 hread

/-! ## Paging -/

theorem encodedKey_stored (h : Encodable parts) :
    encodedKey (tupleBytes parts) = .ok (tupleBytes parts) := by
  have hrequire : requireBytes (tupleBytes parts) = .ok (tupleBytes parts) :=
    requireBytes_eq_ok_iff.mpr ⟨rfl, _, rfl⟩
  rw [encodedKey, hrequire]
  show (decodeKey (tupleBytes parts) >>= _) = _
  rw [decodeKey_encoded h]
  rfl

theorem keyBytes_stored (he : e ∈ dbi.entries) : keyBytes (.encoded e.1) = .ok e.1 := by
  obtain ⟨fields, hfields, hkey⟩ := dbi.encoded e he
  have hsize := dbi.persistable e he
  rw [keyBytes, hkey, encodedKey_stored hfields, ← hkey]
  refine assertNativeKeySize_eq_ok_iff.mpr ⟨rfl, ?_⟩
  unfold MAX_ROCKSDB_KEY_BYTES
  unfold MAX_ROCKSDB_PERSISTED_KEY_BYTES at hsize
  omega

theorem nativePrefixBounds_scannable (h : Scannable parts) (boundary : String) :
    ∃ bounds, nativePrefixBounds parts boundary = .ok bounds ∧
      bounds.start.length + bounds.stop.length ≤ MAX_ROCKSDB_SCAN_BOUND_BYTES := by
  obtain ⟨bounds, hbounds, hstart, hstop⟩ := prefixBounds_eq_ok h.encodable
  have hsuccessor : prefixSuccessor (tupleBytes parts) = some bounds.stop := by
    simp only [prefixBounds, bind_ok_iff, encodeKey_eq_ok_iff] at hbounds
    obtain ⟨_, ⟨-, rfl⟩, hbounds⟩ := hbounds
    split at hbounds
    · cases hbounds
    · rename_i stop hsome
      cases hbounds
      exact hsome
  have hsize := h.size _ hsuccessor
  rw [← hstart] at hsize
  refine ⟨bounds, ?_, hsize⟩
  unfold MAX_ROCKSDB_SCAN_BOUND_BYTES at hsize
  have hstartsize : assertNativeKeySize bounds.start (boundary ++ " start") = .ok bounds.start :=
    assertNativeKeySize_eq_ok_iff.mpr ⟨rfl, by unfold MAX_ROCKSDB_KEY_BYTES; omega⟩
  have hstopsize : assertNativeKeySize bounds.stop (boundary ++ " end") = .ok bounds.stop :=
    assertNativeKeySize_eq_ok_iff.mpr ⟨rfl, by unfold MAX_ROCKSDB_KEY_BYTES; omega⟩
  rw [nativePrefixBounds, ofKey_eq_ok_iff.mpr hbounds]
  show (assertNativeKeySize bounds.start _ >>= _) = _
  rw [hstartsize]
  show (assertNativeKeySize bounds.stop _ >>= _) = _
  rw [hstopsize]
  rfl

theorem readRange_accepts (dbi : NativeStore ν) (limit : Nat)
    {after : Option (List UInt8)} (reverse : Bool)
    (hsize : ((after.map (· ++ [0])).getD bounds.start).length + (before.getD bounds.stop).length ≤
      MAX_ROCKSDB_SCAN_BOUND_BYTES) :
    ∃ records, readRange dbi limit bounds before after reverse = .ok records := by
  have haccept : assertNativeScanBounds ((after.map (· ++ [0])).getD bounds.start)
      (before.getD bounds.stop) = .ok () := if_neg (Nat.not_lt_of_ge hsize)
  unfold readRange
  dsimp only
  split
  · exact ⟨_, rfl⟩
  · rw [haccept]
    exact ⟨_, rfl⟩

/-- Is the cursor missing or the key of a record of the prefix? -/
def NativeStore.Reached (dbi : NativeStore ν) (parts : List KeyField)
    (cursor : Option (List UInt8)) : Prop :=
  ∀ key, cursor = some key → ∃ e ∈ dbi.matching parts none none, e.1 = key

theorem scanLimit_page {limit : Nat} (h : limit ≤ MAX_SCAN_LIMIT) :
    scanLimit (some limit) = .ok limit := by
  rw [scanLimit, if_neg (by omega), Int.toNat_natCast]

section

variable {dbi : NativeStore ν} {parts : List KeyField} (hparts : Scannable parts) {limit : Nat}
  (hlimit : limit ≤ MAX_SCAN_LIMIT) {cursor : Option (List UInt8)}
  (hcursor : dbi.Reached parts cursor)

include hparts hcursor

/-- A key of the prefix is stored, is not shorter than the prefix, and lies in its range. -/
theorem cursor_spec {boundary : String}
    (hbounds : nativePrefixBounds parts boundary = .ok bounds) {key : List UInt8}
    (hkey : cursor = some key) :
    keyBytes (.encoded key) = .ok key ∧ insidePrefix bounds key = true ∧
      (tupleBytes parts).length ≤ key.length ∧ key.length ≤ MAX_ROCKSDB_PERSISTED_KEY_BYTES := by
  obtain ⟨e, he, rfl⟩ := hcursor key hkey
  obtain ⟨hentry, hbegins, -, -⟩ := mem_matching.mp he
  obtain ⟨-, hstart, -, hstop⟩ := encodable_of_bounds hbounds
  have hrange := (beginsWith_iff hentry hparts.encodable hstop).mp hbegins
  refine ⟨keyBytes_stored hentry, insidePrefix_iff.mpr (hstart ▸ hrange), ?_,
    dbi.persistable e hentry⟩
  exact (hstop.range_iff.mp hrange).length_le

include hlimit

/-- A page is accepted, from the start or from behind a key of the prefix. -/
theorem iterate_accepts (reverse : Bool) :
    ∃ records, iterate dbi parts (pageOptions limit reverse cursor) = .ok records := by
  obtain ⟨bounds, hbounds, hsize⟩ := nativePrefixBounds_scannable hparts "scan prefix"
  have hscan : scanLimit (pageOptions limit reverse cursor).limit = .ok limit :=
    scanLimit_page hlimit
  rw [iterate, hscan]
  show ∃ records, (if limit = 0 then _ else _) = Except.ok records
  split
  · exact ⟨[], rfl⟩
  · rw [hbounds]
    cases hkey : cursor with
    | none =>
      have hread : ∃ records, readRange dbi limit bounds none none reverse = .ok records :=
        readRange_accepts dbi limit reverse hsize
      cases reverse <;> exact hread
    | some key =>
      obtain ⟨hbytes, hinside, hlong, hshort⟩ := cursor_spec hparts hcursor hbounds hkey
      obtain ⟨-, hstart, -, hstop⟩ := encodable_of_bounds hbounds
      have hstoplength := hstop.length_le
      unfold MAX_ROCKSDB_PERSISTED_KEY_BYTES at hshort
      cases reverse with
      | false =>
        have hafter : afterCursor bounds (pageOptions limit false (some key)) = .ok (some key) := by
          show (keyBytes (.encoded key) >>= _) = _
          rw [hbytes]
          exact if_pos hinside
        show ∃ records, (afterCursor bounds (pageOptions limit false (some key)) >>= _) =
          Except.ok records
        rw [hafter]
        have hread : ∃ records, readRange dbi limit bounds none (some key) false = .ok records := by
          refine readRange_accepts dbi limit false ?_
          unfold MAX_ROCKSDB_SCAN_BOUND_BYTES
          simp only [Option.map_some, Option.getD_some, Option.getD_none, List.length_append,
            List.length_singleton]
          omega
        exact hread
      | true =>
        have hbefore : beforeCursor bounds (pageOptions limit true (some key)) =
            .ok (some key) := by
          show (keyBytes (.encoded key) >>= _) = _
          rw [hbytes]
          exact if_pos hinside
        show ∃ records, (beforeCursor bounds (pageOptions limit true (some key)) >>= _) =
          Except.ok records
        rw [hbefore]
        have hread : ∃ records, readRange dbi limit bounds (some key) none true = .ok records := by
          refine readRange_accepts dbi limit true ?_
          unfold MAX_ROCKSDB_SCAN_BOUND_BYTES
          simp only [Option.map_none, Option.getD_some, Option.getD_none, hstart]
          omega
        exact hread

/-- A page is the next part of the prefix. -/
theorem iterate_page {reverse : Bool} (hfree : reverse = true → dbi.SuccessorFree parts) :
    iterate dbi parts (pageOptions limit reverse cursor) =
      .ok ((dbi.directed parts (if reverse then none else cursor) (if reverse then cursor else none)
        reverse).take limit) := by
  obtain ⟨records, hrecords⟩ := iterate_accepts hparts hlimit hcursor reverse
  have hscan : scanLimit (pageOptions limit reverse cursor).limit = .ok limit :=
    scanLimit_page hlimit
  have hcontained : dbi.Contained parts (pageOptions limit reverse cursor) limit := by
    cases reverse with
    | false => exact .inr (.inl rfl)
    | true =>
      refine .inr (.inr ?_)
      cases hkey : cursor with
      | none => exact hfree rfl
      | some key =>
        obtain ⟨bounds, hbounds, -⟩ := nativePrefixBounds_scannable hparts "scan prefix"
        obtain ⟨-, -, hlong, hshort⟩ := cursor_spec hparts hcursor hbounds hkey
        unfold MAX_ROCKSDB_PERSISTED_KEY_BYTES at hshort
        refine .inr (filter_below_eq_nil hparts.encodable _ ?_ ?_)
        · show _ ≤ MAX_ROCKSDB_SCAN_BOUND_BYTES - key.length
          unfold MAX_ROCKSDB_SCAN_BOUND_BYTES
          omega
        · show _ ≤ MAX_ROCKSDB_SCAN_BOUND_BYTES - key.length
          unfold MAX_ROCKSDB_SCAN_BOUND_BYTES MAX_ROCKSDB_PERSISTED_KEY_BYTES
          omega
  have hexact := (iterate_page_iff hscan hrecords).mpr hcontained
  have hbytes : (cursor.map KeyInput.encoded).map KeyInput.bytes = cursor := by
    cases cursor <;> rfl
  rw [hrecords, hexact]
  cases reverse with
  | false => simp only [pageOptions, Bool.false_eq_true, if_false, hbytes, Option.map_none]
  | true => simp only [pageOptions, if_true, hbytes, Option.map_none]

end

theorem sorted_matching (dbi : NativeStore ν) (parts : List KeyField)
    (after before : Option (List UInt8)) :
    (dbi.matching parts after before).Pairwise fun a b => a.1 < b.1 :=
  dbi.sorted.sublist List.filter_sublist

theorem matching_after (dbi : NativeStore ν) (parts : List KeyField) (limit : Nat)
    (cursor : Option (List UInt8)) :
    (dbi.matching parts cursor none).take limit =
      Paging.pageAfter (fun e => e.1) (dbi.matching parts none none) limit cursor := by
  rw [Paging.pageAfter, NativeStore.matching, NativeStore.matching, List.filter_filter]
  congr 1
  refine List.filter_congr fun e _ => ?_
  cases cursor with
  | none => simp
  | some key =>
    rw [Bool.eq_iff_iff]
    simp [and_comm]

theorem matching_before (dbi : NativeStore ν) (parts : List KeyField) (limit : Nat)
    (cursor : Option (List UInt8)) :
    (dbi.matching parts none cursor).reverse.take limit =
      Paging.pageAfter (fun e => OrderDual.toDual e.1) (dbi.matching parts none none).reverse limit
        (cursor.map OrderDual.toDual) := by
  rw [Paging.pageAfter, List.filter_reverse, NativeStore.matching, NativeStore.matching,
    List.filter_filter]
  congr 2
  refine List.filter_congr fun e _ => ?_
  cases cursor with
  | none => simp
  | some key => simp [Bool.and_comm]

variable {parts : List KeyField} {dbi : NativeStore ν} {limit : Nat}

theorem readAll_eq_readPages
    {reverse : Bool} {κ : Type} [LinearOrder κ] {all : List (List UInt8 × ν)}
    {order : List UInt8 → κ} (hall : ∀ e ∈ all, e ∈ dbi.matching parts none none)
    (hpage : ∀ cursor, dbi.Reached parts cursor →
      iterate dbi parts (pageOptions limit reverse cursor) =
        .ok (Paging.pageAfter (fun e => order e.1) all limit (cursor.map order)))
    (fuel : Nat) {cursor : Option (List UInt8)} (hcursor : dbi.Reached parts cursor) :
    readAll dbi parts limit reverse fuel cursor = .ok (Paging.readPages (fun e => order e.1)
        (Paging.pageAfter (fun e => order e.1) all limit) List.isEmpty fuel
        (cursor.map order)) := by
  induction fuel generalizing cursor with
  | zero => rfl
  | succ fuel ih =>
    rw [readAll, hpage cursor hcursor, Paging.readPages]
    simp only [Bind.bind, Except.bind]
    cases hlast : (Paging.pageAfter (fun e => order e.1) all limit
      (cursor.map order)).getLast? with
    | none =>
      rw [List.getLast?_eq_none_iff] at hlast
      rw [hlast]
      rfl
    | some last =>
      have hmem := List.mem_of_getLast? hlast
      have hreached : dbi.Reached parts (some last.1) := by
        rintro _ ⟨⟩
        exact ⟨last, hall last (List.mem_of_mem_filter (List.mem_of_mem_take hmem)), rfl⟩
      have hne : (Paging.pageAfter (fun e => order e.1) all limit
          (cursor.map order)).isEmpty = false :=
        List.isEmpty_eq_false_iff.mpr (List.ne_nil_of_mem hmem)
      dsimp only
      rw [ih hreached, hne]
      rfl

/-- The pages of a prefix add up to its records, in either direction. -/
theorem readAll_eq (hparts : Scannable parts) (hpos : 0 < limit) (hlimit : limit ≤ MAX_SCAN_LIMIT)
    {reverse : Bool} (hfree : reverse = true → dbi.SuccessorFree parts) :
    readAll dbi parts limit reverse (dbi.entries.length + 1) none =
      .ok (dbi.directed parts none none reverse) := by
  have hreached : dbi.Reached parts none := by rintro _ ⟨⟩
  have hlast : ∀ page : List (List UInt8 × ν), page.isEmpty = true → page.length < limit := by
    intro page hpage
    rw [List.isEmpty_iff] at hpage
    rw [hpage]
    exact hpos
  have hlength : (dbi.matching parts none none).length ≤ dbi.entries.length :=
    List.length_filter_le _ _
  have hsorted := sorted_matching dbi parts none none
  cases reverse with
  | false =>
    have hpage : ∀ cursor, dbi.Reached parts cursor →
        iterate dbi parts (pageOptions limit false cursor) =
          .ok (Paging.pageAfter (fun e => id e.1) (dbi.matching parts none none) limit
            (cursor.map id)) := by
      intro cursor hcursor
      rw [iterate_page hparts hlimit hcursor hfree, Option.map_id]
      exact congrArg Except.ok (matching_after dbi parts limit cursor)
    rw [readAll_eq_readPages (fun e he => he) hpage _ hreached]
    exact congrArg Except.ok (Paging.readPages_eq hsorted hpos hlast rfl (by omega))
  | true =>
    have hpage : ∀ cursor, dbi.Reached parts cursor →
        iterate dbi parts (pageOptions limit true cursor) =
          .ok (Paging.pageAfter (fun e => OrderDual.toDual e.1)
            (dbi.matching parts none none).reverse limit (cursor.map OrderDual.toDual)) := by
      intro cursor hcursor
      rw [iterate_page hparts hlimit hcursor hfree]
      exact congrArg Except.ok (matching_before dbi parts limit cursor)
    rw [readAll_eq_readPages (fun e he => List.mem_reverse.mp he) hpage _ hreached]
    have hdescending : (dbi.matching parts none none).reverse.Pairwise fun a b =>
        OrderDual.toDual a.1 < OrderDual.toDual b.1 := List.pairwise_reverse.mpr hsorted
    refine congrArg Except.ok (Paging.readPages_eq hdescending hpos hlast rfl ?_)
    rw [List.length_reverse]
    omega

/-- A record outside the prefix on the first page stays in what is read. -/
theorem successorFree_of_readAll
    (hparts : Scannable parts) (hpos : 0 < limit) (hlimit : limit ≤ MAX_SCAN_LIMIT)
    (h : readAll dbi parts limit true (dbi.entries.length + 1) none =
      .ok (dbi.directed parts none none true)) : dbi.SuccessorFree parts := by
  have hreached : dbi.Reached parts none := by rintro _ ⟨⟩
  obtain ⟨records, hrecords⟩ := iterate_accepts hparts hlimit hreached true
  have hincluded : ∀ e ∈ records, e ∈ dbi.matching parts none none := by
    intro e he
    rw [readAll, hrecords] at h
    obtain ⟨last, hlast⟩ : ∃ last, records.getLast? = some last := by
      cases hlast : records.getLast? with
      | none =>
        rw [List.getLast?_eq_none_iff.mp hlast] at he
        cases he
      | some last => exact ⟨last, rfl⟩
    obtain ⟨_, heq, h⟩ := bind_ok_iff.mp h
    obtain rfl := Except.ok.inj heq
    simp only [hlast, bind_ok_iff] at h
    obtain ⟨rest, -, h⟩ := h
    have hdirected : records ++ rest = (dbi.matching parts none none).reverse := Except.ok.inj h
    rw [← List.mem_reverse, ← hdirected]
    exact List.mem_append_left _ he
  have hscan : scanLimit (pageOptions limit true none).limit = .ok limit := scanLimit_page hlimit
  simp only [iterate, bind_ok_iff, hscan, Except.ok.injEq, exists_eq_left'] at hrecords
  rw [if_neg (by omega)] at hrecords
  simp only [bind_ok_iff] at hrecords
  obtain ⟨bounds, hbounds, _, ⟨⟩, _, ⟨⟩, hread⟩ := hrecords
  obtain ⟨-, hstart, hsuccessor, hstop⟩ := encodable_of_bounds hbounds
  have hshort := hstop.length_le
  rw [← hstart] at hshort
  intro e he hkey
  rw [hsuccessor, Option.some.injEq] at hkey
  obtain ⟨top, htop, htopkey⟩ :=
    exists_stop_record hparts.encodable hstart hstop hpos hread hshort he hkey
  exact stop_not_matching hparts.encodable hstop (hincluded top htop) htopkey

/-- A scan returns the page of its prefix exactly when the native range holds nothing else that the
    page has room for, and the pages of a prefix add up to its records exactly when the scan is
    forward or the successor of the prefix is not stored. -/
theorem scan_pages_iff (dbi : NativeStore ν) (parts : List KeyField) :
    (∀ options limit records, scanLimit options.limit = .ok limit →
      iterate dbi parts options = .ok records →
      (records = (dbi.directed parts (options.after.map KeyInput.bytes)
          (options.before.map KeyInput.bytes) options.reverse).take limit ↔
        dbi.Contained parts options limit)) ∧
    ∀ limit reverse, Scannable parts → 0 < limit → limit ≤ MAX_SCAN_LIMIT →
      (readAll dbi parts limit reverse (dbi.entries.length + 1) none =
          .ok (dbi.directed parts none none reverse) ↔
        reverse = false ∨ dbi.SuccessorFree parts) := by
  refine ⟨fun options limit records hlimit h => iterate_page_iff hlimit h, ?_⟩
  intro limit reverse hparts hpos hlimit
  constructor
  · intro h
    cases reverse with
    | false => exact .inl rfl
    | true => exact .inr (successorFree_of_readAll hparts hpos hlimit h)
  · intro h
    refine readAll_eq hparts hpos hlimit fun hreverse => ?_
    obtain hforward | hfree := h
    · rw [hreverse] at hforward
      cases hforward
    · exact hfree

/-- Two documents whose identifiers differ in their last letter. -/
def twoDocuments : NativeStore Unit :=
  .ofEntries [(tupleBytes [.string (Unicode.text "a")], ()),
      (tupleBytes [.string (Unicode.text "b")], ())]
    (by decide)
    (by
      rw [List.forall_mem_cons, List.forall_mem_singleton]
      refine ⟨⟨_, ⟨by decide, ?_, by decide⟩, rfl⟩, ⟨_, ⟨by decide, ?_, by decide⟩, rfl⟩⟩
      · rw [List.forall_mem_singleton]
        exact (by decide : (Unicode.utf8 (Unicode.text "a")).length < 2 ^ 32)
      · rw [List.forall_mem_singleton]
        exact (by decide : (Unicode.utf8 (Unicode.text "b")).length < 2 ^ 32))
    (by decide)

theorem scannable_a : Scannable [.string (Unicode.text "a")] where
  encodable := by
    refine ⟨by decide, ?_, by decide⟩
    rw [List.forall_mem_singleton]
    exact (by decide : (Unicode.utf8 (Unicode.text "a")).length < 2 ^ 32)
  size := by
    intro stop hstop
    obtain rfl : tupleBytes [.string (Unicode.text "b")] = stop := Option.some.inj hstop
    decide

/-- Forward the pages of a prefix add up, one record at a time. -/
theorem scan_pages_iff_example :
    iterate twoDocuments [.string (Unicode.text "a")] {} =
      .ok ((twoDocuments.directed [.string (Unicode.text "a")] none none false).take 1000) ∧
    readAll twoDocuments [.string (Unicode.text "a")] 1 false 3 none =
      .ok (twoDocuments.directed [.string (Unicode.text "a")] none none false) := by
  have hlimit : scanLimit ({} : ScanOptions).limit = .ok 1000 := rfl
  obtain ⟨records, hrecords⟩ : ∃ records,
      iterate twoDocuments [.string (Unicode.text "a")] {} = .ok records := ⟨_, rfl⟩
  refine ⟨?_, ((scan_pages_iff twoDocuments _).2 1 false scannable_a (by decide) (by decide)).mpr
    (.inl rfl)⟩
  rw [hrecords]
  exact congrArg Except.ok (((scan_pages_iff twoDocuments _).1 {} 1000 records hlimit hrecords).mpr
    (.inr (.inl rfl)))

/-- A reverse scan of the first document starts with the second, which no cursor can follow. -/
theorem successor_read_along :
    iterate twoDocuments [.string (Unicode.text "a")] { limit := some 1, reverse := true } =
      .ok [(tupleBytes [.string (Unicode.text "b")], ())] ∧
    beginsWith [.string (Unicode.text "a")] (tupleBytes [.string (Unicode.text "b")]) = false ∧
    readAll twoDocuments [.string (Unicode.text "a")] 1 true 3 none =
      .error (.range "scan.before must identify a key inside the requested prefix.") :=
  ⟨rfl, rfl, rfl⟩

end ContextStore.StoreScan
