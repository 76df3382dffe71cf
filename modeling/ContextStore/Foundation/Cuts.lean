import ContextStore.Foundation.Unicode

/-! # Byte offsets in a text

A byte offset of a text's encoding is a cut when it lies between two characters. Cutting the
characters and cutting their encoding is then the same (`encodeChars_slice`), and slices of a text
compose as the slices of its bytes do. -/

namespace Unicode

def byteLength (chars : List Char) : Nat := (encodeChars chars).length

@[simp]
theorem byteLength_nil : byteLength [] = 0 := rfl

@[simp]
theorem byteLength_cons (c : Char) (chars : List Char) :
    byteLength (c :: chars) = c.utf8Size + byteLength chars := by
  simp [byteLength]

@[simp]
theorem byteLength_append (before after : List Char) :
    byteLength (before ++ after) = byteLength before + byteLength after := by
  simp [byteLength]

theorem eq_nil_of_byteLength_eq_zero {chars : List Char} (h : byteLength chars = 0) :
    chars = [] := by
  cases chars with
  | nil => rfl
  | cons c chars =>
    have := c.utf8Size_pos
    rw [byteLength_cons] at h
    omega

/-! ## Cuts -/

/-- The offset lies between two characters, or at an end. -/
def IsCut (chars : List Char) (offset : Nat) : Prop :=
  ∃ before after, chars = before ++ after ∧ byteLength before = offset

variable {chars before after : List Char} {a b c n : Nat}

theorem IsCut.zero (chars : List Char) : IsCut chars 0 := ⟨[], chars, rfl, rfl⟩

theorem IsCut.end (chars : List Char) : IsCut chars (byteLength chars) :=
  ⟨chars, [], (List.append_nil chars).symm, rfl⟩

theorem IsCut.le (h : IsCut chars n) : n ≤ byteLength chars := by
  obtain ⟨before, after, rfl, rfl⟩ := h
  simp

theorem isCut_iff (hn : n ≤ byteLength chars) :
    IsCut chars n ↔ ∀ byte, (encodeChars chars)[n]? = some byte →
      isContinuationByte byte = false := by
  constructor
  · rintro ⟨before, after, rfl, rfl⟩ byte hbyte
    rw [encodeChars_append, byteLength, List.getElem?_append_right (Nat.le_refl _),
      Nat.sub_self] at hbyte
    cases after with
    | nil => cases hbyte
    | cons c after =>
      obtain ⟨lead, rest, hbytes, hlead, -⟩ := utf8EncodeChar_bytes c
      rw [encodeChars_cons, hbytes] at hbyte
      obtain rfl := Option.some.inj hbyte
      exact hlead
  · intro hcut
    obtain ⟨before, after, rfl, hbefore⟩ := exists_cut hn hcut
    refine ⟨before, after, rfl, ?_⟩
    rw [byteLength, hbefore, List.length_take]
    exact Nat.min_eq_left hn

/-- Two prefixes of one text of which the one is no longer than the other. -/
theorem eq_append_of_byteLength_le {before' after' : List Char}
    (h : before ++ after = before' ++ after') (hle : byteLength before ≤ byteLength before') :
    ∃ between, before' = before ++ between ∧ after = between ++ after' := by
  rcases List.append_eq_append_iff.mp h with ⟨between, rfl, hafter⟩ | ⟨between, rfl, hafter⟩
  · exact ⟨between, rfl, hafter⟩
  · rw [byteLength_append] at hle
    obtain rfl := eq_nil_of_byteLength_eq_zero (show byteLength between = 0 by omega)
    exact ⟨[], by simp, by simpa using hafter.symm⟩

/-- Two cuts make three pieces. -/
theorem IsCut.split (ha : IsCut chars a) (hb : IsCut chars b) (hab : a ≤ b) :
    ∃ before between after, chars = before ++ between ++ after ∧ byteLength before = a ∧
      byteLength between = b - a := by
  obtain ⟨before, after, rfl, rfl⟩ := ha
  obtain ⟨before', after', heq, rfl⟩ := hb
  obtain ⟨between, rfl, rfl⟩ := eq_append_of_byteLength_le heq hab
  exact ⟨before, between, after', by simp, rfl, by simp⟩

/-- The next cut is at most four bytes on. -/
theorem IsCut.next (h : IsCut chars n) (hn : n < byteLength chars) :
    ∃ m, IsCut chars m ∧ n < m ∧ m ≤ n + 4 := by
  obtain ⟨before, after, rfl, rfl⟩ := h
  cases after with
  | nil => simp at hn
  | cons c after =>
    have hpos := c.utf8Size_pos
    have hle := c.utf8Size_le_four
    refine ⟨byteLength (before ++ [c]), ⟨before ++ [c], after, by simp, rfl⟩, ?_, ?_⟩ <;>
      simp only [byteLength_append, byteLength_cons, byteLength_nil] <;> omega

/-- Around any offset there are two cuts at most four bytes apart. -/
theorem exists_cuts_around (hn : n ≤ byteLength chars) :
    ∃ m, IsCut chars m ∧ m ≤ n ∧ (m = n ∨ ∃ k, IsCut chars k ∧ n < k ∧ k ≤ m + 4) := by
  induction chars generalizing n with
  | nil => exact ⟨0, IsCut.zero [], Nat.zero_le n, .inl (Nat.le_zero.mp hn).symm⟩
  | cons c chars ih =>
    have hsize := c.utf8Size_le_four
    have hcons : ∀ m, IsCut chars m → IsCut (c :: chars) (c.utf8Size + m) := by
      rintro m ⟨before, after, rfl, rfl⟩
      exact ⟨c :: before, after, rfl, byteLength_cons c before⟩
    rw [byteLength_cons] at hn
    by_cases hlt : n < c.utf8Size
    · refine ⟨0, IsCut.zero _, Nat.zero_le n, .inr ⟨c.utf8Size, ?_, hlt, by omega⟩⟩
      exact hcons 0 (IsCut.zero chars)
    · obtain ⟨m, hm, hle, hclose⟩ := ih (show n - c.utf8Size ≤ byteLength chars by omega)
      refine ⟨c.utf8Size + m, hcons m hm, by omega, ?_⟩
      rcases hclose with heq | ⟨k, hk, hafter, hnear⟩
      · exact .inl (by omega)
      · exact .inr ⟨c.utf8Size + k, hcons k hk, by omega, by omega⟩

/-! ## Slices -/

def dropBytes : Nat → List Char → List Char
  | _, [] => []
  | n, c :: chars =>
    if n = 0 then c :: chars else dropBytes (n - c.utf8Size) chars

def takeBytes : Nat → List Char → List Char
  | _, [] => []
  | n, c :: chars =>
    if n = 0 then [] else c :: takeBytes (n - c.utf8Size) chars

/-- The characters between two cuts. -/
def slice (chars : List Char) (a b : Nat) : List Char := takeBytes (b - a) (dropBytes a chars)

theorem dropBytes_append (before after : List Char) :
    dropBytes (byteLength before) (before ++ after) = after := by
  induction before with
  | nil => cases after <;> simp [dropBytes]
  | cons c before ih =>
    have := c.utf8Size_pos
    rw [List.cons_append, dropBytes, if_neg (by rw [byteLength_cons]; omega), byteLength_cons,
      Nat.add_sub_cancel_left, ih]

theorem takeBytes_append (before after : List Char) :
    takeBytes (byteLength before) (before ++ after) = before := by
  induction before with
  | nil => cases after <;> simp [takeBytes]
  | cons c before ih =>
    have := c.utf8Size_pos
    rw [List.cons_append, takeBytes, if_neg (by rw [byteLength_cons]; omega), byteLength_cons,
      Nat.add_sub_cancel_left, ih]

/-- Beginnings of one text are told apart by how many bytes they take. -/
theorem eq_of_byteLength_eq {before' after' : List Char} (h : before ++ after = before' ++ after')
    (hlength : byteLength before = byteLength before') : before = before' := by
  rw [← takeBytes_append before after, h, hlength, takeBytes_append]

theorem slice_append (before between after : List Char) (hb : b = byteLength before +
    byteLength between) : slice (before ++ between ++ after) (byteLength before) b = between := by
  rw [slice, List.append_assoc, dropBytes_append, hb, Nat.add_sub_cancel_left, takeBytes_append]

/-- Two cuts make three pieces, and the middle one is the slice between them. -/
theorem IsCut.split_slice (ha : IsCut chars a) (hb : IsCut chars b) (hab : a ≤ b) :
    ∃ before after, chars = before ++ slice chars a b ++ after ∧ byteLength before = a ∧
      byteLength (slice chars a b) = b - a := by
  obtain ⟨before, between, after, rfl, rfl, hbetween⟩ := ha.split hb hab
  have hslice : slice (before ++ between ++ after) (byteLength before) b = between :=
    slice_append before between after (by omega)
  exact ⟨before, after, by rw [hslice], rfl, by rw [hslice, hbetween]⟩

theorem byteLength_slice (ha : IsCut chars a) (hb : IsCut chars b) (hab : a ≤ b) :
    byteLength (slice chars a b) = b - a := by
  obtain ⟨-, -, -, -, hlength⟩ := ha.split_slice hb hab
  exact hlength

/-- Cutting the characters is cutting the bytes. -/
theorem encodeChars_slice (ha : IsCut chars a) (hb : IsCut chars b) (hab : a ≤ b) :
    encodeChars (slice chars a b) = ((encodeChars chars).drop a).take (b - a) := by
  obtain ⟨before, between, after, rfl, rfl, hbetween⟩ := ha.split hb hab
  rw [slice_append before between after (by omega), ← hbetween, encodeChars_append,
    encodeChars_append, List.append_assoc]
  simp only [byteLength, List.drop_left, List.take_left]

theorem slice_append_slice (ha : IsCut chars a) (hb : IsCut chars b) (hc : IsCut chars c)
    (hab : a ≤ b) (hbc : b ≤ c) : slice chars a b ++ slice chars b c = slice chars a c := by
  refine encodeChars_injective ?_
  rw [encodeChars_append, encodeChars_slice ha hb hab, encodeChars_slice hb hc hbc,
    encodeChars_slice ha hc (Nat.le_trans hab hbc), show c - a = (b - a) + (c - b) by omega,
    List.take_add, List.drop_drop, Nat.add_sub_cancel' hab]

theorem slice_self (ha : IsCut chars a) : slice chars a a = [] :=
  eq_nil_of_byteLength_eq_zero (by rw [byteLength_slice ha ha (Nat.le_refl _), Nat.sub_self])

theorem slice_all (chars : List Char) : slice chars 0 (byteLength chars) = chars := by
  simpa using slice_append [] chars [] (b := byteLength chars) (by simp)

/-- The cuts of a slice are the cuts of the text that lie in it. -/
theorem isCut_slice_iff (ha : IsCut chars a) (hb : IsCut chars b) (hab : a ≤ b) (hn : n ≤ b - a) :
    IsCut (slice chars a b) n ↔ IsCut chars (a + n) := by
  have hlength := byteLength_slice ha hb hab
  have hle := hb.le
  rw [isCut_iff (by omega), isCut_iff (by omega), encodeChars_slice ha hb hab]
  by_cases hend : n = b - a
  · -- at the end of the slice there is no byte, and the text has its own cut
    subst hend
    rw [List.getElem?_eq_none (by rw [List.length_take]; exact Nat.min_le_left _ _),
      show a + (b - a) = b by omega]
    simpa using (isCut_iff hle).mp hb
  · rw [List.getElem?_take_of_lt (by omega), List.getElem?_drop]

theorem slice_slice {m : Nat} (ha : IsCut chars a) (hb : IsCut chars b) (hab : a ≤ b)
    (hn : IsCut (slice chars a b) n) (hm : IsCut (slice chars a b) m) (hnm : n ≤ m) :
    slice (slice chars a b) n m = slice chars (a + n) (a + m) := by
  have hlength := byteLength_slice ha hb hab
  have hnle := hn.le
  have hmle := hm.le
  have hn' := (isCut_slice_iff ha hb hab (by omega)).mp hn
  have hm' := (isCut_slice_iff ha hb hab (by omega)).mp hm
  refine encodeChars_injective ?_
  rw [encodeChars_slice hn hm hnm, encodeChars_slice ha hb hab, encodeChars_slice hn' hm' (by omega),
    List.drop_take, List.take_take, List.drop_drop]
  congr 1
  omega

end Unicode
