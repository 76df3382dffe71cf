import Mathlib.Algebra.Ring.Nat
import Mathlib.Data.List.Basic

/-! # Texts

A text is the sequence of its UTF-16 code units. Its code points are what an iteration over it
yields, except that a surrogate without its partner reads as U+FFFD, which is also what encoding
it as UTF-8 writes: two texts have the same bytes exactly when they have the same code points
(`utf8_eq_iff`), and a text without U+FFFD among its code points is determined by them
(`codeUnits_codePoints`). Decoding undoes encoding on well-formed texts (`decode_utf8`). -/

namespace Unicode

/-- A sequence of UTF-16 code units. -/
abbrev Text : Type := List UInt16

instance : LawfulBEq Text := List.instLawfulBEq

/-! ## Code units and code points -/

def isHighSurrogate (u : UInt16) : Bool := 0xd800 ≤ u.toNat && u.toNat < 0xdc00

def isLowSurrogate (u : UInt16) : Bool := 0xdc00 ≤ u.toNat && u.toNat < 0xe000

/-- What stands for an unpaired surrogate. -/
def replacement : Char := '\uFFFD'

/-- The code point of a unit that is not half of a pair. -/
def loneChar (u : UInt16) : Char :=
  if isHighSurrogate u || isLowSurrogate u then replacement else Char.ofNat u.toNat

def pairChar (high low : UInt16) : Char :=
  Char.ofNat (0x10000 + (high.toNat - 0xd800) * 0x400 + (low.toNat - 0xdc00))

def codePoints : Text → List Char
  | [] => []
  | [u] => [loneChar u]
  | u :: v :: rest =>
    if isHighSurrogate u && isLowSurrogate v then pairChar u v :: codePoints rest
    else loneChar u :: codePoints (v :: rest)

/-- The units of one code point. -/
def charUnits (c : Char) : Text :=
  if c.toNat < 0x10000 then [UInt16.ofNat c.toNat]
  else [UInt16.ofNat (0xd800 + (c.toNat - 0x10000) / 0x400),
    UInt16.ofNat (0xdc00 + (c.toNat - 0x10000) % 0x400)]

def codeUnits (chars : List Char) : Text := chars.flatMap charUnits

/-- The text of a literal. -/
def text (literal : String) : Text := codeUnits literal.toList

/-- `toWellFormed()` -/
def toWellFormed (t : Text) : Text := codeUnits (codePoints t)

/-- `isWellFormed()` -/
def isWellFormed (t : Text) : Bool := toWellFormed t = t

@[simp]
theorem codeUnits_nil : codeUnits [] = [] := rfl

@[simp]
theorem codeUnits_cons (c : Char) (cs : List Char) :
    codeUnits (c :: cs) = charUnits c ++ codeUnits cs := rfl

@[simp]
theorem codeUnits_append (cs ds : List Char) :
    codeUnits (cs ++ ds) = codeUnits cs ++ codeUnits ds := List.flatMap_append

/-- A code point is below the surrogates, between them and the supplementary planes, or above. -/
theorem char_cases (c : Char) :
    c.toNat < 0xd800 ∨ (0xe000 ≤ c.toNat ∧ c.toNat < 0x10000) ∨
      (0x10000 ≤ c.toNat ∧ c.toNat < 0x110000) := by
  have hvalid := c.valid
  have hnat : c.toNat = c.val.toNat := rfl
  simp only [UInt32.isValidChar, Nat.isValidChar] at hvalid
  omega

theorem codePoints_lone_cons {u : UInt16} (hhigh : isHighSurrogate u = false) (t : Text) :
    codePoints (u :: t) = loneChar u :: codePoints t := by
  cases t with
  | nil => rfl
  | cons v rest => simp [codePoints, hhigh]

/-- The units of a code point read back as it, whatever follows. -/
@[simp]
theorem codePoints_charUnits_append (c : Char) (t : Text) :
    codePoints (charUnits c ++ t) = c :: codePoints t := by
  have hcases := char_cases c
  by_cases hbasic : c.toNat < 0x10000
  · have hunit : (UInt16.ofNat c.toNat).toNat = c.toNat := by
      rw [UInt16.toNat_ofNat']
      omega
    have hhigh : isHighSurrogate (UInt16.ofNat c.toNat) = false := by
      simp only [isHighSurrogate, hunit, Bool.and_eq_false_iff, decide_eq_false_iff_not]
      omega
    have hlow : isLowSurrogate (UInt16.ofNat c.toNat) = false := by
      simp only [isLowSurrogate, hunit, Bool.and_eq_false_iff, decide_eq_false_iff_not]
      omega
    rw [charUnits, if_pos hbasic, List.singleton_append, codePoints_lone_cons hhigh]
    simp [loneChar, hhigh, hlow, hunit, Char.ofNat_toNat]
  · have hhighNat : (UInt16.ofNat (0xd800 + (c.toNat - 0x10000) / 0x400)).toNat =
        0xd800 + (c.toNat - 0x10000) / 0x400 := by
      rw [UInt16.toNat_ofNat']
      omega
    have hlowNat : (UInt16.ofNat (0xdc00 + (c.toNat - 0x10000) % 0x400)).toNat =
        0xdc00 + (c.toNat - 0x10000) % 0x400 := by
      rw [UInt16.toNat_ofNat']
      omega
    have hhigh : isHighSurrogate (UInt16.ofNat (0xd800 + (c.toNat - 0x10000) / 0x400)) = true := by
      simp only [isHighSurrogate, hhighNat, Bool.and_eq_true, decide_eq_true_eq]
      omega
    have hlow : isLowSurrogate (UInt16.ofNat (0xdc00 + (c.toNat - 0x10000) % 0x400)) = true := by
      simp only [isLowSurrogate, hlowNat, Bool.and_eq_true, decide_eq_true_eq]
      omega
    have hvalue : 0x10000 + (0xd800 + (c.toNat - 0x10000) / 0x400 - 0xd800) * 0x400 +
        (0xdc00 + (c.toNat - 0x10000) % 0x400 - 0xdc00) = c.toNat := by
      omega
    rw [charUnits, if_neg hbasic, List.cons_append, List.cons_append, List.nil_append, codePoints,
      if_pos (by simp only [hhigh, hlow, Bool.and_self]), pairChar, hhighNat, hlowNat, hvalue,
      Char.ofNat_toNat]

@[simp]
theorem codePoints_codeUnits_append (cs : List Char) (t : Text) :
    codePoints (codeUnits cs ++ t) = cs ++ codePoints t := by
  induction cs with
  | nil => rfl
  | cons c cs ih => simp [ih]

@[simp]
theorem codePoints_codeUnits (cs : List Char) : codePoints (codeUnits cs) = cs := by
  have h := codePoints_codeUnits_append cs []
  simpa [codePoints] using h

@[simp]
theorem isWellFormed_codeUnits (cs : List Char) : isWellFormed (codeUnits cs) = true := by
  simp [isWellFormed, toWellFormed]

@[simp]
theorem isWellFormed_text (literal : String) : isWellFormed (text literal) = true :=
  isWellFormed_codeUnits _

theorem toWellFormed_of_isWellFormed {t : Text} (h : isWellFormed t = true) :
    codeUnits (codePoints t) = t :=
  of_decide_eq_true h

theorem eq_of_codePoints_eq {s t : Text} (hs : isWellFormed s = true) (ht : isWellFormed t = true)
    (h : codePoints s = codePoints t) : s = t := by
  rw [← toWellFormed_of_isWellFormed hs, h, toWellFormed_of_isWellFormed ht]

/-! ## Texts without a replacement -/

theorem charUnits_loneChar {u : UInt16} (h : loneChar u ≠ replacement) :
    charUnits (loneChar u) = [u] := by
  unfold loneChar at h ⊢
  split at h
  · exact absurd rfl h
  · next hunit =>
    rw [if_neg hunit]
    simp only [isHighSurrogate, isLowSurrogate, Bool.or_eq_true, Bool.and_eq_true,
      decide_eq_true_eq] at hunit
    have hbound := u.toNat_lt
    have hvalid : u.toNat.isValidChar := by
      simp only [Nat.isValidChar]
      omega
    have hnat : (Char.ofNat u.toNat).toNat = u.toNat := by
      rw [Char.ofNat, dif_pos hvalid]
      rfl
    rw [charUnits, hnat, if_pos (by omega)]
    simp

theorem charUnits_pairChar {u v : UInt16} (hhigh : isHighSurrogate u = true)
    (hlow : isLowSurrogate v = true) : charUnits (pairChar u v) = [u, v] := by
  simp only [isHighSurrogate, isLowSurrogate, Bool.and_eq_true, decide_eq_true_eq] at hhigh hlow
  have hvalid : (0x10000 + (u.toNat - 0xd800) * 0x400 + (v.toNat - 0xdc00)).isValidChar := by
    simp only [Nat.isValidChar]
    omega
  have hnat : (pairChar u v).toNat = 0x10000 + (u.toNat - 0xd800) * 0x400 + (v.toNat - 0xdc00) := by
    rw [pairChar, Char.ofNat, dif_pos hvalid]
    rfl
  have hfirst : 0xd800 + (0x10000 + (u.toNat - 0xd800) * 0x400 + (v.toNat - 0xdc00) - 0x10000)
      / 0x400 = u.toNat := by omega
  have hsecond : 0xdc00 + (0x10000 + (u.toNat - 0xd800) * 0x400 + (v.toNat - 0xdc00) - 0x10000)
      % 0x400 = v.toNat := by omega
  rw [charUnits, hnat, if_neg (by omega), hfirst, hsecond]
  simp

theorem isWellFormed_append {s t : Text} (hs : isWellFormed s = true) (ht : isWellFormed t = true) :
    isWellFormed (s ++ t) = true := by
  rw [← toWellFormed_of_isWellFormed hs, ← toWellFormed_of_isWellFormed ht, ← codeUnits_append]
  exact isWellFormed_codeUnits _

/-- A unit that is no half of a pair is a text of its own. -/
theorem isWellFormed_singleton {u : UInt16} (hhigh : isHighSurrogate u = false)
    (hlow : isLowSurrogate u = false) : isWellFormed [u] = true := by
  have hlone : loneChar u = Char.ofNat u.toNat := by simp [loneChar, hhigh, hlow]
  have hvalid : u.toNat.isValidChar := by
    have hbound := u.toNat_lt
    simp only [isHighSurrogate, isLowSurrogate, Bool.and_eq_false_iff,
      decide_eq_false_iff_not] at hhigh hlow
    simp only [Nat.isValidChar]
    omega
  have hnat : (Char.ofNat u.toNat).toNat = u.toNat := by
    rw [Char.ofNat, dif_pos hvalid]
    rfl
  have hunits : charUnits (Char.ofNat u.toNat) = [u] := by
    rw [charUnits, hnat, if_pos (by have hbound := u.toNat_lt; omega)]
    simp
  rw [← hunits]
  have hwf := isWellFormed_codeUnits [Char.ofNat u.toNat]
  rwa [codeUnits_cons, codeUnits_nil, List.append_nil] at hwf

theorem isWellFormed_pair {u v : UInt16} (hhigh : isHighSurrogate u = true)
    (hlow : isLowSurrogate v = true) : isWellFormed [u, v] = true := by
  have hwf := isWellFormed_codeUnits [pairChar u v]
  rwa [codeUnits_cons, codeUnits_nil, List.append_nil, charUnits_pairChar hhigh hlow] at hwf

theorem isWellFormed_of_plain {t : Text}
    (h : ∀ u ∈ t, isHighSurrogate u = false ∧ isLowSurrogate u = false) :
    isWellFormed t = true := by
  induction t with
  | nil => rfl
  | cons u t ih =>
    obtain ⟨hhigh, hlow⟩ := h u List.mem_cons_self
    exact isWellFormed_append (isWellFormed_singleton hhigh hlow)
      (ih fun v hv => h v (List.mem_cons_of_mem _ hv))

/-- Without U+FFFD among its code points, a text is what they are written as. -/
theorem codeUnits_codePoints {t : Text} (h : replacement ∉ codePoints t) :
    codeUnits (codePoints t) = t := by
  induction t using codePoints.induct with
  | case1 => rfl
  | case2 u =>
    have hlone : loneChar u ≠ replacement := by
      intro heq
      simp [codePoints, heq] at h
    simp [codePoints, charUnits_loneChar hlone]
  | case3 u v rest hpair ih =>
    obtain ⟨hhigh, hlow⟩ := Bool.and_eq_true_iff.mp hpair
    rw [codePoints, if_pos hpair] at h ⊢
    rw [codeUnits_cons, charUnits_pairChar hhigh hlow, ih fun hmem => h (List.mem_cons_of_mem _ hmem)]
    rfl
  | case4 u v rest hpair ih =>
    rw [codePoints, if_neg hpair] at h ⊢
    have hlone : loneChar u ≠ replacement := by
      intro heq
      exact h (heq ▸ List.mem_cons_self)
    rw [codeUnits_cons, charUnits_loneChar hlone, ih fun hmem => h (List.mem_cons_of_mem _ hmem)]
    rfl

theorem length_charUnits_loneChar (u : UInt16) : (charUnits (loneChar u)).length = 1 := by
  by_cases h : loneChar u = replacement
  · rw [h]
    rfl
  · rw [charUnits_loneChar h]
    rfl

/-- Replacing unpaired surrogates keeps the length. -/
theorem length_toWellFormed (t : Text) : (codeUnits (codePoints t)).length = t.length := by
  induction t using codePoints.induct with
  | case1 => rfl
  | case2 u => simp [codePoints, length_charUnits_loneChar]
  | case3 u v rest hpair ih =>
    obtain ⟨hhigh, hlow⟩ := Bool.and_eq_true_iff.mp hpair
    simp [codePoints, hpair, charUnits_pairChar hhigh hlow, ih]
  | case4 u v rest hpair ih =>
    rw [codePoints, if_neg hpair, codeUnits_cons, List.length_append, length_charUnits_loneChar, ih]
    simp [Nat.add_comm]

/-- Three units that read as U+FFFD after a well-formed text. -/
theorem codePoints_replacementUnit {u : UInt16}
    (hu : u = 0xfffd ∨ u = 0xdc00 ∨ u = 0xdc01) (cs : List Char) (t : Text) :
    codePoints (codeUnits cs ++ u :: t) = cs ++ replacement :: codePoints t := by
  rw [codePoints_codeUnits_append]
  rcases hu with rfl | rfl | rfl
  · rw [codePoints_lone_cons (by decide)]
    rfl
  · rw [codePoints_lone_cons (by decide)]
    rfl
  · rw [codePoints_lone_cons (by decide)]
    rfl

/-- A text with U+FFFD among its code points shares them with other texts of its length, and so
does one of them that is not a given text. -/
theorem exists_codePoints_eq {t : Text} (h : replacement ∈ codePoints t) (avoided : Text) :
    ∃ t', t' ≠ t ∧ t' ≠ avoided ∧ codePoints t' = codePoints t ∧ t'.length = t.length := by
  obtain ⟨cs, ds, hsplit⟩ := List.append_of_mem h
  have hcandidate : ∀ u : UInt16, u = 0xfffd ∨ u = 0xdc00 ∨ u = 0xdc01 →
      codePoints (codeUnits cs ++ u :: codeUnits ds) = codePoints t ∧
        (codeUnits cs ++ u :: codeUnits ds).length = t.length := by
    intro u hu
    constructor
    · rw [codePoints_replacementUnit hu, codePoints_codeUnits, hsplit]
    · have hlength := length_toWellFormed t
      rw [hsplit, codeUnits_append, codeUnits_cons, List.length_append, List.length_append] at hlength
      rw [List.length_append, List.length_cons, ← hlength]
      have hone : (charUnits replacement).length = 1 := rfl
      omega
  have hdiffer : ∀ u v : UInt16, u ≠ v →
      codeUnits cs ++ u :: codeUnits ds ≠ codeUnits cs ++ v :: codeUnits ds := by
    intro u v huv heq
    exact huv (List.cons.inj (List.append_cancel_left heq)).1
  -- Of three different candidates one is neither `t` nor the avoided text.
  have hpick : ∃ u : UInt16, (u = 0xfffd ∨ u = 0xdc00 ∨ u = 0xdc01) ∧
      codeUnits cs ++ u :: codeUnits ds ≠ t ∧ codeUnits cs ++ u :: codeUnits ds ≠ avoided := by
    by_contra hnone
    push Not at hnone
    have ha := hnone 0xfffd (by simp)
    have hb := hnone 0xdc00 (by simp)
    have hc := hnone 0xdc01 (by simp)
    have hab := hdiffer 0xfffd 0xdc00 (by decide)
    have hac := hdiffer 0xfffd 0xdc01 (by decide)
    have hbc := hdiffer 0xdc00 0xdc01 (by decide)
    by_cases hat : codeUnits cs ++ 0xfffd :: codeUnits ds = t
    · exact hbc ((hb fun hbt => hab (hat.trans hbt.symm)).trans
        (hc fun hct => hac (hat.trans hct.symm)).symm)
    · have hbt : codeUnits cs ++ 0xdc00 :: codeUnits ds = t := by
        by_contra hne
        exact hab ((ha hat).trans (hb hne).symm)
      have hct : codeUnits cs ++ 0xdc01 :: codeUnits ds = t := by
        by_contra hne
        exact hac ((ha hat).trans (hc hne).symm)
      exact hbc (hbt.trans hct.symm)
  obtain ⟨u, hu, hne, havoid⟩ := hpick
  exact ⟨_, hne, havoid, hcandidate u hu⟩

/-! ## UTF-8 -/

def encodeChars (chars : List Char) : List UInt8 := chars.flatMap String.utf8EncodeChar

/-- `Buffer.from(text, "utf8")` -/
def utf8 (t : Text) : List UInt8 := encodeChars (codePoints t)

/-- The scalar whose encoding starts the bytes. -/
def decodeChar? (bytes : List UInt8) : Option Char := bytes.toByteArray.utf8DecodeChar? 0

/-- May `second` follow `lead`? -/
def secondFits (lead second : UInt8) : Bool :=
  let low : UInt8 := if lead = 0xe0 then 0xa0 else if lead = 0xf0 then 0x90 else 0x80
  let high : UInt8 := if lead = 0xed then 0x9f else if lead = 0xf4 then 0x8f else 0xbf
  low ≤ second && second ≤ high

/-- How many bytes one U+FFFD stands for where no scalar starts: the longest beginning of an
encoding, or a single byte. -/
def maximalSubpart : List UInt8 → Nat
  | lead :: second :: third :: _ =>
    if 0xe0 ≤ lead && lead ≤ 0xef && secondFits lead second then 2
    else if 0xf0 ≤ lead && lead ≤ 0xf4 && secondFits lead second then
      if 0x80 ≤ third && third ≤ 0xbf then 3 else 2
    else 1
  | [lead, second] => if 0xe0 ≤ lead && lead ≤ 0xf4 && secondFits lead second then 2 else 1
  | _ => 1

def decodeChars : Nat → List UInt8 → List Char
  | 0, _ => []
  | _, [] => []
  | fuel + 1, bytes => match decodeChar? bytes with
    | some c => c :: decodeChars fuel (bytes.drop c.utf8Size)
    | none => replacement :: decodeChars fuel (bytes.drop (maximalSubpart bytes))

/-- `bytes.toString("utf8")` -/
def decode (bytes : List UInt8) : Text := codeUnits (decodeChars bytes.length bytes)

@[simp]
theorem encodeChars_nil : encodeChars [] = [] := rfl

@[simp]
theorem encodeChars_cons (c : Char) (cs : List Char) :
    encodeChars (c :: cs) = String.utf8EncodeChar c ++ encodeChars cs := rfl

@[simp]
theorem encodeChars_append (cs ds : List Char) :
    encodeChars (cs ++ ds) = encodeChars cs ++ encodeChars ds := List.flatMap_append

@[simp]
theorem utf8_codeUnits (cs : List Char) : utf8 (codeUnits cs) = encodeChars cs := by
  simp [utf8]

theorem utf8_codeUnits_append (cs : List Char) (t : Text) :
    utf8 (codeUnits cs ++ t) = encodeChars cs ++ utf8 t := by
  simp [utf8]

theorem utf8_append {s : Text} (hs : isWellFormed s = true) (t : Text) :
    utf8 (s ++ t) = utf8 s ++ utf8 t := by
  rw [← toWellFormed_of_isWellFormed hs, utf8_codeUnits_append, utf8_codeUnits]

theorem decodeChar?_encode_append (c : Char) (bytes : List UInt8) :
    decodeChar? (String.utf8EncodeChar c ++ bytes) = some c := by
  rw [decodeChar?, List.toByteArray_append, ByteArray.utf8DecodeChar?_utf8EncodeChar_append]

theorem decodeChars_encodeChars {fuel : Nat} {cs : List Char}
    (h : (encodeChars cs).length ≤ fuel) : decodeChars fuel (encodeChars cs) = cs := by
  induction cs generalizing fuel with
  | nil => cases fuel <;> rfl
  | cons c cs ih =>
    have hsize := c.utf8Size_pos
    rw [encodeChars_cons, List.length_append, String.length_utf8EncodeChar] at h
    obtain ⟨fuel, rfl⟩ : ∃ n, fuel = n + 1 := ⟨fuel - 1, by omega⟩
    have hdrop : (String.utf8EncodeChar c ++ encodeChars cs).drop c.utf8Size = encodeChars cs := by
      rw [← String.length_utf8EncodeChar, List.drop_left]
    rw [encodeChars_cons, decodeChars, decodeChar?_encode_append]
    · show c :: decodeChars fuel ((String.utf8EncodeChar c ++ encodeChars cs).drop _) = _
      rw [hdrop, ih (by omega)]
    · intro hnil
      have hlength := congrArg List.length hnil
      simp at hlength
      omega

theorem decode_encodeChars (cs : List Char) : decode (encodeChars cs) = codeUnits cs := by
  rw [decode, decodeChars_encodeChars (Nat.le_refl _)]

/-- Decoding undoes encoding, up to replacing unpaired surrogates. -/
@[simp]
theorem decode_utf8 (t : Text) : decode (utf8 t) = toWellFormed t := decode_encodeChars _

theorem encodeChars_injective {cs ds : List Char} (h : encodeChars cs = encodeChars ds) :
    cs = ds := by
  have hcs := decodeChars_encodeChars (Nat.le_refl (encodeChars cs).length)
  rw [← hcs, h, decodeChars_encodeChars (Nat.le_refl _)]

/-- Two texts have the same bytes exactly when they have the same code points. -/
theorem utf8_eq_iff {s t : Text} : utf8 s = utf8 t ↔ codePoints s = codePoints t :=
  ⟨encodeChars_injective, congrArg encodeChars⟩

/-! ## Boundaries -/

/-- A byte inside an encoding, not at its beginning. -/
def isContinuationByte (b : UInt8) : Bool := b &&& 0xc0 = 0x80

theorem isContinuationByte_ofNat : ∀ n < 256,
    isContinuationByte (UInt8.ofNat n) = decide (128 ≤ n ∧ n < 192) := by
  decide +kernel

theorem utf8EncodeChar_bytes (c : Char) : ∃ lead rest,
    String.utf8EncodeChar c = lead :: rest ∧ isContinuationByte lead = false ∧
      ∀ b ∈ rest, isContinuationByte b = true := by
  have hcases := char_cases c
  have hnat : c.toNat = c.val.toNat := rfl
  have hrest : ∀ n, isContinuationByte (UInt8.ofNat (n % 64 + 128)) = true := by
    intro n
    rw [isContinuationByte_ofNat _ (by omega)]
    simp
    omega
  have hlead : ∀ n < 256, ¬ (128 ≤ n ∧ n < 192) → isContinuationByte (UInt8.ofNat n) = false := by
    intro n hn hrange
    rw [isContinuationByte_ofNat n hn, decide_eq_false hrange]
  unfold String.utf8EncodeChar
  dsimp only
  split
  · exact ⟨_, _, rfl, hlead _ (by omega) (by omega), List.forall_mem_nil _⟩
  · split
    · exact ⟨_, _, rfl, hlead _ (by omega) (by omega),
        List.forall_mem_cons.mpr ⟨hrest _, List.forall_mem_nil _⟩⟩
    · split
      · exact ⟨_, _, rfl, hlead _ (by omega) (by omega),
          List.forall_mem_cons.mpr ⟨hrest _, List.forall_mem_cons.mpr ⟨hrest _,
            List.forall_mem_nil _⟩⟩⟩
      · exact ⟨_, _, rfl, hlead _ (by omega) (by omega),
          List.forall_mem_cons.mpr ⟨hrest _, List.forall_mem_cons.mpr ⟨hrest _,
            List.forall_mem_cons.mpr ⟨hrest _, List.forall_mem_nil _⟩⟩⟩⟩

/-- Bytes cut before a byte that is no continuation are cut between two characters. -/
theorem exists_cut {cs : List Char} {n : Nat} (hn : n ≤ (encodeChars cs).length)
    (hcut : ∀ b, (encodeChars cs)[n]? = some b → isContinuationByte b = false) :
    ∃ as bs, cs = as ++ bs ∧ encodeChars as = (encodeChars cs).take n := by
  induction cs generalizing n with
  | nil => exact ⟨[], [], rfl, by simp⟩
  | cons c cs ih =>
    obtain ⟨lead, rest, hbytes, -, hrest⟩ := utf8EncodeChar_bytes c
    by_cases hzero : n = 0
    · subst hzero
      exact ⟨[], c :: cs, rfl, rfl⟩
    · by_cases hinside : n < (String.utf8EncodeChar c).length
      · -- A position inside the first character holds a continuation.
        exfalso
        rw [hbytes, List.length_cons] at hinside
        obtain ⟨m, rfl⟩ : ∃ m, n = m + 1 := ⟨n - 1, by omega⟩
        have hm : m < rest.length := by omega
        have hget : (encodeChars (c :: cs))[m + 1]? = some rest[m] := by
          rw [encodeChars_cons, hbytes, List.cons_append, List.getElem?_cons_succ,
            List.getElem?_append_left hm, List.getElem?_eq_getElem hm]
        have hfalse := hcut _ hget
        rw [hrest _ (List.getElem_mem hm)] at hfalse
        cases hfalse
      · obtain ⟨m, rfl⟩ : ∃ m, n = (String.utf8EncodeChar c).length + m :=
          ⟨n - (String.utf8EncodeChar c).length, by omega⟩
        rw [encodeChars_cons, List.length_append] at hn
        obtain ⟨as, bs, rfl, htake⟩ := ih (n := m) (by omega) (by
          intro b hb
          refine hcut b ?_
          rw [encodeChars_cons, List.getElem?_append_right (by omega), Nat.add_sub_cancel_left]
          exact hb)
        refine ⟨c :: as, bs, rfl, ?_⟩
        rw [encodeChars_cons, htake, encodeChars_cons, List.take_length_add_append]

end Unicode
