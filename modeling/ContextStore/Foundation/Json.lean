import ContextStore.Foundation.Unicode
import Mathlib.Data.Nat.Digits.Lemmas

/-! # JSON

Values, the text `stringify` prints for one, and the parser that reads values back. What is
printed without a fractional number is read back as the same value (`parse_stringify`). An object
keeps its fields in the order of the text; a lookup finds the last one of its name. -/

open Unicode

inductive Json where
  | null
  | bool (value : Bool)
  | number (value : Int)
  /-- A number that is no integer, as it was written. -/
  | fraction (literal : Text)
  | string (value : Text)
  | array (items : List Json)
  | object (fields : List (Text × Json))

namespace Json

/-! ## Reading a value apart -/

/-- `value[name]`; nothing but an object has a field here. -/
def get (name : Text) : Json → Option Json
  | .object fields => (fields.reverse.find? (·.1 = name)).map (·.2)
  | _ => none

/-- `typeof value === "string"` -/
def asString : Json → Option Text
  | .string value => some value
  | _ => none

/-- The value of an integral number. -/
def asNumber : Json → Option Int
  | .number value => some value
  | _ => none

/-- `Array.isArray(value)` -/
def asArray : Json → Option (List Json)
  | .array items => some items
  | _ => none

/-! ## Printing -/

def hexDigit (n : Nat) : UInt16 := if n < 10 then UInt16.ofNat (48 + n) else UInt16.ofNat (87 + n)

/-- `\uXXXX` -/
def unitEscape (u : UInt16) : Text :=
  [0x5c, 0x75, hexDigit (u.toNat / 4096), hexDigit (u.toNat / 256 % 16),
    hexDigit (u.toNat / 16 % 16), hexDigit (u.toNat % 16)]

/-- The letter of a two-character escape. -/
def shortEscape (u : UInt16) : Option UInt16 :=
  if u = 0x22 then some 0x22
  else if u = 0x5c then some 0x5c
  else if u = 0x08 then some 0x62
  else if u = 0x0c then some 0x66
  else if u = 0x0a then some 0x6e
  else if u = 0x0d then some 0x72
  else if u = 0x09 then some 0x74
  else none

def escapeUnit (u : UInt16) : Text :=
  match shortEscape u with
  | some letter => [0x5c, letter]
  | none => if u.toNat < 0x20 || isHighSurrogate u || isLowSurrogate u then unitEscape u else [u]

/-- Only an unpaired surrogate is escaped. -/
def escapeUnits : Text → Text
  | [] => []
  | [u] => escapeUnit u
  | u :: v :: rest =>
    if isHighSurrogate u && isLowSurrogate v then u :: v :: escapeUnits rest
    else escapeUnit u ++ escapeUnits (v :: rest)

def quote (t : Text) : Text := 0x22 :: (escapeUnits t ++ [0x22])

def decimal (n : Nat) : Text :=
  if n = 0 then [0x30] else ((Nat.digits 10 n).map fun d => UInt16.ofNat (48 + d)).reverse

/-- `String(value)` of an integer. -/
def ofInt (value : Int) : Text :=
  if value < 0 then 0x2d :: decimal value.natAbs else decimal value.natAbs

mutual

/-- `JSON.stringify(value)` -/
def stringify : Json → Text
  | .null => [0x6e, 0x75, 0x6c, 0x6c]
  | .bool true => [0x74, 0x72, 0x75, 0x65]
  | .bool false => [0x66, 0x61, 0x6c, 0x73, 0x65]
  | .number value => ofInt value
  | .fraction literal => literal
  | .string value => quote value
  | .array [] => [0x5b, 0x5d]
  | .array (first :: rest) => 0x5b :: (stringify first ++ stringifyItems rest)
  | .object [] => [0x7b, 0x7d]
  | .object (first :: rest) => 0x7b :: (stringifyField first ++ stringifyFields rest)

/-- The items after the first, with the closing bracket. -/
def stringifyItems : List Json → Text
  | [] => [0x5d]
  | item :: rest => 0x2c :: (stringify item ++ stringifyItems rest)

def stringifyFields : List (Text × Json) → Text
  | [] => [0x7d]
  | field :: rest => 0x2c :: (stringifyField field ++ stringifyFields rest)

def stringifyField : Text × Json → Text
  | (name, value) => quote name ++ 0x3a :: stringify value

end

mutual

/-- The items, separated by commas. -/
def displayItems : List Json → Text
  | [] => []
  | item :: rest => displayItem item ++ displayRest rest

def displayRest : List Json → Text
  | [] => []
  | item :: rest => 0x2c :: (displayItem item ++ displayRest rest)

/-- `null` is left out. -/
def displayItem : Json → Text
  | .null => []
  | .bool true => [0x74, 0x72, 0x75, 0x65]
  | .bool false => [0x66, 0x61, 0x6c, 0x73, 0x65]
  | .number value => ofInt value
  | .fraction literal => literal
  | .string value => value
  | .array items => displayItems items
  | .object _ => text "[object Object]"

end

/-- `String(value)` -/
def display (value : Json) : Text :=
  match value with
  | .null => [0x6e, 0x75, 0x6c, 0x6c]
  | other => displayItem other

/-! ## Parsing -/

def isSpace (u : UInt16) : Bool := u = 0x20 || u = 0x09 || u = 0x0a || u = 0x0d

def skipSpace (t : Text) : Text := t.dropWhile isSpace

def isDigit (u : UInt16) : Bool := 48 ≤ u.toNat && u.toNat < 58

def hexValue (u : UInt16) : Option Nat :=
  if 48 ≤ u.toNat ∧ u.toNat < 58 then some (u.toNat - 48)
  else if 97 ≤ u.toNat ∧ u.toNat < 103 then some (u.toNat - 87)
  else if 65 ≤ u.toNat ∧ u.toNat < 71 then some (u.toNat - 55)
  else none

/-- The unit a letter after a backslash stands for. -/
def unescape (letter : UInt16) : Option UInt16 :=
  if letter = 0x22 then some 0x22
  else if letter = 0x5c then some 0x5c
  else if letter = 0x2f then some 0x2f
  else if letter = 0x62 then some 0x08
  else if letter = 0x66 then some 0x0c
  else if letter = 0x6e then some 0x0a
  else if letter = 0x72 then some 0x0d
  else if letter = 0x74 then some 0x09
  else none

def fromHex (a b c d : UInt16) : Option UInt16 := do
  let a ← hexValue a
  let b ← hexValue b
  let c ← hexValue c
  let d ← hexValue d
  return UInt16.ofNat (a * 4096 + b * 256 + c * 16 + d)

/-- The rest of a string whose opening quote was read. -/
def parseString : Text → Option (Text × Text)
  | [] => none
  | u :: t =>
    if u = 0x22 then some ([], t)
    else if u = 0x5c then
      match t with
      | 0x75 :: a :: b :: c :: d :: t => do
        let unit ← fromHex a b c d
        (parseString t).map fun read => (unit :: read.1, read.2)
      | letter :: t => do
        let unit ← unescape letter
        (parseString t).map fun read => (unit :: read.1, read.2)
      | [] => none
    else if u.toNat < 0x20 then none
    else (parseString t).map fun read => (u :: read.1, read.2)

/-- The number a row of digits stands for. -/
def digitsValue (digits : Text) : Nat :=
  Nat.ofDigits 10 (digits.reverse.map fun u => u.toNat - 48)

/-- The digits after a point, if there is one. -/
def parseFraction : Text → Option (Text × Text)
  | 0x2e :: t =>
    let read := t.span isDigit
    if read.1 = [] then none else some read
  | t => some ([], t)

def parseExponent : Text → Option (Int × Text)
  | u :: t =>
    if u = 0x65 ∨ u = 0x45 then
      let sign := t.head?
      let read := (if sign = some 0x2b ∨ sign = some 0x2d then t.tail else t).span isDigit
      if read.1 = [] then none
      else if sign = some 0x2d then some (-(digitsValue read.1 : Int), read.2)
      else some (digitsValue read.1, read.2)
    else some (0, u :: t)
  | [] => some (0, [])

/-- `mantissa * 10 ^ exponent`, written as `literal`. -/
def scaled (literal : Text) (mantissa exponent : Int) : Json :=
  if 0 ≤ exponent then .number (mantissa * 10 ^ exponent.toNat)
  else if mantissa % 10 ^ exponent.natAbs = 0 then .number (mantissa / 10 ^ exponent.natAbs)
  else .fraction literal

def parseNumber (t : Text) : Option (Json × Text) := do
  let negative := t.head? = some 0x2d
  let whole := (if negative then t.tail else t).span isDigit
  if whole.1 = [] ∨ (1 < whole.1.length ∧ whole.1.head? = some 0x30) then none
  else
    let fraction ← parseFraction whole.2
    let exponent ← parseExponent fraction.2
    let magnitude : Int := digitsValue (whole.1 ++ fraction.1)
    let literal := t.take (t.length - exponent.2.length)
    return (scaled literal (if negative then -magnitude else magnitude)
      (exponent.1 - fraction.1.length), exponent.2)

/-- The rest of the text after a given beginning. -/
def expect : Text → Text → Option Text
  | [], t => some t
  | u :: expected, v :: t => if u = v then expect expected t else none
  | _ :: _, [] => none

mutual

def parseValue : Nat → Text → Option (Json × Text)
  | 0, _ => none
  | fuel + 1, t => match skipSpace t with
    | [] => none
    | u :: t =>
      if u = 0x22 then (parseString t).map fun read => (.string read.1, read.2)
      else if u = 0x5b then
        if (skipSpace t).head? = some 0x5d then some (.array [], (skipSpace t).tail)
        else do
          let first ← parseValue fuel t
          let others ← parseItems fuel first.2
          return (.array (first.1 :: others.1), others.2)
      else if u = 0x7b then
        if (skipSpace t).head? = some 0x7d then some (.object [], (skipSpace t).tail)
        else do
          let first ← parseField fuel t
          let others ← parseFields fuel first.2
          return (.object (first.1 :: others.1), others.2)
      else if u = 0x6e then (expect [0x75, 0x6c, 0x6c] t).map fun t => (.null, t)
      else if u = 0x74 then (expect [0x72, 0x75, 0x65] t).map fun t => (.bool true, t)
      else if u = 0x66 then (expect [0x61, 0x6c, 0x73, 0x65] t).map fun t => (.bool false, t)
      else parseNumber (u :: t)

/-- The items after the first, up to the closing bracket. -/
def parseItems : Nat → Text → Option (List Json × Text)
  | 0, _ => none
  | fuel + 1, t => match skipSpace t with
    | [] => none
    | u :: t =>
      if u = 0x5d then some ([], t)
      else if u = 0x2c then do
        let item ← parseValue fuel t
        let others ← parseItems fuel item.2
        return (item.1 :: others.1, others.2)
      else none

def parseFields : Nat → Text → Option (List (Text × Json) × Text)
  | 0, _ => none
  | fuel + 1, t => match skipSpace t with
    | [] => none
    | u :: t =>
      if u = 0x7d then some ([], t)
      else if u = 0x2c then do
        let field ← parseField fuel t
        let others ← parseFields fuel field.2
        return (field.1 :: others.1, others.2)
      else none

def parseField : Nat → Text → Option ((Text × Json) × Text)
  | 0, _ => none
  | fuel + 1, t => do
    let opened ← expect [0x22] (skipSpace t)
    let name ← parseString opened
    let colon ← expect [0x3a] (skipSpace name.2)
    let value ← parseValue fuel colon
    return ((name.1, value.1), value.2)

end

/-- `JSON.parse(text)`; each nested call is given less fuel than there are characters. -/
def parse (t : Text) : Option Json := do
  let read ← parseValue (t.length + 1) t
  if skipSpace read.2 = [] then some read.1 else none

/-! ## Printed strings -/

theorem hexValue_hexDigit : ∀ n < 16, hexValue (hexDigit n) = some n := by
  decide

theorem fromHex_unitEscape (u : UInt16) :
    fromHex (hexDigit (u.toNat / 4096)) (hexDigit (u.toNat / 256 % 16))
      (hexDigit (u.toNat / 16 % 16)) (hexDigit (u.toNat % 16)) = some u := by
  have hbound := u.toNat_lt
  have hsum : u.toNat / 4096 * 4096 + u.toNat / 256 % 16 * 256 + u.toNat / 16 % 16 * 16 +
      u.toNat % 16 = u.toNat := by
    omega
  unfold fromHex
  rw [hexValue_hexDigit _ (by omega), hexValue_hexDigit _ (by omega),
    hexValue_hexDigit _ (by omega), hexValue_hexDigit _ (by omega)]
  show some (UInt16.ofNat _) = some u
  rw [hsum, UInt16.ofNat_toNat]

/-- The letters that stand for a unit are read back, and `u` is none of them. -/
theorem unescape_shortEscape {u letter : UInt16} (h : shortEscape u = some letter) :
    unescape letter = some u ∧ letter ≠ 0x75 := by
  unfold shortEscape at h
  split at h
  · next hu =>
    cases h
    subst hu
    decide
  split at h
  · next hu =>
    cases h
    subst hu
    decide
  split at h
  · next hu =>
    cases h
    subst hu
    decide
  split at h
  · next hu =>
    cases h
    subst hu
    decide
  split at h
  · next hu =>
    cases h
    subst hu
    decide
  split at h
  · next hu =>
    cases h
    subst hu
    decide
  split at h
  · next hu =>
    cases h
    subst hu
    decide
  · cases h

theorem parseString_escape {letter u : UInt16} (h : unescape letter = some u)
    (hletter : letter ≠ 0x75) (t : Text) :
    parseString (0x5c :: letter :: t) = (parseString t).map fun read => (u :: read.1, read.2) := by
  rw [parseString.eq_def]
  simp only [if_neg (by decide : ¬ (0x5c : UInt16) = 0x22), if_true]
  split
  · next heq => exact absurd (List.cons.inj heq).1 hletter
  · next heq =>
    obtain ⟨rfl, rfl⟩ := List.cons.inj heq
    rw [h]
    rfl
  · next heq => cases heq

theorem parseString_quote (t : Text) : parseString (0x22 :: t) = some ([], t) := by
  rw [parseString.eq_def]
  simp

theorem parseString_unitEscape (u : UInt16) (t : Text) :
    parseString (unitEscape u ++ t) = (parseString t).map fun read => (u :: read.1, read.2) := by
  show parseString (0x5c :: 0x75 :: _ :: _ :: _ :: _ :: t) = _
  rw [parseString.eq_def]
  simp only [if_neg (by decide : ¬ (0x5c : UInt16) = 0x22), if_true]
  show (fromHex _ _ _ _ >>= fun unit => (parseString t).map fun read => (unit :: read.1, read.2)) = _
  rw [fromHex_unitEscape]
  rfl

variable {t : Text} {u : UInt16}

theorem parseString_plain (hquote : u ≠ 0x22) (hbackslash : u ≠ 0x5c) (hspace : ¬ u.toNat < 0x20)
    (t : Text) : parseString (u :: t) = (parseString t).map fun read => (u :: read.1, read.2) := by
  rw [parseString.eq_def]
  simp only [if_neg hquote, if_neg hbackslash, if_neg hspace]

theorem parseString_surrogate (h : 0xd800 ≤ u.toNat) (t : Text) :
    parseString (u :: t) = (parseString t).map fun read => (u :: read.1, read.2) := by
  refine parseString_plain ?_ ?_ (by omega) t
  · rintro rfl
    exact absurd h (by decide)
  · rintro rfl
    exact absurd h (by decide)

theorem parseString_escapeUnit (u : UInt16) (t : Text) :
    parseString (escapeUnit u ++ t) = (parseString t).map fun read => (u :: read.1, read.2) := by
  unfold escapeUnit
  split
  · next letter hletter =>
    obtain ⟨hunescape, hne⟩ := unescape_shortEscape hletter
    exact parseString_escape hunescape hne t
  · next hnone =>
    split
    · exact parseString_unitEscape u t
    · next hplain =>
      simp only [Bool.or_eq_true, decide_eq_true_eq, not_or] at hplain
      refine parseString_plain ?_ ?_ hplain.1.1 t
      · rintro rfl
        cases hnone
      · rintro rfl
        cases hnone

/-- A printed string is read back up to its closing quote. -/
theorem parseString_escapeUnits (s t : Text) :
    parseString (escapeUnits s ++ 0x22 :: t) = some (s, t) := by
  induction s using escapeUnits.induct with
  | case1 =>
    exact parseString_quote t
  | case2 u =>
    rw [escapeUnits, parseString_escapeUnit, parseString_quote]
    rfl
  | case3 u v rest hpair ih =>
    have hboth := Bool.and_eq_true_iff.mp hpair
    simp only [isHighSurrogate, isLowSurrogate, Bool.and_eq_true, decide_eq_true_eq] at hboth
    rw [escapeUnits, if_pos hpair, List.cons_append, List.cons_append,
      parseString_surrogate hboth.1.1, parseString_surrogate (by omega), ih]
    rfl
  | case4 u v rest hpair ih =>
    rw [escapeUnits, if_neg hpair, List.append_assoc, parseString_escapeUnit, ih]
    rfl

/-! ## Printed numbers -/

/-- What may follow a number: nothing, or a unit that cannot continue it. -/
def Delimited (t : Text) : Prop :=
  ∀ u ∈ t.head?, isDigit u = false ∧ u ≠ 0x2e ∧ u ≠ 0x65 ∧ u ≠ 0x45

theorem isDigit_ofNat : ∀ d < 10, isDigit (UInt16.ofNat (48 + d)) = true := by
  decide

theorem decimal_digits {n : Nat} (h : u ∈ decimal n) : isDigit u = true := by
  unfold decimal at h
  split at h
  · rw [List.mem_singleton] at h
    subst h
    rfl
  · simp only [List.mem_reverse, List.mem_map] at h
    obtain ⟨d, hd, rfl⟩ := h
    exact isDigit_ofNat d (Nat.digits_lt_base (by omega) hd)

theorem decimal_ne_nil (n : Nat) : decimal n ≠ [] := by
  unfold decimal
  split
  · simp
  · next hn => simpa [Nat.digits_eq_nil_iff_eq_zero] using hn

theorem digitsValue_decimal (n : Nat) : digitsValue (decimal n) = n := by
  unfold decimal digitsValue
  split
  · next hn =>
    subst hn
    rfl
  · have hback : ∀ d ∈ Nat.digits 10 n,
        ((fun u : UInt16 => u.toNat - 48) ∘ fun d => UInt16.ofNat (48 + d)) d = id d := by
      intro d hd
      have hlt := Nat.digits_lt_base (by omega : 1 < 10) hd
      show (UInt16.ofNat (48 + d)).toNat - 48 = d
      rw [UInt16.toNat_ofNat']
      omega
    rw [List.reverse_reverse, List.map_map, List.map_congr_left hback, List.map_id,
      Nat.ofDigits_digits]

/-- Only zero is printed with a leading zero. -/
theorem decimal_leading {n : Nat} (h : (decimal n).head? = some 0x30) : (decimal n).length = 1 := by
  unfold decimal at h ⊢
  split at h
  · next hn => rw [if_pos hn]; rfl
  · next hn =>
    exfalso
    have hne : Nat.digits 10 n ≠ [] := Nat.digits_ne_nil_iff_ne_zero.mpr hn
    rw [List.head?_reverse, List.getLast?_map, List.getLast?_eq_some_getLast hne,
      Option.map_some, Option.some.injEq] at h
    have hlt := Nat.digits_lt_base (by omega : 1 < 10) (List.getLast_mem hne)
    have hnat := congrArg UInt16.toNat h
    rw [UInt16.toNat_ofNat'] at hnat
    have hzero : (Nat.digits 10 n).getLast hne = 0 := by
      have hvalue : (0x30 : UInt16).toNat = 48 := rfl
      omega
    exact Nat.getLast_digit_ne_zero 10 hn hzero

theorem span_decimal (n : Nat) (ht : Delimited t) :
    (decimal n ++ t).span isDigit = (decimal n, t) := by
  rw [List.span_eq_takeWhile_dropWhile, List.takeWhile_append_of_pos fun u hu => decimal_digits hu,
    List.dropWhile_append_of_pos fun u hu => decimal_digits hu]
  cases t with
  | nil => simp
  | cons u t =>
    have hu := (ht u rfl).1
    simp [hu]

theorem parseFraction_delimited (ht : Delimited t) : parseFraction t = some ([], t) := by
  unfold parseFraction
  split
  · next t' =>
    exact absurd rfl (ht 0x2e rfl).2.1
  · rfl

theorem parseExponent_delimited (ht : Delimited t) : parseExponent t = some (0, t) := by
  cases t with
  | nil => rfl
  | cons u t =>
    have hu := ht u rfl
    rw [parseExponent, if_neg (by simp [hu.2.2.1, hu.2.2.2])]

theorem ofInt_head (value : Int) : ∃ u rest, ofInt value = u :: rest ∧
    (u = 0x2d ∨ isDigit u = true) := by
  unfold ofInt
  split
  · exact ⟨_, _, rfl, Or.inl rfl⟩
  · cases hdecimal : decimal value.natAbs with
    | nil => exact absurd hdecimal (decimal_ne_nil _)
    | cons u rest => exact ⟨u, rest, rfl, Or.inr (decimal_digits (hdecimal ▸ List.mem_cons_self))⟩

theorem parseNumber_ofInt (value : Int) (ht : Delimited t) :
    parseNumber (ofInt value ++ t) = some (.number value, t) := by
  have hwhole : ¬ (decimal value.natAbs = [] ∨
      (1 < (decimal value.natAbs).length ∧ (decimal value.natAbs).head? = some 0x30)) := by
    rintro (hnil | ⟨hlong, hzero⟩)
    · exact decimal_ne_nil _ hnil
    · rw [decimal_leading hzero] at hlong
      omega
  have hread : ∀ literal (magnitude : Int), scaled literal magnitude (0 - ([] : Text).length) =
      .number magnitude := by
    intro literal magnitude
    simp [scaled]
  by_cases hneg : value < 0
  · have hhead : ((ofInt value ++ t).head? = some 0x2d) := by
      simp [ofInt, hneg]
    have htail : (ofInt value ++ t).tail = decimal value.natAbs ++ t := by
      simp [ofInt, hneg]
    unfold parseNumber
    simp only [hhead, htail, if_true, span_decimal _ ht, if_neg hwhole,
      parseFraction_delimited ht, parseExponent_delimited ht, Option.bind_eq_bind,
      Option.bind_some, List.append_nil, digitsValue_decimal, hread]
    rw [show (-(value.natAbs : Int)) = value by omega]
    rfl
  · have hself : ofInt value = decimal value.natAbs := by
      rw [ofInt, if_neg hneg]
    have hhead : ¬ (decimal value.natAbs ++ t).head? = some 0x2d := by
      cases hdecimal : decimal value.natAbs with
      | nil => exact absurd hdecimal (decimal_ne_nil _)
      | cons u rest =>
        intro hminus
        have hdigit := decimal_digits (hdecimal ▸ List.mem_cons_self : u ∈ decimal value.natAbs)
        cases hminus
        exact absurd hdigit (by decide)
    rw [hself]
    unfold parseNumber
    simp only [hhead, if_false, span_decimal _ ht, if_neg hwhole, parseFraction_delimited ht,
      parseExponent_delimited ht, Option.bind_eq_bind, Option.bind_some, List.append_nil,
      digitsValue_decimal, hread]
    rw [show ((value.natAbs : Int)) = value by omega]
    rfl

/-! ## Printed values -/

mutual

/-- Every number in the value is an integer. -/
def Integral : Json → Prop
  | .fraction _ => False
  | .array items => IntegralItems items
  | .object fields => IntegralFields fields
  | _ => True

def IntegralItems : List Json → Prop
  | [] => True
  | item :: rest => Integral item ∧ IntegralItems rest

def IntegralFields : List (Text × Json) → Prop
  | [] => True
  | field :: rest => IntegralField field ∧ IntegralFields rest

def IntegralField : Text × Json → Prop
  | (_, value) => Integral value

end

theorem integralItems_iff {items : List Json} :
    IntegralItems items ↔ ∀ item ∈ items, Integral item := by
  induction items with
  | nil => simp [IntegralItems]
  | cons item rest ih => simp [IntegralItems, ih]

theorem integralFields_iff {fields : List (Text × Json)} :
    IntegralFields fields ↔ ∀ field ∈ fields, Integral field.2 := by
  induction fields with
  | nil => simp [IntegralFields]
  | cons field rest ih =>
    obtain ⟨name, value⟩ := field
    simp [IntegralFields, IntegralField, ih]

theorem skipSpace_cons {u : UInt16} (h : isSpace u = false) (t : Text) :
    skipSpace (u :: t) = u :: t := by
  simp [skipSpace, h]

theorem not_space_of_digit {u : UInt16} (h : isDigit u = true) : isSpace u = false := by
  simp only [isDigit, Bool.and_eq_true, decide_eq_true_eq] at h
  have hne : ∀ v : UInt16, v.toNat < 48 → u ≠ v := by
    intro v hv heq
    subst heq
    omega
  simp [isSpace, hne 0x20 (by decide), hne 0x09 (by decide), hne 0x0a (by decide),
    hne 0x0d (by decide)]

theorem ne_of_isDigit {u v : UInt16} (hu : isDigit u = true) (hv : isDigit v = false) : u ≠ v := by
  rintro rfl
  rw [hu] at hv
  cases hv

/-- A printed value starts with no space and no closing bracket. -/
theorem stringify_head {v : Json} (hv : Integral v) : ∃ u rest, stringify v = u :: rest ∧
    isSpace u = false ∧ u ≠ 0x5d := by
  cases v with
  | null => exact ⟨_, _, rfl, rfl, by decide⟩
  | bool value => cases value <;> exact ⟨_, _, rfl, rfl, by decide⟩
  | number value =>
    obtain ⟨u, rest, hcons, hu⟩ := ofInt_head value
    refine ⟨u, rest, hcons, ?_⟩
    rcases hu with rfl | hdigit
    · decide
    · exact ⟨not_space_of_digit hdigit, ne_of_isDigit hdigit (by decide)⟩
  | fraction literal => exact hv.elim
  | string value => exact ⟨_, _, rfl, rfl, by decide⟩
  | array items => cases items <;> exact ⟨_, _, rfl, rfl, by decide⟩
  | object fields => cases fields <;> exact ⟨_, _, rfl, rfl, by decide⟩

theorem stringifyField_head (field : Text × Json) : ∃ rest, stringifyField field = 0x22 :: rest := by
  obtain ⟨name, value⟩ := field
  exact ⟨_, rfl⟩

/-- Units a value's first unit is dispatched on are no digits and no minus sign. -/
theorem parseValue_number (value : Int) (fuel : Nat) {t : Text} (ht : Delimited t) :
    parseValue (fuel + 1) (ofInt value ++ t) = some (.number value, t) := by
  have hread := parseNumber_ofInt value ht
  obtain ⟨u, rest, hcons, hu⟩ := ofInt_head value
  rw [hcons, List.cons_append] at hread ⊢
  have hspace : isSpace u = false := by
    rcases hu with rfl | hdigit
    · rfl
    · exact not_space_of_digit hdigit
  have hne : ∀ v : UInt16, v ≠ 0x2d → isDigit v = false → u ≠ v := by
    intro v hv hdigit
    rcases hu with rfl | hu
    · exact hv.symm
    · exact ne_of_isDigit hu hdigit
  rw [parseValue, skipSpace_cons hspace]
  simp only [if_neg (hne 0x22 (by decide) rfl), if_neg (hne 0x5b (by decide) rfl),
    if_neg (hne 0x7b (by decide) rfl), if_neg (hne 0x6e (by decide) rfl),
    if_neg (hne 0x74 (by decide) rfl), if_neg (hne 0x66 (by decide) rfl), hread]

theorem delimited_items (items : List Json) (t : Text) : Delimited (stringifyItems items ++ t) := by
  intro u hu
  cases items with
  | nil =>
    cases hu
    decide
  | cons item rest =>
    cases hu
    decide

theorem delimited_fields (fields : List (Text × Json)) (t : Text) :
    Delimited (stringifyFields fields ++ t) := by
  intro u hu
  cases fields with
  | nil =>
    cases hu
    decide
  | cons field rest =>
    cases hu
    decide

mutual

/-- A printed value is read back, whatever delimits it. -/
theorem parseValue_stringify (v : Json) (hv : Integral v) {fuel : Nat} {t : Text}
    (hfuel : (stringify v).length ≤ fuel) (ht : Delimited t) :
    parseValue fuel (stringify v ++ t) = some (v, t) := by
  obtain ⟨u, rest, hcons, -⟩ := stringify_head hv
  obtain ⟨fuel, rfl⟩ : ∃ n, fuel = n + 1 := ⟨fuel - 1, by rw [hcons] at hfuel; simp at hfuel; omega⟩
  match v with
  | .null => rfl
  | .bool true => rfl
  | .bool false => rfl
  | .number value => exact parseValue_number value fuel ht
  | .fraction literal => exact hv.elim
  | .string value =>
    show (parseString (escapeUnits value ++ [0x22] ++ t)).map _ = _
    rw [List.append_assoc, List.singleton_append, parseString_escapeUnits]
    rfl
  | .array [] => rfl
  | .array (first :: others) =>
    have hfirst : Integral first := hv.1
    have hlength : (stringify first).length + (stringifyItems others).length ≤ fuel := by
      simpa [stringify, Nat.add_comm, Nat.add_left_comm] using hfuel
    obtain ⟨w, tail, hw, hspace, hbracket⟩ := stringify_head hfirst
    have hopen : ¬ (skipSpace (stringify first ++ (stringifyItems others ++ t))).head? =
        some 0x5d := by
      rw [hw, List.cons_append, skipSpace_cons hspace]
      simpa using hbracket
    have htext : stringify (.array (first :: others)) ++ t =
        0x5b :: (stringify first ++ (stringifyItems others ++ t)) := by
      simp [stringify]
    have hitem : parseValue fuel (stringify first ++ (stringifyItems others ++ t)) =
        some (first, stringifyItems others ++ t) :=
      parseValue_stringify first hfirst (by omega) (delimited_items others t)
    have hothers : parseItems fuel (stringifyItems others ++ t) = some (others, t) :=
      parseItems_stringify others hv.2 (by omega)
    rw [htext]
    show (if (skipSpace (stringify first ++ (stringifyItems others ++ t))).head? = some 0x5d
      then _ else _) = _
    rw [if_neg hopen, hitem]
    show (parseItems fuel (stringifyItems others ++ t) >>= _) = _
    rw [hothers]
    rfl
  | .object [] => rfl
  | .object (first :: others) =>
    have hlength : (stringifyField first).length + (stringifyFields others).length ≤ fuel := by
      simpa [stringify, Nat.add_comm, Nat.add_left_comm] using hfuel
    obtain ⟨w, hw⟩ := stringifyField_head first
    have hopen : ¬ (skipSpace (stringifyField first ++ (stringifyFields others ++ t))).head? =
        some 0x7d := by
      rw [hw, List.cons_append, skipSpace_cons (by decide)]
      simp
    have htext : stringify (.object (first :: others)) ++ t =
        0x7b :: (stringifyField first ++ (stringifyFields others ++ t)) := by
      simp [stringify]
    have hfield : parseField fuel (stringifyField first ++ (stringifyFields others ++ t)) =
        some (first, stringifyFields others ++ t) :=
      parseField_stringify first hv.1 (by omega) (delimited_fields others t)
    have hothers : parseFields fuel (stringifyFields others ++ t) = some (others, t) :=
      parseFields_stringify others hv.2 (by omega)
    rw [htext]
    show (if (skipSpace (stringifyField first ++ (stringifyFields others ++ t))).head? = some 0x7d
      then _ else _) = _
    rw [if_neg hopen, hfield]
    show (parseFields fuel (stringifyFields others ++ t) >>= _) = _
    rw [hothers]
    rfl

theorem parseItems_stringify (items : List Json) (hitems : IntegralItems items) {fuel : Nat}
    {t : Text} (hfuel : (stringifyItems items).length ≤ fuel) :
    parseItems fuel (stringifyItems items ++ t) = some (items, t) := by
  obtain ⟨fuel, rfl⟩ : ∃ n, fuel = n + 1 :=
    ⟨fuel - 1, by cases items <;> simp [stringifyItems] at hfuel <;> omega⟩
  match items with
  | [] => rfl
  | item :: others =>
    have hlength : (stringify item).length + (stringifyItems others).length ≤ fuel := by
      simpa [stringifyItems, Nat.add_comm, Nat.add_left_comm] using hfuel
    have hitem : parseValue fuel (stringify item ++ (stringifyItems others ++ t)) =
        some (item, stringifyItems others ++ t) :=
      parseValue_stringify item hitems.1 (by omega) (delimited_items others t)
    have hothers : parseItems fuel (stringifyItems others ++ t) = some (others, t) :=
      parseItems_stringify others hitems.2 (by omega)
    have htext : stringifyItems (item :: others) ++ t =
        0x2c :: (stringify item ++ (stringifyItems others ++ t)) := by
      simp [stringifyItems]
    rw [htext]
    show (parseValue fuel (stringify item ++ (stringifyItems others ++ t)) >>= _) = _
    rw [hitem]
    show (parseItems fuel (stringifyItems others ++ t) >>= _) = _
    rw [hothers]
    rfl

theorem parseFields_stringify (fields : List (Text × Json)) (hfields : IntegralFields fields)
    {fuel : Nat} {t : Text} (hfuel : (stringifyFields fields).length ≤ fuel) :
    parseFields fuel (stringifyFields fields ++ t) = some (fields, t) := by
  obtain ⟨fuel, rfl⟩ : ∃ n, fuel = n + 1 :=
    ⟨fuel - 1, by cases fields <;> simp [stringifyFields] at hfuel <;> omega⟩
  match fields with
  | [] => rfl
  | field :: others =>
    have hlength : (stringifyField field).length + (stringifyFields others).length ≤ fuel := by
      simpa [stringifyFields, Nat.add_comm, Nat.add_left_comm] using hfuel
    have hfield : parseField fuel (stringifyField field ++ (stringifyFields others ++ t)) =
        some (field, stringifyFields others ++ t) :=
      parseField_stringify field hfields.1 (by omega) (delimited_fields others t)
    have hothers : parseFields fuel (stringifyFields others ++ t) = some (others, t) :=
      parseFields_stringify others hfields.2 (by omega)
    have htext : stringifyFields (field :: others) ++ t =
        0x2c :: (stringifyField field ++ (stringifyFields others ++ t)) := by
      simp [stringifyFields]
    rw [htext]
    show (parseField fuel (stringifyField field ++ (stringifyFields others ++ t)) >>= _) = _
    rw [hfield]
    show (parseFields fuel (stringifyFields others ++ t) >>= _) = _
    rw [hothers]
    rfl

theorem parseField_stringify (field : Text × Json) (hfield : IntegralField field) {fuel : Nat}
    {t : Text} (hfuel : (stringifyField field).length ≤ fuel) (ht : Delimited t) :
    parseField fuel (stringifyField field ++ t) = some (field, t) := by
  match field with
  | (name, value) =>
    have hlength : (stringify value).length + 3 ≤ fuel := by
      simp [stringifyField, quote] at hfuel
      omega
    obtain ⟨fuel, rfl⟩ : ∃ n, fuel = n + 1 := ⟨fuel - 1, by omega⟩
    have hvalue : parseValue fuel (stringify value ++ t) = some (value, t) :=
      parseValue_stringify value hfield (by omega) ht
    have hname := parseString_escapeUnits name (0x3a :: (stringify value ++ t))
    have htext : stringifyField (name, value) ++ t =
        0x22 :: (escapeUnits name ++ 0x22 :: 0x3a :: (stringify value ++ t)) := by
      simp [stringifyField, quote]
    rw [htext]
    show (parseString (escapeUnits name ++ 0x22 :: 0x3a :: (stringify value ++ t)) >>= _) = _
    rw [hname]
    show (parseValue fuel (stringify value ++ t) >>= _) = _
    rw [hvalue]
    rfl

end

/-- A printed value is read back. -/
theorem parse_stringify {v : Json} (hv : Integral v) : parse (stringify v) = some v := by
  have hend : Delimited [] := by
    intro u hu
    cases hu
  have hread : parseValue ((stringify v).length + 1) (stringify v ++ []) = some (v, []) :=
    parseValue_stringify v hv (Nat.le_succ _) hend
  rw [List.append_nil] at hread
  unfold parse
  rw [hread]
  rfl

/-! ## Well-formedness -/

theorem isWellFormed_digits {t : Text} (h : ∀ u ∈ t, isDigit u = true) : isWellFormed t = true := by
  refine isWellFormed_of_plain fun u hu => ?_
  have hdigit := h u hu
  simp only [isDigit, Bool.and_eq_true, decide_eq_true_eq] at hdigit
  simp only [isHighSurrogate, isLowSurrogate, Bool.and_eq_false_iff, decide_eq_false_iff_not]
  omega

theorem isWellFormed_decimal (n : Nat) : isWellFormed (decimal n) = true :=
  isWellFormed_digits fun _ hu => decimal_digits hu

theorem isWellFormed_ofInt (value : Int) : isWellFormed (ofInt value) = true := by
  unfold ofInt
  split
  · exact isWellFormed_append (s := [0x2d]) rfl (isWellFormed_decimal _)
  · exact isWellFormed_decimal _

theorem hexDigit_plain : ∀ n < 16,
    isHighSurrogate (hexDigit n) = false ∧ isLowSurrogate (hexDigit n) = false := by
  decide

theorem isWellFormed_escapeUnit (u : UInt16) : isWellFormed (escapeUnit u) = true := by
  unfold escapeUnit
  split
  · next letter hletter =>
    have hplain : isHighSurrogate letter = false ∧ isLowSurrogate letter = false := by
      unfold shortEscape at hletter
      repeat' split at hletter
      all_goals first | cases hletter; decide | cases hletter
    exact isWellFormed_append (s := [0x5c]) rfl (isWellFormed_singleton hplain.1 hplain.2)
  · split
    · refine isWellFormed_of_plain fun v hv => ?_
      have hbound := u.toNat_lt
      simp only [unitEscape, List.mem_cons, List.not_mem_nil, or_false] at hv
      rcases hv with rfl | rfl | rfl | rfl | rfl | rfl
      · decide
      · decide
      · exact hexDigit_plain _ (by omega)
      · exact hexDigit_plain _ (by omega)
      · exact hexDigit_plain _ (by omega)
      · exact hexDigit_plain _ (by omega)
    · next hkept =>
      simp only [Bool.or_eq_true, not_or, Bool.not_eq_true] at hkept
      exact isWellFormed_singleton hkept.1.2 hkept.2

theorem isWellFormed_escapeUnits (t : Text) : isWellFormed (escapeUnits t) = true := by
  induction t using escapeUnits.induct with
  | case1 => rfl
  | case2 u => exact isWellFormed_escapeUnit u
  | case3 u v rest hpair ih =>
    rw [escapeUnits, if_pos hpair]
    rw [Bool.and_eq_true] at hpair
    exact isWellFormed_append (isWellFormed_pair hpair.1 hpair.2) ih
  | case4 u v rest hpair ih =>
    rw [escapeUnits, if_neg hpair]
    exact isWellFormed_append (isWellFormed_escapeUnit u) ih

theorem isWellFormed_quote (t : Text) : isWellFormed (quote t) = true :=
  isWellFormed_append (s := [0x22]) rfl (isWellFormed_append (isWellFormed_escapeUnits t) rfl)

mutual

/-- Printing leaves no unpaired surrogate. -/
theorem isWellFormed_stringify (v : Json) (hv : Integral v) : isWellFormed (stringify v) = true := by
  match v with
  | .null => decide
  | .bool true => decide
  | .bool false => decide
  | .number value => exact isWellFormed_ofInt value
  | .fraction literal => exact hv.elim
  | .string value => exact isWellFormed_quote value
  | .array [] => decide
  | .array (first :: rest) =>
    exact isWellFormed_append (s := [0x5b]) rfl
      (isWellFormed_append (isWellFormed_stringify first hv.1)
        (isWellFormed_stringifyItems rest hv.2))
  | .object [] => decide
  | .object (first :: rest) =>
    exact isWellFormed_append (s := [0x7b]) rfl
      (isWellFormed_append (isWellFormed_stringifyField first hv.1)
        (isWellFormed_stringifyFields rest hv.2))

theorem isWellFormed_stringifyItems (items : List Json) (hitems : IntegralItems items) :
    isWellFormed (stringifyItems items) = true := by
  match items with
  | [] => decide
  | item :: rest =>
    exact isWellFormed_append (s := [0x2c]) rfl
      (isWellFormed_append (isWellFormed_stringify item hitems.1)
        (isWellFormed_stringifyItems rest hitems.2))

theorem isWellFormed_stringifyFields (fields : List (Text × Json)) (hfields : IntegralFields fields) :
    isWellFormed (stringifyFields fields) = true := by
  match fields with
  | [] => decide
  | field :: rest =>
    exact isWellFormed_append (s := [0x2c]) rfl
      (isWellFormed_append (isWellFormed_stringifyField field hfields.1)
        (isWellFormed_stringifyFields rest hfields.2))

theorem isWellFormed_stringifyField (field : Text × Json) (hfield : IntegralField field) :
    isWellFormed (stringifyField field) = true := by
  match field with
  | (name, value) =>
    exact isWellFormed_append (isWellFormed_quote name)
      (isWellFormed_append (s := [0x3a]) rfl (isWellFormed_stringify value hfield))

end

/-! ## Lookups -/

variable {fields : List (Text × Json)}

/-- Where the names differ, a field is found under its name. -/
theorem get_object (hnames : (fields.map Prod.fst).Nodup) {name : Text} {value : Json}
    (h : (name, value) ∈ fields) : (object fields).get name = some value := by
  have hmem : (name, value) ∈ fields.reverse := List.mem_reverse.mpr h
  obtain ⟨found, hfound⟩ : ∃ found, fields.reverse.find? (·.1 = name) = some found :=
    Option.isSome_iff_exists.mp (List.find?_isSome.mpr ⟨_, hmem, by simp⟩)
  have hname : found.1 = name := by simpa using List.find?_some hfound
  have hfoundMem : found ∈ fields := List.mem_reverse.mp (List.mem_of_find?_eq_some hfound)
  have hsame : found = (name, value) :=
    List.inj_on_of_nodup_map hnames hfoundMem h hname
  simp [get, hfound, hsame]

theorem get_object_eq_none {name : Text} (h : name ∉ fields.map Prod.fst) :
    (object fields).get name = none := by
  have hnone : fields.reverse.find? (·.1 = name) = none := by
    refine List.find?_eq_none.mpr fun field hfield => ?_
    have hne : field.1 ≠ name := fun heq =>
      h (heq ▸ List.mem_map_of_mem (List.mem_reverse.mp hfield))
    simpa using hne
  simp [get, hnone]

end Json
