import ContextStore.Foundation.Json

/-! # Values that are printed alike

The text of a value says where the value ends, whatever comes behind it, and no other value has it
(`stringify_injective`). A number may have a fraction here: it is printed as it is written, which
is never how an integer is written. -/

open Unicode

namespace Json

/-! ## Numerals -/

/-- A digit, a sign, a decimal point or the letter before an exponent. -/
def isNumeralUnit (u : UInt16) : Bool :=
  isDigit u || u = 0x2d || u = 0x2b || u = 0x2e || u = 0x65

/-- How a number that is no integer is written. -/
structure IsNumeral (literal : Text) : Prop where
  plain : ∀ u ∈ literal, isNumeralUnit u = true
  fractional : ∃ u ∈ literal, u = 0x2e ∨ u = 0x65

mutual

/-- Every number of the value is an integer or written as a fraction. -/
def Numerals : Json → Prop
  | .fraction literal => IsNumeral literal
  | .array items => NumeralsItems items
  | .object fields => NumeralsFields fields
  | _ => True

def NumeralsItems : List Json → Prop
  | [] => True
  | item :: rest => Numerals item ∧ NumeralsItems rest

def NumeralsFields : List (Text × Json) → Prop
  | [] => True
  | field :: rest => NumeralsField field ∧ NumeralsFields rest

def NumeralsField : Text × Json → Prop
  | (_, value) => Numerals value

end

theorem numeralsItems_iff {items : List Json} :
    NumeralsItems items ↔ ∀ item ∈ items, Numerals item := by
  induction items with
  | nil => simp [NumeralsItems]
  | cons item rest ih => simp [NumeralsItems, ih]

theorem numeralsFields_iff {fields : List (Text × Json)} :
    NumeralsFields fields ↔ ∀ field ∈ fields, Numerals field.2 := by
  induction fields with
  | nil => simp [NumeralsFields]
  | cons field rest ih =>
    obtain ⟨name, value⟩ := field
    simp [NumeralsFields, NumeralsField, ih]

@[elab_as_elim]
theorem induction {P : Json → Prop} (null : P .null) (bool : ∀ value, P (.bool value))
    (number : ∀ value, P (.number value)) (fraction : ∀ literal, P (.fraction literal))
    (string : ∀ value, P (.string value))
    (array : ∀ items, (∀ item ∈ items, P item) → P (.array items))
    (object : ∀ fields, (∀ field ∈ fields, P field.2) → P (.object fields)) (value : Json) :
    P value :=
  @Json.rec P (fun items => ∀ item ∈ items, P item) (fun fields => ∀ field ∈ fields, P field.2)
    (fun field => P field.2) null bool number fraction string array object (fun _ h => by cases h)
    (fun _ _ h hrest => List.forall_mem_cons.mpr ⟨h, hrest⟩) (fun _ h => by cases h)
    (fun _ _ h hrest => List.forall_mem_cons.mpr ⟨h, hrest⟩) (fun _ _ h => h) value

theorem isNumeralUnit_of_isDigit {u : UInt16} (h : isDigit u = true) : isNumeralUnit u = true := by
  simp [isNumeralUnit, h]

/-- An integer is written with digits and perhaps a sign. -/
theorem mem_ofInt {value : Int} {u : UInt16} (h : u ∈ ofInt value) :
    u = 0x2d ∨ isDigit u = true := by
  rw [ofInt] at h
  split at h
  · exact (List.mem_cons.mp h).imp_right decimal_digits
  · exact .inr (decimal_digits h)

theorem isNumeralUnit_of_mem_ofInt {value : Int} {u : UInt16} (h : u ∈ ofInt value) :
    isNumeralUnit u = true := by
  rcases mem_ofInt h with rfl | hdigit
  · rfl
  · exact isNumeralUnit_of_isDigit hdigit

theorem ofInt_injective {a b : Int} (h : ofInt a = ofInt b) : a = b := by
  have hend : Delimited [] := by
    intro u hu
    cases hu
  have hread := parseNumber_ofInt a hend
  rw [h, parseNumber_ofInt b hend] at hread
  injection hread with hpair
  injection hpair with hvalue
  injection hvalue with heq
  exact heq.symm

theorem IsNumeral.ne_ofInt {literal : Text} (h : IsNumeral literal) (value : Int) :
    literal ≠ ofInt value := by
  rintro rfl
  obtain ⟨u, hu, hpoint⟩ := h.fractional
  rcases mem_ofInt hu with rfl | hdigit
  · rcases hpoint with heq | heq <;> exact absurd heq (by decide)
  · rcases hpoint with rfl | rfl <;> exact absurd hdigit (by decide)

/-! ## Where a value begins and ends -/

/-- What may stand behind a value. -/
def Ends (t : Text) : Prop := ∀ u ∈ t.head?, isNumeralUnit u = false

theorem Ends.nil : Ends [] := by
  intro u hu
  cases hu

theorem Ends.cons {u : UInt16} (h : isNumeralUnit u = false) (t : Text) : Ends (u :: t) := by
  intro v hv
  cases hv
  exact h

theorem ends_items (items : List Json) (t : Text) : Ends (stringifyItems items ++ t) := by
  cases items with
  | nil => exact Ends.cons (by decide) _
  | cons item rest => exact Ends.cons (by decide) _

theorem ends_fields (fields : List (Text × Json)) (t : Text) :
    Ends (stringifyFields fields ++ t) := by
  cases fields with
  | nil => exact Ends.cons (by decide) _
  | cons field rest => exact Ends.cons (by decide) _

/-- A number ends where something stands that belongs to no number. -/
theorem numeral_append_inj {literal literal' s t : Text}
    (hplain : ∀ u ∈ literal, isNumeralUnit u = true)
    (hplain' : ∀ u ∈ literal', isNumeralUnit u = true) (hs : Ends s) (ht : Ends t)
    (h : literal ++ s = literal' ++ t) : literal = literal' ∧ s = t := by
  have htake : ∀ {literal s : Text}, (∀ u ∈ literal, isNumeralUnit u = true) → Ends s →
      (literal ++ s).takeWhile isNumeralUnit = literal := by
    intro literal s hplain hs
    rw [List.takeWhile_append_of_pos hplain]
    cases s with
    | nil => simp
    | cons u s => simp [hs u rfl]
  have heq : literal = literal' := by
    rw [← htake hplain hs, h, htake hplain' ht]
  subst heq
  exact ⟨rfl, List.append_cancel_left h⟩

theorem quote_append_inj {a b s t : Text} (h : quote a ++ s = quote b ++ t) : a = b ∧ s = t := by
  have htail : escapeUnits a ++ 0x22 :: s = escapeUnits b ++ 0x22 :: t := by
    simpa [quote] using h
  have hread := parseString_escapeUnits a s
  rw [htail, parseString_escapeUnits] at hread
  injection hread with hpair
  injection hpair with hvalue hrest
  exact ⟨hvalue.symm, hrest.symm⟩

/-- What sort of value begins with a unit. -/
def sortOfUnit (u : UInt16) : Nat :=
  if u = 0x6e then 0 else if u = 0x74 then 1 else if u = 0x66 then 2 else if u = 0x22 then 3
  else if u = 0x5b then 4 else if u = 0x7b then 5 else 6

def sortOf : Json → Nat
  | .null => 0
  | .bool true => 1
  | .bool false => 2
  | .string _ => 3
  | .array _ => 4
  | .object _ => 5
  | .number _ | .fraction _ => 6

theorem sortOfUnit_numeral {u : UInt16} (h : isNumeralUnit u = true) : sortOfUnit u = 6 := by
  have hne : ∀ v : UInt16, isNumeralUnit v = false → u ≠ v := by
    intro v hv heq
    rw [heq, hv] at h
    cases h
  simp [sortOfUnit, hne 0x6e (by decide), hne 0x74 (by decide), hne 0x66 (by decide),
    hne 0x22 (by decide), hne 0x5b (by decide), hne 0x7b (by decide)]

/-- The first unit of a value says what sort it is of, and is no closing bracket. -/
theorem exists_head {v : Json} (hv : Numerals v) :
    ∃ u rest, stringify v = u :: rest ∧ sortOfUnit u = sortOf v ∧ u ≠ 0x5d := by
  have hnumeral : ∀ {literal : Text}, (∀ u ∈ literal, isNumeralUnit u = true) → literal ≠ [] →
      ∃ u rest, literal = u :: rest ∧ sortOfUnit u = 6 ∧ u ≠ 0x5d := by
    intro literal hplain hne
    obtain ⟨u, rest, rfl⟩ := List.exists_cons_of_ne_nil hne
    have hu := hplain u List.mem_cons_self
    refine ⟨u, rest, rfl, sortOfUnit_numeral hu, ?_⟩
    rintro rfl
    exact absurd hu (by decide)
  cases v with
  | null => exact ⟨_, _, rfl, rfl, by decide⟩
  | bool value => cases value <;> exact ⟨_, _, rfl, rfl, by decide⟩
  | number value =>
    refine hnumeral (fun u hu => isNumeralUnit_of_mem_ofInt hu) ?_
    obtain ⟨u, rest, hcons, -⟩ := ofInt_head value
    rw [stringify, hcons]
    exact List.cons_ne_nil _ _
  | fraction literal =>
    obtain ⟨u, hu, -⟩ := hv.fractional
    exact hnumeral hv.plain (List.ne_nil_of_mem hu)
  | string value => exact ⟨_, _, rfl, rfl, by decide⟩
  | array items => cases items <;> exact ⟨_, _, rfl, rfl, by decide⟩
  | object fields => cases fields <;> exact ⟨_, _, rfl, rfl, by decide⟩

theorem sortOf_eq {a b : Json} (ha : Numerals a) (hb : Numerals b) {s t : Text}
    (h : stringify a ++ s = stringify b ++ t) : sortOf a = sortOf b := by
  obtain ⟨u, rest, hu, hsort, -⟩ := exists_head ha
  obtain ⟨v, rest', hv, hsort', -⟩ := exists_head hb
  rw [hu, hv, List.cons_append, List.cons_append] at h
  rw [← hsort, ← hsort', (List.cons.inj h).1]

/-! ## One value for a text -/

mutual

/-- Two values with something behind them that look alike are the same. -/
theorem stringify_append_inj (a b : Json) (ha : Numerals a) (hb : Numerals b) {s t : Text}
    (hs : Ends s) (ht : Ends t) (h : stringify a ++ s = stringify b ++ t) : a = b ∧ s = t := by
  have hsort := sortOf_eq ha hb h
  match a, b with
  | .null, .null => exact ⟨rfl, by simpa [stringify] using h⟩
  | .bool true, .bool true => exact ⟨rfl, by simpa [stringify] using h⟩
  | .bool false, .bool false => exact ⟨rfl, by simpa [stringify] using h⟩
  | .number a, .number b =>
    obtain ⟨hvalue, hrest⟩ := numeral_append_inj (fun u hu => isNumeralUnit_of_mem_ofInt hu)
      (fun u hu => isNumeralUnit_of_mem_ofInt hu) hs ht h
    exact ⟨congrArg Json.number (ofInt_injective hvalue), hrest⟩
  | .number a, .fraction literal =>
    have hvalue := (numeral_append_inj (fun u hu => isNumeralUnit_of_mem_ofInt hu)
      (IsNumeral.plain hb) hs ht h).1
    exact absurd hvalue.symm (IsNumeral.ne_ofInt hb a)
  | .fraction literal, .number b =>
    have hvalue := (numeral_append_inj (IsNumeral.plain ha)
      (fun u hu => isNumeralUnit_of_mem_ofInt hu) hs ht h).1
    exact absurd hvalue (IsNumeral.ne_ofInt ha b)
  | .fraction literal, .fraction literal' =>
    obtain ⟨hvalue, hrest⟩ := numeral_append_inj (IsNumeral.plain ha) (IsNumeral.plain hb) hs ht h
    exact ⟨congrArg Json.fraction hvalue, hrest⟩
  | .string a, .string b =>
    obtain ⟨hvalue, hrest⟩ := quote_append_inj h
    exact ⟨congrArg Json.string hvalue, hrest⟩
  | .array [], .array [] => exact ⟨rfl, by simpa [stringify] using h⟩
  | .array [], .array (first :: others) =>
    obtain ⟨u, rest, hu, -, hbracket⟩ := exists_head (numeralsItems_iff.mp hb first
      List.mem_cons_self)
    simp only [stringify, hu, List.cons_append, List.cons.injEq] at h
    exact absurd h.2.1.symm hbracket
  | .array (first :: others), .array [] =>
    obtain ⟨u, rest, hu, -, hbracket⟩ := exists_head (numeralsItems_iff.mp ha first
      List.mem_cons_self)
    simp only [stringify, hu, List.cons_append, List.cons.injEq] at h
    exact absurd h.2.1 hbracket
  | .array (first :: others), .array (first' :: others') =>
    simp only [stringify, List.cons_append, List.cons.injEq, true_and, List.append_assoc] at h
    obtain ⟨rfl, hrest⟩ := stringify_append_inj first first' ha.1 hb.1 (ends_items _ _)
      (ends_items _ _) h
    obtain ⟨rfl, htail⟩ := stringifyItems_append_inj others others' ha.2 hb.2 hrest
    exact ⟨rfl, htail⟩
  | .object [], .object [] => exact ⟨rfl, by simpa [stringify] using h⟩
  | .object [], .object (first :: others) =>
    obtain ⟨rest, hfirst⟩ := stringifyField_head first
    simp [stringify, hfirst] at h
  | .object (first :: others), .object [] =>
    obtain ⟨rest, hfirst⟩ := stringifyField_head first
    simp [stringify, hfirst] at h
  | .object (first :: others), .object (first' :: others') =>
    simp only [stringify, List.cons_append, List.cons.injEq, true_and, List.append_assoc] at h
    obtain ⟨rfl, hrest⟩ := stringifyField_append_inj first first' ha.1 hb.1 (ends_fields _ _)
      (ends_fields _ _) h
    obtain ⟨rfl, htail⟩ := stringifyFields_append_inj others others' ha.2 hb.2 hrest
    exact ⟨rfl, htail⟩

theorem stringifyItems_append_inj (a b : List Json) (ha : NumeralsItems a) (hb : NumeralsItems b)
    {s t : Text} (h : stringifyItems a ++ s = stringifyItems b ++ t) : a = b ∧ s = t := by
  match a, b with
  | [], [] => exact ⟨rfl, by simpa [stringifyItems] using h⟩
  | [], _ :: _ => simp [stringifyItems] at h
  | _ :: _, [] => simp [stringifyItems] at h
  | item :: rest, item' :: rest' =>
    simp only [stringifyItems, List.cons_append, List.cons.injEq, true_and, List.append_assoc] at h
    obtain ⟨rfl, hrest⟩ := stringify_append_inj item item' ha.1 hb.1 (ends_items _ _)
      (ends_items _ _) h
    obtain ⟨rfl, htail⟩ := stringifyItems_append_inj rest rest' ha.2 hb.2 hrest
    exact ⟨rfl, htail⟩

theorem stringifyFields_append_inj (a b : List (Text × Json)) (ha : NumeralsFields a)
    (hb : NumeralsFields b) {s t : Text}
    (h : stringifyFields a ++ s = stringifyFields b ++ t) : a = b ∧ s = t := by
  match a, b with
  | [], [] => exact ⟨rfl, by simpa [stringifyFields] using h⟩
  | [], _ :: _ => simp [stringifyFields] at h
  | _ :: _, [] => simp [stringifyFields] at h
  | field :: rest, field' :: rest' =>
    simp only [stringifyFields, List.cons_append, List.cons.injEq, true_and, List.append_assoc] at h
    obtain ⟨rfl, hrest⟩ := stringifyField_append_inj field field' ha.1 hb.1 (ends_fields _ _)
      (ends_fields _ _) h
    obtain ⟨rfl, htail⟩ := stringifyFields_append_inj rest rest' ha.2 hb.2 hrest
    exact ⟨rfl, htail⟩

theorem stringifyField_append_inj (a b : Text × Json) (ha : NumeralsField a)
    (hb : NumeralsField b) {s t : Text} (hs : Ends s) (ht : Ends t)
    (h : stringifyField a ++ s = stringifyField b ++ t) : a = b ∧ s = t := by
  match a, b with
  | (name, value), (name', value') =>
    simp only [stringifyField, List.append_assoc, List.cons_append] at h
    obtain ⟨rfl, hvalue⟩ := quote_append_inj h
    obtain ⟨rfl, hrest⟩ := stringify_append_inj value value' ha hb hs ht (List.cons.inj hvalue).2
    exact ⟨rfl, hrest⟩

end

theorem stringify_injective {a b : Json} (ha : Numerals a) (hb : Numerals b)
    (h : stringify a = stringify b) : a = b :=
  (stringify_append_inj a b ha hb Ends.nil Ends.nil (by rw [h])).1

/-! ## Units that are printed -/

/-- No unit is a control character. -/
def Visible (t : Text) : Prop := ∀ u ∈ t, 0x20 ≤ u.toNat

theorem Visible.append {s t : Text} (hs : Visible s) (ht : Visible t) : Visible (s ++ t) := by
  intro u hu
  exact (List.mem_append.mp hu).elim (hs u) (ht u)

theorem Visible.cons {u : UInt16} {t : Text} (hu : 0x20 ≤ u.toNat) (ht : Visible t) :
    Visible (u :: t) := by
  intro v hv
  rcases List.mem_cons.mp hv with rfl | hv
  · exact hu
  · exact ht v hv

theorem Visible.nil : Visible [] := by
  intro u hu
  cases hu

theorem visible_of_all {t : Text} (h : t.all (fun u => 0x20 ≤ u.toNat) = true) : Visible t := by
  simpa [Visible] using h

theorem visible_hexDigit : ∀ n < 16, 0x20 ≤ (hexDigit n).toNat := by decide

theorem visible_unitEscape (u : UInt16) : Visible (unitEscape u) := by
  have hu := u.toNat_lt
  refine .cons (by decide) (.cons (by decide) (.cons ?_ (.cons ?_ (.cons ?_ (.cons ?_ .nil)))))
  all_goals exact visible_hexDigit _ (by omega)

theorem visible_escapeUnit (u : UInt16) : Visible (escapeUnit u) := by
  rw [escapeUnit]
  split
  · next letter hletter =>
    refine .cons (by decide) (.cons ?_ .nil)
    rw [shortEscape] at hletter
    repeat' split at hletter
    all_goals first
      | cases hletter; decide
      | cases hletter
  · split
    · exact visible_unitEscape u
    · next hplain =>
      simp only [Bool.or_eq_true, decide_eq_true_eq, not_or] at hplain
      exact .cons (by omega) .nil

theorem visible_escapeUnits (t : Text) : Visible (escapeUnits t) := by
  induction t using escapeUnits.induct with
  | case1 => exact .nil
  | case2 u => exact visible_escapeUnit u
  | case3 u v rest hpair ih =>
    rw [escapeUnits, if_pos hpair]
    simp only [isHighSurrogate, isLowSurrogate, Bool.and_eq_true, decide_eq_true_eq] at hpair
    exact .cons (by omega) (.cons (by omega) ih)
  | case4 u v rest hpair ih =>
    rw [escapeUnits, if_neg hpair]
    exact (visible_escapeUnit u).append ih

theorem visible_quote (t : Text) : Visible (quote t) :=
  .cons (by decide) ((visible_escapeUnits t).append (.cons (by decide) .nil))

theorem visible_numeral {literal : Text} (h : ∀ u ∈ literal, isNumeralUnit u = true) :
    Visible literal := by
  intro u hu
  have hunit := h u hu
  simp only [isNumeralUnit, isDigit, Bool.or_eq_true, Bool.and_eq_true, decide_eq_true_eq] at hunit
  rcases hunit with (((hdigit | rfl) | rfl) | rfl) | rfl
  · omega
  all_goals decide

mutual

theorem visible_stringify (v : Json) (h : Numerals v) : Visible (stringify v) := by
  match v with
  | .null => exact visible_of_all rfl
  | .bool true => exact visible_of_all rfl
  | .bool false => exact visible_of_all rfl
  | .number value => exact visible_numeral fun u hu => isNumeralUnit_of_mem_ofInt hu
  | .fraction literal => exact visible_numeral (IsNumeral.plain h)
  | .string value => exact visible_quote value
  | .array [] => exact .cons (by decide) (.cons (by decide) .nil)
  | .array (first :: rest) =>
    exact .cons (by decide) ((visible_stringify first h.1).append (visible_items rest h.2))
  | .object [] => exact .cons (by decide) (.cons (by decide) .nil)
  | .object (first :: rest) =>
    exact .cons (by decide) ((visible_field first h.1).append (visible_fields rest h.2))

theorem visible_items (items : List Json) (h : NumeralsItems items) :
    Visible (stringifyItems items) := by
  match items with
  | [] => exact .cons (by decide) .nil
  | item :: rest =>
    exact .cons (by decide) ((visible_stringify item h.1).append (visible_items rest h.2))

theorem visible_fields (fields : List (Text × Json)) (h : NumeralsFields fields) :
    Visible (stringifyFields fields) := by
  match fields with
  | [] => exact .cons (by decide) .nil
  | field :: rest =>
    exact .cons (by decide) ((visible_field field h.1).append (visible_fields rest h.2))

theorem visible_field (field : Text × Json) (h : NumeralsField field) :
    Visible (stringifyField field) := by
  match field with
  | (name, value) =>
    exact (visible_quote name).append (.cons (by decide) (visible_stringify value h))

end

/-- A printed value has at least one unit. -/
theorem stringify_ne_nil {v : Json} (hv : Numerals v) : stringify v ≠ [] := by
  obtain ⟨u, rest, hcons, -⟩ := exists_head hv
  rw [hcons]
  exact List.cons_ne_nil _ _

theorem numerals_get {v w : Json} {name : Text} (hv : Numerals v) (h : v.get name = some w) :
    Numerals w := by
  cases v with
  | object fields =>
    obtain ⟨field, hfield, rfl⟩ := Option.map_eq_some_iff.mp h
    exact numeralsFields_iff.mp hv field
      (List.mem_reverse.mp (List.mem_of_find?_eq_some hfield))
  | _ => cases h

end Json
