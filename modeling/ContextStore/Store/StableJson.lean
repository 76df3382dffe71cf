import ContextStore.Foundation.JsonText

/-! # Stable JSON

Before a value is printed, every object of it is built anew with its fields in the order of their
names. The text does not depend on the order of the fields then, and what is read back from it is
the same value up to that order (`same_canonicalize`): two values have one text exactly when they
are the same up to the order of fields (`stableJson_eq_iff`). -/

namespace ContextStore.Schema

open Unicode (Text)

/-- Strings are compared by their code units. -/
def namesLe (a b : Text × Json) : Prop := a.1.map UInt16.toNat ≤ b.1.map UInt16.toNat

instance namesLe.decidable : DecidableRel namesLe :=
  fun a b => inferInstanceAs (Decidable (a.1.map UInt16.toNat ≤ b.1.map UInt16.toNat))

/-- `Object.keys(value).sort()`, with the values. -/
def sortFields (fields : List (Text × Json)) : List (Text × Json) := fields.insertionSort namesLe

mutual

/-- `canonicalize`, for fields whose names are neither `__proto__` nor numbers. -/
def canonicalize : Json → Json
  | .array items => .array (canonicalizeItems items)
  | .object fields => .object (sortFields (canonicalizeFields fields))
  | .null => .null
  | .bool value => .bool value
  | .number value => .number value
  | .fraction literal => .fraction literal
  | .string value => .string value

def canonicalizeItems : List Json → List Json
  | [] => []
  | item :: rest => canonicalize item :: canonicalizeItems rest

def canonicalizeFields : List (Text × Json) → List (Text × Json)
  | [] => []
  | field :: rest => canonicalizeField field :: canonicalizeFields rest

def canonicalizeField : Text × Json → Text × Json
  | (name, value) => (name, canonicalize value)

end

def stableJson (value : Json) : Text := (canonicalize value).stringify

theorem canonicalizeItems_eq (items : List Json) :
    canonicalizeItems items = items.map canonicalize := by
  induction items with
  | nil => rfl
  | cons item rest ih => rw [canonicalizeItems, ih, List.map_cons]

theorem canonicalizeField_eq (field : Text × Json) :
    canonicalizeField field = (field.1, canonicalize field.2) := by
  obtain ⟨name, value⟩ := field
  rfl

theorem canonicalizeFields_eq (fields : List (Text × Json)) :
    canonicalizeFields fields = fields.map fun field => (field.1, canonicalize field.2) := by
  induction fields with
  | nil => rfl
  | cons field rest ih => rw [canonicalizeFields, ih, List.map_cons, canonicalizeField]

theorem sortFields_perm (fields : List (Text × Json)) : (sortFields fields).Perm fields :=
  List.perm_insertionSort namesLe fields

/-! ## Equal values -/

mutual

/-- The same value, up to the order of the fields of its objects. -/
inductive Same : Json → Json → Prop
  | refl (value : Json) : Same value value
  | array {items items' : List Json} : SameItems items items' → Same (.array items) (.array items')
  | object {fields fields' permuted : List (Text × Json)} : SameFields fields fields' →
      permuted.Perm fields' → Same (.object fields) (.object permuted)

inductive SameItems : List Json → List Json → Prop
  | nil : SameItems [] []
  | cons {item item' : Json} {rest rest' : List Json} : Same item item' → SameItems rest rest' →
      SameItems (item :: rest) (item' :: rest')

inductive SameFields : List (Text × Json) → List (Text × Json) → Prop
  | nil : SameFields [] []
  | cons {field field' : Text × Json} {rest rest' : List (Text × Json)} : field.1 = field'.1 →
      Same field.2 field'.2 → SameFields rest rest' →
      SameFields (field :: rest) (field' :: rest')

end

theorem same_canonicalize (value : Json) : Same value (canonicalize value) := by
  induction value using Json.induction with
  | array items ih =>
    refine .array ?_
    induction items with
    | nil => exact .nil
    | cons item rest hrest =>
      obtain ⟨hitem, hothers⟩ := List.forall_mem_cons.mp ih
      exact .cons hitem (hrest hothers)
  | object fields ih =>
    refine @Same.object fields (canonicalizeFields fields) _ ?_ (sortFields_perm _)
    induction fields with
    | nil => exact .nil
    | cons field rest hrest =>
      obtain ⟨hfield, hothers⟩ := List.forall_mem_cons.mp ih
      rw [canonicalizeFields, canonicalizeField_eq]
      exact .cons rfl hfield (hrest hothers)
  | _ => exact .refl _

/-! ## Lookups -/

mutual

/-- No object of the value has two fields of a name. -/
def Distinct : Json → Prop
  | .array items => DistinctItems items
  | .object fields => (fields.map Prod.fst).Nodup ∧ DistinctFields fields
  | _ => True

def DistinctItems : List Json → Prop
  | [] => True
  | item :: rest => Distinct item ∧ DistinctItems rest

def DistinctFields : List (Text × Json) → Prop
  | [] => True
  | field :: rest => DistinctField field ∧ DistinctFields rest

def DistinctField : Text × Json → Prop
  | (_, value) => Distinct value

end

theorem distinctItems_iff {items : List Json} :
    DistinctItems items ↔ ∀ item ∈ items, Distinct item := by
  induction items with
  | nil => simp [DistinctItems]
  | cons item rest ih => simp [DistinctItems, ih]

theorem distinctFields_iff {fields : List (Text × Json)} :
    DistinctFields fields ↔ ∀ field ∈ fields, Distinct field.2 := by
  induction fields with
  | nil => simp [DistinctFields]
  | cons field rest ih =>
    obtain ⟨name, value⟩ := field
    simp [DistinctFields, DistinctField, ih]

theorem distinct_get {value field : Json} {name : Text} (hvalue : Distinct value)
    (h : value.get name = some field) : Distinct field := by
  cases value with
  | object fields =>
    obtain ⟨found, hfound, rfl⟩ := Option.map_eq_some_iff.mp h
    exact distinctFields_iff.mp hvalue.2 found
      (List.mem_reverse.mp (List.mem_of_find?_eq_some hfound))
  | _ => cases h

theorem map_fst_canonicalizeFields (fields : List (Text × Json)) :
    (canonicalizeFields fields).map Prod.fst = fields.map Prod.fst := by
  rw [canonicalizeFields_eq, List.map_map]
  rfl

theorem names_canonicalize (fields : List (Text × Json)) :
    ((sortFields (canonicalizeFields fields)).map Prod.fst).Perm (fields.map Prod.fst) := by
  rw [← map_fst_canonicalizeFields fields]
  exact (sortFields_perm _).map Prod.fst

theorem get_canonicalize {fields : List (Text × Json)} (hdistinct : (fields.map Prod.fst).Nodup)
    (name : Text) :
    (canonicalize (.object fields)).get name =
      ((Json.object fields).get name).map canonicalize := by
  have hnames := names_canonicalize fields
  rw [canonicalize]
  by_cases hmem : name ∈ fields.map Prod.fst
  · obtain ⟨field, hfield, rfl⟩ := List.mem_map.mp hmem
    have hvalue : (field.1, canonicalize field.2) ∈ sortFields (canonicalizeFields fields) := by
      rw [(sortFields_perm _).mem_iff, canonicalizeFields_eq]
      exact List.mem_map_of_mem hfield
    rw [Json.get_object (hnames.nodup_iff.mpr hdistinct) hvalue, Json.get_object hdistinct hfield]
    rfl
  · rw [Json.get_object_eq_none hmem, Json.get_object_eq_none fun h => hmem (hnames.mem_iff.mp h)]
    rfl

/-! ## Integers -/

/-- What holds of a value exactly when it holds of what is in it, holds of its canonical form. -/
theorem canonicalize_keeps {P : Json → Prop}
    (harray : ∀ items, P (.array items) ↔ ∀ item ∈ items, P item)
    (hobject : ∀ fields, P (.object fields) ↔ ∀ field ∈ fields, P field.2) {value : Json}
    (h : P value) : P (canonicalize value) := by
  induction value using Json.induction with
  | array items ih =>
    rw [canonicalize, canonicalizeItems_eq, harray, List.forall_mem_map]
    exact fun item hitem => ih item hitem ((harray items).mp h item hitem)
  | object fields ih =>
    refine (hobject _).mpr fun field hfield => ?_
    rw [(sortFields_perm _).mem_iff, canonicalizeFields_eq] at hfield
    obtain ⟨own, hown, rfl⟩ := List.mem_map.mp hfield
    exact ih own hown ((hobject fields).mp h own hown)
  | _ => exact h

theorem integral_canonicalize (value : Json) (h : value.Integral) : (canonicalize value).Integral :=
  canonicalize_keeps (fun _ => Json.integralItems_iff) (fun _ => Json.integralFields_iff) h

/-- What is printed is read back as the same value. -/
theorem parse_stableJson {value : Json} (h : value.Integral) :
    Json.parse (stableJson value) = some (canonicalize value) ∧ Same value (canonicalize value) :=
  ⟨Json.parse_stringify (integral_canonicalize value h), same_canonicalize value⟩

/-! ## One text for equal values -/

theorem toNat_map_injective : Function.Injective fun t : Text => t.map UInt16.toNat :=
  List.map_injective_iff.mpr fun _ _ => UInt16.toNat_inj.mp

scoped instance totalNamesLe : Std.Total namesLe where
  total a b := le_total (a.1.map UInt16.toNat) (b.1.map UInt16.toNat)

scoped instance transNamesLe : IsTrans (Text × Json) namesLe where
  trans _ _ _ h h' := @le_trans (List Nat) _ _ _ _ h h'

theorem eq_sortFields_of_pairwise {fields sorted : List (Text × Json)}
    (hperm : sorted.Perm fields) (hsorted : sorted.Pairwise namesLe)
    (hdistinct : (fields.map Prod.fst).Nodup) : sorted = sortFields fields := by
  refine (hperm.trans (sortFields_perm fields).symm).eq_of_pairwise ?_ hsorted
    (List.pairwise_insertionSort namesLe fields)
  intro a b ha hb hab hba
  exact List.inj_on_of_nodup_map hdistinct (hperm.mem_iff.mp ha)
    ((sortFields_perm fields).mem_iff.mp hb) (toNat_map_injective (le_antisymm hab hba))

theorem sortFields_eq_of_perm {fields fields' : List (Text × Json)} (h : fields.Perm fields')
    (hdistinct : (fields.map Prod.fst).Nodup) : sortFields fields = sortFields fields' :=
  eq_sortFields_of_pairwise ((sortFields_perm fields).trans h)
    (List.pairwise_insertionSort namesLe fields) ((h.map Prod.fst).nodup_iff.mp hdistinct)

mutual

/-- Values with the same canonical form differ in the order of fields alone. -/
theorem same_of_canonicalize_eq (a b : Json) (h : canonicalize a = canonicalize b) : Same a b := by
  match a, b with
  | .null, .null => exact .refl _
  | .bool value, .bool other =>
    cases h
    exact .refl _
  | .number value, .number other =>
    cases h
    exact .refl _
  | .fraction value, .fraction other =>
    cases h
    exact .refl _
  | .string value, .string other =>
    cases h
    exact .refl _
  | .array items, .array others =>
    exact .array (sameItems_of_canonicalize_eq items others (Json.array.inj h))
  | .object fields, .object others =>
    -- the fields of the other object, in the order of this one
    have hsorted : sortFields (canonicalizeFields fields) =
        sortFields (canonicalizeFields others) := Json.object.inj h
    have hperm : (canonicalizeFields fields).Perm (canonicalizeFields others) :=
      (sortFields_perm _).symm.trans (hsorted ▸ sortFields_perm _)
    have hmap : List.Forall₂ (fun canonical field => canonical = (field.1, canonicalize field.2))
        (canonicalizeFields others) others := by
      rw [canonicalizeFields_eq, List.forall₂_map_left_iff, List.forall₂_same]
      exact fun _ _ => rfl
    obtain ⟨reordered, hreordered, hothers⟩ := List.perm_comp_forall₂ hperm hmap
    have heq : canonicalizeFields fields = canonicalizeFields reordered := by
      rw [canonicalizeFields_eq reordered, ← List.forall₂_eq_eq_eq, List.forall₂_map_right_iff]
      exact hreordered
    exact .object (sameFields_of_canonicalize_eq fields reordered heq) hothers.symm

theorem sameItems_of_canonicalize_eq (a b : List Json)
    (h : canonicalizeItems a = canonicalizeItems b) : SameItems a b := by
  match a, b with
  | [], [] => exact .nil
  | item :: rest, item' :: rest' =>
    obtain ⟨hitem, hrest⟩ := List.cons.inj h
    exact .cons (same_of_canonicalize_eq item item' hitem)
      (sameItems_of_canonicalize_eq rest rest' hrest)

theorem sameFields_of_canonicalize_eq (a b : List (Text × Json))
    (h : canonicalizeFields a = canonicalizeFields b) : SameFields a b := by
  match a, b with
  | [], [] => exact .nil
  | field :: rest, field' :: rest' =>
    obtain ⟨hfield, hrest⟩ := List.cons.inj h
    obtain ⟨hname, hvalue⟩ := sameField_of_canonicalize_eq field field' hfield
    exact .cons hname hvalue (sameFields_of_canonicalize_eq rest rest' hrest)

theorem sameField_of_canonicalize_eq (a b : Text × Json)
    (h : canonicalizeField a = canonicalizeField b) : a.1 = b.1 ∧ Same a.2 b.2 := by
  match a, b with
  | (name, value), (name', value') =>
    obtain ⟨hname, hvalue⟩ := Prod.mk.inj h
    exact ⟨hname, same_of_canonicalize_eq value value' hvalue⟩

end

theorem distinctField_iff {field : Text × Json} : DistinctField field ↔ Distinct field.2 := by
  obtain ⟨name, value⟩ := field
  exact Iff.rfl

mutual

/-- The order of the fields leaves no trace in the canonical form. -/
theorem canonicalize_eq_of_same {a b : Json} (h : Same a b) (ha : Distinct a) :
    canonicalize a = canonicalize b := by
  match h with
  | .refl _ => rfl
  | .array hitems =>
    rw [canonicalize, canonicalize, canonicalizeItems_eq_of_same hitems ha]
  | @Same.object fields fields' permuted hfields hperm =>
    have heq := canonicalizeFields_eq_of_same hfields ha.2
    have hnames : ((canonicalizeFields fields).map Prod.fst).Nodup := by
      rw [map_fst_canonicalizeFields]
      exact ha.1
    have hsorted : sortFields (canonicalizeFields fields) =
        sortFields (canonicalizeFields permuted) := by
      refine sortFields_eq_of_perm ?_ hnames
      rw [heq, canonicalizeFields_eq, canonicalizeFields_eq]
      exact hperm.symm.map _
    rw [canonicalize, canonicalize, hsorted]

theorem canonicalizeItems_eq_of_same {a b : List Json} (h : SameItems a b)
    (ha : DistinctItems a) : canonicalizeItems a = canonicalizeItems b := by
  match h with
  | .nil => rfl
  | .cons hitem hrest =>
    rw [canonicalizeItems, canonicalizeItems, canonicalize_eq_of_same hitem ha.1,
      canonicalizeItems_eq_of_same hrest ha.2]

theorem canonicalizeFields_eq_of_same {a b : List (Text × Json)} (h : SameFields a b)
    (ha : DistinctFields a) : canonicalizeFields a = canonicalizeFields b := by
  match h with
  | .nil => rfl
  | @SameFields.cons field field' rest rest' hname hvalue hrest =>
    obtain ⟨hfield, hothers⟩ := ha
    have heq := canonicalize_eq_of_same hvalue (distinctField_iff.mp hfield)
    rw [canonicalizeFields, canonicalizeFields, canonicalizeField_eq, canonicalizeField_eq,
      hname, heq, canonicalizeFields_eq_of_same hrest hothers]

end

/-- Two values have one canonical form exactly when they differ in the order of fields alone. -/
theorem canonicalize_eq_iff {a b : Json} (ha : Distinct a) :
    canonicalize a = canonicalize b ↔ Same a b :=
  ⟨same_of_canonicalize_eq a b, fun h => canonicalize_eq_of_same h ha⟩

theorem numerals_canonicalize (value : Json) (h : value.Numerals) : (canonicalize value).Numerals :=
  canonicalize_keeps (fun _ => Json.numeralsItems_iff) (fun _ => Json.numeralsFields_iff) h

/-- The text of a value tells it from every other, up to the order of fields. -/
theorem stableJson_eq_iff {a b : Json} (hdistinct : Distinct a) (ha : a.Numerals)
    (hb : b.Numerals) : stableJson a = stableJson b ↔ Same a b := by
  rw [← canonicalize_eq_iff hdistinct]
  exact ⟨fun h => Json.stringify_injective (numerals_canonicalize a ha)
    (numerals_canonicalize b hb) h, fun h => congrArg Json.stringify h⟩

end ContextStore.Schema
