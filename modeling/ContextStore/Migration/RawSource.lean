import ContextStore.Store.StableJson

/-! # Fingerprints of source rows

A row of a legacy archive is told by a digest of its stable JSON text. The migration does not build
that text: it feeds the digest field by field, in the order of their names, and a long string slice
by slice. What it feeds are the bytes of the text all the same, since no slice ends inside of a
surrogate pair (`rawSourceFingerprint_eq`). -/

open Unicode

/-! ## Texts that are cut -/

/-- No surrogate pair lies across the border of the texts. -/
def Unicode.Apart (s t : Text) : Prop :=
  ∀ u ∈ s.getLast?, ∀ v ∈ t.head?, ¬(isHighSurrogate u && isLowSurrogate v) = true

theorem Unicode.Apart.tail {u v : UInt16} {s t : Text} (h : Apart (u :: v :: s) t) :
    Apart (v :: s) t := by
  intro w hw
  refine h w ?_
  rwa [List.getLast?_cons_cons]

theorem Unicode.codePoints_append (s : Text) {v : UInt16} (hv : isLowSurrogate v = false)
    (t : Text) : codePoints (s ++ v :: t) = codePoints s ++ codePoints (v :: t) := by
  induction s using codePoints.induct with
  | case1 => rfl
  | case2 u => simp [codePoints, hv]
  | case3 u w rest hpair ih => simp [codePoints, hpair, ih]
  | case4 u w rest hpair ih =>
    rw [List.cons_append] at ih
    simp [codePoints, hpair, ih]

/-- A text may be encoded in two parts wherever the second one begins with no low surrogate. -/
theorem Unicode.utf8_append_cons (s : Text) {v : UInt16} (hv : isLowSurrogate v = false)
    (t : Text) : utf8 (s ++ v :: t) = utf8 s ++ utf8 (v :: t) := by
  rw [utf8, codePoints_append s hv, encodeChars_append]
  rfl

theorem Json.escapeUnits_append {s t : Text} (h : Apart s t) :
    escapeUnits (s ++ t) = escapeUnits s ++ escapeUnits t := by
  induction s using escapeUnits.induct with
  | case1 => rfl
  | case2 u =>
    cases t with
    | nil => simp [escapeUnits]
    | cons v t => simp [escapeUnits, h u rfl v rfl]
  | case3 u v rest hpair ih =>
    cases rest with
    | nil => simp [escapeUnits, hpair]
    | cons w rest =>
      rw [List.cons_append, List.cons_append, escapeUnits, if_pos hpair, escapeUnits,
        if_pos hpair, ih h.tail.tail]
      rfl
  | case4 u v rest hpair ih =>
    have hrest := ih h.tail
    rw [List.cons_append] at hrest
    rw [List.cons_append, List.cons_append, escapeUnits, if_neg hpair, hrest, escapeUnits,
      if_neg hpair, List.append_assoc]

namespace ContextStore.Legacy

/-! ## Values of the language -/

/-- A number; one that is no integer is kept as it is written. -/
inductive JsNumber
  | integer (value : Int)
  | negativeZero
  | fraction (literal : Text)
  | nonFinite

/-- A value without cycles. -/
inductive JsValue
  | undefined
  | null
  | bool (value : Bool)
  | number (value : JsNumber)
  | string (value : Text)
  | bytes (value : List UInt8)
  | unsupported (typeName : String)
  /-- An object that is no plain one. -/
  | classInstance (className : String)
  | array (items : List JsValue)
  | object (fields : List (Text × JsValue))

/-- `Object.keys(value).sort()`, with what belongs to the keys. -/
def sortKeys {β : Type} (fields : List (Text × β)) : List (Text × β) :=
  fields.insertionSort fun a b => a.1.map UInt16.toNat ≤ b.1.map UInt16.toNat

/-- The fields that are there, in the order in which they are looked at. -/
def present : List (Text × Except String (Option Json)) → Except String (List (Text × Json))
  | [] => .ok []
  | (name, entry) :: rest => do
    let entry ← entry
    let rest ← present rest
    return (entry.toList.map fun value => (name, value)) ++ rest

mutual

/-- `canonicalize`, for fields whose names are neither `__proto__` nor numbers. -/
def canonicalize (arrayElement : Bool) : JsValue → Except String (Option Json)
  | .null => .ok (some .null)
  | .string value => .ok (some (.string value))
  | .bool value => .ok (some (.bool value))
  | .number .nonFinite => .error "Record payload numbers must be finite."
  | .number .negativeZero => .ok (some (.number 0))
  | .number (.integer value) => .ok (some (.number value))
  | .number (.fraction literal) => .ok (some (.fraction literal))
  | .undefined => .ok (if arrayElement then some .null else none)
  | .unsupported typeName => .error s!"Unsupported record payload type: {typeName}."
  | .bytes _ => .error
      "Nested binary values are unsupported; store a Buffer as the complete payload."
  | .classInstance _ => .error "Record payload objects must be plain objects."
  | .array items => do return some (.array (← canonicalizeItems items))
  | .object fields => do return some (.object (← present (sortKeys (canonicalizeFields fields))))

def canonicalizeItems : List JsValue → Except String (List Json)
  | [] => .ok []
  | item :: rest => do
    let item ← canonicalize true item
    let rest ← canonicalizeItems rest
    return item.toList ++ rest

def canonicalizeFields : List (Text × JsValue) → List (Text × Except String (Option Json))
  | [] => []
  | field :: rest => canonicalizeField field :: canonicalizeFields rest

def canonicalizeField : Text × JsValue → Text × Except String (Option Json)
  | (name, value) => (name, canonicalize false value)

end

def stableJson (value : JsValue) : Except String Text := do
  match ← canonicalize false value with
  | some canonical => return canonical.stringify
  | none => throw "A record payload cannot be undefined."

/-! ## Source rows -/

/-- A value of a column. -/
inductive SqlValue
  | null
  | number (value : JsNumber)
  | text (value : Text)
  | blob (value : List UInt8)

def SqlValue.toJs : SqlValue → JsValue
  | .null => .null
  | .number value => .number value
  | .text value => .string value
  | .blob value => .bytes value

/-- A row of `documents` with its place in the order. -/
structure DocumentRow where
  source_order : SqlValue
  source_rowid : SqlValue
  id : SqlValue
  session_id : SqlValue
  project : SqlValue
  kind : SqlValue
  created_at : SqlValue
  text : SqlValue
  metadata_json : SqlValue

/-- The SQLite values that the identity of a document rests on. -/
structure RawSource where
  sourceFormatVersion : Int
  sourceOrderingKey : Int
  sourceRowId : Int
  metadataJson : Text
  structuralMessages : List JsValue
  id : SqlValue
  sessionId : SqlValue
  project : SqlValue
  kind : SqlValue
  createdAt : JsNumber
  text : SqlValue

/-- `SQLITE_SOURCE_FORMAT_VERSION` -/
def sourceFormatVersion : Int := 1

-- what `Number` and `String` make of the value of a column
variable (number : SqlValue → JsNumber) (string : SqlValue → String)

def safeOrderingKey (value : SqlValue) (label : String) : Except String Int :=
  match number value with
  | .integer key =>
    if 0 < key ∧ key ≤ 9007199254740991 then .ok key
    else .error s!"{label} must be a positive safe integer."
  | _ => .error s!"{label} must be a positive safe integer."

/-- What `documentFromRow` collects before it takes the fingerprint. -/
def rawSource (row : DocumentRow) (structuralMessages : List JsValue) :
    Except String RawSource := do
  let .text metadataJson := row.metadata_json
    | throw s!"SQLite document {string row.id} has non-text metadata_json."
  let sourceOrderingKey ← safeOrderingKey number row.source_order "source ordering key"
  let sourceRowId ← safeOrderingKey number row.source_rowid "SQLite rowid"
  return {
    sourceFormatVersion, sourceOrderingKey, sourceRowId, metadataJson, structuralMessages,
    id := row.id, sessionId := row.session_id, project := row.project, kind := row.kind,
    createdAt := number row.created_at, text := row.text }

/-- The record as a value, its fields in the order in which they are written down. -/
def rawSourceRecord (source : RawSource) : JsValue := .object
  [(text "sourceFormatVersion", .number (.integer source.sourceFormatVersion)),
    (text "sourceOrderingKey", .number (.integer source.sourceOrderingKey)),
    (text "sourceRowId", .number (.integer source.sourceRowId)),
    (text "metadataJson", .string source.metadataJson),
    (text "structuralMessages", .array source.structuralMessages),
    (text "id", source.id.toJs),
    (text "sessionId", source.sessionId.toJs),
    (text "project", source.project.toJs),
    (text "kind", source.kind.toJs),
    (text "createdAt", .number source.createdAt),
    (text "text", source.text.toJs)]

/-! ## Streaming -/

/-- The bytes of what a digest is fed. -/
def fed (updates : List Text) : List UInt8 := updates.flatMap utf8

def chunkCodeUnits : Nat := 64 * 1024

/-- Where the slice at the front of what is left ends. -/
def sliceEnd (rest : Text) : Nat :=
  let stop := min rest.length chunkCodeUnits
  if stop < rest.length ∧ isHighSurrogate (rest.getD (stop - 1) 0) = true ∧
      isLowSurrogate (rest.getD stop 0) = true then stop - 1
  else stop

theorem sliceEnd_pos {rest : Text} (h : rest ≠ []) : 0 < sliceEnd rest := by
  have hlength := List.length_pos_iff.mpr h
  have hchunk : 1 < chunkCodeUnits := by decide
  rw [sliceEnd]
  split <;> omega

/-- The slices as they are printed, without their quotes. -/
def updateSlices (value : Text) : List Text :=
  if _h : value = [] then []
  else (Json.quote (value.take (sliceEnd value))).tail.dropLast ::
    updateSlices (value.drop (sliceEnd value))
termination_by value.length
decreasing_by
  have hpos := sliceEnd_pos _h
  have hlength := List.length_pos_iff.mpr _h
  rw [List.length_drop]
  omega

def updateJsonString (value : Text) : List Text :=
  text "\"" :: (updateSlices value ++ [text "\""])

/-- The name of a field, behind a comma unless it is the first one. -/
def fieldHead (key : Text) (comma : Bool) : Text :=
  (if comma then text "," else []) ++ Json.quote key ++ text ":"

def scalar (key : Text) (value : JsValue) (comma : Bool) : Except String (List Text) :=
  match value with
  | .string value => .ok (fieldHead key comma :: updateJsonString value)
  | value => do return [fieldHead key comma, ← stableJson value]

/-- The fields behind the first one. -/
def laterFields (source : RawSource) : List (Text × JsValue) :=
  [(text "id", source.id.toJs), (text "kind", source.kind.toJs),
    (text "metadataJson", .string source.metadataJson),
    (text "project", source.project.toJs),
    (text "sessionId", source.sessionId.toJs),
    (text "sourceFormatVersion", .number (.integer source.sourceFormatVersion)),
    (text "sourceOrderingKey", .number (.integer source.sourceOrderingKey)),
    (text "sourceRowId", .number (.integer source.sourceRowId)),
    (text "structuralMessages", .array source.structuralMessages),
    (text "text", source.text.toJs)]

/-- What `rawSourceFingerprint` feeds the digest. -/
def rawSourceUpdates (source : RawSource) : Except String (List Text) := do
  let createdAt ← scalar (text "createdAt") (.number source.createdAt) false
  let later ← (laterFields source).mapM fun field => scalar field.1 field.2 true
  return text "\x7b" :: (createdAt ++ later.flatten ++ [text "\x7d"])

def rawSourceFingerprint (sha256 : List UInt8 → String) (source : RawSource) :
    Except String String := do
  return sha256 (fed (← rawSourceUpdates source))

@[simp]
theorem fed_cons (update : Text) (updates : List Text) :
    fed (update :: updates) = utf8 update ++ fed updates := rfl

@[simp]
theorem fed_append (updates others : List Text) :
    fed (updates ++ others) = fed updates ++ fed others := List.flatMap_append

/-- A slice ends between two surrogates only if they are no pair. -/
theorem apart_sliceEnd (rest : Text) :
    Apart (rest.take (sliceEnd rest)) (rest.drop (sliceEnd rest)) := by
  intro u hu v hv
  rw [List.head?_drop, Option.mem_def] at hv
  have hstop : sliceEnd rest < rest.length := (List.getElem?_eq_some_iff.mp hv).1
  have hpos : 0 < sliceEnd rest := sliceEnd_pos (List.ne_nil_of_length_pos (by omega))
  have hu : rest[sliceEnd rest - 1]? = some u := by
    rw [Option.mem_def, List.getLast?_take, if_neg (by omega)] at hu
    rwa [List.getElem?_eq_getElem (by omega), Option.some_or,
      ← List.getElem?_eq_getElem (by omega)] at hu
  rw [Bool.and_eq_true]
  rintro ⟨hhigh, hlow⟩
  rw [sliceEnd] at hstop hu hv
  split at hstop
  · next hpair =>
    -- the slice was cut short, and the unit behind it is the first one of a pair
    rw [if_pos hpair] at hv
    have hv' : rest.getD (min rest.length chunkCodeUnits - 1) 0 = v := by
      rw [List.getD_eq_getElem?_getD, hv, Option.getD_some]
    rw [hv'] at hpair
    simp only [isHighSurrogate, isLowSurrogate, Bool.and_eq_true, decide_eq_true_eq] at hpair hlow
    omega
  · next hpair =>
    rw [if_neg hpair] at hu hv
    refine hpair ⟨hstop, ?_, ?_⟩
    · rwa [List.getD_eq_getElem?_getD, hu]
    · rwa [List.getD_eq_getElem?_getD, hv]

theorem fed_updateSlices (value : Text) :
    fed (updateSlices value) = utf8 (Json.escapeUnits value) := by
  induction value using updateSlices.induct with
  | case1 => rw [updateSlices, dif_pos rfl]; rfl
  | case2 value hvalue ih =>
    have hslice : (Json.quote (value.take (sliceEnd value))).tail.dropLast =
        Json.escapeUnits (value.take (sliceEnd value)) := by
      simp [Json.quote]
    rw [updateSlices, dif_neg hvalue, fed_cons, ih, hslice,
      ← utf8_append (Json.isWellFormed_escapeUnits _),
      ← Json.escapeUnits_append (apart_sliceEnd value), List.take_append_drop]

theorem fed_updateJsonString (value : Text) :
    fed (updateJsonString value) = utf8 (Json.quote value) := by
  have hquote : Json.quote value = text "\"" ++ (Json.escapeUnits value ++ text "\"") := rfl
  rw [hquote, utf8_append rfl, utf8_append (Json.isWellFormed_escapeUnits _), ← fed_updateSlices]
  simp [updateJsonString, fed]

theorem isWellFormed_fieldHead (key : Text) (comma : Bool) :
    isWellFormed (fieldHead key comma) = true := by
  refine isWellFormed_append (isWellFormed_append ?_ (Json.isWellFormed_quote key))
    (isWellFormed_text _)
  cases comma
  · rfl
  · exact isWellFormed_text _

theorem eq_undefined_of_canonicalize {value : JsValue}
    (h : canonicalize false value = .ok none) : value = .undefined := by
  cases value with
  | undefined => rfl
  | number value => cases value <;> cases h
  | array items =>
    rw [canonicalize] at h
    cases hitems : canonicalizeItems items <;> rw [hitems] at h <;> cases h
  | object fields =>
    rw [canonicalize] at h
    cases hfields : present (sortKeys (canonicalizeFields fields)) <;> rw [hfields] at h <;> cases h
  | _ => cases h

/-- A field is fed as it is printed, or fails as it does there. -/
theorem scalar_cases (key : Text) {value : JsValue} (hvalue : value ≠ .undefined) (comma : Bool) :
    (∃ error, canonicalize false value = .error error ∧ scalar key value comma = .error error) ∨
      ∃ canonical updates, canonicalize false value = .ok (some canonical) ∧
        scalar key value comma = .ok updates ∧
          fed updates = utf8 (fieldHead key comma) ++ utf8 canonical.stringify := by
  have hother : scalar key value comma = (do return [fieldHead key comma, ← stableJson value]) ∨
      ∃ t, value = .string t := by
    cases value with
    | string t => exact .inr ⟨t, rfl⟩
    | _ => exact .inl rfl
  rcases hother with hscalar | ⟨t, rfl⟩
  · rw [hscalar, stableJson]
    cases hcanonical : canonicalize false value with
    | error error => exact .inl ⟨error, rfl, rfl⟩
    | ok entry =>
      cases entry with
      | none => exact absurd (eq_undefined_of_canonicalize hcanonical) hvalue
      | some canonical => exact .inr ⟨canonical, _, rfl, rfl, by simp [fed]⟩
  · exact .inr ⟨.string t, _, rfl, rfl, by rw [fed_cons, fed_updateJsonString]; rfl⟩

/-- What follows a field begins with a comma or a brace. -/
theorem exists_stringifyFields (fields : List (Text × Json)) :
    ∃ v rest, Json.stringifyFields fields = v :: rest ∧ isLowSurrogate v = false := by
  cases fields with
  | nil => exact ⟨_, _, rfl, by decide⟩
  | cons field rest => exact ⟨_, _, rfl, by decide⟩

theorem utf8_field (key : Text) (comma : Bool) (canonical : Json) (fields : List (Text × Json)) :
    utf8 (fieldHead key comma ++ (canonical.stringify ++ Json.stringifyFields fields)) =
      utf8 (fieldHead key comma) ++ utf8 canonical.stringify ++
        utf8 (Json.stringifyFields fields) := by
  obtain ⟨v, rest, hfields, hv⟩ := exists_stringifyFields fields
  rw [utf8_append (isWellFormed_fieldHead key comma), hfields, utf8_append_cons _ hv,
    List.append_assoc]

theorem stringifyFields_cons (key : Text) (canonical : Json) (fields : List (Text × Json)) :
    Json.stringifyFields ((key, canonical) :: fields) =
      fieldHead key true ++ (canonical.stringify ++ Json.stringifyFields fields) := by
  simp [Json.stringifyFields, Json.stringifyField, fieldHead, show text "," = [0x2c] from rfl,
    show text ":" = [0x3a] from rfl]

theorem stringify_cons (key : Text) (canonical : Json) (fields : List (Text × Json)) :
    (Json.object ((key, canonical) :: fields)).stringify =
      text "\x7b" ++ (fieldHead key false ++
        (canonical.stringify ++ Json.stringifyFields fields)) := by
  simp [Json.stringify, Json.stringifyField, fieldHead, show text ":" = [0x3a] from rfl,
    show text "\x7b" = [0x7b] from rfl]

theorem cases_of_map_eq {α β γ : Type} {x : Except String α} {y : Except String β} {f : α → γ}
    {g : β → γ} (h : x.map f = y.map g) :
    (∃ error, x = .error error ∧ y = .error error) ∨
      ∃ a b, x = .ok a ∧ y = .ok b ∧ f a = g b := by
  cases x with
  | error error =>
    cases y with
    | error other => exact .inl ⟨error, rfl, congrArg Except.error (Except.error.inj h).symm⟩
    | ok b => cases h
  | ok a =>
    cases y with
    | error error => cases h
    | ok b => exact .inr ⟨a, b, rfl, rfl, Except.ok.inj h⟩

/-- The fields behind the first one are fed as they are printed. -/
theorem fed_later {fields : List (Text × JsValue)} (h : ∀ field ∈ fields, field.2 ≠ .undefined) :
    (fields.mapM fun field => scalar field.1 field.2 true).map
        (fun later => fed later.flatten ++ utf8 (text "\x7d")) =
      (present (fields.map fun field => (field.1, canonicalize false field.2))).map
        fun canonical => utf8 (Json.stringifyFields canonical) := by
  induction fields with
  | nil => rfl
  | cons field rest ih =>
    obtain ⟨key, value⟩ := field
    have hrest := ih fun field hfield => h field (List.mem_cons_of_mem _ hfield)
    rw [List.mapM_cons, List.map_cons, present]
    rcases scalar_cases key (h _ List.mem_cons_self) true with
      ⟨error, hcanonical, hscalar⟩ | ⟨canonical, updates, hcanonical, hscalar, hfed⟩
    · rw [hcanonical, hscalar]
      rfl
    · rw [hcanonical, hscalar]
      rcases cases_of_map_eq hrest with
        ⟨error, hlater, hpresent⟩ | ⟨later, others, hlater, hpresent, heq⟩
      · rw [hlater, hpresent]
        rfl
      · rw [hlater, hpresent]
        refine congrArg Except.ok ?_
        calc fed (updates :: later).flatten ++ utf8 (text "\x7d")
            = fed updates ++ (fed later.flatten ++ utf8 (text "\x7d")) := by simp
          _ = utf8 (Json.stringifyFields ((key, canonical) :: others)) := by
              rw [heq, hfed, stringifyFields_cons, utf8_field]

theorem toJs_ne_undefined (value : SqlValue) : value.toJs ≠ .undefined := by
  cases value <;> intro h <;> cases h

/-- The names are sorted as they are fed. -/
theorem sortKeys_rawSourceRecord (source : RawSource) :
    canonicalize false (rawSourceRecord source) =
      (present ((text "createdAt", canonicalize false (.number source.createdAt)) ::
        (laterFields source).map fun field => (field.1, canonicalize false field.2))).map
          fun fields => some (.object fields) := by
  rfl

/-- The digest is fed the bytes of the text. -/
theorem fed_rawSourceUpdates (source : RawSource) :
    (rawSourceUpdates source).map fed = (stableJson (rawSourceRecord source)).map utf8 := by
  have hlater : ∀ field ∈ laterFields source, field.2 ≠ .undefined := by
    intro field hfield
    simp only [laterFields, List.mem_cons, List.not_mem_nil, or_false] at hfield
    rcases hfield with rfl | rfl | rfl | rfl | rfl | rfl | rfl | rfl | rfl | rfl
    all_goals first
      | exact toJs_ne_undefined _
      | exact JsValue.noConfusion
  rw [rawSourceUpdates, stableJson, sortKeys_rawSourceRecord, present]
  have hcreated : JsValue.number source.createdAt ≠ .undefined := JsValue.noConfusion
  rcases scalar_cases (text "createdAt") hcreated false with
    ⟨error, hcanonical, hscalar⟩ | ⟨canonical, updates, hcanonical, hscalar, hfirst⟩
  · rw [hcanonical, hscalar]
    rfl
  · rw [hcanonical, hscalar]
    rcases cases_of_map_eq (fed_later hlater) with
      ⟨error, hmap, hpresent⟩ | ⟨later, others, hmap, hpresent, heq⟩
    · rw [hmap, hpresent]
      rfl
    · rw [hmap, hpresent]
      refine congrArg Except.ok ?_
      calc fed (text "\x7b" :: (updates ++ later.flatten ++ [text "\x7d"])) = utf8 (text "\x7b") ++
              (fed updates ++ (fed later.flatten ++ utf8 (text "\x7d"))) := by simp [fed]
        _ = utf8 (Json.object ((text "createdAt", canonical) :: others)).stringify := by
            rw [heq, hfirst, stringify_cons, utf8_append (isWellFormed_text _), utf8_field]

/-- The digest that is streamed is the one of the stable JSON text of the record, for every row,
    and it is missing exactly when there is no such text. -/
theorem rawSourceFingerprint_eq (sha256 : List UInt8 → String) (row : DocumentRow)
    (structuralMessages : List JsValue) :
    (∀ source, (rawSourceUpdates source).map fed =
      (stableJson (rawSourceRecord source)).map utf8) ∧
      (rawSource number string row structuralMessages).bind (rawSourceFingerprint sha256) =
        (rawSource number string row structuralMessages).bind fun source =>
          (stableJson (rawSourceRecord source)).map fun t => sha256 (utf8 t) := by
  refine ⟨fed_rawSourceUpdates, congrArg _ (funext fun source => ?_)⟩
  rw [rawSourceFingerprint]
  rcases cases_of_map_eq (fed_rawSourceUpdates source) with
    ⟨error, hupdates, hjson⟩ | ⟨updates, t, hupdates, hjson, heq⟩
  · rw [hupdates, hjson]
    rfl
  · rw [hupdates, hjson]
    exact congrArg (fun bytes => Except.ok (sha256 bytes)) heq

end ContextStore.Legacy
