import ContextStore.Session.Window
import ContextStore.Store.StableJson

/-! # Arguments as text

Repeated results are told by the tool, the text of the arguments and a digest of what the result
says. The text tells arguments apart up to the order of their fields, as far as they are JSON: what
JSON has no number for is written `null`, and so is a member that is there without a value
(`canonicalJsonValue_eq_iff`). -/

namespace ContextStore.Session

open Unicode Archive Effects

variable (S : Setting)

/-! ## What is written -/

theorem unitsLe_iff (s t : Text) :
    unitsLe s t = true ↔ s.map UInt16.toNat ≤ t.map UInt16.toNat := by
  rw [← not_lt]
  induction s generalizing t with
  | nil => simp [unitsLe]
  | cons u s ih =>
    cases t with
    | nil => simp [unitsLe]
    | cons v t =>
      rw [unitsLe, Bool.or_eq_true, Bool.and_eq_true, decide_eq_true_eq, decide_eq_true_eq,
        ih, List.map_cons, List.map_cons, List.cons_lt_cons_iff, UInt16.lt_iff_toNat_lt,
        ← UInt16.toNat_inj]
      by_cases hrest : t.map UInt16.toNat < s.map UInt16.toNat
      · simp only [hrest, not_true, and_false, or_false, and_true]
        omega
      · simp only [hrest, not_false_eq_true, and_false, or_false, and_true]
        omega

/-- The fields are sorted by name as everywhere. -/
theorem mergeSort_eq_sortFields {fields : List (Text × Json)}
    (hdistinct : (fields.map Prod.fst).Nodup) :
    fields.mergeSort (fun a b => unitsLe a.1 b.1) = Schema.sortFields fields := by
  refine Schema.eq_sortFields_of_pairwise (List.mergeSort_perm _ _) ?_ hdistinct
  refine (List.pairwise_mergeSort ?_ ?_ fields).imp fun h => (unitsLe_iff _ _).mp h
  · intro a b c hab hbc
    rw [unitsLe_iff] at hab hbc ⊢
    exact le_trans hab hbc
  · intro a b
    rw [Bool.or_eq_true, unitsLe_iff, unitsLe_iff]
    exact le_total _ _

/-- A list is written as its items are, with commas between them. -/
theorem stringifyItems_eq (items : List Json) :
    Json.stringifyItems items = (items.flatMap fun item => 0x2c :: item.stringify) ++ [0x5d] := by
  induction items with
  | nil => rfl
  | cons item rest ih => simp [Json.stringifyItems, ih]

theorem stringify_array (items : List Json) :
    (Json.array items).stringify =
      text "[" ++ join (text ",") (items.map Json.stringify) ++ text "]" := by
  cases items with
  | nil => rfl
  | cons first rest =>
    rw [Json.stringify, stringifyItems_eq, List.map_cons, show text "," = [0x2c] from rfl,
      join_cons, List.flatMap_map]
    simp [show text "[" = [0x5b] from rfl, show text "]" = [0x5d] from rfl]

def fieldText (field : Text × Json) : Text :=
  Json.quote field.1 ++ text ":" ++ field.2.stringify

theorem stringifyField_eq (field : Text × Json) : Json.stringifyField field = fieldText field := by
  obtain ⟨name, value⟩ := field
  simp [Json.stringifyField, fieldText, show text ":" = [0x3a] from rfl]

theorem stringifyFields_eq (fields : List (Text × Json)) :
    Json.stringifyFields fields =
      (fields.flatMap fun field => 0x2c :: fieldText field) ++ [0x7d] := by
  induction fields with
  | nil => rfl
  | cons field rest ih => simp [Json.stringifyFields, ih, stringifyField_eq]

theorem stringify_object (fields : List (Text × Json)) :
    (Json.object fields).stringify =
      text "\x7b" ++ join (text ",") (fields.map fieldText) ++ text "\x7d" := by
  cases fields with
  | nil => rfl
  | cons first rest =>
    rw [Json.stringify, stringifyFields_eq, stringifyField_eq, List.map_cons,
      show text "," = [0x2c] from rfl, join_cons, List.flatMap_map]
    simp [show text "\x7b" = [0x7b] from rfl, show text "\x7d" = [0x7d] from rfl]

theorem canonicalItems_eq (items : List Json) :
    canonicalItems items = items.map canonicalJsonValue := by
  induction items with
  | nil => rfl
  | cons item rest ih => rw [canonicalItems, ih, List.map_cons]

theorem canonicalFields_eq (fields : List (Text × Json)) :
    canonicalFields fields = fields.map fun field => (field.1, canonicalJsonValue field.2) := by
  induction fields with
  | nil => rfl
  | cons field rest ih => rw [canonicalFields, ih, List.map_cons, canonicalField]

theorem canonicalJsonValue_eq (value : Json) (h : Schema.Distinct value) :
    canonicalJsonValue value = Schema.stableJson value := by
  induction value using Json.induction with
  | array items ih =>
    have hitems : items.map canonicalJsonValue =
        (items.map Schema.canonicalize).map Json.stringify := by
      rw [List.map_map]
      exact List.map_congr_left fun item hitem =>
        ih item hitem (Schema.distinctItems_iff.mp h item hitem)
    rw [canonicalJsonValue, Schema.stableJson, Schema.canonicalize, stringify_array,
      canonicalItems_eq, Schema.canonicalizeItems_eq, hitems]
  | object fields ih =>
    have hnames : ((Schema.canonicalizeFields fields).map Prod.fst).Nodup := by
      rw [Schema.map_fst_canonicalizeFields]
      exact h.1
    have hfields : canonicalFields fields =
        (Schema.canonicalizeFields fields).map fun field => (field.1, field.2.stringify) := by
      rw [canonicalFields_eq, Schema.canonicalizeFields_eq, List.map_map]
      exact List.map_congr_left fun field hfield => congrArg (Prod.mk field.1)
        (ih field hfield (Schema.distinctFields_iff.mp h.2 field hfield))
    have hsorted : ((Schema.canonicalizeFields fields).map fun field =>
        (field.1, field.2.stringify)).mergeSort (fun a b => unitsLe a.1 b.1) =
          ((Schema.canonicalizeFields fields).mergeSort fun a b => unitsLe a.1 b.1).map
            fun field => (field.1, field.2.stringify) := by
      refine (List.map_mergeSort ?_).symm
      intro _ _ _ _
      rfl
    rw [canonicalJsonValue, Schema.stableJson, Schema.canonicalize, stringify_object, hfields,
      ← mergeSort_eq_sortFields hnames, hsorted, List.map_map]
    rfl
  | _ => rfl

/-! ## What arguments may be -/

/-- A number that JSON has none for. -/
inductive NonFinite where
  | nan
  | infinity
  | negativeInfinity

/-- A value as a host may hand it over; a number that is no integer stands for itself as it is
written, which no other number is. -/
inductive Argument where
  | undefined
  | null
  | bool (value : Bool)
  | integer (value : Int)
  | negativeZero
  | fraction (literal : Text) (numeral : Json.IsNumeral literal)
  | nonFinite (value : NonFinite)
  | string (value : Text)
  | array (items : List Argument)
  | object (fields : List (Text × Argument))

namespace Argument

mutual

/-- `canonicalJsonValue`, with `JSON.stringify(value) ?? "null"` for what is no object. -/
def canonicalJsonValue : Argument → Text
  | .array items => text "[" ++ join (text ",") (canonicalItems items) ++ text "]"
  | .object fields =>
    let rendered := (canonicalFields fields).mergeSort fun a b => unitsLe a.1 b.1
    text "\x7b" ++
      join (text ",") (rendered.map fun field => Json.quote field.1 ++ text ":" ++ field.2) ++
      text "\x7d"
  | .undefined => text "null"
  | .null => text "null"
  | .bool value => if value then text "true" else text "false"
  | .integer value => Json.ofInt value
  | .negativeZero => text "0"
  | .fraction literal _ => literal
  | .nonFinite _ => text "null"
  | .string value => Json.quote value

def canonicalItems : List Argument → List Text
  | [] => []
  | item :: rest => canonicalJsonValue item :: canonicalItems rest

def canonicalFields : List (Text × Argument) → List (Text × Text)
  | [] => []
  | field :: rest => canonicalField field :: canonicalFields rest

def canonicalField : Text × Argument → Text × Text
  | (name, value) => (name, canonicalJsonValue value)

end

mutual

/-- The JSON value that an argument is taken for. -/
def json : Argument → Json
  | .array items => .array (jsonItems items)
  | .object fields => .object (jsonFields fields)
  | .undefined => .null
  | .null => .null
  | .bool value => .bool value
  | .integer value => .number value
  | .negativeZero => .number 0
  | .fraction literal _ => .fraction literal
  | .nonFinite _ => .null
  | .string value => .string value

def jsonItems : List Argument → List Json
  | [] => []
  | item :: rest => json item :: jsonItems rest

def jsonFields : List (Text × Argument) → List (Text × Json)
  | [] => []
  | field :: rest => jsonField field :: jsonFields rest

def jsonField : Text × Argument → Text × Json
  | (name, value) => (name, json value)

end

mutual

theorem canonicalJsonValue_json (value : Argument) :
    value.canonicalJsonValue = Session.canonicalJsonValue value.json := by
  match value with
  | .array items =>
    rw [canonicalJsonValue, json, Session.canonicalJsonValue, canonicalItems_json items]
  | .object fields =>
    rw [canonicalJsonValue, json, Session.canonicalJsonValue, canonicalFields_json fields]
  | .undefined => rfl
  | .null => rfl
  | .bool true => rfl
  | .bool false => rfl
  | .integer _ => rfl
  | .negativeZero => rfl
  | .fraction _ _ => rfl
  | .nonFinite _ => rfl
  | .string _ => rfl

theorem canonicalItems_json (items : List Argument) :
    canonicalItems items = Session.canonicalItems (jsonItems items) := by
  match items with
  | [] => rfl
  | item :: rest =>
    rw [canonicalItems, jsonItems, Session.canonicalItems, canonicalJsonValue_json item,
      canonicalItems_json rest]

theorem canonicalFields_json (fields : List (Text × Argument)) :
    canonicalFields fields = Session.canonicalFields (jsonFields fields) := by
  match fields with
  | [] => rfl
  | field :: rest =>
    rw [canonicalFields, jsonFields, Session.canonicalFields, canonicalField_json field,
      canonicalFields_json rest]

theorem canonicalField_json (field : Text × Argument) :
    canonicalField field = Session.canonicalField (jsonField field) := by
  match field with
  | (name, value) =>
    rw [canonicalField, jsonField, Session.canonicalField, canonicalJsonValue_json value]

end

mutual

theorem numerals_json (value : Argument) : value.json.Numerals := by
  match value with
  | .array items => exact numerals_jsonItems items
  | .object fields => exact numerals_jsonFields fields
  | .undefined => trivial
  | .null => trivial
  | .bool _ => trivial
  | .integer _ => trivial
  | .negativeZero => trivial
  | .fraction _ numeral => exact numeral
  | .nonFinite _ => trivial
  | .string _ => trivial

theorem numerals_jsonItems (items : List Argument) : Json.NumeralsItems (jsonItems items) := by
  match items with
  | [] => trivial
  | item :: rest => exact ⟨numerals_json item, numerals_jsonItems rest⟩

theorem numerals_jsonFields (fields : List (Text × Argument)) :
    Json.NumeralsFields (jsonFields fields) := by
  match fields with
  | [] => trivial
  | field :: rest => exact ⟨numerals_jsonField field, numerals_jsonFields rest⟩

theorem numerals_jsonField (field : Text × Argument) : Json.NumeralsField (jsonField field) := by
  match field with
  | (_, value) => exact numerals_json value

end

end Argument

/-! ## Which results repeat another -/

/-- A value of JSON as it is handed over. -/
def Proper (value : Json) : Prop := value.Numerals ∧ Schema.Distinct value

theorem Proper.get {value field : Json} {name : Text} (h : Proper value)
    (hfield : value.get name = some field) : Proper field :=
  ⟨Json.numerals_get h.1 hfield, Schema.distinct_get h.2 hfield⟩

theorem canonicalJsonValue_eq_iff_same {a b : Json} (ha : Proper a) (hb : Proper b) :
    canonicalJsonValue a = canonicalJsonValue b ↔ Schema.Same a b := by
  rw [canonicalJsonValue_eq a ha.2, canonicalJsonValue_eq b hb.2,
    Schema.stableJson_eq_iff ha.2 ha.1 hb.1]

theorem canonicalJsonValue_text {value : Json} (h : Proper value) :
    Json.Visible (canonicalJsonValue value) ∧ canonicalJsonValue value ≠ [] := by
  have hnumerals := Schema.numerals_canonicalize value h.1
  rw [canonicalJsonValue_eq value h.2]
  exact ⟨Json.visible_stringify _ hnumerals, Json.stringify_ne_nil hnumerals⟩

/-- The arguments of the calls of a message, by call. -/
def messageArguments (message : Message) : List (Text × Option Json) :=
  match message.isAssistant, message.content with
  | true, .array parts => (parts.filter fun part => isToolCall part && partCallId part ≠ []).map
      fun part => (partCallId part, part.get (toolCallArgumentField part))
  | _, _ => []

/-- The arguments of the last call that has the id of a result. -/
def argumentsOf (messages : List Message) (message : Message) : Option Json :=
  ((messages.flatMap messageArguments).reverse.lookup (message.toolCallId.getD [])).join

theorem lookup_map_snd {α β γ : Type} [BEq α] (f : β → γ) (l : List (α × β)) (a : α) :
    (l.map fun entry => (entry.1, f entry.2)).lookup a = (l.lookup a).map f := by
  induction l with
  | nil => rfl
  | cons entry l ih =>
    rw [List.map_cons, List.lookup_cons, List.lookup_cons, ih]
    cases a == entry.1 <;> rfl

theorem toolCallArgumentsIndex_eq (messages : List Message) :
    toolCallArgumentsIndex messages = ((messages.flatMap messageArguments).map fun entry =>
      (entry.1, normalizedToolArguments entry.2)).reverse := by
  rw [toolCallArgumentsIndex, List.map_flatMap]
  refine congrArg List.reverse (congrArg (messages.flatMap ·) (funext fun message => ?_))
  rw [callArguments, messageArguments]
  cases message.isAssistant with
  | false => rfl
  | true => cases message.content <;> simp

theorem lookup_toolCallArgumentsIndex (messages : List Message) (message : Message) :
    ((toolCallArgumentsIndex messages).lookup (message.toolCallId.getD [])).getD [] =
      normalizedToolArguments (argumentsOf messages message) := by
  rw [toolCallArgumentsIndex_eq, ← List.map_reverse, lookup_map_snd, argumentsOf]
  cases (messages.flatMap messageArguments).reverse.lookup (message.toolCallId.getD []) <;> rfl

theorem proper_argumentsOf {messages : List Message} (message : Message) {value : Json}
    (hproper : ∀ message ∈ messages, Proper message.content)
    (h : argumentsOf messages message = some value) : Proper value := by
  obtain ⟨before, after, hlist, -⟩ := List.lookup_eq_some_iff.mp (Option.join_eq_some_iff.mp h)
  have hmem : (message.toolCallId.getD [], some value) ∈ messages.flatMap messageArguments := by
    rw [← List.mem_reverse, hlist]
    exact List.mem_append_right _ List.mem_cons_self
  obtain ⟨caller, hcaller, hcall⟩ := List.mem_flatMap.mp hmem
  have hcontent := hproper caller hcaller
  rw [messageArguments.eq_def] at hcall
  split at hcall
  · next parts _ hparts =>
    rw [hparts] at hcontent
    obtain ⟨part, hpart, hentry⟩ := List.mem_map.mp hcall
    have hpart := List.mem_of_mem_filter hpart
    have hproperPart : Proper part :=
      ⟨Json.numeralsItems_iff.mp hcontent.1 part hpart,
        Schema.distinctItems_iff.mp hcontent.2 part hpart⟩
    exact hproperPart.get (Prod.mk.inj hentry).2
  · cases hcall

/-! ### The keys of the results -/

/-- Texts without the delimiter behind the last one are cut apart in one way. -/
theorem append_cons_inj {a a' b b' : Text} {u : UInt16} (hb : u ∉ b) (hb' : u ∉ b')
    (h : a ++ u :: b = a' ++ u :: b') : a = a' ∧ b = b' := by
  have hfirst : ∀ {s s' t t' : Text}, u ∉ s → u ∉ s' → s ++ u :: t = s' ++ u :: t' →
      s = s' ∧ t = t' := by
    intro s s' t t' hs hs' h
    induction s generalizing s' with
    | nil =>
      cases s' with
      | nil => exact ⟨rfl, (List.cons.inj h).2⟩
      | cons v s' => exact absurd (List.cons.inj h).1 (List.ne_of_not_mem_cons hs')
    | cons v s ih =>
      cases s' with
      | nil => exact absurd (List.cons.inj h).1.symm (List.ne_of_not_mem_cons hs)
      | cons v' s' =>
        obtain ⟨rfl, hrest⟩ := List.cons.inj h
        obtain ⟨rfl, htail⟩ := ih (List.not_mem_of_not_mem_cons hs)
          (List.not_mem_of_not_mem_cons hs') hrest
        exact ⟨rfl, htail⟩
  have hreverse := congrArg List.reverse h
  simp only [List.reverse_append, List.reverse_cons, List.append_assoc,
    List.singleton_append] at hreverse
  obtain ⟨hlast, hrest⟩ := hfirst (fun hmem => hb (List.mem_reverse.mp hmem))
    (fun hmem => hb' (List.mem_reverse.mp hmem)) hreverse
  exact ⟨List.reverse_injective hrest, List.reverse_injective hlast⟩

/-- Two results of one tool, for the same arguments and with the same digest. -/
structure RepeatedCall (messages : List Message) (a b : Message) : Prop where
  toolName : a.toolName.getD [] = b.toolName.getD []
  arguments : Option.Rel Schema.Same (argumentsOf messages a) (argumentsOf messages b)
  digest : S.sha256 (utf8 (contentToText S a.content)) = S.sha256 (utf8 (contentToText S b.content))

section Keys

variable {S} {messages : List Message}

theorem normalizedToolArguments_eq {a b : Option Json} (ha : ∀ value, a = some value → Proper value)
    (hb : ∀ value, b = some value → Proper value)
    (h : normalizedToolArguments a = normalizedToolArguments b) : Option.Rel Schema.Same a b := by
  cases a with
  | none =>
    cases b with
    | none => exact .none
    | some b => exact absurd h.symm (canonicalJsonValue_text (hb b rfl)).2
  | some a =>
    cases b with
    | none => exact absurd h (canonicalJsonValue_text (ha a rfl)).2
    | some b => exact .some ((canonicalJsonValue_eq_iff_same (ha a rfl) (hb b rfl)).mp h)

theorem zero_notMem_normalizedToolArguments {a : Option Json}
    (ha : ∀ value, a = some value → Proper value) : (0 : UInt16) ∉ normalizedToolArguments a := by
  cases a with
  | none => exact List.not_mem_nil
  | some a =>
    intro hmem
    exact absurd ((canonicalJsonValue_text (ha a rfl)).1 0 hmem) (by decide)

/-- Results with one key come from calls that are the same. -/
theorem repeatedCall_of_resultKey (hdigest : ∀ bytes, (0 : UInt16) ∉ S.sha256 bytes)
    (hproper : ∀ message ∈ messages, Proper message.content) {a b : Message}
    (h : resultKey S (toolCallArgumentsIndex messages) a =
      resultKey S (toolCallArgumentsIndex messages) b) : RepeatedCall S messages a b := by
  simp only [resultKey, lookup_toolCallArgumentsIndex, List.append_assoc,
    List.singleton_append] at h
  have ha : ∀ value, argumentsOf messages a = some value → Proper value :=
    fun value => proper_argumentsOf a hproper
  have hb : ∀ value, argumentsOf messages b = some value → Proper value :=
    fun value => proper_argumentsOf b hproper
  rw [← List.append_assoc, ← List.append_assoc] at h
  obtain ⟨hcall, hdigests⟩ := append_cons_inj (hdigest _) (hdigest _) h
  obtain ⟨hname, harguments⟩ := append_cons_inj (zero_notMem_normalizedToolArguments ha)
    (zero_notMem_normalizedToolArguments hb) hcall
  exact ⟨hname, normalizedToolArguments_eq ha hb harguments, hdigests⟩

end Keys

/-! ### Runs -/

section Runs

variable {S} {ε σ : Type} {messages : List Message}

/-- The result at an index repeats one with its key, which is noted already or comes before it. -/
def Repeats (S : Setting) (callArguments seen : List (Text × Text)) (rest : List Message)
    (i : Nat) : Prop :=
  ∃ message, rest[i]? = some message ∧ message.isToolResult = true ∧
    ((seen.lookup (resultKey S callArguments message)).isSome = true ∨
      ∃ k < i, ∃ earlier, rest[k]? = some earlier ∧ earlier.isToolResult = true ∧
        resultKey S callArguments earlier = resultKey S callArguments message)

theorem Repeats.cons {callArguments seen : List (Text × Text)} {rest : List Message} {i : Nat}
    (first : Message) (h : Repeats S callArguments seen rest i) :
    Repeats S callArguments seen (first :: rest) (i + 1) := by
  obtain ⟨message, hi, hresult, hkey⟩ := h
  refine ⟨message, hi, hresult, hkey.imp_right ?_⟩
  rintro ⟨k, hk, earlier, hearlier⟩
  exact ⟨k + 1, Nat.succ_lt_succ hk, earlier, hearlier⟩

theorem Repeats.cons_noted {callArguments seen : List (Text × Text)} {rest : List Message}
    {i : Nat} {first : Message} {reference : Text} (hfirst : first.isToolResult = true)
    (h : Repeats S callArguments ((resultKey S callArguments first, reference) :: seen) rest i) :
    Repeats S callArguments seen (first :: rest) (i + 1) := by
  obtain ⟨message, hi, hresult, hkey⟩ := h
  refine ⟨message, hi, hresult, ?_⟩
  rcases hkey with hnoted | ⟨k, hk, earlier, hearlier⟩
  · rw [List.lookup_cons] at hnoted
    split at hnoted
    · next heq =>
      exact .inr ⟨0, Nat.succ_pos i, first, rfl, hfirst, (eq_of_beq heq).symm⟩
    · exact .inl hnoted
  · exact .inr ⟨k + 1, Nat.succ_lt_succ hk, earlier, hearlier⟩

/-- Whatever the archive answers, only results are replaced that repeat another. -/
theorem deduplicateFrom_returns (callArguments : List (Text × Text))
    (store : Message → Text → Effect ε σ (Option Text)) (index : Nat)
    (seen : List (Text × Text)) (rest : List Message) :
    Returns (fun out : Deduplicated => ∀ i ∈ out.externalizedMessageIndexes,
        ∃ j, i = index + j ∧ Repeats S callArguments seen rest j)
      (deduplicateFrom S callArguments store index seen rest) := by
  induction rest generalizing index seen with
  | nil =>
    refine Returns.pure ?_
    intro i hi
    cases hi
  | cons message rest ih =>
    rw [deduplicateFrom]
    split
    · refine (ih (index + 1) seen).bind fun others hothers => Returns.pure ?_
      intro i hi
      obtain ⟨j, rfl, hrepeats⟩ := hothers i hi
      exact ⟨j + 1, by omega, hrepeats.cons message⟩
    · next hresult =>
      rw [Bool.not_eq_false] at hresult
      split
      · refine (ih (index + 1) _).bind fun others hothers => Returns.pure ?_
        intro i hi
        obtain ⟨j, rfl, hrepeats⟩ := hothers i hi
        exact ⟨j + 1, by omega, hrepeats.cons_noted hresult⟩
      · next reference hnoted =>
        refine Returns.after fun id => ?_
        refine (ih (index + 1) seen).bind fun others hothers => Returns.pure ?_
        intro i hi
        rcases List.mem_append.mp hi with hi | hi
        · split at hi
          · rw [List.mem_singleton.mp hi]
            exact ⟨0, rfl, message, rfl, hresult, .inl (by rw [hnoted]; rfl)⟩
          · cases hi
        · obtain ⟨j, rfl, hrepeats⟩ := hothers i hi
          exact ⟨j + 1, by omega, hrepeats.cons message⟩

/-- A result is taken for a repetition of one before it from a call that is the same. -/
theorem deduplicateToolResults_repeatedCall (hdigest : ∀ bytes, (0 : UInt16) ∉ S.sha256 bytes)
    (hproper : ∀ message ∈ messages, Proper message.content)
    (store : Message → Text → Effect ε σ (Option Text)) :
    Returns (fun out : Deduplicated => ∀ i ∈ out.externalizedMessageIndexes,
        ∃ k < i, ∃ earlier message, messages[k]? = some earlier ∧ messages[i]? = some message ∧
          earlier.isToolResult = true ∧ message.isToolResult = true ∧
          RepeatedCall S messages earlier message)
      (deduplicateToolResults S store messages) := by
  intro s out t hrun i hi
  obtain ⟨j, hij, message, hj, hresult, hnoted | ⟨k, hk, earlier, hearlier, htool, hkey⟩⟩ :=
    deduplicateFrom_returns (toolCallArgumentsIndex messages) store 0 [] messages s out t hrun i hi
  · cases hnoted
  · rw [Nat.zero_add] at hij
    subst hij
    exact ⟨k, hk, earlier, message, hearlier, hj, htool, hresult,
      repeatedCall_of_resultKey hdigest hproper hkey⟩

end Runs

/-! ## Arguments told apart -/

section Told

variable {S} {ε σ : Type}

/-- The digest of nothing. -/
def emptyDigestSetting : Setting :=
  { plainSetting with
    sha256 := fun _ => text "e3b0c44298fc1c149afbf4c8996fb92427ae41e4649b934ca495991b7852b855" }

end Told

namespace Argument

mutual

/-- The same argument, up to the order of the fields of its objects. -/
inductive Same : Argument → Argument → Prop
  | refl (value : Argument) : Same value value
  | array {items items' : List Argument} : SameItems items items' →
      Same (.array items) (.array items')
  | object {fields fields' permuted : List (Text × Argument)} : SameFields fields fields' →
      permuted.Perm fields' → Same (.object fields) (.object permuted)

inductive SameItems : List Argument → List Argument → Prop
  | nil : SameItems [] []
  | cons {item item' : Argument} {rest rest' : List Argument} : Same item item' →
      SameItems rest rest' → SameItems (item :: rest) (item' :: rest')

inductive SameFields : List (Text × Argument) → List (Text × Argument) → Prop
  | nil : SameFields [] []
  | cons {field field' : Text × Argument} {rest rest' : List (Text × Argument)} :
      field.1 = field'.1 → Same field.2 field'.2 → SameFields rest rest' →
      SameFields (field :: rest) (field' :: rest')

end

theorem Same.of_single {name name' : Text} {value value' : Argument}
    (h : Same (.object [(name, value)]) (.object [(name', value')])) : Same value value' := by
  cases h with
  | refl => exact .refl _
  | object hfields hperm =>
    cases hfields with
    | cons hname hvalue hrest =>
      cases hrest
      obtain rfl := List.singleton_perm_singleton.mp hperm
      exact hvalue

end Argument

end ContextStore.Session
