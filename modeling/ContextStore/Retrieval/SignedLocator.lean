import ContextStore.Foundation.Base64Url
import ContextStore.Foundation.Delimited
import ContextStore.Store.KeyEncoding
import ContextStore.Store.StableJson

/-! # Signed locators

A locator carries claims about a place in the archive as text: their JSON in base64url and a tag
of it, which only the owner of the secret can make. Signing checks what the claims are; verifying
checks that too, and how long the locator is. -/

namespace ContextStore.SignedLocator

open Unicode (Text utf8 decode text)
open Base64Url (isBase64Url)
open Concurrent (bind_ok_iff)
open Schema (canonicalize stableJson Same Distinct)

def LOCATOR_PREFIX : Text := text "cw1"

def LOCATOR_SECRET_BYTES : Nat := 32

def STORE_LOCATOR_VERSION : Int := 1

def MAX_STORE_IDENTIFIER_LENGTH : Nat := 8192

def MAX_LOCATOR_LENGTH : Nat := 128 * 1024

def MAX_PAYLOAD_BYTES : Nat := 64 * 1024

inductive Failure where
  | locator (message : String)
  | typeError (message : String)
  | rangeError (message : String)

/-- `if (!condition) throw new LocatorError(message)` -/
def require (condition : Bool) (message : String) : Except Failure Unit :=
  if condition then .ok () else .error (.locator message)

theorem require_eq_ok {condition : Bool} {message : String} {done : Unit} :
    require condition message = .ok done ↔ condition = true := by
  cases condition <;> simp [require]

/-! ## Claims -/

/-- `value[name]`, of claims that are known to have the field. -/
def field (value : Json) (name : String) : Json := (value.get (text name)).getD .null

def number (value : Json) : Int := value.asNumber.getD 0

def identifier : Json → Bool
  | .string value => 1 ≤ value.length && value.length ≤ MAX_STORE_IDENTIFIER_LENGTH
  | _ => false

def integer (minimum : Int) : Json → Bool
  | .number value => KeyEncoding.isSafeInteger value && minimum ≤ value
  | _ => false

def literal (expected : Int) : Json → Bool
  | .number value => value = expected
  | _ => false

def enumeration (allowed : List String) : Json → Bool
  | .string value => allowed.any fun name => text name = value
  | _ => false

/-- `object(properties)`: every property is required, and there is no other field. -/
def object (properties : List (String × (Json → Bool))) : Json → Bool
  | .object fields =>
    (fields.all fun field => properties.any fun property => text property.1 = field.1) &&
      properties.all fun property => ((Json.object fields).get (text property.1)).any property.2
  | _ => false

def matchRange : Json → Bool := object [("startByte", integer 0), ("endByte", integer 0)]

def LOCATOR_PAYLOAD_SCHEMA : Json → Bool := object [
  ("locatorVersion", literal STORE_LOCATOR_VERSION),
  ("documentId", identifier),
  ("documentVersion", integer 1),
  ("windowOrdinal", integer 0),
  ("matchRange", matchRange),
  ("indexGeneration", integer 0),
  ("leaseId", identifier),
  ("project", identifier),
  ("sessionId", identifier),
  ("scope", enumeration ["session", "project"]),
  ("issuedAt", integer 0),
  ("expiresAt", integer 0)]

def validateClaims (payload : Json) : Except Failure Json := do
  require (LOCATOR_PAYLOAD_SCHEMA payload) "The locator claims are malformed."
  let range := field payload "matchRange"
  require (number (field range "startByte") ≤ number (field range "endByte"))
    "The locator match range is reversed."
  require (number (field payload "issuedAt") < number (field payload "expiresAt"))
    "The locator expiry must follow its issue time."
  return payload

/-! ## Signing -/

/-- `createHmac("sha256", key)` -/
structure Mac where
  digest : List UInt8 → List UInt8 → List UInt8
  length_digest : ∀ key message, (digest key message).length = 32

inductive Secret where
  | bytes (value : List UInt8)
  | text (value : Text)

def secretBytes (secret : Secret) : Except Failure (List UInt8) := do
  let bytes ← match secret with
    | .bytes value => .ok value
    | .text value =>
      if !isBase64Url value then
        .error (.typeError "Locator secrets must be base64url strings or byte arrays.")
      else if Base64Url.encode (Base64Url.decode value) ≠ value then
        .error (.typeError "Locator secrets must use canonical base64url encoding.")
      else .ok (Base64Url.decode value)
  if bytes.length < LOCATOR_SECRET_BYTES then
    .error (.rangeError ("Locator secrets must contain at least " ++
      toString LOCATOR_SECRET_BYTES ++ " bytes."))
  else .ok bytes

/-- `update(value, "ascii")` takes the low byte of every code unit. -/
def asciiBytes (value : Text) : List UInt8 := value.map fun u => UInt8.ofNat u.toNat

/-- What the tag is made of. -/
def macInput (version encodedPayload : Text) : List UInt8 :=
  asciiBytes version ++ 0x2e :: asciiBytes encodedPayload

def encodePayload (claims : Json) : Text := Base64Url.encode (utf8 (stableJson claims))

/-- The three parts with dots between them. -/
def join (version encodedPayload signature : Text) : Text :=
  version ++ 0x2e :: (encodedPayload ++ 0x2e :: signature)

variable (mac : Mac)

def signLocator (payload : Json) (secret : Secret) : Except Failure Text := do
  let claims ← validateClaims payload
  let key ← secretBytes secret
  let signature :=
    Base64Url.encode (mac.digest key (macInput LOCATOR_PREFIX (encodePayload claims)))
  return join LOCATOR_PREFIX (encodePayload claims) signature

/-! ## Verifying -/

def decodeJsonPayload (encodedPayload : Text) : Except Failure Json := do
  require (isBase64Url encodedPayload) "The locator payload is not base64url data."
  let bytes := Base64Url.decode encodedPayload
  require (Base64Url.encode bytes = encodedPayload)
    "The locator payload is not canonical base64url data."
  require (bytes ≠ [] && bytes.length ≤ MAX_PAYLOAD_BYTES)
    "The locator payload has an invalid length."
  match Json.parse (decode bytes) with
  | none => throw (.locator "The locator payload is not valid JSON.")
  | some payload => return payload

/-- `locator.split(".")` -/
def parts (locator : Text) : List Text :=
  Delimited.frames 0x2e locator ++ [Delimited.tail 0x2e locator]

/-- The checks of a locator in three parts. -/
def verifyParts (secret : Secret) (version encodedPayload signature : Text) :
    Except Failure Json := do
  require (version = LOCATOR_PREFIX && encodedPayload ≠ [] && signature ≠ [])
    "The locator format or version is unsupported."
  let key ← secretBytes secret
  let expected := mac.digest key (macInput version encodedPayload)
  require (isBase64Url signature) "The locator signature is not base64url data."
  let supplied := Base64Url.decode signature
  require (Base64Url.encode supplied = signature)
    "The locator signature is not canonical base64url data."
  require (supplied = expected) "The locator signature is invalid."
  let payload ← decodeJsonPayload encodedPayload
  validateClaims payload

def verifyLocator (locator : Text) (secret : Secret) : Except Failure Json := do
  require (locator ≠ [] && locator.length ≤ MAX_LOCATOR_LENGTH)
    "The locator must be a bounded non-empty string."
  match parts locator with
  | [version, encodedPayload, signature] => verifyParts mac secret version encodedPayload signature
  | _ => throw (.locator "The locator format or version is unsupported.")

def authorizeLocator (locator : Text) (secret : Secret) (project : Option Text)
    (sessionIds : Option (List Text)) : Except Failure Json := do
  let claims ← verifyLocator mac locator secret
  require (project.isSome && project ≠ some [] && (field claims "project").asString = project)
    "The locator is outside the authorized project boundary."
  let lineage := sessionIds.getD []
  require ((field claims "scope").asString ≠ some (text "session") ||
      lineage.any fun sessionId => (field claims "sessionId").asString = some sessionId)
    "The locator is outside the authorized session lineage."
  return claims

/-! ## Schemas -/

section Schemas

variable {properties : List (String × (Json → Bool))} {value : Json}

theorem object_eq_true {fields : List (Text × Json)} :
    object properties (.object fields) = true ↔
      (∀ field ∈ fields, ∃ property ∈ properties, text property.1 = field.1) ∧
        ∀ property ∈ properties, ∃ value,
          (Json.object fields).get (text property.1) = some value ∧ property.2 value = true := by
  simp only [object, Bool.and_eq_true, List.all_eq_true, List.any_eq_true, decide_eq_true_eq,
    Option.any_eq_true]

/-- A check that does not depend on the order of fields. -/
def Unordered (check : Json → Bool) : Prop :=
  ∀ value, Distinct value → check (canonicalize value) = check value

theorem unordered_identifier : Unordered identifier := by
  intro value _
  cases value <;> rfl

theorem unordered_integer (minimum : Int) : Unordered (integer minimum) := by
  intro value _
  cases value <;> rfl

theorem unordered_literal (expected : Int) : Unordered (literal expected) := by
  intro value _
  cases value <;> rfl

theorem unordered_enumeration (allowed : List String) : Unordered (enumeration allowed) := by
  intro value _
  cases value <;> rfl

theorem distinct_of_get {name : Text} {found : Json} (h : Distinct value)
    (hget : value.get name = some found) : Distinct found := by
  cases value with
  | object fields =>
    obtain ⟨field, hfield, rfl⟩ := Option.map_eq_some_iff.mp hget
    exact Schema.distinctFields_iff.mp h.2 field
      (List.mem_reverse.mp (List.mem_of_find?_eq_some hfield))
  | null => cases hget
  | bool _ => cases hget
  | number _ => cases hget
  | fraction _ => cases hget
  | string _ => cases hget
  | array _ => cases hget

theorem unordered_object (h : ∀ property ∈ properties, Unordered property.2) :
    Unordered (object properties) := by
  intro value hdistinct
  cases value with
  | object fields =>
    have hnames := Schema.names_canonicalize fields
    have hget := fun name => Schema.get_canonicalize hdistinct.1 name
    rw [Bool.eq_iff_iff]
    rw [canonicalize] at hget ⊢
    rw [object_eq_true, object_eq_true]
    refine and_congr ⟨fun hall field hfield => ?_, fun hall field hfield => ?_⟩
      (forall₂_congr fun property hproperty => ?_)
    · obtain ⟨other, hother, hname⟩ :=
        List.mem_map.mp (hnames.mem_iff.mpr (List.mem_map_of_mem hfield))
      rw [← hname]
      exact hall other hother
    · obtain ⟨other, hother, hname⟩ :=
        List.mem_map.mp (hnames.mem_iff.mp (List.mem_map_of_mem hfield))
      rw [← hname]
      exact hall other hother
    · rw [hget]
      constructor
      · rintro ⟨found, hfound, hcheck⟩
        obtain ⟨original, horiginal, rfl⟩ := Option.map_eq_some_iff.mp hfound
        rw [h property hproperty original (distinct_of_get hdistinct horiginal)] at hcheck
        exact ⟨original, horiginal, hcheck⟩
      · rintro ⟨original, horiginal, hcheck⟩
        rw [horiginal]
        refine ⟨_, rfl, ?_⟩
        rwa [h property hproperty original (distinct_of_get hdistinct horiginal)]
  | null => rfl
  | bool _ => rfl
  | number _ => rfl
  | fraction _ => rfl
  | string _ => rfl
  | array _ => rfl

/-- A check that no fraction passes. -/
def Whole (check : Json → Bool) : Prop :=
  ∀ value, Distinct value → check value = true → value.Integral

theorem whole_identifier : Whole identifier := by
  intro value _ h
  cases value <;> trivial

theorem whole_integer (minimum : Int) : Whole (integer minimum) := by
  intro value _ h
  cases value <;> trivial

theorem whole_literal (expected : Int) : Whole (literal expected) := by
  intro value _ h
  cases value <;> trivial

theorem whole_enumeration (allowed : List String) : Whole (enumeration allowed) := by
  intro value _ h
  cases value <;> trivial

theorem whole_object (h : ∀ property ∈ properties, Whole property.2) :
    Whole (object properties) := by
  intro value hdistinct hcheck
  cases value with
  | object fields =>
    obtain ⟨hknown, hall⟩ := object_eq_true.mp hcheck
    refine Json.integralFields_iff.mpr fun field hfield => ?_
    obtain ⟨property, hproperty, hname⟩ := hknown field hfield
    obtain ⟨found, hfound, hpasses⟩ := hall property hproperty
    rw [hname, Json.get_object hdistinct.1 hfield, Option.some.injEq] at hfound
    subst hfound
    exact h property hproperty _ (Schema.distinctFields_iff.mp hdistinct.2 field hfield) hpasses
  | null => trivial
  | bool _ => trivial
  | number _ => trivial
  | fraction _ => cases hcheck
  | string _ => trivial
  | array _ => cases hcheck

theorem unordered_matchRange : Unordered matchRange := by
  refine unordered_object ?_
  simp only [List.forall_mem_cons, List.not_mem_nil, false_imp_iff, implies_true, and_true]
  exact ⟨unordered_integer 0, unordered_integer 0⟩

theorem whole_matchRange : Whole matchRange := by
  refine whole_object ?_
  simp only [List.forall_mem_cons, List.not_mem_nil, false_imp_iff, implies_true, and_true]
  exact ⟨whole_integer 0, whole_integer 0⟩

theorem unordered_payload : Unordered LOCATOR_PAYLOAD_SCHEMA := by
  refine unordered_object ?_
  simp only [List.forall_mem_cons, List.not_mem_nil, false_imp_iff, implies_true, and_true]
  exact ⟨unordered_literal _, unordered_identifier, unordered_integer 1, unordered_integer 0,
    unordered_matchRange, unordered_integer 0, unordered_identifier, unordered_identifier,
    unordered_identifier, unordered_enumeration _, unordered_integer 0, unordered_integer 0⟩

theorem whole_payload : Whole LOCATOR_PAYLOAD_SCHEMA := by
  refine whole_object ?_
  simp only [List.forall_mem_cons, List.not_mem_nil, false_imp_iff, implies_true, and_true]
  exact ⟨whole_literal _, whole_identifier, whole_integer 1, whole_integer 0, whole_matchRange,
    whole_integer 0, whole_identifier, whole_identifier, whole_identifier, whole_enumeration _,
    whole_integer 0, whole_integer 0⟩

end Schemas

/-! ## Claims in canonical form -/

section Claims

variable {payload claims : Json}

theorem field_canonicalize (h : Distinct payload) (name : String) :
    field (canonicalize payload) name = canonicalize (field payload name) := by
  cases payload with
  | object fields =>
    rw [field, field, Schema.get_canonicalize h.1]
    cases (Json.object fields).get (text name) <;> rfl
  | null => rfl
  | bool _ => rfl
  | number _ => rfl
  | fraction _ => rfl
  | string _ => rfl
  | array _ => rfl

theorem distinct_field (h : Distinct payload) (name : String) : Distinct (field payload name) := by
  rw [field]
  cases hget : payload.get (text name) with
  | none => trivial
  | some found => exact distinct_of_get h hget

theorem number_canonicalize (value : Json) : number (canonicalize value) = number value := by
  cases value <;> rfl

theorem validateClaims_eq_ok :
    validateClaims payload = .ok claims ↔ claims = payload ∧ LOCATOR_PAYLOAD_SCHEMA payload = true ∧
      number (field (field payload "matchRange") "startByte") ≤
        number (field (field payload "matchRange") "endByte") ∧
      number (field payload "issuedAt") < number (field payload "expiresAt") := by
  rw [validateClaims]
  constructor
  · intro h
    obtain ⟨_, hschema, h⟩ := bind_ok_iff.mp h
    obtain ⟨_, hrange, h⟩ := bind_ok_iff.mp h
    obtain ⟨_, hexpiry, h⟩ := bind_ok_iff.mp h
    cases h
    exact ⟨rfl, require_eq_ok.mp hschema, of_decide_eq_true (require_eq_ok.mp hrange),
      of_decide_eq_true (require_eq_ok.mp hexpiry)⟩
  · rintro ⟨rfl, hschema, hrange, hexpiry⟩
    dsimp only
    rw [hschema, decide_eq_true hrange, decide_eq_true hexpiry]
    rfl

/-- Claims pass the checks in canonical form as they do in any other order. -/
theorem validateClaims_canonicalize (hdistinct : Distinct payload)
    (h : validateClaims payload = .ok claims) :
    claims = payload ∧ validateClaims (canonicalize payload) = .ok (canonicalize payload) ∧
      payload.Integral := by
  obtain ⟨rfl, hschema, hrange, hexpiry⟩ := validateClaims_eq_ok.mp h
  refine ⟨rfl, validateClaims_eq_ok.mpr ⟨rfl, ?_, ?_, ?_⟩, whole_payload _ hdistinct hschema⟩
  · rwa [unordered_payload _ hdistinct]
  · rwa [field_canonicalize hdistinct, field_canonicalize (distinct_field hdistinct _),
      field_canonicalize (distinct_field hdistinct _), number_canonicalize, number_canonicalize]
  · rwa [field_canonicalize hdistinct, field_canonicalize hdistinct, number_canonicalize,
      number_canonicalize]

end Claims

/-! ## Parts -/

section Parts

variable {locator version encodedPayload signature : Text}

theorem join_of_parts (h : parts locator = [version, encodedPayload, signature]) :
    locator = join version encodedPayload signature := by
  have hsplit : Delimited.frames 0x2e locator ++ [Delimited.tail 0x2e locator] =
      [version, encodedPayload] ++ [signature] := h
  obtain ⟨hframes, htail⟩ := List.append_inj' hsplit rfl
  have hjoin := @Delimited.cut_join _ _ (0x2e : UInt16) [] locator
  rw [Delimited.frames] at hframes
  rw [Delimited.tail, List.cons.injEq] at htail
  rw [hframes, htail.1] at hjoin
  simpa [join] using hjoin.symm

theorem parts_join (hversion : 0x2e ∉ version) (hpayload : 0x2e ∉ encodedPayload)
    (hsignature : 0x2e ∉ signature) :
    parts (join version encodedPayload signature) = [version, encodedPayload, signature] := by
  rw [parts, Delimited.frames, Delimited.tail, join, Delimited.cut_append,
    Delimited.cut_of_notMem hversion]
  simp only [Delimited.cut_delimiter, Delimited.cut_append, Delimited.cut_of_notMem hpayload,
    Delimited.cut_of_notMem hsignature]
  rfl

theorem dot_notMem_encode (bytes : List UInt8) : 0x2e ∉ Base64Url.encode bytes := by
  obtain ⟨indices, hsmall, hencode, -⟩ := Base64Url.exists_indices bytes
  rw [hencode, List.mem_map]
  rintro ⟨n, hn, heq⟩
  exact (Base64Url.letter_plain n (hsmall n hn)).2 heq

theorem ofBytes_asciiBytes {t : Text} (h : isBase64Url t = true) :
    (asciiBytes t).map (fun byte => UInt16.ofNat byte.toNat) = t := by
  rw [isBase64Url, Bool.and_eq_true, List.all_eq_true] at h
  rw [asciiBytes, List.map_map]
  refine (List.map_congr_left fun u hu => ?_).trans (List.map_id t)
  have hsmall := (Base64Url.plain_of_index (h.2 u hu)).1
  have hbyte : (UInt8.ofNat u.toNat).toNat = u.toNat := Nat.mod_eq_of_lt (by omega)
  show UInt16.ofNat (UInt8.ofNat u.toNat).toNat = u
  rw [hbyte, UInt16.ofNat_toNat]

theorem asciiBytes_injective {t t' : Text} (ht : isBase64Url t = true)
    (ht' : isBase64Url t' = true) (h : asciiBytes t = asciiBytes t') : t = t' := by
  rw [← ofBytes_asciiBytes ht, h, ofBytes_asciiBytes ht']

end Parts

/-! ## Round trip and rejection -/

section RoundTrip

variable {mac : Mac} {payload claims : Json} {secret : Secret}
  {locator version encodedPayload signature : Text} {key : List UInt8}

theorem signLocator_eq_ok :
    signLocator mac payload secret = .ok locator ↔ ∃ key,
      validateClaims payload = .ok payload ∧ secretBytes secret = .ok key ∧
      locator = join LOCATOR_PREFIX (encodePayload payload)
        (Base64Url.encode (mac.digest key (macInput LOCATOR_PREFIX (encodePayload payload)))) := by
  rw [signLocator]
  constructor
  · intro h
    obtain ⟨claims, hclaims, hrest⟩ := bind_ok_iff.mp h
    obtain ⟨key, hkey, hjoin⟩ := bind_ok_iff.mp hrest
    obtain rfl := (validateClaims_eq_ok.mp hclaims).1
    cases hjoin
    exact ⟨key, hclaims, hkey, rfl⟩
  · rintro ⟨key, hclaims, hkey, rfl⟩
    rw [hclaims, hkey]
    rfl

theorem decodeJsonPayload_eq_ok :
    decodeJsonPayload encodedPayload = .ok payload ↔ isBase64Url encodedPayload = true ∧
      Base64Url.encode (Base64Url.decode encodedPayload) = encodedPayload ∧
      Base64Url.decode encodedPayload ≠ [] ∧
      (Base64Url.decode encodedPayload).length ≤ MAX_PAYLOAD_BYTES ∧
      Json.parse (decode (Base64Url.decode encodedPayload)) = some payload := by
  rw [decodeJsonPayload]
  constructor
  · intro h
    obtain ⟨_, hletters, h⟩ := bind_ok_iff.mp h
    obtain ⟨_, hcanonical, h⟩ := bind_ok_iff.mp h
    obtain ⟨_, hlength, h⟩ := bind_ok_iff.mp h
    rw [require_eq_ok] at hletters hcanonical hlength
    rw [Bool.and_eq_true, decide_eq_true_eq, decide_eq_true_eq] at hlength
    refine ⟨hletters, of_decide_eq_true hcanonical, hlength.1, hlength.2, ?_⟩
    cases hparse : Json.parse (decode (Base64Url.decode encodedPayload)) with
    | none =>
      rw [hparse] at h
      cases h
    | some found =>
      rw [hparse] at h
      cases h
      rfl
  · rintro ⟨hletters, hcanonical, hne, hlength, hparse⟩
    dsimp only
    rw [hletters, decide_eq_true hcanonical, decide_eq_true hne, decide_eq_true hlength, hparse]
    rfl

theorem verifyParts_eq_ok :
    verifyParts mac secret version encodedPayload signature = .ok claims ↔
      version = LOCATOR_PREFIX ∧ encodedPayload ≠ [] ∧ signature ≠ [] ∧
      ∃ key, secretBytes secret = .ok key ∧ isBase64Url signature = true ∧
        Base64Url.encode (Base64Url.decode signature) = signature ∧
        Base64Url.decode signature = mac.digest key (macInput version encodedPayload) ∧
        decodeJsonPayload encodedPayload = .ok claims ∧ validateClaims claims = .ok claims := by
  rw [verifyParts]
  constructor
  · intro h
    obtain ⟨_, hformat, h⟩ := bind_ok_iff.mp h
    obtain ⟨key, hkey, h⟩ := bind_ok_iff.mp h
    obtain ⟨_, hletters, h⟩ := bind_ok_iff.mp h
    obtain ⟨_, hcanonical, h⟩ := bind_ok_iff.mp h
    obtain ⟨_, htag, h⟩ := bind_ok_iff.mp h
    obtain ⟨payload, hpayload, h⟩ := bind_ok_iff.mp h
    obtain rfl := (validateClaims_eq_ok.mp h).1
    rw [require_eq_ok] at hformat hletters hcanonical htag
    simp only [Bool.and_eq_true, decide_eq_true_eq] at hformat hcanonical htag
    exact ⟨hformat.1.1, hformat.1.2, hformat.2, key, hkey, hletters, hcanonical, htag, hpayload, h⟩
  · rintro ⟨hversion, hpayload, hsignature, key, hkey, hletters, hcanonical, htag, hdecode, hvalid⟩
    dsimp only
    rw [decide_eq_true hversion, decide_eq_true hpayload, decide_eq_true hsignature, hkey, hletters,
      decide_eq_true hcanonical]
    simp only [Bind.bind, Except.bind, require]
    rw [decide_eq_true htag, hdecode]
    exact hvalid

theorem verifyLocator_eq_ok :
    verifyLocator mac locator secret = .ok claims ↔ locator ≠ [] ∧
      locator.length ≤ MAX_LOCATOR_LENGTH ∧ ∃ version encodedPayload signature,
        parts locator = [version, encodedPayload, signature] ∧
        verifyParts mac secret version encodedPayload signature = .ok claims := by
  rw [verifyLocator]
  constructor
  · intro h
    obtain ⟨_, hlength, h⟩ := bind_ok_iff.mp h
    rw [require_eq_ok, Bool.and_eq_true, decide_eq_true_eq, decide_eq_true_eq] at hlength
    split at h
    · next hparts => exact ⟨hlength.1, hlength.2, _, _, _, hparts, h⟩
    · cases h
  · rintro ⟨hne, hlength, version, encodedPayload, signature, hparts, h⟩
    rw [decide_eq_true hne, decide_eq_true hlength, hparts]
    exact h

theorem parts_signed (payload : Json) (tag : List UInt8) :
    parts (join LOCATOR_PREFIX (encodePayload payload) (Base64Url.encode tag)) =
      [LOCATOR_PREFIX, encodePayload payload, Base64Url.encode tag] :=
  parts_join (by decide) (dot_notMem_encode _) (dot_notMem_encode _)

theorem utf8_stableJson_ne_nil (h : payload.Integral) : utf8 (stableJson payload) ≠ [] := by
  obtain ⟨u, rest, hhead, -⟩ := Json.stringify_head (Schema.integral_canonicalize payload h)
  intro hnil
  have hself : Unicode.toWellFormed (canonicalize payload).stringify =
      (canonicalize payload).stringify := Unicode.toWellFormed_of_isWellFormed
    (Json.isWellFormed_stringify _ (Schema.integral_canonicalize payload h))
  have hwhole := congrArg decode hnil
  rw [stableJson, Unicode.decode_utf8, hself, hhead] at hwhole
  cases hwhole

theorem length_le_of_verified (h : signLocator mac payload secret = .ok locator)
    (hverify : verifyLocator mac locator secret = .ok claims) :
    (utf8 (stableJson payload)).length ≤ MAX_PAYLOAD_BYTES := by
  obtain ⟨key, -, -, rfl⟩ := signLocator_eq_ok.mp h
  obtain ⟨-, -, version, encodedPayload, signature, hparts, hok⟩ := verifyLocator_eq_ok.mp hverify
  rw [parts_signed] at hparts
  cases hparts
  obtain ⟨-, -, -, _, -, -, -, -, hpayload, -⟩ := verifyParts_eq_ok.mp hok
  obtain ⟨-, -, -, hlength, -⟩ := decodeJsonPayload_eq_ok.mp hpayload
  rwa [encodePayload, Base64Url.decode_encode] at hlength

/-- What is signed is verified just where it is not too long, and the claims come back. -/
theorem verifyLocator_signed_iff (hdistinct : Distinct payload)
    (h : signLocator mac payload secret = .ok locator) :
    (∃ claims, verifyLocator mac locator secret = .ok claims ∧ Same payload claims) ↔
      (utf8 (stableJson payload)).length ≤ MAX_PAYLOAD_BYTES := by
  obtain ⟨key, hclaims, hkey, rfl⟩ := signLocator_eq_ok.mp h
  obtain ⟨-, hcanonical, hintegral⟩ := validateClaims_canonicalize hdistinct hclaims
  obtain ⟨hparse, hsame⟩ := Schema.parse_stableJson hintegral
  have hbytes : Base64Url.decode (encodePayload payload) = utf8 (stableJson payload) :=
    Base64Url.decode_encode _
  have hne := utf8_stableJson_ne_nil hintegral
  have htext : decode (utf8 (stableJson payload)) = stableJson payload := by
    rw [Unicode.decode_utf8]
    exact Unicode.toWellFormed_of_isWellFormed
      (Json.isWellFormed_stringify _ (Schema.integral_canonicalize payload hintegral))
  have htag := mac.length_digest key (macInput LOCATOR_PREFIX (encodePayload payload))
  have htagNe : mac.digest key (macInput LOCATOR_PREFIX (encodePayload payload)) ≠ [] := by
    intro hnil
    rw [hnil] at htag
    cases htag
  have hletters := Base64Url.isBase64Url_encode hne
  have hsignature := Base64Url.isBase64Url_encode htagNe
  have hneOf : ∀ {t : Text}, isBase64Url t = true → t ≠ [] := by
    intro t ht
    rw [isBase64Url, Bool.and_eq_true, decide_eq_true_eq] at ht
    exact ht.1
  constructor
  · rintro ⟨claims, hverify, -⟩
    exact length_le_of_verified h hverify
  · intro hlength
    refine ⟨canonicalize payload, verifyLocator_eq_ok.mpr ⟨List.cons_ne_nil _ _, ?_, _, _, _,
      parts_signed payload _, verifyParts_eq_ok.mpr ⟨rfl, hneOf hletters, hneOf hsignature, key,
        hkey, hsignature, ?_, Base64Url.decode_encode _, ?_, hcanonical⟩⟩, hsame⟩
    · have hprefix : LOCATOR_PREFIX.length = 3 := rfl
      have hpayload : (encodePayload payload).length =
          (4 * (utf8 (stableJson payload)).length + 2) / 3 := Base64Url.length_encode _
      simp only [join, List.length_append, List.length_cons, Base64Url.length_encode, htag,
        hpayload, hprefix]
      simp only [MAX_PAYLOAD_BYTES] at hlength
      simp only [MAX_LOCATOR_LENGTH]
      omega
    · rw [Base64Url.decode_encode]
    · refine decodeJsonPayload_eq_ok.mpr ⟨hletters, ?_, ?_, ?_, ?_⟩
      · rw [hbytes]
        rfl
      · rwa [hbytes]
      · rwa [hbytes]
      · rw [hbytes, htext, hparse]

/-- No tag is made without the secret: where a locator has the tag of its message, the message is
one that was signed. -/
def Unforgeable (mac : Mac) (secret : Secret) (issued : List Json) (locator : Text) : Prop :=
  ∀ version encodedPayload signature key,
    parts locator = [version, encodedPayload, signature] → secretBytes secret = .ok key →
    Base64Url.decode signature = mac.digest key (macInput version encodedPayload) →
    ∃ payload ∈ issued,
      macInput version encodedPayload = macInput LOCATOR_PREFIX (encodePayload payload)

/-- A locator that is accepted is what signing gave: nothing else spells it. -/
theorem signed_of_verifyLocator {issued : List Json}
    (hissued : ∀ payload ∈ issued, ∃ locator, signLocator mac payload secret = .ok locator)
    (hdistinct : ∀ payload ∈ issued, Distinct payload)
    (hmac : Unforgeable mac secret issued locator)
    (h : verifyLocator mac locator secret = .ok claims) :
    ∃ payload ∈ issued, signLocator mac payload secret = .ok locator := by
  obtain ⟨-, -, version, encodedPayload, signature, hparts, hok⟩ := verifyLocator_eq_ok.mp h
  obtain ⟨rfl, -, -, key, hkey, -, hcanonical, htag, hpayload, -⟩ := verifyParts_eq_ok.mp hok
  obtain ⟨hletters, -⟩ := decodeJsonPayload_eq_ok.mp hpayload
  obtain ⟨payload, hmem, hmessage⟩ := hmac _ _ _ key hparts hkey htag
  obtain ⟨signed, hsigned⟩ := hissued payload hmem
  obtain ⟨key', hclaims, hkey', -⟩ := signLocator_eq_ok.mp hsigned
  obtain ⟨-, -, hintegral⟩ := validateClaims_canonicalize (hdistinct payload hmem) hclaims
  have hencoded : encodedPayload = encodePayload payload := by
    rw [macInput, macInput, List.append_cancel_left_eq, List.cons.injEq] at hmessage
    exact asciiBytes_injective hletters
      (Base64Url.isBase64Url_encode (utf8_stableJson_ne_nil hintegral)) hmessage.2
  refine ⟨payload, hmem, signLocator_eq_ok.mpr ⟨key, hclaims, hkey, ?_⟩⟩
  rw [join_of_parts hparts, ← hencoded, ← htag, hcanonical]

theorem asString_eq_some {value : Json} {t : Text} :
    value.asString = some t ↔ value = .string t := by
  cases value <;> simp [Json.asString]

/-- The project of claims that pass the checks has a name. -/
theorem identifier_project (h : validateClaims claims = .ok claims) :
    identifier (field claims "project") = true := by
  obtain ⟨-, hschema, -⟩ := validateClaims_eq_ok.mp h
  cases claims with
  | object fields =>
    obtain ⟨-, hall⟩ := object_eq_true.mp hschema
    obtain ⟨found, hfound, hcheck⟩ := hall ("project", identifier) (by simp)
    rw [field, hfound]
    exact hcheck
  | null => cases hschema
  | bool _ => cases hschema
  | number _ => cases hschema
  | fraction _ => cases hschema
  | string _ => cases hschema
  | array _ => cases hschema

theorem authorizeLocator_iff (mac : Mac) (locator : Text) (secret : Secret) (project : Option Text)
    (sessionIds : Option (List Text)) (claims : Json) :
    authorizeLocator mac locator secret project sessionIds = .ok claims ↔
      verifyLocator mac locator secret = .ok claims ∧
        (∃ name, project = some name ∧ field claims "project" = .string name) ∧
        (field claims "scope" = .string (text "session") →
          ∃ sessionId ∈ sessionIds.getD [], field claims "sessionId" = .string sessionId) := by
  rw [authorizeLocator]
  constructor
  · intro h
    obtain ⟨claims, hverify, hrest⟩ := bind_ok_iff.mp h
    obtain ⟨_, hproject, hrest⟩ := bind_ok_iff.mp hrest
    obtain ⟨_, hsession, hclaims⟩ := bind_ok_iff.mp hrest
    cases hclaims
    simp only [require_eq_ok, Bool.and_eq_true, decide_eq_true_eq, Bool.or_eq_true,
      List.any_eq_true] at hproject hsession
    obtain ⟨name, hname⟩ := Option.isSome_iff_exists.mp hproject.1.1
    refine ⟨hverify, ⟨name, hname, asString_eq_some.mp (hproject.2.trans hname)⟩, fun hscope => ?_⟩
    rcases hsession with hother | ⟨sessionId, hmem, hsame⟩
    · exact absurd (asString_eq_some.mpr hscope) hother
    · exact ⟨sessionId, hmem, asString_eq_some.mp hsame⟩
  · rintro ⟨hverify, ⟨name, rfl, hname⟩, hsession⟩
    have hne : name ≠ [] := by
      obtain ⟨-, -, _, _, _, -, hok⟩ := verifyLocator_eq_ok.mp hverify
      obtain ⟨-, -, -, _, -, -, -, -, -, hvalid⟩ := verifyParts_eq_ok.mp hok
      have hidentifier := identifier_project hvalid
      rw [hname] at hidentifier
      rintro rfl
      cases hidentifier
    rw [hverify]
    simp only [Bind.bind, Except.bind]
    have hproject : ((some name).isSome && decide (some name ≠ some []) &&
        decide ((field claims "project").asString = some name)) = true := by
      simp [hname, hne, Json.asString]
    have hlineage : (decide ((field claims "scope").asString ≠ some (text "session")) ||
        (sessionIds.getD []).any fun sessionId =>
          (field claims "sessionId").asString = some sessionId) = true := by
      by_cases hscope : field claims "scope" = .string (text "session")
      · obtain ⟨sessionId, hmem, hsame⟩ := hsession hscope
        simp only [Bool.or_eq_true, List.any_eq_true, decide_eq_true_eq]
        exact .inr ⟨sessionId, hmem, asString_eq_some.mpr hsame⟩
      · simp only [Bool.or_eq_true, decide_eq_true_eq]
        exact .inl fun hsome => hscope (asString_eq_some.mp hsome)
    rw [hproject, hlineage]
    rfl

/-- Claims that are signed come back just where they are not too long; what was not signed is not
accepted; and an accepted locator is authorized for its project and its sessions only. -/
theorem locator_guarantees_iff (mac : Mac) (hdistinct : Distinct payload)
    (h : signLocator mac payload secret = .ok locator) :
    ((∃ claims, verifyLocator mac locator secret = .ok claims ∧ Same payload claims) ∧
      (∀ issued presented, (∀ payload ∈ issued, Distinct payload ∧
          ∃ locator, signLocator mac payload secret = .ok locator) →
        Unforgeable mac secret issued presented →
        (∃ claims, verifyLocator mac presented secret = .ok claims) →
        ∃ payload ∈ issued, signLocator mac payload secret = .ok presented) ∧
      ∀ presented project sessionIds claims,
        authorizeLocator mac presented secret project sessionIds = .ok claims ↔
          verifyLocator mac presented secret = .ok claims ∧
            (∃ name, project = some name ∧ field claims "project" = .string name) ∧
            (field claims "scope" = .string (text "session") →
              ∃ sessionId ∈ sessionIds.getD [], field claims "sessionId" = .string sessionId)) ↔
    (utf8 (stableJson payload)).length ≤ MAX_PAYLOAD_BYTES := by
  rw [← verifyLocator_signed_iff hdistinct h]
  refine ⟨fun hall => hall.1, fun hverified => ⟨hverified, ?_, ?_⟩⟩
  · intro issued presented hissued hmac haccepted
    obtain ⟨claims, hclaims⟩ := haccepted
    exact signed_of_verifyLocator (fun payload hmem => (hissued payload hmem).2)
      (fun payload hmem => (hissued payload hmem).1) hmac hclaims
  · exact fun presented project sessionIds claims =>
      authorizeLocator_iff mac presented secret project sessionIds claims

end RoundTrip

/-! ## Long claims -/

/-- The fields of claims with the given names. -/
def claimFields (documentId leaseId project sessionId : Text) : List (Text × Json) := [
  (text "locatorVersion", .number 1),
  (text "documentId", .string documentId),
  (text "documentVersion", .number 1),
  (text "windowOrdinal", .number 0),
  (text "matchRange", .object [(text "startByte", .number 0), (text "endByte", .number 1)]),
  (text "indexGeneration", .number 1),
  (text "leaseId", .string leaseId),
  (text "project", .string project),
  (text "sessionId", .string sessionId),
  (text "scope", .string (text "project")),
  (text "issuedAt", .number 1),
  (text "expiresAt", .number 2)]

theorem distinct_claimFields (documentId leaseId project sessionId : Text) :
    Distinct (.object (claimFields documentId leaseId project sessionId)) := by
  refine ⟨?_, Schema.distinctFields_iff.mpr ?_⟩
  · simp only [claimFields, List.map_cons, List.map_nil]
    decide
  · simp only [claimFields, List.forall_mem_cons, List.not_mem_nil, false_imp_iff, implies_true,
      and_true]
    refine ⟨trivial, trivial, trivial, trivial, ?_, trivial, trivial, trivial, trivial, trivial,
      trivial, trivial⟩
    exact ⟨by decide, trivial, trivial, trivial⟩

/-- Claims whose names are no longer than identifiers are signed. -/
theorem signLocator_claimFields (mac : Mac) {documentId leaseId project sessionId : Text}
    {key : List UInt8} (hkey : LOCATOR_SECRET_BYTES ≤ key.length)
    (hdocument : identifier (.string documentId) = true)
    (hlease : identifier (.string leaseId) = true)
    (hproject : identifier (.string project) = true)
    (hsession : identifier (.string sessionId) = true) :
    signLocator mac (.object (claimFields documentId leaseId project sessionId)) (.bytes key) =
      .ok (join LOCATOR_PREFIX
        (encodePayload (.object (claimFields documentId leaseId project sessionId)))
        (Base64Url.encode (mac.digest key (macInput LOCATOR_PREFIX
          (encodePayload (.object (claimFields documentId leaseId project sessionId))))))) := by
  have hget : ∀ field ∈ claimFields documentId leaseId project sessionId,
      (Json.object (claimFields documentId leaseId project sessionId)).get field.1 = some field.2 :=
    fun field hmem => Json.get_object (distinct_claimFields _ _ _ _).1 hmem
  have hknown : ∀ field ∈ claimFields documentId leaseId project sessionId,
      ∃ property ∈ [("locatorVersion", literal STORE_LOCATOR_VERSION), ("documentId", identifier),
        ("documentVersion", integer 1), ("windowOrdinal", integer 0), ("matchRange", matchRange),
        ("indexGeneration", integer 0), ("leaseId", identifier), ("project", identifier),
        ("sessionId", identifier), ("scope", enumeration ["session", "project"]),
        ("issuedAt", integer 0), ("expiresAt", integer 0)], text property.1 = field.1 := by
    simp [claimFields]
  have hfields : claimFields documentId leaseId project sessionId ≠ [] := List.cons_ne_nil _ _
  simp only [claimFields, List.forall_mem_cons, List.not_mem_nil, false_imp_iff,
    implies_true, and_true] at hget
  obtain ⟨hversion, hdocumentId, hdocumentVersion, hordinal, hrange, hgeneration, hleaseId,
    hprojectName, hsessionId, hscope, hissued, hexpires⟩ := hget
  refine signLocator_eq_ok.mpr ⟨key, validateClaims_eq_ok.mpr ⟨rfl, ?_, ?_, ?_⟩, ?_, rfl⟩
  · refine object_eq_true.mpr ⟨hknown, ?_⟩
    simp only [List.forall_mem_cons, List.not_mem_nil, false_imp_iff, implies_true, and_true]
    exact ⟨⟨_, hversion, rfl⟩, ⟨_, hdocumentId, hdocument⟩, ⟨_, hdocumentVersion, rfl⟩,
      ⟨_, hordinal, rfl⟩, ⟨_, hrange, rfl⟩, ⟨_, hgeneration, rfl⟩, ⟨_, hleaseId, hlease⟩,
      ⟨_, hprojectName, hproject⟩, ⟨_, hsessionId, hsession⟩, ⟨_, hscope, rfl⟩,
      ⟨_, hissued, rfl⟩, ⟨_, hexpires, rfl⟩⟩
  · simp only [field, claimFields, hrange, Option.getD_some]
    decide
  · simp only [field, claimFields, hissued, hexpires, Option.getD_some]
    decide
  · rw [secretBytes]
    simp only [Bind.bind, Except.bind]
    rw [if_neg (Nat.not_lt.mpr hkey)]

theorem length_utf8_append {s t : Text} (hs : Unicode.isWellFormed s = true) :
    (utf8 (s ++ t)).length = (utf8 s).length + (utf8 t).length := by
  rw [Unicode.utf8_append hs, List.length_append]

/-- An object is printed with no fewer bytes than its values. -/
theorem sum_le_length_stringifyFields {fields : List (Text × Json)}
    (h : Json.IntegralFields fields) :
    (fields.map fun field => (utf8 (Json.stringify field.2)).length).sum ≤
      (utf8 (Json.stringifyFields fields)).length := by
  induction fields with
  | nil => exact Nat.zero_le _
  | cons field rest ih =>
    obtain ⟨name, value⟩ := field
    have hcomma : Unicode.isWellFormed [0x2c] = true := rfl
    have hcolon : Unicode.isWellFormed [0x3a] = true := rfl
    have hrest := ih h.2
    have hprinted : Json.stringifyFields ((name, value) :: rest) = [0x2c] ++
        (Json.stringifyField (name, value) ++ Json.stringifyFields rest) := rfl
    have hfield : Json.stringifyField (name, value) =
        Json.quote name ++ ([0x3a] ++ Json.stringify value) := rfl
    rw [hprinted, length_utf8_append hcomma,
      length_utf8_append (Json.isWellFormed_stringifyField _ h.1), hfield,
      length_utf8_append (Json.isWellFormed_quote _), length_utf8_append hcolon, List.map_cons,
      List.sum_cons]
    dsimp only
    omega

theorem sum_le_length_stableJson {fields : List (Text × Json)}
    (h : Json.Integral (.object fields)) :
    (fields.map fun field => (utf8 (stableJson field.2)).length).sum ≤
      (utf8 (stableJson (.object fields))).length := by
  have hsum : ((Schema.sortFields (Schema.canonicalizeFields fields)).map fun field =>
      (utf8 (Json.stringify field.2)).length).sum =
      (fields.map fun field => (utf8 (stableJson field.2)).length).sum := by
    rw [((Schema.sortFields_perm _).map _).sum_eq, Schema.canonicalizeFields_eq, List.map_map]
    rfl
  have hintegral := Schema.integral_canonicalize (.object fields) h
  rw [← hsum, stableJson]
  rw [canonicalize] at hintegral ⊢
  cases hsorted : Schema.sortFields (Schema.canonicalizeFields fields) with
  | nil => exact Nat.zero_le _
  | cons first rest =>
    rw [hsorted] at hintegral
    have hcomma : Unicode.isWellFormed [0x2c] = true := rfl
    have hbrace : Unicode.isWellFormed [0x7b] = true := rfl
    have hfields := sum_le_length_stringifyFields hintegral
    have hprinted : Json.stringify (.object (first :: rest)) = [0x7b] ++
        (Json.stringifyField first ++ Json.stringifyFields rest) := rfl
    have hprinted' : Json.stringifyFields (first :: rest) = [0x2c] ++
        (Json.stringifyField first ++ Json.stringifyFields rest) := rfl
    rw [hprinted', length_utf8_append hcomma] at hfields
    rw [hprinted, length_utf8_append hbrace]
    exact hfields

/-- A name of many characters of three bytes each. -/
def longName : Text := List.replicate MAX_STORE_IDENTIFIER_LENGTH 0x4e2d

theorem escapeUnits_replicate (n : Nat) :
    Json.escapeUnits (List.replicate n 0x4e2d) = List.replicate n 0x4e2d := by
  induction n with
  | zero => rfl
  | succ n ih =>
    cases n with
    | zero => rfl
    | succ n =>
      rw [List.replicate_succ, List.replicate_succ, Json.escapeUnits, ← List.replicate_succ, ih]
      rfl

theorem length_utf8_replicate (n : Nat) : (utf8 (List.replicate n 0x4e2d)).length = 3 * n := by
  induction n with
  | zero => rfl
  | succ n ih =>
    have hsingle : Unicode.isWellFormed [0x4e2d] = true := rfl
    have hbytes : (utf8 [0x4e2d]).length = 3 := rfl
    rw [List.replicate_succ, ← List.singleton_append, length_utf8_append hsingle, hbytes, ih]
    omega

theorem length_utf8_longName : 3 * 8192 ≤ (utf8 (stableJson (.string longName))).length := by
  have hquote : Unicode.isWellFormed [0x22] = true := rfl
  have hwellFormed := Json.isWellFormed_escapeUnits longName
  have hprinted : stableJson (.string longName) =
      [0x22] ++ (Json.escapeUnits longName ++ [0x22]) := rfl
  have hlength : (utf8 (Json.escapeUnits longName)).length = 3 * 8192 := by
    rw [longName, escapeUnits_replicate, length_utf8_replicate]
    rfl
  rw [hprinted, length_utf8_append hquote, length_utf8_append hwellFormed, hlength]
  omega

theorem identifier_longName : identifier (.string longName) = true := by
  rw [identifier, longName, List.length_replicate]
  rfl

/-- Any tag of the right length. -/
def plainMac : Mac where
  digest := fun _ _ => List.replicate 32 0
  length_digest := fun _ _ => rfl

def plainSecret : Secret := .bytes (List.replicate 32 0)

theorem locator_guarantees_iff_example :
    ((∃ claims, verifyLocator plainMac (join LOCATOR_PREFIX
          (encodePayload (.object (claimFields (text "d") (text "l") (text "p") (text "s"))))
          (Base64Url.encode (List.replicate 32 0))) plainSecret = .ok claims ∧
        Same (.object (claimFields (text "d") (text "l") (text "p") (text "s"))) claims) ∧
      (∀ issued presented, (∀ payload ∈ issued, Distinct payload ∧
          ∃ locator, signLocator plainMac payload plainSecret = .ok locator) →
        Unforgeable plainMac plainSecret issued presented →
        (∃ claims, verifyLocator plainMac presented plainSecret = .ok claims) →
        ∃ payload ∈ issued, signLocator plainMac payload plainSecret = .ok presented) ∧
      ∀ presented project sessionIds claims,
        authorizeLocator plainMac presented plainSecret project sessionIds = .ok claims ↔
          verifyLocator plainMac presented plainSecret = .ok claims ∧
            (∃ name, project = some name ∧ field claims "project" = .string name) ∧
            (field claims "scope" = .string (text "session") →
              ∃ sessionId ∈ sessionIds.getD [], field claims "sessionId" = .string sessionId)) ↔
    (utf8 (stableJson (.object (claimFields (text "d") (text "l") (text "p") (text "s"))))).length ≤
      MAX_PAYLOAD_BYTES :=
  locator_guarantees_iff plainMac (distinct_claimFields _ _ _ _)
    (signLocator_claimFields plainMac (by simp [LOCATOR_SECRET_BYTES]) rfl rfl rfl rfl)

/-- Claims with long names are signed, and their locator is refused. -/
theorem long_claims_refused :
    ∃ locator, signLocator plainMac (.object (claimFields longName (text "l") longName longName))
        plainSecret = .ok locator ∧
      ∀ claims, verifyLocator plainMac locator plainSecret ≠ .ok claims := by
  have hdistinct := distinct_claimFields longName (text "l") longName longName
  have hlease : identifier (.string (text "l")) = true := rfl
  have hkey : LOCATOR_SECRET_BYTES ≤ (List.replicate 32 (0 : UInt8)).length := Nat.le_refl _
  have hsigned := signLocator_claimFields plainMac hkey identifier_longName hlease
    identifier_longName identifier_longName
  refine ⟨_, hsigned, fun claims hverify => ?_⟩
  obtain ⟨key, hclaims, -, -⟩ := signLocator_eq_ok.mp hsigned
  obtain ⟨-, -, hintegral⟩ := validateClaims_canonicalize hdistinct hclaims
  have hshort := length_le_of_verified hsigned hverify
  have hsum := sum_le_length_stableJson hintegral
  have hname := length_utf8_longName
  simp only [claimFields, List.map_cons, List.map_nil, List.sum_cons, List.sum_nil] at hsum
  simp only [claimFields, MAX_PAYLOAD_BYTES] at hshort
  omega

end ContextStore.SignedLocator
