import ContextStore.Archive.Cutting

/-! # Manifests are read as they were printed

A root that is `Sound` is accepted under its own name when it is read from the text it is printed
as (`parseRoot_toJson`), and whatever inspection accepts is `Sound` (`sound_of_inspect`). The same
holds of publications and of the parts of a root. -/

namespace ContextStore.Archive

open Unicode Concurrent

variable {S : Setting}

/-! ## Fields -/

theorem names_optionalField (name : Text) (value : Option Json) :
    ((optionalField name value).map Prod.fst).Sublist [name] := by
  cases value <;> simp [optionalField]

theorem optionalField_append_sublist {name : Text} {value : Option Json} {others names : List Text}
    (h : others.Sublist names) :
    ((optionalField name value).map Prod.fst ++ others).Sublist (name :: names) :=
  List.Sublist.append (names_optionalField name value) h

/-- An optional field is found where it is printed, and nothing is found where it is not. -/
theorem get_optionalField {before later : List (Text × Json)} {name : Text} (value : Option Json)
    (hnames : (before.map Prod.fst ++ name :: later.map Prod.fst).Nodup) :
    (Json.object (before ++ (optionalField name value ++ later))).get name = value := by
  cases value with
  | none =>
    obtain ⟨-, hlater, hdisjoint⟩ := List.nodup_append.mp hnames
    refine Json.get_object_eq_none ?_
    simp only [optionalField, Option.map_none, Option.toList_none, List.nil_append,
      List.map_append, List.mem_append, not_or]
    exact ⟨fun hmem => hdisjoint _ hmem _ List.mem_cons_self rfl, (List.nodup_cons.mp hlater).1⟩
  | some json =>
    refine Json.get_object ?_ (by simp [optionalField])
    simpa [optionalField] using hnames

/-! ## Root fields -/

def rootNames : List Text :=
  [text "checkpointFormatVersion", text "recordType", text "rootId", text "publicationId",
    text "sourceIdentity"] ++ text "layoutIdentity" ::
  ([text "sessionId", text "project", text "sourceKey"] ++ text "sourceMessageKeys" ::
  [text "sourceKind", text "encoding", text "byteCount", text "hash", text "parts"])

theorem rootNames_nodup : rootNames.Nodup := by decide +kernel

namespace RootManifest

variable (root : RootManifest PartReference)

theorem names_sublist : (root.fields.map Prod.fst).Sublist rootNames := by
  simp only [fields, List.map_append]
  refine List.Sublist.append (List.Sublist.refl _) ?_
  refine optionalField_append_sublist ?_
  refine List.Sublist.append (List.Sublist.refl _) ?_
  exact optionalField_append_sublist (List.Sublist.refl _)

theorem get_toJson {name : Text} {value : Json} (h : (name, value) ∈ root.fields) :
    root.toJson.get name = some value :=
  Json.get_object (rootNames_nodup.sublist root.names_sublist) h

theorem textField_toJson {name value : Text} (h : (name, Json.string value) ∈ root.fields) :
    textField root.toJson name = some value := by
  rw [textField, root.get_toJson h]
  rfl

theorem hexField_toJson {name value : Text} (h : (name, Json.string value) ∈ root.fields)
    (hhex : S.isHexDigest value = true) : hexField S root.toJson name = some value := by
  rw [hexField, root.textField_toJson h, Option.filter_some, if_pos hhex]

theorem get_layoutIdentity :
    root.toJson.get (text "layoutIdentity") = root.layoutIdentity.map .string := by
  refine get_optionalField _ (rootNames_nodup.sublist ?_)
  simp only [List.map_append]
  refine List.Sublist.append (List.Sublist.refl _) (List.Sublist.cons_cons _ ?_)
  refine List.Sublist.append (List.Sublist.refl _) ?_
  exact optionalField_append_sublist (List.Sublist.refl _)

theorem get_sourceMessageKeys :
    root.toJson.get (text "sourceMessageKeys") = root.sourceMessageKeys.map strings := by
  have hfields : root.fields = ([(text "checkpointFormatVersion", number 1),
      (text "recordType", .string (text "root")), (text "rootId", .string root.rootId),
      (text "publicationId", .string root.publicationId),
      (text "sourceIdentity", .string root.sourceIdentity)] ++
      optionalField (text "layoutIdentity") (root.layoutIdentity.map .string) ++
      [(text "sessionId", .string root.sessionId), (text "project", .string root.project),
        (text "sourceKey", .string root.sourceKey)]) ++
      (optionalField (text "sourceMessageKeys") (root.sourceMessageKeys.map strings) ++
      [(text "sourceKind", .string root.sourceKind), (text "encoding", .string (text "utf8")),
        (text "byteCount", number root.byteCount), (text "hash", .string root.hash),
        (text "parts", .array (root.parts.map PartReference.toJson))]) := by
    simp only [fields, List.append_assoc]
  rw [toJson, hfields]
  refine get_optionalField _ (rootNames_nodup.sublist ?_)
  simp only [List.map_append, List.append_assoc]
  refine List.Sublist.append (List.Sublist.refl _) ?_
  exact optionalField_append_sublist (List.Sublist.refl _)

end RootManifest

/-! ## Integral documents -/

theorem integral_strings (items : List Text) : Json.Integral (strings items) := by
  refine Json.integralItems_iff.mpr fun item hitem => ?_
  obtain ⟨value, -, rfl⟩ := List.mem_map.mp hitem
  trivial

theorem integral_optionalField {name : Text} {value : Option Json}
    (h : ∀ json, value = some json → Json.Integral json) :
    Json.IntegralFields (optionalField name value) := by
  cases value with
  | none => trivial
  | some json => exact ⟨h json rfl, trivial⟩

theorem integral_map {α : Type} {value : Option α} {f : α → Json} (h : ∀ a, Json.Integral (f a)) :
    ∀ json, value.map f = some json → Json.Integral json := by
  intro json hjson
  obtain ⟨a, -, rfl⟩ := Option.map_eq_some_iff.mp hjson
  exact h a

theorem integralFields_append {a b : List (Text × Json)} (ha : Json.IntegralFields a)
    (hb : Json.IntegralFields b) : Json.IntegralFields (a ++ b) := by
  rw [Json.integralFields_iff] at ha hb ⊢
  exact List.forall_mem_append.mpr ⟨ha, hb⟩

theorem RootManifest.integral_toJson (root : RootManifest PartReference) :
    Json.Integral root.toJson := by
  have hparts : Json.IntegralItems (root.parts.map PartReference.toJson) := by
    refine Json.integralItems_iff.mpr fun item hitem => ?_
    obtain ⟨part, -, rfl⟩ := List.mem_map.mp hitem
    exact ⟨trivial, trivial, trivial, trivial, trivial, trivial, trivial⟩
  refine integralFields_append ⟨trivial, trivial, trivial, trivial, trivial, trivial⟩ ?_
  refine integralFields_append (integral_optionalField (integral_map fun _ => trivial)) ?_
  refine integralFields_append ⟨trivial, trivial, trivial, trivial⟩ ?_
  refine integralFields_append (integral_optionalField (integral_map integral_strings)) ?_
  exact ⟨trivial, trivial, trivial, trivial, hparts, trivial⟩

theorem PublicationManifest.integral_toJson (publication : PublicationManifest) :
    Json.Integral publication.toJson := by
  refine integralFields_append ⟨trivial, trivial, trivial, integral_strings _, trivial⟩ ?_
  refine integralFields_append (integral_optionalField (integral_map integral_strings)) ?_
  exact ⟨integral_strings _, trivial⟩

/-! ## Sound roots -/

/-- Everything that inspection checks of a root and of its parts. -/
structure RootManifest.Sound (S : Setting) (root : RootManifest PartReference) : Prop where
  publicationId : publicationIdPrefix <+: root.publicationId
  hash : S.isHexDigest root.hash = true
  byteCount : root.byteCount ≤ maxSafeInteger
  project : root.project ≠ []
  sessionId : root.sessionId ≠ []
  sourceKey : root.sourceKey ≠ []
  sourceKind : root.sourceKind ≠ []
  messageKeys : normalizeSourceMessageKeys S root.sourceMessageKeys root.sourceKey =
    .ok root.messageKeys
  sourceIdentity : sourceAddress S root.project root.sessionId root.sourceKey root.messageKeys
    root.sourceKind root.hash = .ok root.sourceIdentity
  address : ∃ address, rootAddress S root.sourceIdentity root.publicationId root.layoutIdentity =
    .ok address ∧ rootIdPrefix ++ address = root.rootId
  parts : root.parts ≠ []
  laid : Laid 0 0 root.byteCount (root.parts.map PartReference.coordinates)
  references : ∀ part ∈ root.parts, S.isHexDigest part.hash = true ∧ ∃ address,
    partAddress S root.project root.sessionId root.rootId part.hash = .ok address ∧
      part.id = partIdPrefix ++ address
  layout : ∀ identity, root.layoutIdentity = some identity → layoutAddress S root.byteCount
    root.hash (root.parts.map PartReference.coordinates) = .ok identity

theorem countOf_number {n : Nat} (h : n ≤ maxSafeInteger) : countOf (number n) = some n := by
  show (if 0 ≤ (n : Int) ∧ (n : Int) ≤ maxSafeInteger then some (n : Int).toNat else none) = some n
  rw [if_pos (by omega), Int.toNat_natCast]

theorem mapM_asString (items : List Text) :
    (items.map Json.string).mapM Json.asString = some items := by
  induction items with
  | nil => rfl
  | cons item rest ih =>
    rw [List.map_cons, List.mapM_cons, ih]
    rfl

def RootManifest.printed (root : RootManifest PartReference) : RootManifest Json :=
  { root with parts := root.parts.map PartReference.toJson }

namespace RootManifest.Sound

variable {root : RootManifest PartReference}

theorem readRootHeader_toJson (hS : S.Ideal) (h : root.Sound S) :
    readRootHeader S root.toJson root.rootId = some {
      publicationId := root.publicationId, sourceIdentity := root.sourceIdentity,
      layoutIdentity := root.layoutIdentity, byteCount := root.byteCount, hash := root.hash,
      parts := root.parts.map PartReference.toJson } := by
  have hversion : root.toJson.get (text "checkpointFormatVersion") = some (number 1) :=
    root.get_toJson (by simp [fields])
  have hrecord : textField root.toJson (text "recordType") = some (text "root") :=
    root.textField_toJson (by simp [fields])
  have hrootId : textField root.toJson (text "rootId") = some root.rootId :=
    root.textField_toJson (by simp [fields])
  have hpublicationId : textField root.toJson (text "publicationId") = some root.publicationId :=
    root.textField_toJson (by simp [fields])
  have hidentity : hexField S root.toJson (text "sourceIdentity") = some root.sourceIdentity :=
    root.hexField_toJson (by simp [fields]) (hex_of_hashParts hS h.sourceIdentity)
  have hlayout : optionalRead root.toJson (text "layoutIdentity") (hexText S) =
      some root.layoutIdentity := by
    rw [optionalRead, root.get_layoutIdentity]
    cases hcase : root.layoutIdentity with
    | none => rfl
    | some identity =>
      show ((some identity).filter S.isHexDigest).map some = _
      rw [Option.filter_some, if_pos (hex_of_hashParts hS (h.layout identity hcase))]
      rfl
  have hencoding : textField root.toJson (text "encoding") = some (text "utf8") :=
    root.textField_toJson (by simp [fields])
  have hparts : root.toJson.get (text "parts") =
      some (.array (root.parts.map PartReference.toJson)) :=
    root.get_toJson (by simp [fields])
  have hhash : hexField S root.toJson (text "hash") = some root.hash :=
    root.hexField_toJson (by simp [fields]) h.hash
  have hbyteCount : root.toJson.get (text "byteCount") = some (number root.byteCount) :=
    root.get_toJson (by simp [fields])
  have hcount := countOf_number h.byteCount
  have hne : root.parts.map PartReference.toJson ≠ [] := by simp [h.parts]
  simp only [readRootHeader, hversion, hrecord, hrootId, hpublicationId, hidentity, hlayout,
    hencoding, hparts, hhash, hbyteCount, hcount, Option.bind_some, Json.asArray]
  simp [guard, h.publicationId, hne, number, Json.asNumber]

theorem readRootSource_toJson (h : root.Sound S) :
    readRootSource S root.toJson = some {
      project := root.project, sessionId := root.sessionId, sourceKey := root.sourceKey,
      sourceKind := root.sourceKind, sourceMessageKeys := root.sourceMessageKeys,
      messageKeys := root.messageKeys } := by
  have hproject : textField root.toJson (text "project") = some root.project :=
    root.textField_toJson (by simp [fields])
  have hsessionId : textField root.toJson (text "sessionId") = some root.sessionId :=
    root.textField_toJson (by simp [fields])
  have hsourceKey : textField root.toJson (text "sourceKey") = some root.sourceKey :=
    root.textField_toJson (by simp [fields])
  have hsourceKind : textField root.toJson (text "sourceKind") = some root.sourceKind :=
    root.textField_toJson (by simp [fields])
  have hkeys : optionalRead root.toJson (text "sourceMessageKeys") textList =
      some root.sourceMessageKeys := by
    rw [optionalRead, root.get_sourceMessageKeys]
    cases root.sourceMessageKeys with
    | none => rfl
    | some keys =>
      show ((keys.map Json.string).mapM Json.asString).map some = _
      rw [mapM_asString]
      rfl
  simp [readRootSource, hproject, hsessionId, hsourceKey, hsourceKind, hkeys, Option.filter_some,
    h.project, h.sessionId, h.sourceKey, h.sourceKind, h.messageKeys, Except.toOption]

/-- A root that is printed is read back under its own name. -/
theorem parseRoot_toJson (hS : S.Ideal) (h : root.Sound S) {document : ArchivedDocument}
    (htext : document.text = some root.toJson.stringify) :
    parseRoot S (some document) root.rootId = .ok root.printed := by
  obtain ⟨address, haddress, hid⟩ := h.address
  refine bind_ok_iff.mpr ⟨_, orError_eq_ok.mpr htext, ?_⟩
  refine bind_ok_iff.mpr ⟨_, orError_eq_ok.mpr (Json.parse_stringify root.integral_toJson), ?_⟩
  refine bind_ok_iff.mpr ⟨_, orError_eq_ok.mpr (h.readRootHeader_toJson hS), ?_⟩
  refine bind_ok_iff.mpr ⟨_, orError_eq_ok.mpr h.readRootSource_toJson, ?_⟩
  refine bind_ok_iff.mpr ⟨_, h.sourceIdentity, ?_⟩
  rw [if_neg (not_not.mpr rfl)]
  refine bind_ok_iff.mpr ⟨_, haddress, ?_⟩
  rw [if_neg (not_not.mpr hid)]
  rfl

end RootManifest.Sound

theorem RootManifest.Sound.eq_of_rootId (hS : S.Ideal) {root other : RootManifest PartReference}
    (h : root.Sound S) (h' : other.Sound S) (hname : root.rootId = other.rootId) :
    root.sourceIdentity = other.sourceIdentity ∧ root.layoutIdentity = other.layoutIdentity := by
  obtain ⟨address, haddress, hid⟩ := h.address
  obtain ⟨address', haddress', hid'⟩ := h'.address
  have hsame : address = address' := List.append_cancel_left (hid.trans (hname.trans hid'.symm))
  subst hsame
  obtain ⟨hsource, -, hlayout⟩ := rootAddress_injective hS haddress haddress'
  refine ⟨eq_of_utf8_eq (wellFormed_of_hashParts hS h.sourceIdentity)
    (wellFormed_of_hashParts hS h'.sourceIdentity) hsource, ?_⟩
  cases hcase : root.layoutIdentity with
  | none =>
    rw [hcase] at hlayout
    exact (Option.map_eq_none_iff.mp hlayout.symm).symm
  | some identity =>
    rw [hcase] at hlayout
    obtain ⟨identity', hcase', hutf8⟩ := Option.map_eq_some_iff.mp hlayout.symm
    rw [hcase', eq_of_utf8_eq (wellFormed_of_hashParts hS (h'.layout identity' hcase'))
      (wellFormed_of_hashParts hS (h.layout identity hcase)) hutf8]

/-! ## Parts -/

variable {value : Json} {root : RootManifest PartReference} {project sessionId rootId : Text}
  {ordinal cursor : Nat} {get : Reader}

theorem PartReference.get_toJson (part : PartReference) {name : Text}
    (h : (name, value) ∈ part.fields) : part.toJson.get name = some value := by
  have hnames : ([text "id", text "ordinal", text "startByte", text "endByte", text "byteCount",
      text "hash"] : List Text).Nodup := by decide +kernel
  exact Json.get_object (show (part.fields.map Prod.fst).Nodup from hnames) h

theorem PartReference.readPart_toJson {part : PartReference} (hordinal : part.ordinal = ordinal)
    (hstart : part.startByte = cursor) (hend : cursor ≤ part.endByte)
    (hcount : part.byteCount = part.endByte - cursor) (hsafe : part.endByte ≤ maxSafeInteger)
    (hhex : S.isHexDigest part.hash = true) :
    readPart S ordinal cursor part.toJson = some part := by
  subst hordinal hstart
  have hid : part.toJson.get (text "id") = some (.string part.id) := part.get_toJson (by simp [fields])
  have hordinal : part.toJson.get (text "ordinal") = some (number part.ordinal) :=
    part.get_toJson (by simp [fields])
  have hstart : part.toJson.get (text "startByte") = some (number part.startByte) :=
    part.get_toJson (by simp [fields])
  have hendByte : part.toJson.get (text "endByte") = some (number part.endByte) :=
    part.get_toJson (by simp [fields])
  have hbyteCount : part.toJson.get (text "byteCount") = some (number part.byteCount) :=
    part.get_toJson (by simp [fields])
  have hhash : part.toJson.get (text "hash") = some (.string part.hash) :=
    part.get_toJson (by simp [fields])
  have hendCount := countOf_number hsafe
  have hbyteCount' : countOf (number part.byteCount) = some part.byteCount :=
    countOf_number (by omega)
  simp only [readPart, hexField, textField, hid, hordinal, hstart, hendByte, hbyteCount, hhash,
    hendCount, hbyteCount', Option.bind_some, Json.asString, Option.filter_some, if_pos hhex]
  simp only [number, Json.asNumber, guard, hend, hcount, Option.bind_some, if_pos,
    Option.bind_eq_bind, Option.pure_def]
  rw [← hcount]

/-- Parts that lie end to end are read back as they were printed. -/
theorem checkParts_toJson {parts : List PartReference}
    {last : Nat} (hlast : last ≤ maxSafeInteger)
    (hlaid : Laid ordinal cursor last (parts.map PartReference.coordinates))
    (hparts : ∀ part ∈ parts, S.isHexDigest part.hash = true ∧ ∃ address,
      partAddress S project sessionId rootId part.hash = .ok address ∧
        part.id = partIdPrefix ++ address) :
    checkParts S project sessionId rootId ordinal cursor (parts.map PartReference.toJson) =
      .ok (parts, last) := by
  induction parts generalizing ordinal cursor with
  | nil =>
    have hsame : cursor = last := hlaid
    subst hsame
    rfl
  | cons part rest ih =>
    obtain ⟨hordinal, hstart, hend, hcount, hrest⟩ := hlaid
    obtain ⟨hhex, address, haddress, hid⟩ := hparts part List.mem_cons_self
    have hsafe : part.endByte ≤ maxSafeInteger := hrest.endByte_le.1.trans hlast
    have hread := PartReference.readPart_toJson hordinal hstart hend hcount hsafe hhex
    refine bind_ok_iff.mpr ⟨part, orError_eq_ok.mpr hread, ?_⟩
    refine bind_ok_iff.mpr ⟨address, haddress, ?_⟩
    rw [if_neg (not_not.mpr hid)]
    refine bind_ok_iff.mpr ⟨_, ih hrest fun other hother =>
      hparts other (List.mem_cons_of_mem _ hother), ?_⟩
    rfl

/-! ## Inspection -/

/-- A printed root is accepted where its publication is read and lists it. -/
theorem RootManifest.Sound.inspect_eq_ok (hS : S.Ideal) (h : root.Sound S)
    {document : ArchivedDocument} {stored : Option ArchivedDocument}
    {publication : PublicationManifest} (hdocument : get root.rootId = .ok (some document))
    (htext : document.text = some root.toJson.stringify)
    (hstored : get root.publicationId = .ok stored)
    (hpublication : parsePublication S stored root.publicationId = .ok publication)
    (hcovers : covers publication root.printed = true) :
    inspectCheckpointManifest S get root.rootId = .ok root := by
  have hidentifier : identifier root.rootId "rootId" = .ok root.rootId := by
    obtain ⟨address, -, hid⟩ := h.address
    have hne : root.rootId ≠ [] := by
      rw [← hid]
      simp [rootIdPrefix, text, charUnits]
    rw [identifier, if_neg hne]
  refine bind_ok_iff.mpr ⟨_, hidentifier, ?_⟩
  refine bind_ok_iff.mpr ⟨_, hdocument, ?_⟩
  refine bind_ok_iff.mpr ⟨_, h.parseRoot_toJson hS htext, ?_⟩
  refine bind_ok_iff.mpr ⟨_, hstored, ?_⟩
  refine bind_ok_iff.mpr ⟨_, hpublication, ?_⟩
  rw [if_neg (by rw [hcovers]; decide)]
  refine bind_ok_iff.mpr ⟨_, checkParts_toJson h.byteCount h.laid h.references, ?_⟩
  refine Eq.trans (if_neg (not_not.mpr rfl)) ?_
  have hexpected : expectedLayoutIdentity S root.printed root.parts = .ok root.layoutIdentity := by
    unfold expectedLayoutIdentity
    cases hcase : root.layoutIdentity with
    | none =>
      rw [show root.printed.layoutIdentity = none from hcase]
    | some identity =>
      rw [show root.printed.layoutIdentity = some identity from hcase]
      exact map_ok_iff.mpr ⟨identity, h.layout identity hcase, rfl⟩
  refine bind_ok_iff.mpr ⟨_, hexpected, ?_⟩
  exact if_neg (not_not.mpr rfl)

theorem guard_eq_some {p : Prop} [Decidable p] {u : Unit} :
    (guard p : Option Unit) = some u ↔ p := by
  by_cases hp : p <;> simp [guard, hp]

theorem countOf_le {n : Nat} (h : countOf value = some n) : n ≤ maxSafeInteger := by
  obtain ⟨number, -, hn⟩ := Option.bind_eq_some_iff.mp h
  split at hn
  · cases hn
    omega
  · cases hn

theorem hexField_hex {name found : Text} (h : hexField S value name = some found) :
    S.isHexDigest found = true :=
  (Option.filter_eq_some_iff.mp h).2

theorem checkParts_laid {values : List Json} {checked : List PartReference × Nat}
    (h : checkParts S project sessionId rootId ordinal cursor values = .ok checked) :
    Laid ordinal cursor checked.2 (checked.1.map PartReference.coordinates) ∧
      checked.1.length = values.length ∧
      ∀ part ∈ checked.1, S.isHexDigest part.hash = true ∧ ∃ address,
        partAddress S project sessionId rootId part.hash = .ok address ∧
          part.id = partIdPrefix ++ address := by
  induction values generalizing ordinal cursor checked with
  | nil =>
    cases h
    exact ⟨rfl, rfl, by simp⟩
  | cons value rest ih =>
    simp only [checkParts, bind_ok_iff] at h
    obtain ⟨reference, hreference, address, haddress, h⟩ := h
    split at h
    · cases h
    · next hid =>
      obtain ⟨others, hothers, heq⟩ := bind_ok_iff.mp h
      cases heq
      obtain ⟨hlaid, hlength, hrest⟩ := ih hothers
      have hread := orError_eq_ok.mp hreference
      simp only [readPart, Option.bind_eq_bind, Option.bind_eq_some_iff, guard_eq_some] at hread
      obtain ⟨id, -, -, -, -, -, endByte, -, -, hend, byteCount, -, -, hcount, hash, hhash,
        hmade⟩ := hread
      have hpart := Option.some.inj hmade
      subst hpart
      refine ⟨⟨rfl, rfl, hend, hcount, hlaid⟩, by simp [hlength], ?_⟩
      intro part hpart
      rcases List.mem_cons.mp hpart with rfl | hmem
      · exact ⟨hexField_hex hhash, address, haddress, not_not.mp hid⟩
      · exact hrest part hmem

theorem readRootHeader_checked {header : RootHeader}
    (h : readRootHeader S value rootId = some header) :
    publicationIdPrefix <+: header.publicationId ∧ S.isHexDigest header.hash = true ∧
      header.byteCount ≤ maxSafeInteger ∧ header.parts ≠ [] := by
  simp only [readRootHeader, Option.bind_eq_bind, Option.bind_eq_some_iff, guard_eq_some] at h
  obtain ⟨-, -, -, -, -, -, publicationId, -, -, hbegins, sourceIdentity, -, layoutIdentity, -, -,
    -, parts, -, -, hparts, hash, hhash, byteCount, hbyteCount, hmade⟩ := h
  have hheader := Option.some.inj hmade
  subst hheader
  obtain ⟨count, -, hcount⟩ := hbyteCount
  exact ⟨List.isPrefixOf_iff_prefix.mp hbegins, hexField_hex hhash, countOf_le hcount, hparts⟩

theorem readRootSource_checked {source : RootSource} (h : readRootSource S value = some source) :
    source.project ≠ [] ∧ source.sessionId ≠ [] ∧ source.sourceKey ≠ [] ∧ source.sourceKind ≠ [] ∧
      normalizeSourceMessageKeys S source.sourceMessageKeys source.sourceKey =
        .ok source.messageKeys := by
  simp only [readRootSource, Option.bind_eq_bind, Option.bind_eq_some_iff,
    Option.filter_eq_some_iff, decide_eq_true_eq] at h
  obtain ⟨project, ⟨-, hproject⟩, sessionId, ⟨-, hsessionId⟩, sourceKey, ⟨-, hsourceKey⟩,
    sourceKind, ⟨-, hsourceKind⟩, keys, -, messageKeys, hkeys, hmade⟩ := h
  have hsource := Option.some.inj hmade
  subst hsource
  refine ⟨hproject, hsessionId, hsourceKey, hsourceKind, ?_⟩
  cases hnormal : normalizeSourceMessageKeys S keys sourceKey with
  | error e => simp [hnormal, Except.toOption] at hkeys
  | ok normalized =>
    rw [hnormal] at hkeys
    exact congrArg Except.ok (Option.some.inj hkeys)

theorem parseRoot_checked {document : Option ArchivedDocument}
    {root : RootManifest Json} (h : parseRoot S document rootId = .ok root) :
    (publicationIdPrefix <+: root.publicationId ∧ S.isHexDigest root.hash = true ∧
      root.byteCount ≤ maxSafeInteger ∧ root.parts ≠ []) ∧
    root.project ≠ [] ∧ root.sessionId ≠ [] ∧ root.sourceKey ≠ [] ∧ root.sourceKind ≠ [] ∧
      normalizeSourceMessageKeys S root.sourceMessageKeys root.sourceKey =
        .ok root.messageKeys := by
  simp only [parseRoot, bind_ok_iff] at h
  obtain ⟨stored, -, value, -, header, hheader, source, hsource, expected, -, h⟩ := h
  split at h
  · cases h
  · obtain ⟨address, -, h⟩ := bind_ok_iff.mp h
    split at h
    · cases h
    · have heq := Except.ok.inj h
      subst heq
      obtain ⟨hproject, hsessionId, hsourceKey, hsourceKind, hkeys⟩ :=
        readRootSource_checked (orError_eq_ok.mp hsource)
      refine ⟨readRootHeader_checked (orError_eq_ok.mp hheader), hproject, hsessionId, hsourceKey,
        hsourceKind, ?_⟩
      have hsame := normalizeSourceMessageKeys_eq_ok hkeys
      show normalizeSourceMessageKeys S source.sourceMessageKeys source.sourceKey =
        .ok (source.sourceMessageKeys.getD [source.sourceKey])
      rw [hkeys, hsame]

/-- Whatever inspection accepts is sound, and its publication was read and lists it. -/
theorem sound_of_inspect (h : inspectCheckpointManifest S get rootId = .ok root) :
    root.rootId = rootId ∧ root.Sound S ∧ ∃ stored publication,
      get root.publicationId = .ok stored ∧
      parsePublication S stored root.publicationId = .ok publication ∧
      covers publication root.printed = true := by
  obtain ⟨hsource, ⟨address, haddress, hid⟩, hlayout, -⟩ := inspectCheckpointManifest_eq_ok h
  simp only [inspectCheckpointManifest, bind_ok_iff] at h
  obtain ⟨id, hidentifier, document, -, parsed, hparsed, stored, hstored, publication,
    hpublication, h⟩ := h
  obtain rfl := identifier_eq_ok hidentifier
  split at h
  · cases h
  · next hcovers =>
    obtain ⟨checked, hchecked, h⟩ := bind_ok_iff.mp h
    split at h
    · cases h
    · next hcover =>
      obtain ⟨expected, -, h⟩ := bind_ok_iff.mp h
      split at h
      · cases h
      · have heq := Except.ok.inj h
        subst heq
        obtain ⟨hlaid, hlength, hparts⟩ := checkParts_laid hchecked
        obtain ⟨⟨hbegins, hhash, hbyteCount, hne⟩, hproject, hsessionId, hsourceKey,
          hsourceKind, hkeys⟩ := parseRoot_checked hparsed
        have hrootId := (parseRoot_eq_ok hparsed).1
        have hnonempty : checked.1 ≠ [] := by
          rw [← List.length_pos_iff, hlength]
          exact List.length_pos_iff.mpr hne
        refine ⟨hrootId, ?_, stored, publication, hstored, hpublication,
          Bool.not_eq_false _ |>.mp hcovers⟩
        exact {
          publicationId := hbegins, hash := hhash, byteCount := hbyteCount, project := hproject,
          sessionId := hsessionId, sourceKey := hsourceKey, sourceKind := hsourceKind,
          messageKeys := hkeys, sourceIdentity := hsource,
          address := ⟨address, haddress, hid.trans hrootId.symm⟩, parts := hnonempty,
          laid := not_not.mp hcover ▸ hlaid, references := hparts, layout := hlayout }

theorem inspect_of_reconstruct {r : Reconstruction}
    (h : reconstructCheckpointSource S get rootId = .ok r) :
    inspectCheckpointManifest S get rootId = .ok r.root := by
  obtain ⟨root, hroot, h⟩ := bind_ok_iff.mp h
  obtain ⟨payloads, -, h⟩ := bind_ok_iff.mp h
  dsimp only at h
  split at h
  · cases h
  · cases h
    exact hroot

/-! ## Publications -/

structure PublicationManifest.Lists (S : Setting) (publication : PublicationManifest)
    (roots : List (RootManifest PartReference)) : Prop where
  sourceIdentities : publication.sourceIdentities = roots.map (·.sourceIdentity)
  rootIds : publication.rootIds = roots.map (·.rootId)
  layoutLength : ∀ identities, publication.layoutIdentities = some identities →
    identities.length = roots.length
  layouts : ∀ index : Nat, (publication.layoutIdentities.bind fun identities =>
    identities[index]?) = roots[index]?.bind (·.layoutIdentity)
  address : ∃ address, publicationAddress S publication.sourceIdentities
    publication.layoutIdentities = .ok address ∧
      publicationIdPrefix ++ address = publication.publicationId
  roots_ne_nil : roots ≠ []
  sound : ∀ root ∈ roots, root.Sound S
  publicationIds : ∀ root ∈ roots, root.publicationId = publication.publicationId

def publicationNames : List Text :=
  [text "checkpointFormatVersion", text "recordType", text "publicationId",
    text "sourceIdentities"] ++ text "layoutIdentities" :: [text "rootIds"]

theorem publicationNames_nodup : publicationNames.Nodup := by decide +kernel

theorem mapM_hexText {items : List Text} (h : ∀ item ∈ items, S.isHexDigest item = true) :
    (items.map Json.string).mapM (hexText S) = some items := by
  induction items with
  | nil => rfl
  | cons item rest ih =>
    have hitem : hexText S (.string item) = some item := by
      rw [hexText, Json.asString, Option.filter_some, if_pos (h item List.mem_cons_self)]
    rw [List.map_cons, List.mapM_cons, hitem, ih fun other hother =>
      h other (List.mem_cons_of_mem _ hother)]
    rfl

namespace PublicationManifest

variable (publication : PublicationManifest)

theorem get_toJson {name : Text} (h : (name, value) ∈ publication.fields) :
    publication.toJson.get name = some value := by
  refine Json.get_object (publicationNames_nodup.sublist ?_) h
  simp only [fields, List.map_append]
  refine List.Sublist.append (List.Sublist.refl _) ?_
  exact optionalField_append_sublist (List.Sublist.refl _)

theorem get_layoutIdentities :
    publication.toJson.get (text "layoutIdentities") = publication.layoutIdentities.map strings :=
  get_optionalField _ publicationNames_nodup

namespace Lists

variable {publication} {roots : List (RootManifest PartReference)}

theorem readPublication_toJson (hS : S.Ideal) (h : publication.Lists S roots) :
    readPublication S publication.toJson publication.publicationId = some {
      sourceIdentities := publication.sourceIdentities,
      layoutIdentities := publication.layoutIdentities,
      rootIds := publication.rootIds.map .string } := by
  have hversion : publication.toJson.get (text "checkpointFormatVersion") = some (number 1) :=
    publication.get_toJson (by simp [fields])
  have hrecord : publication.toJson.get (text "recordType") = some (.string (text "publication")) :=
    publication.get_toJson (by simp [fields])
  have hpublicationId : publication.toJson.get (text "publicationId") =
      some (.string publication.publicationId) :=
    publication.get_toJson (by simp [fields])
  have hrootIds : (publication.toJson.get (text "rootIds")).bind Json.asArray =
      some (publication.rootIds.map .string) := by
    have hfield : publication.toJson.get (text "rootIds") = some (strings publication.rootIds) :=
      publication.get_toJson (by simp [fields])
    rw [hfield]
    rfl
  have hsources : (publication.toJson.get (text "sourceIdentities")).bind (hexList S) =
      some publication.sourceIdentities := by
    have hfield : publication.toJson.get (text "sourceIdentities") =
        some (strings publication.sourceIdentities) :=
      publication.get_toJson (by simp [fields])
    rw [hfield]
    refine mapM_hexText fun identity hidentity => ?_
    rw [h.sourceIdentities] at hidentity
    obtain ⟨root, hroot, rfl⟩ := List.mem_map.mp hidentity
    exact hex_of_hashParts hS (h.sound root hroot).sourceIdentity
  have hlayouts : optionalRead publication.toJson (text "layoutIdentities") (hexList S) =
      some publication.layoutIdentities := by
    rw [optionalRead, publication.get_layoutIdentities]
    cases hcase : publication.layoutIdentities with
    | none => rfl
    | some identities =>
      show ((identities.map Json.string).mapM (hexText S)).map some = _
      have hhex : ∀ identity ∈ identities, S.isHexDigest identity = true := by
        intro identity hidentity
        obtain ⟨index, hindex, rfl⟩ := List.mem_iff_getElem.mp hidentity
        have hroot := h.layouts index
        rw [hcase, Option.bind_some, List.getElem?_eq_getElem hindex] at hroot
        obtain ⟨root, hmem, hidentity⟩ := Option.bind_eq_some_iff.mp hroot.symm
        exact hex_of_hashParts hS
          ((h.sound root (List.mem_of_getElem? hmem)).layout _ hidentity)
      rw [mapM_hexText hhex]
      rfl
  have hne : publication.sourceIdentities ≠ [] := by simp [h.sourceIdentities, h.roots_ne_nil]
  have hlength : publication.sourceIdentities.length = publication.rootIds.length := by
    simp [h.sourceIdentities, h.rootIds]
  have hlayoutLength : publication.layoutIdentities.all
      (·.length = publication.rootIds.length) = true := by
    cases hcase : publication.layoutIdentities with
    | none => rfl
    | some identities => simp [h.layoutLength identities hcase, h.rootIds]
  simp only [readPublication, textField, hversion, hrecord, hpublicationId, hsources, hrootIds,
    hlayouts, Json.asString, Option.bind_some, Option.bind_eq_bind]
  simp [guard, number, Json.asNumber, hne, hlayoutLength, hlength]

theorem checkRootIds_map {publicationId : Text} {layouts : Option (List Text)}
    {first : Nat}
    (hroots : ∀ root ∈ roots, root.Sound S ∧ root.publicationId = publicationId)
    (hlayouts : ∀ index : Nat, (layouts.bind fun identities => identities[first + index]?) =
      roots[index]?.bind (·.layoutIdentity)) :
    checkRootIds S publicationId layouts first (roots.map (·.sourceIdentity))
      ((roots.map (·.rootId)).map .string) = .ok (roots.map (·.rootId)) := by
  induction roots generalizing first with
  | nil => rfl
  | cons root rest ih =>
    obtain ⟨hsound, hpublicationId⟩ := hroots root List.mem_cons_self
    obtain ⟨address, haddress, hid⟩ := hsound.address
    have hlayout : (layouts.bind fun identities => identities[first]?) = root.layoutIdentity :=
      hlayouts 0
    have hshift : ∀ index : Nat, (layouts.bind fun identities => identities[first + 1 + index]?) =
        rest[index]?.bind (·.layoutIdentity) := by
      intro index
      rw [show first + 1 + index = first + (index + 1) by omega]
      exact hlayouts (index + 1)
    have hrest := ih (fun other hother => hroots other (List.mem_cons_of_mem _ hother)) hshift
    rw [← hpublicationId] at hrest ⊢
    refine bind_ok_iff.mpr ⟨address, hlayout ▸ haddress, ?_⟩
    refine Eq.trans (if_neg (not_not.mpr (congrArg some hid.symm))) ?_
    rw [hrest]
    show Except.ok ((rootIdPrefix ++ address) :: _) = _
    rw [hid, List.map_cons]

/-- A publication that is printed is read back under its own name. -/
theorem parsePublication_toJson (hS : S.Ideal) (h : publication.Lists S roots)
    {document : ArchivedDocument} (htext : document.text = some publication.toJson.stringify) :
    parsePublication S (some document) publication.publicationId = .ok publication := by
  obtain ⟨address, haddress, hid⟩ := h.address
  have hroots : checkRootIds S publication.publicationId publication.layoutIdentities 0
      publication.sourceIdentities (publication.rootIds.map .string) = .ok publication.rootIds := by
    rw [h.sourceIdentities, h.rootIds]
    refine checkRootIds_map (fun root hroot => ⟨h.sound root hroot, h.publicationIds root hroot⟩) ?_
    intro index
    rw [Nat.zero_add]
    exact h.layouts index
  refine bind_ok_iff.mpr ⟨_, orError_eq_ok.mpr htext, ?_⟩
  refine bind_ok_iff.mpr
    ⟨_, orError_eq_ok.mpr (Json.parse_stringify publication.integral_toJson), ?_⟩
  refine bind_ok_iff.mpr ⟨_, orError_eq_ok.mpr (h.readPublication_toJson hS), ?_⟩
  refine bind_ok_iff.mpr ⟨_, haddress, ?_⟩
  refine Eq.trans (if_neg (not_not.mpr hid)) ?_
  exact bind_ok_iff.mpr ⟨_, hroots, rfl⟩

/-- Roots of one name have one source and one layout, so the first of them stands for all. -/
theorem covers_eq_true (hS : S.Ideal) (h : publication.Lists S roots) (hroot : root ∈ roots) :
    covers publication root.printed = true := by
  have hmem : root.rootId ∈ publication.rootIds := by
    rw [h.rootIds]
    exact List.mem_map_of_mem hroot
  obtain ⟨index, hindex⟩ : ∃ index, publication.rootIds.idxOf? root.rootId = some index := by
    rw [← Option.isSome_iff_exists, List.isSome_idxOf?]
    exact hmem
  obtain ⟨hlt, hget, -⟩ := List.idxOf?_eq_some_iff.mp hindex
  have hbound : index < roots.length := by simpa [h.rootIds] using hlt
  have hname : roots[index].rootId = root.rootId := by simpa [h.rootIds] using hget
  obtain ⟨hsource, hlayout⟩ := (h.sound _ (List.getElem_mem hbound)).eq_of_rootId hS
    (h.sound root hroot) hname
  have hlisted : publication.sourceIdentities[index]? = some root.sourceIdentity := by
    rw [h.sourceIdentities, List.getElem?_map, List.getElem?_eq_getElem hbound, ← hsource]
    rfl
  have hcommitted : (publication.layoutIdentities.bind fun identities => identities[index]?) =
      root.layoutIdentity := by
    rw [h.layouts index, List.getElem?_eq_getElem hbound, ← hlayout]
    rfl
  simp only [covers, RootManifest.printed, hindex, hlisted, hcommitted, decide_true, Bool.and_self]

end Lists

end PublicationManifest

end ContextStore.Archive
