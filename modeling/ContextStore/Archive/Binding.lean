import ContextStore.Archive.Reconstruct
import ContextStore.Store.CommitFacts

/-! # What the name of a root commits to

Under an injective digest a hash of parts determines the UTF-8 bytes of every part
(`hashParts_injective`), since each is preceded by its length. Whatever archive a root is
reconstructed from, `Verified` holds of the result, and two verified results of one root have the
same text, the same bytes of every message key and, where the root commits to a layout, the same
parts (`Verified.text_eq`, `Verified.messageKeys_utf8`, `Verified.parts_eq`). -/

namespace ContextStore.Archive

open Unicode Concurrent

variable {S : Setting}

/-- An injective digest whose values have the form of a digest. -/
structure Setting.Ideal (S : Setting) : Prop where
  injective : Function.Injective S.sha256
  hex : ∀ bytes, S.isHexDigest (S.sha256 bytes) = true
  wellFormed : ∀ bytes, isWellFormed (S.sha256 bytes) = true

/-! ## Texts and bytes -/

theorem eq_of_utf8_eq {s t : Text} (hs : isWellFormed s = true) (ht : isWellFormed t = true)
    (h : utf8 s = utf8 t) : s = t :=
  eq_of_codePoints_eq hs ht (utf8_eq_iff.mp h)

theorem decimal_utf8_injective {m n : Nat} (h : utf8 (Json.decimal m) = utf8 (Json.decimal n)) :
    m = n := by
  have heq := eq_of_utf8_eq (Json.isWellFormed_decimal m) (Json.isWellFormed_decimal n) h
  rw [← Json.digitsValue_decimal m, heq, Json.digitsValue_decimal]

/-! ## Hashes of parts -/

theorem partBytes_cons_eq_ok {part : Text} {rest : List Text} {bytes : List UInt8}
    (h : partBytes (part :: rest) = .ok bytes) : ∃ field others,
      hashField (utf8 part) = .ok field ∧ partBytes rest = .ok others ∧ field ++ others = bytes := by
  simp only [partBytes, bind_ok_iff] at h
  obtain ⟨field, hfield, others, hothers, heq⟩ := h
  exact ⟨field, others, hfield, hothers, Except.ok.inj heq⟩

theorem partBytes_cons_ne_nil {part : Text} {rest : List Text} :
    partBytes (part :: rest) ≠ .ok [] := by
  intro h
  obtain ⟨field, others, hfield, -, heq⟩ := partBytes_cons_eq_ok h
  obtain ⟨length, hlength, rfl⟩ := map_ok_iff.mp hfield
  have hfour := length_of_hashLength hlength
  simp only [List.append_eq_nil_iff] at heq
  simp [heq.1.1] at hfour

variable {ps qs : List Text} {a b : List PartCoordinates} {digest : Text} {rootId : Text}
  {get : Reader}

/-- The hashed bytes determine the parts, up to texts with the same bytes. -/
theorem partBytes_injective {bytes : List UInt8} (hp : partBytes ps = .ok bytes)
    (hq : partBytes qs = .ok bytes) : ps.map utf8 = qs.map utf8 := by
  induction ps generalizing qs bytes with
  | nil =>
    cases hp
    cases qs with
    | nil => rfl
    | cons q qs => exact absurd hq partBytes_cons_ne_nil
  | cons p ps ih =>
    cases qs with
    | nil =>
      cases hq
      exact absurd hp partBytes_cons_ne_nil
    | cons q qs =>
      obtain ⟨x, r, hx, hr, rfl⟩ := partBytes_cons_eq_ok hp
      obtain ⟨y, s, hy, hs, heq⟩ := partBytes_cons_eq_ok hq
      obtain ⟨hhead, htail⟩ := hashField_append_injective hy hx heq
      rw [List.map_cons, List.map_cons, hhead, ih hr (htail ▸ hs)]

theorem partBytes_congr (h : ps.map utf8 = qs.map utf8) : partBytes ps = partBytes qs := by
  induction ps generalizing qs with
  | nil =>
    rw [List.map_eq_nil_iff.mp h.symm]
  | cons p ps ih =>
    cases qs with
    | nil => simp at h
    | cons q qs =>
      obtain ⟨hhead, htail⟩ := List.cons.inj h
      rw [partBytes, partBytes, hhead, ih htail]

theorem hashParts_congr (h : ps.map utf8 = qs.map utf8) : hashParts S ps = hashParts S qs := by
  rw [hashParts, hashParts, partBytes_congr h]

theorem hashParts_injective (hS : S.Ideal) (hp : hashParts S ps = .ok digest)
    (hq : hashParts S qs = .ok digest) : ps.map utf8 = qs.map utf8 := by
  obtain ⟨bytes, hbytes, hdigest⟩ := map_ok_iff.mp hp
  obtain ⟨bytes', hbytes', hdigest'⟩ := map_ok_iff.mp hq
  have heq : bytes = bytes' := hS.injective (hdigest.trans hdigest'.symm)
  subst heq
  exact partBytes_injective hbytes hbytes'

theorem wellFormed_of_hashParts (hS : S.Ideal) (h : hashParts S ps = .ok digest) :
    isWellFormed digest = true := by
  obtain ⟨bytes, -, rfl⟩ := map_ok_iff.mp h
  exact hS.wellFormed bytes

theorem hex_of_hashParts (hS : S.Ideal) (h : hashParts S ps = .ok digest) :
    S.isHexDigest digest = true := by
  obtain ⟨bytes, -, rfl⟩ := map_ok_iff.mp h
  exact hS.hex bytes

/-! ## Addresses -/

/-- A source's address distinguishes its keys from every other list of keys. -/
theorem sourceIdentityParts_injective {p s k kind hash p' s' k' kind' hash' : Text}
    {ks ks' : List Text}
    (h : (sourceIdentityParts p s k ks kind hash).map utf8 =
      (sourceIdentityParts p' s' k' ks' kind' hash').map utf8) :
    utf8 p = utf8 p' ∧ utf8 s = utf8 s' ∧ utf8 hash = utf8 hash' ∧ ks.map utf8 = ks'.map utf8 := by
  simp only [sourceIdentityParts, List.map_cons, List.cons_append, List.nil_append, List.cons.injEq, true_and] at h
  obtain ⟨hp, hs, hk, -, hhash, hkeys⟩ := h
  refine ⟨hp, hs, hhash, ?_⟩
  split at hkeys
  · next hone =>
    split at hkeys
    · next hone' => rw [hone, hone', List.map_cons, List.map_cons, hk]
    · simp at hkeys
  · split at hkeys
    · simp at hkeys
    · simpa using hkeys

theorem rootAddress_injective (hS : S.Ideal) {si pub si' pub' address : Text}
    {layout layout' : Option Text} (h : rootAddress S si pub layout = .ok address)
    (h' : rootAddress S si' pub' layout' = .ok address) :
    utf8 si = utf8 si' ∧ utf8 pub = utf8 pub' ∧ layout.map utf8 = layout'.map utf8 := by
  have heq := hashParts_injective hS h h'
  simp only [List.map_cons, List.cons_append, List.nil_append, List.cons.injEq, true_and] at heq
  obtain ⟨hsi, hpub, hlayout⟩ := heq
  refine ⟨hsi, hpub, ?_⟩
  cases layout with
  | none =>
    cases layout' with
    | none => rfl
    | some l' => simp at hlayout
  | some l =>
    cases layout' with
    | none => simp at hlayout
    | some l' => simpa using hlayout

theorem values_injective
    (hwf : ∀ part ∈ a ++ b, isWellFormed part.hash = true)
    (h : (a.flatMap PartCoordinates.values).map utf8 =
      (b.flatMap PartCoordinates.values).map utf8) : a = b := by
  induction a generalizing b with
  | nil =>
    cases b with
    | nil => rfl
    | cons y b => simp [PartCoordinates.values] at h
  | cons x a ih =>
    cases b with
    | nil => simp [PartCoordinates.values] at h
    | cons y b =>
      simp only [List.flatMap_cons, PartCoordinates.values, List.map_cons,
        List.cons_append, List.nil_append, List.cons.injEq] at h
      obtain ⟨hordinal, hstart, hend, hcount, hhash, hrest⟩ := h
      have hx : isWellFormed x.hash = true := hwf x (by simp)
      have hy : isWellFormed y.hash = true := hwf y (by simp)
      have hparts : x = y := by
        obtain ⟨ordinal, startByte, endByte, byteCount, hash⟩ := x
        obtain ⟨ordinal', startByte', endByte', byteCount', hash'⟩ := y
        simp only [PartCoordinates.mk.injEq]
        exact ⟨decimal_utf8_injective hordinal, decimal_utf8_injective hstart,
          decimal_utf8_injective hend, decimal_utf8_injective hcount, eq_of_utf8_eq hx hy hhash⟩
      rw [hparts, ih (fun part hpart => hwf part (by
        rcases List.mem_append.mp hpart with hmem | hmem
        · exact List.mem_append_left _ (List.mem_cons_of_mem _ hmem)
        · exact List.mem_append_right _ (List.mem_cons_of_mem _ hmem))) hrest]

/-- A layout's address determines the coordinates of all parts. -/
theorem layoutAddress_injective (hS : S.Ideal) {m n : Nat} {hash hash' address : Text}
    (hwf : ∀ part ∈ a ++ b, isWellFormed part.hash = true)
    (h : layoutAddress S m hash a = .ok address) (h' : layoutAddress S n hash' b = .ok address) :
    a = b := by
  have heq := hashParts_injective hS h h'
  simp only [List.map_cons, List.cons_append, List.nil_append, List.cons.injEq, true_and] at heq
  exact values_injective hwf heq.2.2.2

/-! ## What a reconstruction checks -/

theorem orError_eq_ok {α : Type} {value : Option α} {message : String} {a : α} :
    orError value message = .ok a ↔ value = some a := by
  cases value <;> simp [orError]

theorem identifier_eq_ok {value key : Text} {label : String}
    (h : identifier value label = .ok key) : key = value := by
  unfold identifier at h
  split at h
  · cases h
  · exact (Except.ok.inj h).symm

theorem normalizeSourceMessageKeys_eq_ok {value : Option (List Text)} {sourceKey : Text}
    {keys : List Text} (h : normalizeSourceMessageKeys S value sourceKey = .ok keys) :
    keys = value.getD [sourceKey] := by
  obtain ⟨key, hkey, hread⟩ := bind_ok_iff.mp h
  obtain rfl := identifier_eq_ok hkey
  split at hread
  · cases hread
  · cases value with
    | none => exact (Except.ok.inj hread).symm
    | some given =>
      dsimp only at hread
      split at hread
      · cases hread
      · obtain ⟨_, -, heq⟩ := map_ok_iff.mp hread
        exact heq.symm

/-- What holds of every reconstruction of a root, whatever the archive it is read from. -/
structure Verified (S : Setting) (get : Reader) (rootId : Text) (r : Reconstruction) : Prop where
  sourceIdentity : sourceAddress S r.root.project r.root.sessionId r.root.sourceKey
    r.root.messageKeys r.root.sourceKind r.root.hash = .ok r.root.sourceIdentity
  address : ∃ address, rootAddress S r.root.sourceIdentity r.root.publicationId
    r.root.layoutIdentity = .ok address ∧ rootIdPrefix ++ address = rootId
  layout : ∀ identity, r.root.layoutIdentity = some identity → layoutAddress S r.root.byteCount
    r.root.hash (r.root.parts.map PartReference.coordinates) = .ok identity
  partIds : ∀ part ∈ r.root.parts, ∃ address, partAddress S r.root.project r.root.sessionId rootId
    part.hash = .ok address ∧ part.id = partIdPrefix ++ address
  payloads : ∀ part ∈ r.root.parts, ∃ payload, readPayload S get part = .ok payload ∧
    part.hash = S.sha256 payload
  bytes : ∃ bytes, r.root.hash = S.sha256 bytes ∧ r.text = decode bytes

theorem parseRoot_eq_ok {document : Option ArchivedDocument} {root : RootManifest Json}
    (h : parseRoot S document rootId = .ok root) :
    root.rootId = rootId ∧
    sourceAddress S root.project root.sessionId root.sourceKey root.messageKeys root.sourceKind
      root.hash = .ok root.sourceIdentity ∧
    ∃ address, rootAddress S root.sourceIdentity root.publicationId root.layoutIdentity =
      .ok address ∧ rootIdPrefix ++ address = rootId := by
  simp only [parseRoot, bind_ok_iff] at h
  obtain ⟨stored, -, value, -, header, -, source, hsource, expected, hexpected, h⟩ := h
  split at h
  · cases h
  · next hidentity =>
    obtain ⟨address, haddress, h⟩ := bind_ok_iff.mp h
    split at h
    · cases h
    · next hroot =>
      have heq := Except.ok.inj h
      subst heq
      have hkeys : source.messageKeys = source.sourceMessageKeys.getD [source.sourceKey] := by
        have hread := orError_eq_ok.mp hsource
        simp only [readRootSource, Option.bind_eq_bind, Option.bind_eq_some_iff] at hread
        obtain ⟨project, -, sessionId, -, sourceKey, -, sourceKind, -, keys, -, messageKeys,
          hmessageKeys, hread⟩ := hread
        have hsame := Option.some.inj hread
        subst hsame
        cases hnormal : normalizeSourceMessageKeys S keys sourceKey with
        | error e => simp [hnormal, Except.toOption] at hmessageKeys
        | ok normalized =>
          rw [hnormal] at hmessageKeys
          cases hmessageKeys
          exact normalizeSourceMessageKeys_eq_ok hnormal
      rw [not_not] at hidentity hroot
      refine ⟨rfl, ?_, address, haddress, hroot⟩
      show sourceAddress S source.project source.sessionId source.sourceKey
        (source.sourceMessageKeys.getD [source.sourceKey]) source.sourceKind header.hash =
          .ok header.sourceIdentity
      rw [← hkeys, hexpected, hidentity]

theorem checkParts_eq_ok {project sessionId : Text} {ordinal cursor : Nat}
    {values : List Json} {checked : List PartReference × Nat}
    (h : checkParts S project sessionId rootId ordinal cursor values = .ok checked) :
    ∀ part ∈ checked.1, ∃ address, partAddress S project sessionId rootId part.hash = .ok address ∧
        part.id = partIdPrefix ++ address := by
  induction values generalizing ordinal cursor checked with
  | nil =>
    cases h
    simp
  | cons value rest ih =>
    simp only [checkParts, bind_ok_iff] at h
    obtain ⟨reference, -, address, haddress, h⟩ := h
    split at h
    · cases h
    · next hid =>
      obtain ⟨others, hothers, heq⟩ := bind_ok_iff.mp h
      cases heq
      intro part hpart
      rcases List.mem_cons.mp hpart with rfl | hmem
      · exact ⟨address, haddress, not_not.mp hid⟩
      · exact ih hothers part hmem

theorem inspectCheckpointManifest_eq_ok {root : RootManifest PartReference}
    (h : inspectCheckpointManifest S get rootId = .ok root) :
    sourceAddress S root.project root.sessionId root.sourceKey root.messageKeys root.sourceKind
      root.hash = .ok root.sourceIdentity ∧
    (∃ address, rootAddress S root.sourceIdentity root.publicationId root.layoutIdentity =
      .ok address ∧ rootIdPrefix ++ address = rootId) ∧
    (∀ identity, root.layoutIdentity = some identity → layoutAddress S root.byteCount root.hash
      (root.parts.map PartReference.coordinates) = .ok identity) ∧
    ∀ part ∈ root.parts, ∃ address, partAddress S root.project root.sessionId rootId part.hash =
      .ok address ∧ part.id = partIdPrefix ++ address := by
  simp only [inspectCheckpointManifest, bind_ok_iff] at h
  obtain ⟨id, hid, document, -, parsed, hparsed, stored, -, publication, -, h⟩ := h
  obtain rfl := identifier_eq_ok hid
  obtain ⟨hrootId, hsource, haddress⟩ := parseRoot_eq_ok hparsed
  split at h
  · cases h
  · obtain ⟨checked, hchecked, h⟩ := bind_ok_iff.mp h
    split at h
    · cases h
    · obtain ⟨expected, hexpected, h⟩ := bind_ok_iff.mp h
      split at h
      · cases h
      · next hlayout =>
        rw [not_not] at hlayout
        have heq := Except.ok.inj h
        subst heq
        refine ⟨hsource, haddress, ?_, ?_⟩
        · intro identity hidentity
          have hidentity' : parsed.layoutIdentity = some identity := hidentity
          rw [expectedLayoutIdentity, hidentity'] at hexpected
          rw [hidentity'] at hlayout
          obtain ⟨expectedIdentity, hcomputed, hsome⟩ := map_ok_iff.mp hexpected
          rw [← hlayout, Option.some.injEq] at hsome
          rw [← hsome]
          exact hcomputed
        · rw [hrootId] at hchecked
          exact checkParts_eq_ok hchecked

theorem readPayloads_eq_ok {parts : List PartReference} {payloads : List (List UInt8)}
    (h : readPayloads S get parts = .ok payloads) :
    ∀ part ∈ parts, ∃ payload, readPayload S get part = .ok payload ∧
      part.hash = S.sha256 payload := by
  induction parts generalizing payloads with
  | nil => simp
  | cons reference rest ih =>
    simp only [readPayloads, bind_ok_iff] at h
    obtain ⟨payload, hpayload, others, hothers, -⟩ := h
    intro part hpart
    rcases List.mem_cons.mp hpart with rfl | hmem
    · refine ⟨payload, hpayload, ?_⟩
      simp only [readPayload, bind_ok_iff] at hpayload
      obtain ⟨document, -, hpayload⟩ := hpayload
      split at hpayload
      · cases hpayload
      · split at hpayload
        · cases hpayload
        · split at hpayload
          · cases hpayload
          · next hchecked =>
            rw [not_or, not_not, not_not] at hchecked
            cases hpayload
            exact hchecked.2.symm
    · exact ih hothers part hmem

/-- Nothing about the archive is assumed. -/
theorem verified_of_reconstruct {r : Reconstruction}
    (h : reconstructCheckpointSource S get rootId = .ok r) : Verified S get rootId r := by
  simp only [reconstructCheckpointSource, bind_ok_iff] at h
  obtain ⟨root, hroot, payloads, hpayloads, h⟩ := h
  obtain ⟨hsource, haddress, hlayout, hpartIds⟩ := inspectCheckpointManifest_eq_ok hroot
  split at h
  · cases h
  · next hchecked =>
    rw [not_or, not_not, not_not] at hchecked
    have heq := Except.ok.inj h
    subst heq
    exact ⟨hsource, haddress, hlayout, hpartIds, readPayloads_eq_ok hpayloads,
      payloads.flatten, hchecked.2.symm, rfl⟩

namespace Verified

variable {get get' : Reader} {rootId : Text} {r r' : Reconstruction}

theorem sourceIdentity_eq (hS : S.Ideal) (h : Verified S get rootId r)
    (h' : Verified S get' rootId r') :
    r.root.sourceIdentity = r'.root.sourceIdentity := by
  obtain ⟨address, haddress, hid⟩ := h.address
  obtain ⟨address', haddress', hid'⟩ := h'.address
  have hsame : address' = address := List.append_cancel_left (hid'.trans hid.symm)
  subst hsame
  exact eq_of_utf8_eq (wellFormed_of_hashParts hS h.sourceIdentity)
    (wellFormed_of_hashParts hS h'.sourceIdentity) (rootAddress_injective hS haddress haddress').1

theorem identityParts_eq (hS : S.Ideal) (h : Verified S get rootId r)
    (h' : Verified S get' rootId r') :
    utf8 r.root.project = utf8 r'.root.project ∧ utf8 r.root.sessionId = utf8 r'.root.sessionId ∧
      utf8 r.root.hash = utf8 r'.root.hash ∧
      r.root.messageKeys.map utf8 = r'.root.messageKeys.map utf8 := by
  have heq := h.sourceIdentity_eq hS h'
  exact sourceIdentityParts_injective
    (hashParts_injective hS h.sourceIdentity (heq ▸ h'.sourceIdentity))

theorem hash_eq (hS : S.Ideal) (h : Verified S get rootId r) (h' : Verified S get' rootId r') :
    r.root.hash = r'.root.hash := by
  obtain ⟨bytes, hbytes, -⟩ := h.bytes
  obtain ⟨bytes', hbytes', -⟩ := h'.bytes
  refine eq_of_utf8_eq ?_ ?_ (h.identityParts_eq hS h').2.2.1
  · rw [hbytes]
    exact hS.wellFormed bytes
  · rw [hbytes']
    exact hS.wellFormed bytes'

theorem text_eq (hS : S.Ideal) (h : Verified S get rootId r) (h' : Verified S get' rootId r') :
    r.text = r'.text := by
  have hhash := h.hash_eq hS h'
  obtain ⟨bytes, hbytes, htext⟩ := h.bytes
  obtain ⟨bytes', hbytes', htext'⟩ := h'.bytes
  have heq : bytes = bytes' := hS.injective (by rw [← hbytes, ← hbytes', hhash])
  rw [htext, htext', heq]

theorem messageKeys_utf8 (hS : S.Ideal) (h : Verified S get rootId r)
    (h' : Verified S get' rootId r') :
    r.root.messageKeys.map utf8 = r'.root.messageKeys.map utf8 :=
  (h.identityParts_eq hS h').2.2.2

theorem parts_eq (hS : S.Ideal) (h : Verified S get rootId r) (h' : Verified S get' rootId r')
    (hlayout : r.root.layoutIdentity ≠ none) : r'.root.parts = r.root.parts := by
  obtain ⟨address, haddress, hid⟩ := h.address
  obtain ⟨address', haddress', hid'⟩ := h'.address
  have hsame : address' = address := List.append_cancel_left (hid'.trans hid.symm)
  subst hsame
  have hlayouts := (rootAddress_injective hS haddress haddress').2.2
  obtain ⟨identity, hidentity⟩ := Option.ne_none_iff_exists'.mp hlayout
  rw [hidentity, Option.map_some] at hlayouts
  obtain ⟨identity', hidentity', hutf8⟩ := Option.map_eq_some_iff.mp hlayouts.symm
  have hcomputed := h.layout identity hidentity
  have hcomputed' := h'.layout identity' hidentity'
  have heq : identity' = identity := eq_of_utf8_eq (wellFormed_of_hashParts hS hcomputed')
    (wellFormed_of_hashParts hS hcomputed) hutf8
  subst heq
  have hwf : ∀ part ∈ r'.root.parts.map PartReference.coordinates ++
      r.root.parts.map PartReference.coordinates, isWellFormed part.hash = true := by
    intro part hpart
    rcases List.mem_append.mp hpart with hmem | hmem
    · obtain ⟨reference, href, rfl⟩ := List.mem_map.mp hmem
      obtain ⟨payload, -, hpayload⟩ := h'.payloads reference href
      show isWellFormed reference.hash = true
      rw [hpayload]
      exact hS.wellFormed payload
    · obtain ⟨reference, href, rfl⟩ := List.mem_map.mp hmem
      obtain ⟨payload, -, hpayload⟩ := h.payloads reference href
      show isWellFormed reference.hash = true
      rw [hpayload]
      exact hS.wellFormed payload
  have hcoordinates := layoutAddress_injective hS hwf hcomputed' hcomputed
  obtain ⟨hproject, hsession, -, -⟩ := h.identityParts_eq hS h'
  -- Equal coordinates have equal addresses, since the identities have the same bytes.
  have hids : ∀ part ∈ r'.root.parts, ∀ other ∈ r.root.parts,
      part.coordinates = other.coordinates → part = other := by
    intro part hpart other hother hsame
    have hhash : part.hash = other.hash := congrArg PartCoordinates.hash hsame
    obtain ⟨a, ha, hpartId⟩ := h'.partIds part hpart
    obtain ⟨b, hb, hotherId⟩ := h.partIds other hother
    have haddresses : partAddress S r'.root.project r'.root.sessionId rootId part.hash =
        partAddress S r.root.project r.root.sessionId rootId other.hash := by
      refine hashParts_congr ?_
      simp [hproject, hsession, hhash]
    rw [ha, hb] at haddresses
    have hid : part.id = other.id := by rw [hpartId, hotherId, Except.ok.inj haddresses]
    obtain ⟨id, ordinal, startByte, endByte, byteCount, hash⟩ := part
    obtain ⟨id', ordinal', startByte', endByte', byteCount', hash'⟩ := other
    simp only [PartReference.coordinates, PartCoordinates.mk.injEq] at hsame
    simp only [PartReference.mk.injEq]
    exact ⟨hid, hsame⟩
  refine List.ext_getElem ?_ fun i hi hi' => ?_
  · have hlength := congrArg List.length hcoordinates
    simpa using hlength
  · refine hids _ (List.getElem_mem hi) _ (List.getElem_mem hi') ?_
    have hget : (r'.root.parts.map PartReference.coordinates)[i]? =
        (r.root.parts.map PartReference.coordinates)[i]? := by rw [hcoordinates]
    rw [List.getElem?_map, List.getElem?_map, List.getElem?_eq_getElem hi,
      List.getElem?_eq_getElem hi'] at hget
    exact Option.some.inj hget

end Verified

end ContextStore.Archive
