import ContextStore.Archive.Creation

/-! # Tampered archives

Whatever archive a stored root is reconstructed from, the text is the text of its source
(`Verified.text_eq`), and under a committed layout so are the parts. The message keys are hashed by
their UTF-8 bytes, which an unpaired surrogate shares with the replacement character: where no key
contains one of the two, the keys are those of the source as well, and where one does, an archive
that returns other keys is accepted (`exists_tampered`). -/

namespace ContextStore.Archive

open Unicode Concurrent

variable {S : Setting}

/-! ## What is rejected -/

/-- Any archive from which the root is reconstructed agrees with the one it was stored in. -/
structure Authentic (S : Setting) (get : Reader) (source : CheckpointSource) (rootId : Text) :
    Prop where
  text : ∀ {tampered : Reader} {r : Reconstruction},
    reconstructCheckpointSource S tampered rootId = .ok r → r.text = source.text
  messageKeys : ∀ {tampered : Reader} {r : Reconstruction},
    reconstructCheckpointSource S tampered rootId = .ok r →
      r.root.messageKeys = source.messageKeys S
  addresses : ∀ {tampered : Reader} {r honest : Reconstruction},
    reconstructCheckpointSource S tampered rootId = .ok r →
    reconstructCheckpointSource S get rootId = .ok honest →
      r.root.sourceIdentity = honest.root.sourceIdentity ∧
        r.root.layoutIdentity = honest.root.layoutIdentity
  parts : ∀ {tampered : Reader} {r honest : Reconstruction},
    reconstructCheckpointSource S tampered rootId = .ok r →
    reconstructCheckpointSource S get rootId = .ok honest → honest.root.layoutIdentity ≠ none →
      r.root.parts = honest.root.parts ∧
        ∀ part ∈ honest.root.parts, readPayload S tampered part = readPayload S get part

variable {keys keys' : List Text} {rootId : Text} {get : Reader}

theorem keys_eq_of_utf8_eq (hplain : ∀ key ∈ keys, replacement ∉ codePoints key)
    (h : keys'.map utf8 = keys.map utf8) : keys' = keys := by
  induction keys generalizing keys' with
  | nil => exact List.map_eq_nil_iff.mp h
  | cons key rest ih =>
    cases keys' with
    | nil => cases h
    | cons key' rest' =>
      obtain ⟨hhead, htail⟩ := List.cons.inj h
      have hpoints := utf8_eq_iff.mp hhead
      have hkey := codeUnits_codePoints (hplain key List.mem_cons_self)
      have hkey' := codeUnits_codePoints (hpoints ▸ hplain key List.mem_cons_self)
      rw [ih (fun other hother => hplain other (List.mem_cons_of_mem _ hother)) htail,
        ← hkey', hpoints, hkey]

theorem Verified.readPayload_eq (hS : S.Ideal) {get' : Reader} {r r' : Reconstruction}
    (h : Verified S get rootId r) (h' : Verified S get' rootId r')
    (hparts : r'.root.parts = r.root.parts) :
    ∀ part ∈ r.root.parts, readPayload S get' part = readPayload S get part := by
  intro part hpart
  obtain ⟨payload, hread, hhash⟩ := h.payloads part hpart
  obtain ⟨payload', hread', hhash'⟩ := h'.payloads part (hparts ▸ hpart)
  have hsame : payload' = payload := hS.injective (hhash'.symm.trans hhash)
  rw [hread, hread', hsame]

/-- Where no key contains a replacement, nothing but what was stored is accepted. -/
theorem authentic_of_plain (hS : S.Ideal) {source : CheckpointSource}
    (h : Recovered S get source rootId)
    (hplain : ∀ key ∈ source.messageKeys S, replacement ∉ codePoints key) :
    Authentic S get source rootId := by
  obtain ⟨honest, hhonest, htext, hkeys⟩ := h
  have hverified := verified_of_reconstruct hhonest
  refine ⟨?_, ?_, ?_, ?_⟩
  · intro tampered r hr
    exact ((verified_of_reconstruct hr).text_eq hS hverified).trans htext
  · intro tampered r hr
    have hutf8 := (verified_of_reconstruct hr).messageKeys_utf8 hS hverified
    rw [hkeys] at hutf8
    exact keys_eq_of_utf8_eq hplain hutf8
  · intro tampered r honest' hr hhonest'
    obtain ⟨hrootId, hsound, -⟩ := sound_of_inspect (inspect_of_reconstruct hr)
    obtain ⟨hrootId', hsound', -⟩ := sound_of_inspect (inspect_of_reconstruct hhonest')
    exact hsound.eq_of_rootId hS hsound' (hrootId.trans hrootId'.symm)
  · intro tampered r honest' hr hhonest' hlayout
    have hverified' := verified_of_reconstruct hhonest'
    have hparts := hverified'.parts_eq hS (verified_of_reconstruct hr) hlayout
    exact ⟨hparts, hverified'.readPayload_eq hS (verified_of_reconstruct hr) hparts⟩

/-! ## What is accepted -/

/-- The archive with another document under one name. -/
def replaced (get : Reader) (id value : Text) : Reader := fun other =>
  if other = id then .ok (some { text := some value, contentHash := none, byteLength := none })
  else get other

theorem ne_of_prefixes {p q a b : Text} (h : p.take 12 ≠ q.take 12) (hp : 12 ≤ p.length)
    (hq : 12 ≤ q.length) : p ++ a ≠ q ++ b := by
  intro heq
  refine h ?_
  have htake := congrArg (List.take 12) heq
  rwa [List.take_append_of_le_length hp, List.take_append_of_le_length hq] at htake

theorem readPayloads_congr {get' : Reader} {parts : List PartReference}
    (h : ∀ part ∈ parts, get part.id = get' part.id) :
    readPayloads S get parts = readPayloads S get' parts := by
  induction parts with
  | nil => rfl
  | cons part rest ih =>
    have hpart : readPayload S get part = readPayload S get' part := by
      rw [readPayload, readPayload, h part List.mem_cons_self]
    rw [readPayloads, readPayloads, hpart,
      ih fun other hother => h other (List.mem_cons_of_mem _ hother)]

/-- A sound root that differs from the stored one in its source key and its message keys alone is
accepted in its place. -/
theorem reconstruct_replaced (hS : S.Ideal) {r : Reconstruction}
    (hr : reconstructCheckpointSource S get rootId = .ok r) {sourceKey : Text}
    {keys : Option (List Text)}
    (hsound : RootManifest.Sound S { r.root with sourceKey, sourceMessageKeys := keys }) :
    ∃ tampered, reconstructCheckpointSource S tampered rootId =
      .ok { r with root := { r.root with sourceKey, sourceMessageKeys := keys } } := by
  obtain ⟨hrootId, hstoredSound, stored, publication, hstored, hpublication, hcovers⟩ :=
    sound_of_inspect (inspect_of_reconstruct hr)
  obtain ⟨address, haddress, hid⟩ := hstoredSound.address
  let root : RootManifest PartReference := { r.root with sourceKey, sourceMessageKeys := keys }
  have hother : ∀ id, id ≠ r.root.rootId →
      replaced get r.root.rootId root.toJson.stringify id = get id := fun id hne => if_neg hne
  have hpublicationId : r.root.publicationId ≠ r.root.rootId := by
    obtain ⟨rest, hrest⟩ := hstoredSound.publicationId
    rw [← hrest, ← hid]
    exact ne_of_prefixes (by decide +kernel) (by decide +kernel) (by decide +kernel)
  have hpartIds : ∀ part ∈ r.root.parts, part.id ≠ r.root.rootId := by
    intro part hpart
    obtain ⟨-, partAddress, -, hpartId⟩ := hstoredSound.references part hpart
    rw [hpartId, ← hid]
    exact ne_of_prefixes (by decide +kernel) (by decide +kernel) (by decide +kernel)
  have hinspect : inspectCheckpointManifest S
      (replaced get r.root.rootId root.toJson.stringify) rootId = .ok root := by
    rw [← hrootId]
    exact hsound.inspect_eq_ok hS (if_pos rfl) rfl ((hother _ hpublicationId).trans hstored)
      hpublication hcovers
  obtain ⟨inspected, hinspected, hpayloads⟩ := bind_ok_iff.mp hr
  have hsame : inspected = r.root :=
    Except.ok.inj (hinspected.symm.trans (inspect_of_reconstruct hr))
  subst hsame
  obtain ⟨payloads, hread, hfinish⟩ := bind_ok_iff.mp hpayloads
  refine ⟨replaced get r.root.rootId root.toJson.stringify, ?_⟩
  refine bind_ok_iff.mpr ⟨_, hinspect, ?_⟩
  refine bind_ok_iff.mpr ⟨payloads, ?_, ?_⟩
  · rw [← hread]
    exact readPayloads_congr fun part hpart => hother _ (hpartIds part hpart)
  · dsimp only at hfinish ⊢
    split at hfinish
    · cases hfinish
    · next hchecked =>
      have htext : decode payloads.flatten = r.text :=
        congrArg Reconstruction.text (Except.ok.inj hfinish)
      rw [if_neg hchecked]
      show Except.ok (Reconstruction.mk root (decode payloads.flatten)) = _
      rw [htext]

theorem checkMessageKeys_cons_eq_ok {index bytes : Nat} {key : Text} {rest : List Text} :
    checkMessageKeys S index bytes (key :: rest) = .ok () ↔
      key ≠ [] ∧ key.length ≤ S.limits.maxStoreIdentifierLength ∧
        bytes + (utf8 key).length ≤ S.limits.maxSourceMessageKeyBytesPerDocument ∧
          checkMessageKeys S (index + 1) (bytes + (utf8 key).length) rest = .ok () := by
  rw [checkMessageKeys, bind_ok_iff]
  by_cases hempty : key = []
  · simp [identifier, hempty]
  · simp only [identifier, if_neg hempty, Except.ok.injEq, exists_eq_left']
    by_cases hlength : S.limits.maxStoreIdentifierLength < key.length
    · simp [hlength]
    · by_cases hbytes : S.limits.maxSourceMessageKeyBytesPerDocument < bytes + (utf8 key).length
      · simp [hlength, hbytes]
      · simp only [if_neg hlength, if_neg hbytes, ne_eq, hempty, not_false_eq_true, true_and]
        exact ⟨fun hrest => ⟨Nat.not_lt.mp hlength, Nat.not_lt.mp hbytes, hrest⟩,
          fun hall => hall.2.2⟩

theorem checkMessageKeys_congr (hlengths : keys.map List.length = keys'.map List.length)
    (hutf8 : keys.map utf8 = keys'.map utf8) {index bytes : Nat}
    (h : checkMessageKeys S index bytes keys = .ok ()) :
    checkMessageKeys S index bytes keys' = .ok () := by
  induction keys generalizing keys' index bytes with
  | nil =>
    rw [List.map_eq_nil_iff.mp hlengths.symm]
    rfl
  | cons key rest ih =>
    cases keys' with
    | nil => cases hlengths
    | cons key' rest' =>
      obtain ⟨hlength, hlengthRest⟩ := List.cons.inj hlengths
      obtain ⟨hbytes, hbytesRest⟩ := List.cons.inj hutf8
      obtain ⟨hne, hshort, hfits, hrest⟩ := checkMessageKeys_cons_eq_ok.mp h
      have hne' : key' ≠ [] := by
        rw [← List.length_pos_iff, ← hlength]
        exact List.length_pos_iff.mpr hne
      refine checkMessageKeys_cons_eq_ok.mpr ⟨hne', hlength ▸ hshort, hbytes ▸ hfits, ?_⟩
      rw [← hbytes]
      exact ih hlengthRest hbytesRest hrest

theorem normalizeSourceMessageKeys_congr {sourceKey : Text}
    (hlengths : keys.map List.length = keys'.map List.length)
    (hutf8 : keys.map utf8 = keys'.map utf8)
    (h : normalizeSourceMessageKeys S (some keys) sourceKey = .ok keys) :
    normalizeSourceMessageKeys S (some keys') sourceKey = .ok keys' := by
  have hlength : keys.length = keys'.length := by
    have heq := congrArg List.length hlengths
    simpa using heq
  obtain ⟨key, hkey, hread⟩ := bind_ok_iff.mp h
  refine bind_ok_iff.mpr ⟨key, hkey, ?_⟩
  split at hread
  · cases hread
  · next hshort =>
    rw [if_neg hshort]
    dsimp only at hread ⊢
    split at hread
    · cases hread
    · next hcount =>
      have hcount' : ¬ (keys' = [] ∨
          S.limits.maxSourceMessageKeysPerDocument < keys'.length) := by
        rw [← List.length_eq_zero_iff] at hcount ⊢
        omega
      rw [if_neg hcount']
      obtain ⟨done, hchecked, -⟩ := map_ok_iff.mp hread
      exact map_ok_iff.mpr ⟨_, checkMessageKeys_congr hlengths hutf8 hchecked, rfl⟩

/-- A key with a replacement can be exchanged for another of the same bytes. -/
theorem exists_tampered (hS : S.Ideal) {r : Reconstruction}
    (hr : reconstructCheckpointSource S get rootId = .ok r) {key : Text}
    (hkey : key ∈ r.root.messageKeys) (hbad : replacement ∈ codePoints key) :
    ∃ tampered r', reconstructCheckpointSource S tampered rootId = .ok r' ∧
      r'.root.messageKeys ≠ r.root.messageKeys := by
  obtain ⟨-, hsound, -⟩ := sound_of_inspect (inspect_of_reconstruct hr)
  obtain ⟨hsourceKey, hsourceKeyLength⟩ := normalizeSourceMessageKeys_sourceKey hsound.messageKeys
  by_cases hone : r.root.messageKeys = [r.root.sourceKey]
  · -- The only key is the source key: it is changed itself.
    rw [hone, List.mem_singleton] at hkey
    subst hkey
    obtain ⟨key', hne, -, hpoints, hlength⟩ := exists_codePoints_eq hbad []
    have hutf8 : utf8 key' = utf8 r.root.sourceKey := utf8_eq_iff.mpr hpoints
    have hnonempty : key' ≠ [] := by
      rw [← List.length_pos_iff, hlength]
      exact List.length_pos_iff.mpr hsourceKey
    have hidentity := hsound.sourceIdentity
    rw [hone] at hidentity
    have hsame : sourceAddress S r.root.project r.root.sessionId key' [key'] r.root.sourceKind
        r.root.hash = .ok r.root.sourceIdentity := by
      rw [← hidentity]
      refine hashParts_congr ?_
      simp [sourceIdentityParts, hutf8]
    have hchanged : RootManifest.Sound S
        { r.root with sourceKey := key', sourceMessageKeys := none } :=
      { hsound with
        sourceKey := hnonempty
        messageKeys := normalizeSourceMessageKeys_none hnonempty (hlength ▸ hsourceKeyLength)
        sourceIdentity := hsame }
    obtain ⟨tampered, htampered⟩ := reconstruct_replaced hS hr hchanged
    refine ⟨tampered, _, htampered, ?_⟩
    rw [hone]
    intro heq
    exact hne (List.cons.inj heq).1
  · -- The keys are listed: one of them is changed, but not to the source key alone.
    obtain ⟨keys, hkeys⟩ : ∃ keys, r.root.sourceMessageKeys = some keys := by
      cases hcase : r.root.sourceMessageKeys with
      | none => exact absurd (by rw [RootManifest.messageKeys, hcase]; rfl) hone
      | some keys => exact ⟨keys, rfl⟩
    have hmessageKeys : r.root.messageKeys = keys := by
      rw [RootManifest.messageKeys, hkeys]
      rfl
    rw [hmessageKeys] at hkey hone
    obtain ⟨before, later, hsplit⟩ := List.append_of_mem hkey
    obtain ⟨key', hne, havoided, hpoints, hlength⟩ :=
      exists_codePoints_eq hbad r.root.sourceKey
    have hutf8 : utf8 key' = utf8 key := utf8_eq_iff.mpr hpoints
    have hnew : before ++ key' :: later ≠ [r.root.sourceKey] := by
      intro heq
      obtain ⟨hnil, hlast⟩ := List.append_eq_singleton_iff.mp heq |>.resolve_right (by simp)
      exact havoided (List.cons.inj hlast).1
    have hchangedUtf8 : keys.map utf8 = (before ++ key' :: later).map utf8 := by
      rw [hsplit, List.map_append, List.map_append, List.map_cons, List.map_cons, hutf8]
    have hchangedLength : keys.map List.length = (before ++ key' :: later).map List.length := by
      rw [hsplit, List.map_append, List.map_append, List.map_cons, List.map_cons, hlength]
    have hnormal := hsound.messageKeys
    rw [hmessageKeys, hkeys] at hnormal
    have hidentity := hsound.sourceIdentity
    rw [hmessageKeys] at hidentity
    have hsame : sourceAddress S r.root.project r.root.sessionId r.root.sourceKey
        (before ++ key' :: later) r.root.sourceKind r.root.hash = .ok r.root.sourceIdentity := by
      rw [← hidentity]
      refine hashParts_congr ?_
      simp only [sourceIdentityParts, if_neg hnew, if_neg hone, List.map_append, List.map_cons]
        at hchangedUtf8 ⊢
      rw [hchangedUtf8]
    have hchanged : RootManifest.Sound S
        { r.root with sourceMessageKeys := some (before ++ key' :: later) } :=
      { hsound with
        messageKeys := normalizeSourceMessageKeys_congr hchangedLength hchangedUtf8 hnormal
        sourceIdentity := hsame }
    obtain ⟨tampered, htampered⟩ := reconstruct_replaced hS hr hchanged
    refine ⟨tampered, _, htampered, ?_⟩
    rw [hmessageKeys, hsplit]
    intro heq
    exact hne (List.cons.inj (List.append_cancel_left heq)).1

/-! ## Stored checkpoints -/

/-- A stored checkpoint is read back from its archive and protected against every other archive if
and only if no message key contains an unpaired surrogate or a replacement character. -/
theorem stored_checkpoint_authentic_iff {σ : Type} (hS : S.Ideal) {archive : Facade σ}
    (harchive : archive.Lawful S) {request : CheckpointRequest} {s t : σ}
    {checkpoint : StoredCheckpoint}
    (h : createArchiveCheckpoint S archive request s = (.stored checkpoint, t)) :
    List.Forall₂ (fun source (root : RootSummary) =>
      Recovered S (archive.get t) source root.rootId ∧
        Authentic S (archive.get t) source root.rootId) request.allSources checkpoint.roots ↔
      ∀ source ∈ request.allSources, ∀ key ∈ source.messageKeys S,
        replacement ∉ codePoints key := by
  have hrecovered := recovered_of_stored hS harchive h
  constructor
  · intro hboth source hsource key hkey hbad
    obtain ⟨index, hindex, rfl⟩ := List.mem_iff_getElem.mp hsource
    have hbound : index < checkpoint.roots.length := hboth.length_eq ▸ hindex
    obtain ⟨⟨r, hr, -, hkeys⟩, hauthentic⟩ := hboth.get hindex hbound
    obtain ⟨tampered, r', hr', hchanged⟩ := exists_tampered hS hr (hkeys ▸ hkey) hbad
    exact hchanged ((hauthentic.messageKeys hr').trans hkeys.symm)
  · intro hplain
    refine List.forall₂_iff_zip.mpr ⟨hrecovered.length_eq, ?_⟩
    intro source root hzip
    have hread := (List.forall₂_iff_zip.mp hrecovered).2 hzip
    exact ⟨hread, authentic_of_plain hS hread (hplain source (List.of_mem_zip hzip).1)⟩

/-- A digest to compute with: one unit for each byte, those below the last letter moved down. -/
def unitDigest (bytes : List UInt8) : Text := bytes.map fun b =>
  UInt16.ofNat (if b.toNat = 0 then 126 else if b.toNat ≤ 126 then b.toNat - 1 else b.toNat)

def unitSetting : Setting where
  sha256 := unitDigest
  isHexDigest _ := true
  limits := {}
  checkpointPreviewDetails value _ _ := .ok { renderedText := value, visibleSourceText := value }
  sourceTopic _ topic := topic.getD []
  normalizeTerms _ terms := terms
  createCompactionCatalog _ _ := .ok []

theorem unitSetting_ideal : unitSetting.Ideal := by
  refine ⟨?_, fun _ => rfl, ?_⟩
  · refine List.map_injective_iff.mpr fun a b hab => ?_
    have ha := a.toNat_lt
    have hb := b.toNat_lt
    have hunits := congrArg UInt16.toNat hab
    simp only [UInt16.toNat_ofNat'] at hunits
    refine UInt8.toNat_inj.mp ?_
    grind
  · intro bytes
    refine isWellFormed_of_plain fun u hu => ?_
    obtain ⟨b, -, rfl⟩ := List.mem_map.mp hu
    have hb := b.toNat_lt
    simp only [isHighSurrogate, isLowSurrogate, UInt16.toNat_ofNat', Bool.and_eq_false_iff,
      decide_eq_false_iff_not]
    split
    · omega
    · split <;> omega

/-- An archive that keeps the bytes of its documents and takes no second one of a name. -/
def listArchive (S : Setting) : Facade (List (Text × List UInt8)) where
  get s id := .ok ((s.find? (·.1 = id)).map fun entry => {
    text := some (decode entry.2), contentHash := some (S.sha256 entry.2),
    byteLength := some entry.2.length })
  put document s :=
    if s.any (·.1 = document.id) then (.ok none, s)
    else (.ok (some document.id), s ++ [(document.id, utf8 document.text)])

theorem listArchive_lawful (hS : S.Ideal) : (listArchive S).Lawful S := by
  refine ⟨?_, ?_, ?_⟩
  · intro document s t hput hwf _
    dsimp only [listArchive] at hput ⊢
    split at hput
    · cases hput
    · next hnew =>
      cases hput
      have hnone : s.find? (·.1 = document.id) = none := by
        refine List.find?_eq_none.mpr fun entry hentry hsame => hnew ?_
        exact List.any_eq_true.mpr ⟨entry, hentry, hsame⟩
      have hdecoded : decode (utf8 document.text) = document.text :=
        (decode_utf8 _).trans (toWellFormed_of_isWellFormed hwf)
      rw [List.find?_append, hnone]
      simp [hdecoded]
  · intro document s t result id stored hput hget
    dsimp only [listArchive] at hput hget ⊢
    obtain ⟨entry, hentry, hstored⟩ := Option.map_eq_some_iff.mp (Except.ok.inj hget)
    have hkept : t.find? (·.1 = id) = some entry := by
      split at hput
      · cases hput
        exact hentry
      · cases hput
        rw [List.find?_append, hentry]
        rfl
    rw [hkept, Option.map_some, hstored]
  · intro s id value stored hget hwf _ hhash _
    obtain ⟨entry, -, rfl⟩ := Option.map_eq_some_iff.mp (Except.ok.inj hget)
    have hbytes : entry.2 = utf8 value := hS.injective (Option.some.inj hhash)
    show some (decode entry.2) = some value
    rw [hbytes, decode_utf8]
    exact congrArg some (toWellFormed_of_isWellFormed hwf)

/-- One source, keyed by an unpaired surrogate. -/
def surrogateRequest : CheckpointRequest where
  sessionId := text "s"
  project := text "p"
  sources := [{ text := text "hello", sourceKey := some [0xd800] }]
  createdAt := 1

def CheckpointResult.isStored : CheckpointResult → Bool
  | .stored _ => true
  | .failed _ _ => false

theorem surrogateRequest_stored : ∃ checkpoint t, createArchiveCheckpoint unitSetting
    (listArchive unitSetting) surrogateRequest [] = (.stored checkpoint, t) := by
  have hstored : (createArchiveCheckpoint unitSetting (listArchive unitSetting) surrogateRequest
      []).1.isStored = true := by decide +kernel
  cases hresult : createArchiveCheckpoint unitSetting (listArchive unitSetting) surrogateRequest
      [] with
  | mk result t =>
    rw [hresult] at hstored
    cases result with
    | stored checkpoint => exact ⟨checkpoint, t, rfl⟩
    | failed code message => cases hstored

/-- The archive is tampered with and the root is reconstructed with another key. -/
theorem surrogateRequest_tampered : ∃ checkpoint t, createArchiveCheckpoint unitSetting
    (listArchive unitSetting) surrogateRequest [] = (.stored checkpoint, t) ∧
      ∃ root ∈ checkpoint.roots, ∃ tampered r,
        reconstructCheckpointSource unitSetting tampered root.rootId = .ok r ∧
          r.root.messageKeys ≠ [[0xd800]] := by
  obtain ⟨checkpoint, t, hstored⟩ := surrogateRequest_stored
  refine ⟨checkpoint, t, hstored, ?_⟩
  have hrecovered := recovered_of_stored unitSetting_ideal (listArchive_lawful unitSetting_ideal)
    hstored
  obtain ⟨root, rest, ⟨r, hr, -, hkeys⟩, -, hroots⟩ := List.forall₂_cons_left_iff.mp hrecovered
  have honly : r.root.messageKeys = [[0xd800]] := hkeys
  obtain ⟨tampered, r', hr', hchanged⟩ := exists_tampered unitSetting_ideal hr
    (honly ▸ List.mem_singleton_self _) (by decide)
  exact ⟨root, hroots ▸ List.mem_cons_self, tampered, r', hr', honly ▸ hchanged⟩

theorem stored_checkpoint_authentic_iff_surrogateRequest : ∃ checkpoint t,
    createArchiveCheckpoint unitSetting (listArchive unitSetting) surrogateRequest [] =
      (.stored checkpoint, t) ∧
    ¬ List.Forall₂ (fun source (root : RootSummary) =>
      Recovered unitSetting ((listArchive unitSetting).get t) source root.rootId ∧
        Authentic unitSetting ((listArchive unitSetting).get t) source root.rootId)
      surrogateRequest.allSources checkpoint.roots := by
  obtain ⟨checkpoint, t, hstored⟩ := surrogateRequest_stored
  refine ⟨checkpoint, t, hstored, ?_⟩
  rw [stored_checkpoint_authentic_iff unitSetting_ideal (listArchive_lawful unitSetting_ideal)
    hstored]
  intro hplain
  exact absurd (hplain _ List.mem_cons_self [0xd800] List.mem_cons_self) (by decide)

end ContextStore.Archive
