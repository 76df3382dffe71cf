import ContextStore.Archive.Planning

/-! # A stored checkpoint is read back

What creation reports as stored is in the archive: each root is reconstructed to the text and the
message keys of its source (`recovered_of_stored`), also where a complete checkpoint of the
original layout is taken for the new one. The archive is only assumed to keep documents, to hold
what it confirmed, and to report the hash and length of what it holds. -/

namespace ContextStore.Archive

open Unicode Concurrent

variable {S : Setting}

/-! ## Archives -/

/-- What creation relies on; only documents of the directly readable size are ever read. -/
structure Facade.Lawful {σ : Type} (S : Setting) (archive : Facade σ) : Prop where
  put_text : ∀ {document : CheckpointDocument} {s t : σ},
    archive.put document s = (.ok (some document.id), t) → isWellFormed document.text = true →
    (utf8 document.text).length ≤ S.limits.maxDirectDocumentSourceBytes →
      ∃ stored, archive.get t document.id = .ok (some stored) ∧ stored.text = some document.text
  put_keeps : ∀ {document : CheckpointDocument} {s t : σ} {result : Except StoreError (Option Text)}
    {id : Text} {stored : ArchivedDocument}, archive.put document s = (result, t) →
    archive.get s id = .ok (some stored) → archive.get t id = .ok (some stored)
  get_text : ∀ {s : σ} {id value : Text} {stored : ArchivedDocument},
    archive.get s id = .ok (some stored) → isWellFormed value = true →
    (utf8 value).length ≤ S.limits.maxDirectDocumentSourceBytes →
    stored.contentHash = some (S.sha256 (utf8 value)) →
    stored.byteLength = some (utf8 value).length → stored.text = some value

def Holds (get : Reader) (id value : Text) : Prop :=
  ∃ stored, get id = .ok (some stored) ∧ stored.text = some value

/-- A text that is read back as it is written, and small enough to be read directly. -/
def Direct (S : Setting) (value : Text) : Prop :=
  isWellFormed value = true ∧ (utf8 value).length ≤ S.limits.maxDirectDocumentSourceBytes

section Writing

variable {σ : Type} {archive : Facade σ}

theorem documentMatches_eq_true (harchive : archive.Lawful S) {s : σ} {id value : Text}
    {existing : Option ArchivedDocument} (hdirect : Direct S value)
    (hget : archive.get s id = .ok existing)
    (h : documentMatches S existing value = .ok true) : Holds (archive.get s) id value := by
  cases existing with
  | none => cases h
  | some stored =>
    refine ⟨stored, hget, ?_⟩
    dsimp only [documentMatches] at h
    split at h
    · next hsame => exact hsame
    · obtain ⟨hash, hhash, hmatch⟩ := map_ok_iff.mp h
      obtain ⟨rfl, hwf⟩ := contentHash_eq_ok hhash
      rw [Bool.and_eq_true, decide_eq_true_eq, decide_eq_true_eq] at hmatch
      exact harchive.get_text hget hwf hdirect.2 hmatch.1 hmatch.2

theorem putIdempotent_eq_ok (harchive : archive.Lawful S) {document : CheckpointDocument} {s t : σ}
    (hdirect : Direct S document.text)
    (h : putIdempotent S archive document s = (.ok (), t)) :
    Holds (archive.get t) document.id document.text ∧
      ∀ {id value}, Holds (archive.get s) id value → Holds (archive.get t) id value := by
  unfold putIdempotent at h
  split at h
  · cases h
  · next existing hget =>
    split at h
    · next hmatch =>
      cases h
      exact ⟨documentMatches_eq_true harchive hdirect hget hmatch, fun hholds => hholds⟩
    · cases h
    · cases h
  · split at h
    · next storedId t' hput =>
      split at h
      · next hconfirmed =>
        cases h
        subst hconfirmed
        refine ⟨harchive.put_text hput hdirect.1 hdirect.2, ?_⟩
        intro id value hholds
        obtain ⟨stored, hstored, htext⟩ := hholds
        exact ⟨stored, harchive.put_keeps hput hstored, htext⟩
      · cases h
    · cases h
    · cases h

theorem putAll_eq_ok (harchive : archive.Lawful S) {documents : List CheckpointDocument} {s t : σ}
    (hdirect : ∀ document ∈ documents, Direct S document.text)
    (h : putAll S archive documents s = (.ok (), t)) :
    (∀ document ∈ documents, Holds (archive.get t) document.id document.text) ∧
      ∀ {id value}, Holds (archive.get s) id value → Holds (archive.get t) id value := by
  induction documents generalizing s with
  | nil =>
    cases h
    exact ⟨by simp, fun hholds => hholds⟩
  | cons document rest ih =>
    unfold putAll at h
    split at h
    · next t' hput =>
      obtain ⟨hheld, hkeeps⟩ :=
        putIdempotent_eq_ok harchive (hdirect document List.mem_cons_self) hput
      obtain ⟨hrest, hrestKeeps⟩ :=
        ih (fun other hother => hdirect other (List.mem_cons_of_mem _ hother)) h
      refine ⟨?_, fun hholds => hrestKeeps (hkeeps hholds)⟩
      intro other hother
      rcases List.mem_cons.mp hother with rfl | hmem
      · exact hrestKeeps hheld
      · exact hrest other hmem
    · cases h

end Writing

/-! ## Documents -/

variable {sources : List CheckpointSource} {request : CheckpointRequest} {get : Reader}
  {plan : CheckpointPlan} {planned : PlannedSource}

/-- The document of a reference is written, or that of an earlier one of the same address. -/
theorem uniqueParts_holds {plan : SourcePlan} {seen : List Text}
    {entries : List (PartReference × PlannedPart)}
    (h : ∀ document ∈ uniqueParts plan seen entries, Holds get document.id document.text)
    {entry : PartReference × PlannedPart} (hentry : entry ∈ entries) (hnew : entry.1.id ∉ seen) :
    ∃ first ∈ entries, first.1.id = entry.1.id ∧
      Holds get entry.1.id (partPrefix ++ first.2.text) := by
  induction entries generalizing seen with
  | nil => cases hentry
  | cons head rest ih =>
    obtain ⟨reference, part⟩ := head
    unfold uniqueParts at h
    split at h
    · next hseen =>
      rcases List.mem_cons.mp hentry with rfl | hmem
      · exact absurd hseen hnew
      · obtain ⟨first, hfirst, hheld⟩ := ih h hmem hnew
        exact ⟨first, List.mem_cons_of_mem _ hfirst, hheld⟩
    · by_cases hsame : reference.id = entry.1.id
      · refine ⟨_, List.mem_cons_self, hsame, ?_⟩
        have hheld := h (partDocument plan reference part) List.mem_cons_self
        rw [← hsame]
        exact hheld
      · rcases List.mem_cons.mp hentry with rfl | hmem
        · exact absurd rfl hsame
        · have hunseen : entry.1.id ∉ reference.id :: seen := by
            intro hmem
            rcases List.mem_cons.mp hmem with heq | hmem
            · exact hsame heq.symm
            · exact hnew hmem
          obtain ⟨first, hfirst, hheld⟩ :=
            ih (fun document hdocument => h document (List.mem_cons_of_mem _ hdocument)) hmem
              hunseen
          exact ⟨first, List.mem_cons_of_mem _ hfirst, hheld⟩

theorem zip_coordinates {references : List PartReference} {parts : List PlannedPart}
    (h : references.map PartReference.coordinates = parts.map (·.toPartCoordinates)) :
    ∀ entry ∈ references.zip parts, entry.1 ∈ references ∧ entry.2 ∈ parts ∧
      entry.1.coordinates = entry.2.toPartCoordinates := by
  induction references generalizing parts with
  | nil => simp
  | cons reference rest ih =>
    cases parts with
    | nil => simp
    | cons part others =>
      obtain ⟨hhead, htail⟩ := List.cons.inj h
      intro entry hentry
      rcases List.mem_cons.mp hentry with rfl | hmem
      · exact ⟨List.mem_cons_self, List.mem_cons_self, hhead⟩
      · obtain ⟨hreference, hpart, hsame⟩ := ih htail entry hmem
        exact ⟨List.mem_cons_of_mem _ hreference, List.mem_cons_of_mem _ hpart, hsame⟩

theorem readPayload_of_holds {reference : PartReference} {value : Text}
    (hheld : Holds get reference.id (partPrefix ++ value))
    (hcount : (utf8 value).length = reference.byteCount)
    (hhash : S.sha256 (utf8 value) = reference.hash) :
    readPayload S get reference = .ok (utf8 value) := by
  obtain ⟨stored, hstored, htext⟩ := hheld
  have hbegins : partPrefix.isPrefixOf (partPrefix ++ value) = true :=
    List.isPrefixOf_iff_prefix.mpr (List.prefix_append _ _)
  have hchecked : ¬ ((utf8 value).length ≠ reference.byteCount ∨
      S.sha256 (utf8 value) ≠ reference.hash) := by
    rw [not_or, not_not, not_not]
    exact ⟨hcount, hhash⟩
  refine bind_ok_iff.mpr ⟨_, hstored, ?_⟩
  simp only [Option.bind_some, htext, hbegins, List.drop_left, Bool.true_eq_false, if_false,
    if_neg hchecked]

theorem readPayloads_of_zip {references : List PartReference}
    {parts : List PlannedPart} (hlength : references.length = parts.length)
    (h : ∀ entry ∈ references.zip parts, readPayload S get entry.1 = .ok (utf8 entry.2.text)) :
    readPayloads S get references = .ok (parts.map fun part => utf8 part.text) := by
  induction references generalizing parts with
  | nil =>
    rw [List.length_eq_zero_iff.mp hlength.symm]
    rfl
  | cons reference rest ih =>
    cases parts with
    | nil => cases hlength
    | cons part others =>
      have hrest := ih (Nat.succ.inj hlength)
        (fun entry hentry => h entry (List.mem_cons_of_mem _ hentry))
      refine bind_ok_iff.mpr ⟨_, h _ List.mem_cons_self, ?_⟩
      exact bind_ok_iff.mpr ⟨_, hrest, rfl⟩

/-- Where all parts are written, each is read back, also one whose document is another's. -/
theorem readPayloads_of_parts (hS : S.Ideal) {plan : SourcePlan} (hplan : plan.Sound S planned)
    (hheld : ∀ document ∈ partDocuments plan, Holds get document.id document.text) :
    readPayloads S get plan.root.parts = .ok (plan.parts.map fun part => utf8 part.text) := by
  have hzip := zip_coordinates hplan.coordinates
  have hlength : plan.root.parts.length = plan.parts.length := by
    have heq := congrArg List.length hplan.coordinates
    simpa using heq
  refine readPayloads_of_zip hlength fun entry hentry => ?_
  obtain ⟨hreference, hpart, hsame⟩ := hzip entry hentry
  obtain ⟨first, hfirst, hid, hfirstHeld⟩ := uniqueParts_holds hheld hentry (by simp)
  obtain ⟨hfirstReference, hfirstPart, hfirstSame⟩ := hzip first hfirst
  have hexact := hplan.exact entry.2 hpart
  have hfirstExact := hplan.exact first.2 hfirstPart
  have hentryHash : entry.1.hash = S.sha256 (utf8 entry.2.text) :=
    (congrArg PartCoordinates.hash hsame).trans hexact.hash
  have hfirstHash : first.1.hash = S.sha256 (utf8 first.2.text) :=
    (congrArg PartCoordinates.hash hfirstSame).trans hfirstExact.hash
  -- One address stands for one hash, and one hash for one payload.
  have hhash : first.1.hash = entry.1.hash := by
    obtain ⟨-, address, haddress, haddressId⟩ := hplan.root.references entry.1 hreference
    obtain ⟨-, address', haddress', haddressId'⟩ :=
      hplan.root.references first.1 hfirstReference
    have hone : address' = address := by
      rw [haddressId, haddressId'] at hid
      exact List.append_cancel_left hid
    subst hone
    have hparts := hashParts_injective hS haddress' haddress
    simp only [List.map_cons, List.cons.injEq, true_and] at hparts
    have hwf : ∀ bytes, isWellFormed (S.sha256 bytes) = true := hS.wellFormed
    exact eq_of_utf8_eq (by rw [hfirstHash]; exact hwf _) (by rw [hentryHash]; exact hwf _) hparts.1
  have hpayload : utf8 first.2.text = utf8 entry.2.text := by
    refine hS.injective ?_
    rw [← hfirstHash, ← hentryHash, hhash]
  have hcount : (utf8 first.2.text).length = entry.1.byteCount := by
    rw [hpayload, ← hexact.byteCount]
    exact (congrArg PartCoordinates.byteCount hsame).symm
  rw [← hpayload]
  exact readPayload_of_holds hfirstHeld hcount (hfirstHash.symm.trans hhash)

theorem reconstruct_of_holds (hS : S.Ideal) {plan : SourcePlan} (hplan : plan.Sound S planned)
    {publication : PublicationManifest} {roots : List (RootManifest PartReference)}
    (hlists : publication.Lists S roots) (hroot : plan.root ∈ roots)
    (hrootHeld : Holds get plan.root.rootId plan.rootText)
    (hpublicationHeld : Holds get publication.publicationId publication.toJson.stringify)
    (hpartsHeld : ∀ document ∈ partDocuments plan, Holds get document.id document.text) :
    reconstructCheckpointSource S get plan.root.rootId =
      .ok { root := plan.root, text := plan.text } := by
  obtain ⟨stored, hstored, htext⟩ := hrootHeld
  obtain ⟨storedPublication, hpublication, hpublicationText⟩ := hpublicationHeld
  have hinspect := hplan.root.inspect_eq_ok hS hstored (htext.trans (congrArg some hplan.rootText))
    (by rw [hlists.publicationIds _ hroot]; exact hpublication)
    (by
      rw [hlists.publicationIds _ hroot]
      exact hlists.parsePublication_toJson hS hpublicationText)
    (hlists.covers_eq_true hS hroot)
  refine bind_ok_iff.mpr ⟨_, hinspect, ?_⟩
  refine bind_ok_iff.mpr ⟨_, readPayloads_of_parts hS hplan hpartsHeld, ?_⟩
  have hchecked : ¬ ((plan.parts.map fun part => utf8 part.text).flatten.length ≠
      plan.root.byteCount ∨ S.sha256 (plan.parts.map fun part => utf8 part.text).flatten ≠
        plan.root.hash) := by
    rw [not_or, not_not, not_not, hplan.whole]
    exact ⟨hplan.byteCount.symm, hplan.hash.symm⟩
  refine Eq.trans (if_neg hchecked) ?_
  have hdecoded : decode (plan.parts.map fun part => utf8 part.text).flatten = plan.text := by
    rw [hplan.whole, decode_utf8]
    exact toWellFormed_of_isWellFormed hplan.wellFormed
  rw [hdecoded]
  rfl

/-! ## Sizes -/

/-- Every root is longer than what a part starts with, whatever the limits. -/
theorem partPrefix_le_rootText (root : RootManifest PartReference) :
    (utf8 partPrefix).length ≤ (utf8 root.toJson.stringify).length := by
  -- The first two fields alone are long enough.
  let first : Text × Json := (text "checkpointFormatVersion", number 1)
  let second : Text × Json := (text "recordType", .string (text "root"))
  let start : Text := 0x7b :: Json.stringifyField first ++ (0x2c :: Json.stringifyField second)
  obtain ⟨others, hothers⟩ : ∃ others, root.fields = first :: second :: others := ⟨_, rfl⟩
  have hrest : root.toJson.stringify = start ++ Json.stringifyFields others := by
    rw [RootManifest.toJson, hothers]
    simp [start, Json.stringify, Json.stringifyFields]
  have hwf : isWellFormed start = true := by decide +kernel
  have hlong : (utf8 partPrefix).length ≤ (utf8 start).length := by decide +kernel
  rw [hrest, utf8_append hwf, List.length_append]
  omega

theorem direct_partDocuments {plan : SourcePlan} (hplan : plan.Sound S planned)
    {document : CheckpointDocument} (h : document ∈ partDocuments plan) :
    Direct S document.text := by
  have hmade : ∀ {seen : List Text} {entries : List (PartReference × PlannedPart)},
      document ∈ uniqueParts plan seen entries →
        ∃ entry ∈ entries, document.text = partPrefix ++ entry.2.text := by
    intro seen entries hdocument
    induction entries generalizing seen with
    | nil => cases hdocument
    | cons head rest ih =>
      obtain ⟨reference, part⟩ := head
      unfold uniqueParts at hdocument
      split at hdocument
      · obtain ⟨entry, hentry, htext⟩ := ih hdocument
        exact ⟨entry, List.mem_cons_of_mem _ hentry, htext⟩
      · rcases List.mem_cons.mp hdocument with rfl | hmem
        · exact ⟨_, List.mem_cons_self, rfl⟩
        · obtain ⟨entry, hentry, htext⟩ := ih hmem
          exact ⟨entry, List.mem_cons_of_mem _ hentry, htext⟩
  obtain ⟨entry, hentry, htext⟩ := hmade h
  have hexact := hplan.exact entry.2 (zip_coordinates hplan.coordinates entry hentry).2.1
  have hbegins : isWellFormed partPrefix = true := isWellFormed_text _
  have hroot := partPrefix_le_rootText plan.root
  rw [← hplan.rootText] at hroot
  have hbytes := hplan.rootBytes
  have hbounded := hexact.bounded
  have hcount := hexact.byteCount
  rw [htext]
  refine ⟨isWellFormed_append hbegins hexact.wellFormed, ?_⟩
  rw [utf8_append hbegins, List.length_append]
  simp only [partPayloadMaxBytes, partMaxBytes] at hbounded
  omega

/-! ## Stored checkpoints -/

/-- The root is reconstructed to the text and the message keys of the source. -/
def Recovered (S : Setting) (get : Reader) (source : CheckpointSource) (rootId : Text) : Prop :=
  ∃ r, reconstructCheckpointSource S get rootId = .ok r ∧ r.text = source.text ∧
    r.root.messageKeys = source.messageKeys S

/-- The entry is the normalized source with its layout. -/
def Normalized (S : Setting) (source : CheckpointSource) (entry : PlannedSource × SourceLayout) :
    Prop :=
  entry.1.Sound S ∧ entry.2.Sound S entry.1 ∧ entry.1.text = source.text ∧
    entry.1.sourceMessageKeys = source.messageKeys S

theorem normalizeSources_eq_ok {entries : List (PlannedSource × SourceLayout)}
    (h : normalizeSources S request sources = .ok entries) :
    List.Forall₂ (Normalized S) sources entries := by
  induction sources generalizing entries with
  | nil =>
    cases h
    exact List.Forall₂.nil
  | cons source rest ih =>
    simp only [normalizeSources, bind_ok_iff] at h
    obtain ⟨planned, hplanned, layout, hlayout, others, hothers, hmade⟩ := h
    have heq := Except.ok.inj hmade
    subst heq
    obtain ⟨hsound, htext, hkeys⟩ := normalizePlannedSource_eq_ok hplanned
    exact List.Forall₂.cons ⟨hsound, sourceLayout_eq_ok hlayout, htext, hkeys⟩ (ih hothers)

/-- What is planned over normalized sources. -/
structure CheckpointPlan.Sound (S : Setting) (sources : List CheckpointSource)
    (plan : CheckpointPlan) : Prop where
  plans : List.Forall₂ (fun source planned => ∃ entry, Normalized S source entry ∧
    SourcePlan.Sound S planned entry.1) sources plan.plans
  lists : plan.publication.publication.Lists S (plan.plans.map (·.root))
  publicationText : plan.publication.text = plan.publication.publication.toJson.stringify
  publicationBytes :
    (utf8 plan.publication.text).length ≤ S.limits.maxDirectDocumentSourceBytes
  roots : plan.stored.roots = plan.plans.map summarizePlannedSource

theorem planCheckpoint_eq_ok (hS : S.Ideal)
    {entries : List (PlannedSource × SourceLayout)}
    {layoutCommitted : Bool} {address : Text}
    (hentries : List.Forall₂ (Normalized S) sources entries) (hne : sources ≠ [])
    (haddress : publicationAddress S (entries.map (·.1.sourceIdentity))
      (if layoutCommitted then some (entries.map (·.2.layoutIdentity)) else none) = .ok address)
    (h : planCheckpoint S request entries layoutCommitted (publicationIdPrefix ++ address) =
      .ok plan) : plan.Sound S sources := by
  simp only [planCheckpoint, bind_ok_iff] at h
  obtain ⟨plans, hplans, publication, hpublication, catalog, -, hmade⟩ := h
  have heq := Except.ok.inj hmade
  subst heq
  have hlength := hentries.length_eq
  have hentriesNe : entries ≠ [] := by
    intro hnil
    rw [hnil] at hlength
    exact hne (List.length_eq_zero_iff.mp hlength)
  have hsound : ∀ entry ∈ entries, entry.1.Sound S ∧ entry.2.Sound S entry.1 := by
    intro entry hentry
    obtain ⟨index, hindex, rfl⟩ := List.mem_iff_getElem.mp hentry
    obtain ⟨hplanned, hlayout, -⟩ := hentries.get (hlength ▸ hindex) hindex
    exact ⟨hplanned, hlayout⟩
  have hall := planSources_eq_ok hS (List.prefix_append _ _) hsound hplans
  obtain ⟨hlists, -, htext, hbytes⟩ :=
    planPublication_lists hall hentriesNe haddress rfl hpublication
  refine ⟨(forall₂_comp hentries hall).imp ?_, hlists, htext, hbytes, rfl⟩
  intro source planned hboth
  obtain ⟨entry, hentry, hplanned⟩ := hboth
  exact ⟨entry, hentry, hplanned.1⟩

theorem CheckpointPlan.Sound.mem (h : plan.Sound S sources) {planned : SourcePlan}
    (hplanned : planned ∈ plan.plans) :
    ∃ source ∈ sources, ∃ entry, Normalized S source entry ∧
      SourcePlan.Sound S planned entry.1 := by
  obtain ⟨index, hindex, rfl⟩ := List.mem_iff_getElem.mp hplanned
  have hbound : index < sources.length := h.plans.length_eq ▸ hindex
  exact ⟨sources[index], List.getElem_mem hbound, h.plans.get hbound hindex⟩

/-- The documents of a plan are small enough to be read back. -/
theorem CheckpointPlan.Sound.direct (h : plan.Sound S sources) :
    ∀ document ∈ plan.documents request, Direct S document.text := by
  intro document hdocument
  simp only [CheckpointPlan.documents, List.mem_append, List.mem_flatMap, List.mem_map,
    List.mem_singleton] at hdocument
  rcases hdocument with (⟨planned, hplanned, hpart⟩ | ⟨planned, hplanned, rfl⟩) | rfl
  · obtain ⟨source, -, entry, -, hsound⟩ := h.mem hplanned
    exact direct_partDocuments hsound hpart
  · obtain ⟨source, -, entry, -, hsound⟩ := h.mem hplanned
    refine ⟨?_, hsound.rootBytes⟩
    show isWellFormed planned.rootText = true
    rw [hsound.rootText]
    exact Json.isWellFormed_stringify _ (RootManifest.integral_toJson _)
  · refine ⟨?_, h.publicationBytes⟩
    show isWellFormed plan.publication.text = true
    rw [h.publicationText]
    exact Json.isWellFormed_stringify _ (PublicationManifest.integral_toJson _)

/-- Once all documents of a plan are there, every root is read back. -/
theorem CheckpointPlan.Sound.recovered (hS : S.Ideal) (h : plan.Sound S sources)
    (hheld : ∀ document ∈ plan.documents request, Holds get document.id document.text) :
    List.Forall₂ (fun source (root : RootSummary) => Recovered S get source root.rootId)
      sources plan.stored.roots := by
  have hmem : ∀ {document}, document ∈ plan.plans.flatMap partDocuments ∨
      document ∈ plan.plans.map rootDocument ∨ document = publicationDocument request.sessionId
        request.project request.createdAt plan.publication →
      Holds get document.id document.text := by
    intro document hdocument
    refine hheld document ?_
    simp only [CheckpointPlan.documents, List.mem_append, List.mem_singleton]
    rcases hdocument with hpart | hroot | hpublication
    · exact Or.inl (Or.inl hpart)
    · exact Or.inl (Or.inr hroot)
    · exact Or.inr hpublication
  have hpublication : Holds get plan.publication.publication.publicationId
      plan.publication.publication.toJson.stringify := by
    have hdocument := hmem (Or.inr (Or.inr rfl))
    rw [← h.publicationText]
    exact hdocument
  rw [h.roots, List.forall₂_map_right_iff]
  refine (List.forall₂_iff_zip.mpr ⟨h.plans.length_eq, ?_⟩)
  intro source planned hzip
  obtain ⟨entry, ⟨-, -, htext, hkeys⟩, hsound⟩ := (List.forall₂_iff_zip.mp h.plans).2 hzip
  have hplanned : planned ∈ plan.plans := (List.of_mem_zip hzip).2
  refine ⟨_, reconstruct_of_holds hS hsound h.lists (List.mem_map_of_mem hplanned) ?_ hpublication
    ?_, hsound.text.trans htext, hsound.messageKeys.trans hkeys⟩
  · exact hmem (Or.inr (Or.inl (List.mem_map_of_mem hplanned)))
  · intro document hdocument
    exact hmem (Or.inl (List.mem_flatMap.mpr ⟨planned, hplanned, hdocument⟩))

/-! ## Checkpoints of the original layout -/

/-- A root is read as it is printed, whatever became of its parts. -/
theorem root_of_reconstruct (hS : S.Ideal) {root : RootManifest PartReference} (h : root.Sound S)
    (hheld : Holds get root.rootId root.toJson.stringify) {r : Reconstruction}
    (hr : reconstructCheckpointSource S get root.rootId = .ok r) :
    ∃ parts, r.root = { root with parts } := by
  obtain ⟨stored, hstored, htext⟩ := hheld
  have hinspected := inspect_of_reconstruct hr
  obtain ⟨id, hid, hinspected⟩ := bind_ok_iff.mp hinspected
  obtain rfl := identifier_eq_ok hid
  obtain ⟨document, hdocument, hinspected⟩ := bind_ok_iff.mp hinspected
  have hsame : document = some stored := Except.ok.inj (hdocument.symm.trans hstored)
  subst hsame
  obtain ⟨parsed, hparsed, hinspected⟩ := bind_ok_iff.mp hinspected
  have hprinted : parsed = root.printed :=
    Except.ok.inj (hparsed.symm.trans (h.parseRoot_toJson hS htext))
  subst hprinted
  obtain ⟨storedPublication, -, hinspected⟩ := bind_ok_iff.mp hinspected
  obtain ⟨publication, -, hinspected⟩ := bind_ok_iff.mp hinspected
  split at hinspected
  · cases hinspected
  · obtain ⟨checked, -, hinspected⟩ := bind_ok_iff.mp hinspected
    split at hinspected
    · cases hinspected
    · obtain ⟨expected, -, hinspected⟩ := bind_ok_iff.mp hinspected
      split at hinspected
      · cases hinspected
      · exact ⟨checked.1, (Except.ok.inj hinspected).symm⟩

section Existing

variable {σ : Type} {archive : Facade σ}

theorem holdsPlans_eq_true (hS : S.Ideal) (harchive : archive.Lawful S) {s : σ}
    {plans : List SourcePlan}
    (hplans : ∀ planned ∈ plans, ∃ source, SourcePlan.Sound S planned source)
    (h : holdsPlans S (archive.get s) plans = .ok true) :
    ∀ planned ∈ plans, ∃ r, reconstructCheckpointSource S (archive.get s) planned.root.rootId =
      .ok r ∧ r.text = planned.text ∧ r.root.messageKeys = planned.root.messageKeys := by
  induction plans with
  | nil => simp
  | cons planned rest ih =>
    obtain ⟨source, hsound⟩ := hplans planned List.mem_cons_self
    simp only [holdsPlans, bind_ok_iff] at h
    obtain ⟨document, hdocument, same, hsame, h⟩ := h
    have hdirect : Direct S planned.rootText := by
      refine ⟨?_, hsound.rootBytes⟩
      rw [hsound.rootText]
      exact Json.isWellFormed_stringify _ (RootManifest.integral_toJson _)
    cases same with
    | false => cases h
    | true =>
      have hheld := documentMatches_eq_true harchive hdirect hdocument hsame
      rw [hsound.rootText] at hheld
      rw [if_neg (by decide)] at h
      cases hr : reconstructCheckpointSource S (archive.get s) planned.root.rootId with
      | error e =>
        rw [hr] at h
        cases h
      | ok r =>
        rw [hr] at h
        dsimp only at h
        split at h
        · cases h
        · next htext =>
          obtain ⟨parts, hroot⟩ := root_of_reconstruct hS hsound.root hheld hr
          have hkeys : r.root.messageKeys = planned.root.messageKeys := by
            rw [hroot]
            rfl
          intro other hother
          rcases List.mem_cons.mp hother with rfl | hmem
          · exact ⟨r, hr, not_not.mp htext, hkeys⟩
          · exact ih (fun plan hplan => hplans plan (List.mem_cons_of_mem _ hplan)) h
              other hmem

def Preparation.Sound (S : Setting) (get : Reader) (sources : List CheckpointSource) :
    Preparation → Prop
  | .reuse plan => plan.Sound S sources ∧ holdsPlans S get plan.plans = .ok true
  | .write plan => plan.Sound S sources

theorem prepareCheckpoint_eq_ok (hS : S.Ideal)
    {preparation : Preparation} (h : prepareCheckpoint S get request = .ok preparation) :
    preparation.Sound S get request.allSources := by
  simp only [prepareCheckpoint, bind_ok_iff] at h
  obtain ⟨-, -, -, -, -, -, h⟩ := h
  by_cases hne : request.allSources = []
  · rw [if_pos hne] at h
    cases h
  · rw [if_neg hne] at h
    split at h
    · cases h
    · obtain ⟨entries, hentries, h⟩ := bind_ok_iff.mp h
      have hnormal := normalizeSources_eq_ok hentries
      obtain ⟨reused, hreused, h⟩ := bind_ok_iff.mp h
      cases reused with
      | some legacy =>
        cases h
        obtain ⟨address, haddress, hreused⟩ := bind_ok_iff.mp hreused
        obtain ⟨existing, -, hreused⟩ := bind_ok_iff.mp hreused
        cases existing with
        | none => cases hreused
        | some stored =>
          obtain ⟨plan, hplan, hreused⟩ := bind_ok_iff.mp hreused
          obtain ⟨complete, hcomplete, hreused⟩ := bind_ok_iff.mp hreused
          cases complete with
          | false => cases hreused
          | true =>
            cases hreused
            have hplanSound : legacy.Sound S request.allSources :=
              planCheckpoint_eq_ok hS hnormal hne
                (by rw [if_neg Bool.false_ne_true]; exact haddress) hplan
            refine ⟨hplanSound, ?_⟩
            obtain ⟨document, -, hcomplete⟩ := bind_ok_iff.mp hcomplete
            obtain ⟨same, -, hcomplete⟩ := bind_ok_iff.mp hcomplete
            split at hcomplete
            · exact hcomplete
            · cases hcomplete
      | none =>
        obtain ⟨address, haddress, h⟩ := bind_ok_iff.mp h
        obtain ⟨plan, hplan, h⟩ := bind_ok_iff.mp h
        cases h
        exact planCheckpoint_eq_ok hS hnormal hne (by rw [if_pos rfl]; exact haddress) hplan

/-- What creation reports as stored is read back. -/
theorem recovered_of_stored (hS : S.Ideal) (harchive : archive.Lawful S)
    {s t : σ} {checkpoint : StoredCheckpoint}
    (h : createArchiveCheckpoint S archive request s = (.stored checkpoint, t)) :
    List.Forall₂ (fun source (root : RootSummary) =>
      Recovered S (archive.get t) source root.rootId) request.allSources checkpoint.roots := by
  unfold createArchiveCheckpoint at h
  split at h
  · cases h
  · next plan hprepared =>
    cases h
    obtain ⟨hsound, hheld⟩ := prepareCheckpoint_eq_ok hS hprepared
    have hread := holdsPlans_eq_true hS harchive
      (fun planned hplanned => by
        obtain ⟨source, -, entry, -, hplannedSound⟩ := hsound.mem hplanned
        exact ⟨entry.1, hplannedSound⟩) hheld
    rw [hsound.roots, List.forall₂_map_right_iff]
    refine List.forall₂_iff_zip.mpr ⟨hsound.plans.length_eq, ?_⟩
    intro source planned hzip
    obtain ⟨entry, ⟨-, -, htext, hkeys⟩, hplanned⟩ := (List.forall₂_iff_zip.mp hsound.plans).2 hzip
    obtain ⟨r, hr, hrText, hrKeys⟩ := hread planned (List.of_mem_zip hzip).2
    exact ⟨r, hr, hrText.trans (hplanned.text.trans htext),
      hrKeys.trans (hplanned.messageKeys.trans hkeys)⟩
  · next plan hprepared =>
    have hsound : plan.Sound S request.allSources := prepareCheckpoint_eq_ok hS hprepared
    split at h
    · next t' hput =>
      cases h
      exact hsound.recovered hS (putAll_eq_ok harchive hsound.direct hput).1
    · cases h

end Existing

end ContextStore.Archive
