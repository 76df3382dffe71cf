import ContextStore.Archive.Manifest

/-! # What is planned is sound

Every root that `planSource` plans is `Sound` and commits to the text and to the message keys of its
source (`planSource_eq_ok`), and the publication that is planned over the roots lists them
(`planPublication_lists`). -/

namespace ContextStore.Archive

open Unicode Concurrent

variable {S : Setting}

/-! ## Sources -/

/-- The message keys of a source; a source without a key is keyed by its content. -/
def CheckpointSource.messageKeys (S : Setting) (source : CheckpointSource) : List Text :=
  source.sourceMessageKeys.getD
    [source.sourceKey.getD (Unicode.text "checkpoint-source:" ++ S.sha256 (utf8 source.text))]

/-- What normalization establishes of a source. -/
structure PlannedSource.Sound (S : Setting) (planned : PlannedSource) : Prop where
  wellFormed : isWellFormed planned.text = true
  fullHash : planned.fullHash = S.sha256 (utf8 planned.text)
  project : planned.project ≠ []
  sessionId : planned.sessionId ≠ []
  kind : planned.kind ≠ []
  sourceKey : planned.sourceKey ≠ []
  sourceKeyLength : planned.sourceKey.length ≤ S.limits.maxStoreIdentifierLength
  messageKeys : planned.sourceMessageKeys = [planned.sourceKey] ∨
    normalizeSourceMessageKeys S (some planned.sourceMessageKeys) planned.sourceKey =
      .ok planned.sourceMessageKeys
  sourceIdentity : sourceAddress S planned.project planned.sessionId planned.sourceKey
    planned.sourceMessageKeys planned.kind planned.fullHash = .ok planned.sourceIdentity

theorem identifier_ne_nil {value key : Text} {label : String}
    (h : identifier value label = .ok key) : key ≠ [] := by
  unfold identifier at h
  split at h
  · cases h
  · next hne =>
    cases h
    exact hne

theorem contentHash_eq_ok {value hash : Text} (h : contentHash S value = .ok hash) :
    hash = S.sha256 (utf8 value) ∧ isWellFormed value = true := by
  obtain ⟨source, hsource, rfl⟩ := map_ok_iff.mp h
  obtain ⟨rfl, hwf⟩ := wellFormedText_eq_ok hsource
  exact ⟨rfl, hwf⟩

theorem normalizeSourceMessageKeys_sourceKey {value : Option (List Text)} {sourceKey : Text}
    {keys : List Text} (h : normalizeSourceMessageKeys S value sourceKey = .ok keys) :
    sourceKey ≠ [] ∧ sourceKey.length ≤ S.limits.maxStoreIdentifierLength := by
  obtain ⟨key, hkey, hread⟩ := bind_ok_iff.mp h
  have hne := identifier_ne_nil hkey
  obtain rfl := identifier_eq_ok hkey
  split at hread
  · cases hread
  · next hlength => exact ⟨hne, Nat.not_lt.mp hlength⟩

theorem normalizeSourceMessageKeys_none {sourceKey : Text} (hne : sourceKey ≠ [])
    (hlength : sourceKey.length ≤ S.limits.maxStoreIdentifierLength) :
    normalizeSourceMessageKeys S none sourceKey = .ok [sourceKey] := by
  have hkey : identifier sourceKey "source.sourceKey" = .ok sourceKey := by
    rw [identifier, if_neg hne]
  refine bind_ok_iff.mpr ⟨sourceKey, hkey, ?_⟩
  rw [if_neg (Nat.not_lt.mpr hlength)]

theorem plannedSourceKey_eq_ok {sourceKey : Option Text} {hash key : Text}
    (h : plannedSourceKey sourceKey hash = .ok key) :
    key = sourceKey.getD (text "checkpoint-source:" ++ hash) := by
  cases sourceKey with
  | none => exact (Except.ok.inj h).symm
  | some given => exact identifier_eq_ok h

variable {sources : List (PlannedSource × SourceLayout)} {planned : PlannedSource}
  {layoutCommitted : Bool} {plans : List SourcePlan}

theorem normalizePlannedSource_eq_ok {sessionId project : Text} {createdAt : Nat}
    {source : CheckpointSource}
    (h : normalizePlannedSource S sessionId project createdAt source = .ok planned) :
    planned.Sound S ∧ planned.text = source.text ∧
      planned.sourceMessageKeys = source.messageKeys S := by
  simp only [normalizePlannedSource, bind_ok_iff] at h
  obtain ⟨value, hvalue, sessionId', hsessionId, project', hproject, kind, hkind, createdAt', -,
    hash, hhash, sourceKey, hsourceKey, keys, hkeys, identity, hidentity, hmade⟩ := h
  have heq := Except.ok.inj hmade
  subst heq
  obtain ⟨rfl, hwf⟩ := wellFormedText_eq_ok hvalue
  obtain ⟨rfl, -⟩ := contentHash_eq_ok hhash
  obtain ⟨hne, hlength⟩ := normalizeSourceMessageKeys_sourceKey hkeys
  have hsame := normalizeSourceMessageKeys_eq_ok hkeys
  refine ⟨⟨hwf, rfl, identifier_ne_nil hproject, identifier_ne_nil hsessionId,
    identifier_ne_nil hkind, hne, hlength, ?_, hidentity⟩, rfl, ?_⟩
  · cases hgiven : source.sourceMessageKeys with
    | none =>
      rw [hgiven] at hsame
      exact Or.inl hsame
    | some given =>
      rw [hgiven] at hsame hkeys
      have hgivenKeys : keys = given := hsame
      subst hgivenKeys
      exact Or.inr hkeys
  · rw [CheckpointSource.messageKeys, ← plannedSourceKey_eq_ok hsourceKey]
    exact hsame

/-! ## Layouts -/

structure SourceLayout.Sound (S : Setting) (planned : PlannedSource) (layout : SourceLayout) :
    Prop where
  byteCount : layout.byteCount = (utf8 planned.text).length
  safe : layout.byteCount ≤ maxSafeInteger
  parts : layout.parts ≠ []
  laid : Laid 0 0 layout.byteCount (layout.parts.map (·.toPartCoordinates))
  exact : ∀ part ∈ layout.parts, part.Exact S
  whole : (layout.parts.map fun part => utf8 part.text).flatten = utf8 planned.text
  layoutIdentity : layoutAddress S layout.byteCount planned.fullHash
    (layout.parts.map (·.toPartCoordinates)) = .ok layout.layoutIdentity

variable {layout : SourceLayout} {references : List PartReference} {publicationId : Text}
  {previewTokens : Nat}

theorem sourceLayout_eq_ok (h : sourceLayout S planned = .ok layout) : layout.Sound S planned := by
  simp only [sourceLayout, bind_ok_iff] at h
  obtain ⟨⟨bytes, parts⟩, hsplit, identity, hidentity, hmade⟩ := h
  have heq := Except.ok.inj hmade
  subst heq
  obtain ⟨rfl, hsafe, hne, hlaid, hexact, hwhole⟩ := splitExactParts_eq_ok hsplit
  exact ⟨rfl, hsafe, hne, hlaid, hexact, hwhole, hidentity⟩

/-! ## Roots -/

theorem partReferences_eq_ok {project sessionId rootId : Text} {parts : List PartCoordinates}
    (h : partReferences S project sessionId rootId parts = .ok references) :
    references.map PartReference.coordinates = parts ∧
      ∀ part ∈ references, ∃ address, partAddress S project sessionId rootId part.hash =
        .ok address ∧ part.id = partIdPrefix ++ address := by
  induction parts generalizing references with
  | nil =>
    cases h
    simp
  | cons part rest ih =>
    simp only [partReferences, bind_ok_iff] at h
    obtain ⟨address, haddress, others, hothers, hmade⟩ := h
    have heq := Except.ok.inj hmade
    subst heq
    obtain ⟨hcoordinates, hids⟩ := ih hothers
    refine ⟨by rw [List.map_cons, hcoordinates]; rfl, ?_⟩
    intro reference hreference
    rcases List.mem_cons.mp hreference with rfl | hmem
    · exact ⟨address, haddress, rfl⟩
    · exact hids reference hmem

/-- A plan of a source over its layout. -/
structure SourcePlan.Sound (S : Setting) (plan : SourcePlan) (planned : PlannedSource) : Prop where
  root : plan.root.Sound S
  text : plan.text = planned.text
  rootText : plan.rootText = plan.root.toJson.stringify
  rootBytes : (utf8 plan.rootText).length ≤ S.limits.maxDirectDocumentSourceBytes
  sourceIdentity : plan.root.sourceIdentity = planned.sourceIdentity
  messageKeys : plan.root.messageKeys = planned.sourceMessageKeys
  hash : plan.root.hash = S.sha256 (utf8 plan.text)
  byteCount : plan.root.byteCount = (utf8 plan.text).length
  wellFormed : isWellFormed plan.text = true
  coordinates : plan.root.parts.map PartReference.coordinates = plan.parts.map (·.toPartCoordinates)
  exact : ∀ part ∈ plan.parts, part.Exact S
  whole : (plan.parts.map fun part => utf8 part.text).flatten = utf8 plan.text

theorem messageKeys_plannedRoot (rootId publicationId : Text) (layoutIdentity : Option Text)
    (planned : PlannedSource) (byteCount : Nat) (parts : List PartReference) :
    (plannedRoot rootId publicationId layoutIdentity planned byteCount parts).messageKeys =
      planned.sourceMessageKeys := by
  by_cases hone : planned.sourceMessageKeys = [planned.sourceKey]
  · simp [plannedRoot, RootManifest.messageKeys, hone]
  · simp [plannedRoot, RootManifest.messageKeys, hone]

theorem sound_plannedRoot (hS : S.Ideal) {address : Text}
    {layoutIdentity : Option Text}
    (hbegins : publicationIdPrefix <+: publicationId)
    (hplanned : planned.Sound S) (hlayout : layout.Sound S planned)
    (hidentity : ∀ identity, layoutIdentity = some identity → identity = layout.layoutIdentity)
    (haddress : rootAddress S planned.sourceIdentity publicationId layoutIdentity = .ok address)
    (hreferences : partReferences S planned.project planned.sessionId (rootIdPrefix ++ address)
      (layout.parts.map (·.toPartCoordinates)) = .ok references) :
    (plannedRoot (rootIdPrefix ++ address) publicationId layoutIdentity planned layout.byteCount
      references).Sound S := by
  obtain ⟨hcoordinates, hids⟩ := partReferences_eq_ok hreferences
  have hkeys := messageKeys_plannedRoot (rootIdPrefix ++ address) publicationId layoutIdentity
    planned layout.byteCount references
  have hhash : S.isHexDigest planned.fullHash = true := by
    rw [hplanned.fullHash]
    exact hS.hex _
  have hnormal : normalizeSourceMessageKeys S
      (if planned.sourceMessageKeys = [planned.sourceKey] then none
        else some planned.sourceMessageKeys) planned.sourceKey = .ok planned.sourceMessageKeys := by
    split
    · next hone =>
      rw [hone]
      exact normalizeSourceMessageKeys_none hplanned.sourceKey hplanned.sourceKeyLength
    · next hmany => exact hplanned.messageKeys.resolve_left hmany
  have hhashes : ∀ part ∈ references, S.isHexDigest part.hash = true := by
    intro part hpart
    have hmem : part.coordinates ∈ references.map PartReference.coordinates :=
      List.mem_map_of_mem hpart
    rw [hcoordinates] at hmem
    obtain ⟨plannedPart, hplannedPart, hsame⟩ := List.mem_map.mp hmem
    have hpartHash : plannedPart.hash = part.hash := congrArg PartCoordinates.hash hsame
    rw [← hpartHash, (hlayout.exact plannedPart hplannedPart).hash]
    exact hS.hex _
  have hne : references ≠ [] := by
    intro hnil
    rw [hnil] at hcoordinates
    exact hlayout.parts (List.map_eq_nil_iff.mp hcoordinates.symm)
  refine ⟨hbegins, hhash, hlayout.safe, hplanned.project, hplanned.sessionId, hplanned.sourceKey,
    hplanned.kind, ?_, ?_, ⟨address, haddress, rfl⟩, hne, ?_,
    fun part hpart => ⟨hhashes part hpart, hids part hpart⟩, ?_⟩
  · rw [hkeys]
    exact hnormal
  · rw [hkeys]
    exact hplanned.sourceIdentity
  · show Laid 0 0 layout.byteCount (references.map PartReference.coordinates)
    rw [hcoordinates]
    exact hlayout.laid
  · intro identity hcommitted
    show layoutAddress S layout.byteCount planned.fullHash
      (references.map PartReference.coordinates) = _
    rw [hcoordinates, hidentity identity hcommitted]
    exact hlayout.layoutIdentity

theorem planSource_eq_ok (hS : S.Ideal) {plan : SourcePlan}
    (hbegins : publicationIdPrefix <+: publicationId) (hplanned : planned.Sound S)
    (hlayout : layout.Sound S planned)
    (h : planSource S publicationId previewTokens layoutCommitted planned layout = .ok plan) :
    plan.Sound S planned ∧ plan.root.publicationId = publicationId ∧
      plan.root.layoutIdentity = committedIdentity layoutCommitted layout := by
  obtain ⟨address, haddress, h⟩ := bind_ok_iff.mp h
  dsimp only at h
  split at h
  · cases h
  · obtain ⟨references, hreferences, h⟩ := bind_ok_iff.mp h
    split at h
    · cases h
    · next hbytes =>
      obtain ⟨preview, -, hmade⟩ := bind_ok_iff.mp h
      have heq := Except.ok.inj hmade
      subst heq
      have hidentity : ∀ identity, committedIdentity layoutCommitted layout = some identity →
          identity = layout.layoutIdentity := by
        intro identity hcommitted
        cases layoutCommitted with
        | false => cases hcommitted
        | true => exact (Option.some.inj hcommitted).symm
      exact ⟨⟨sound_plannedRoot hS hbegins hplanned hlayout hidentity haddress hreferences, rfl,
        rfl, Nat.not_lt.mp hbytes, rfl, messageKeys_plannedRoot .., hplanned.fullHash,
        hlayout.byteCount, hplanned.wellFormed, (partReferences_eq_ok hreferences).1,
        hlayout.exact, hlayout.whole⟩, rfl, rfl⟩

/-! ## Publications -/

/-- The plan is that of the entry, under this publication. -/
def PlannedAs (S : Setting) (publicationId : Text) (layoutCommitted : Bool)
    (entry : PlannedSource × SourceLayout) (plan : SourcePlan) : Prop :=
  plan.Sound S entry.1 ∧ plan.root.publicationId = publicationId ∧
    plan.root.layoutIdentity = committedIdentity layoutCommitted entry.2

theorem map_eq_of_forall₂ {α β γ : Type} {R : α → β → Prop} {f : α → γ} {g : β → γ}
    (hR : ∀ a b, R a b → f a = g b) {as : List α} {bs : List β} (h : List.Forall₂ R as bs) :
    as.map f = bs.map g := by
  induction h with
  | nil => rfl
  | cons hab _ ih => rw [List.map_cons, List.map_cons, hR _ _ hab, ih]

theorem forall₂_comp {α β γ : Type} {R : α → β → Prop} {Q : β → γ → Prop} {as : List α}
    {bs : List β} {cs : List γ} (h : List.Forall₂ R as bs) (h' : List.Forall₂ Q bs cs) :
    List.Forall₂ (fun a c => ∃ b, R a b ∧ Q b c) as cs := by
  induction h generalizing cs with
  | nil =>
    cases h'
    exact List.Forall₂.nil
  | cons hab _ ih =>
    cases h' with
    | cons hbc hrest => exact List.Forall₂.cons ⟨_, hab, hbc⟩ (ih hrest)

theorem planSources_eq_ok (hS : S.Ideal) (hbegins : publicationIdPrefix <+: publicationId)
    (hsources : ∀ entry ∈ sources, entry.1.Sound S ∧ entry.2.Sound S entry.1)
    (h : planSources S publicationId previewTokens layoutCommitted sources = .ok plans) :
    List.Forall₂ (PlannedAs S publicationId layoutCommitted) sources plans := by
  induction sources generalizing plans with
  | nil =>
    cases h
    exact List.Forall₂.nil
  | cons entry rest ih =>
    obtain ⟨planned, layout⟩ := entry
    simp only [planSources, bind_ok_iff] at h
    obtain ⟨plan, hplan, others, hothers, hmade⟩ := h
    have heq := Except.ok.inj hmade
    subst heq
    obtain ⟨hplanned, hlayout⟩ := hsources _ List.mem_cons_self
    refine List.Forall₂.cons (planSource_eq_ok hS hbegins hplanned hlayout hplan) ?_
    exact ih (fun other hother => hsources other (List.mem_cons_of_mem _ hother)) hothers

theorem mapM_layoutIdentity
    (h : List.Forall₂ (PlannedAs S publicationId layoutCommitted) sources plans)
    (hne : sources ≠ []) :
    plans.mapM (·.root.layoutIdentity) =
      if layoutCommitted then some (sources.map (·.2.layoutIdentity)) else none := by
  cases layoutCommitted with
  | false =>
    cases h with
    | nil => exact absurd rfl hne
    | cons hplan hrest =>
      rw [List.mapM_cons, hplan.2.2]
      rfl
  | true =>
    clear hne
    induction h with
    | nil => rfl
    | cons hplan hrest ih =>
      rw [List.mapM_cons, hplan.2.2, ih]
      rfl

theorem planPublication_lists {address : Text}
    {publication : PublicationPlan}
    (hplans : List.Forall₂ (PlannedAs S publicationId layoutCommitted) sources plans)
    (hne : sources ≠ [])
    (haddress : publicationAddress S (sources.map (·.1.sourceIdentity))
      (if layoutCommitted then some (sources.map (·.2.layoutIdentity)) else none) = .ok address)
    (hid : publicationIdPrefix ++ address = publicationId)
    (h : planPublication S publicationId plans = .ok publication) :
    publication.publication.Lists S (plans.map (·.root)) ∧
      publication.publication.publicationId = publicationId ∧
      publication.text = publication.publication.toJson.stringify ∧
      (utf8 publication.text).length ≤ S.limits.maxDirectDocumentSourceBytes := by
  dsimp only [planPublication] at h
  split at h
  · cases h
  · next hbytes =>
    obtain ⟨hash, -, h⟩ := bind_ok_iff.mp h
    obtain ⟨metadata, -, hmade⟩ := bind_ok_iff.mp h
    have heq := Except.ok.inj hmade
    subst heq
    have hidentities : sources.map (·.1.sourceIdentity) = plans.map (·.root.sourceIdentity) :=
      map_eq_of_forall₂ (fun entry plan hplan => hplan.1.sourceIdentity.symm) hplans
    have hcommitted : sources.map (fun entry => committedIdentity layoutCommitted entry.2) =
        plans.map (·.root.layoutIdentity) :=
      map_eq_of_forall₂ (fun entry plan hplan => hplan.2.2.symm) hplans
    have hmapM := mapM_layoutIdentity hplans hne
    have hlength : sources.length = plans.length := hplans.length_eq
    have hall : ∀ plan ∈ plans, ∃ entry ∈ sources,
        PlannedAs S publicationId layoutCommitted entry plan := by
      intro plan hplan
      obtain ⟨index, hindex, rfl⟩ := List.mem_iff_getElem.mp hplan
      have hbound : index < sources.length := by omega
      exact ⟨sources[index], List.getElem_mem hbound, hplans.get hbound hindex⟩
    refine ⟨⟨by simp, by simp, ?_, ?_, ⟨address, ?_, hid⟩, ?_, ?_, ?_⟩, rfl, rfl,
      Nat.not_lt.mp hbytes⟩
    · intro identities hidentities
      have hsome : plans.mapM (·.root.layoutIdentity) = some identities := hidentities
      rw [hmapM] at hsome
      cases layoutCommitted with
      | false => cases hsome
      | true =>
        have hlist := Option.some.inj hsome
        subst hlist
        simp [hlength]
    · intro index
      show ((plans.mapM fun plan : SourcePlan => plan.root.layoutIdentity).bind
        fun identities => identities[index]?) = _
      have hroot : (plans.map (·.root))[index]?.bind (·.layoutIdentity) =
          ((plans.map (·.root.layoutIdentity))[index]?).join := by
        rw [List.getElem?_map, List.getElem?_map]
        cases plans[index]? <;> rfl
      rw [hmapM, hroot, ← hcommitted, List.getElem?_map]
      cases layoutCommitted with
      | false => cases sources[index]? <;> rfl
      | true =>
        show (sources.map _)[index]? = _
        rw [List.getElem?_map]
        cases sources[index]? <;> rfl
    · show publicationAddress S (plans.map (·.root.sourceIdentity))
        (plans.mapM (·.root.layoutIdentity)) = _
      rw [hmapM, ← hidentities]
      exact haddress
    · intro hnil
      have hplansNil : plans = [] := List.map_eq_nil_iff.mp hnil
      rw [hplansNil] at hlength
      exact hne (List.length_eq_zero_iff.mp hlength)
    · intro root hroot
      obtain ⟨plan, hplan, rfl⟩ := List.mem_map.mp hroot
      obtain ⟨entry, -, hsound, -⟩ := hall plan hplan
      exact hsound.root
    · intro root hroot
      obtain ⟨plan, hplan, rfl⟩ := List.mem_map.mp hroot
      obtain ⟨entry, -, -, hpublicationId, -⟩ := hall plan hplan
      exact hpublicationId

end ContextStore.Archive
