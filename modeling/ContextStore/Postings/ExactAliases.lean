import ContextStore.Postings.ExactResolution

/-! # Plans for exact values

A plan is never given up for want of a posting that an alias points to, it stays below its limit,
and what its aliases point to is stored with it. -/

namespace ContextStore.Postings

open Unicode Outcomes
open Concurrent (bind_ok_iff)
open KeyEncoding (KeyField)

variable {v8 : V8} {casing : Casing} {context : ExactContext} {bucket planned : Nat}
  {planning : Planning}

/-! ## What planning fails with -/

/-- Does the error concern the targets of an alias? -/
def IndexError.ofTargets : IndexError → Bool
  | .noCanonicalTarget => true
  | .locator _ => true
  | _ => false

theorem failsIn_failsAs {ε α : Type} {error : ε → IndexError}
    (h : ∀ e, (error e).ofTargets = false) (x : Except ε α) :
    FailsIn (fun e => e.ofTargets = false) (failsAs error x) := by
  cases x with
  | error e => exact .error (h e)
  | ok value => exact .ok value

theorem failsIn_encodeKey (key : List KeyField) :
    FailsIn (fun e => e.ofTargets = false) (encodeKey key) := failsIn_failsAs (fun _ => rfl) _

theorem failsIn_identifier (value : Text) (label : String) :
    FailsIn (fun e => e.ofTargets = false) (identifier value label) :=
  .ite (fun _ => .error rfl) fun _ => .ok value

theorem failsIn_positiveInteger (value : Nat) (label : String) :
    FailsIn (fun e => e.ofTargets = false) (positiveInteger value label) :=
  .ite (fun _ => .error rfl) fun _ => .ok value

theorem failsIn_nonNegativeInteger (value : Nat) (label : String) :
    FailsIn (fun e => e.ofTargets = false) (nonNegativeInteger value label) :=
  .ite (fun _ => .error rfl) fun _ => .ok value

theorem failsIn_planAnchor (planning : Planning) (anchor : Anchor) :
    FailsIn (fun e => e.ofTargets = false) (planAnchor casing context bucket planning anchor) := by
  refine FailsIn.bind (failsIn_failsAs (fun _ => rfl) _) fun window _ => ?_
  cases window with
  | none => exact .error rfl
  | some window =>
    refine FailsIn.foldlM fun planning mode => FailsIn.bind ?_ fun key _ =>
      FailsIn.bind (failsIn_encodeKey key) fun identity _ => .ok _
    exact (failsIn_identifier _ _).bind fun _ _ => (failsIn_identifier _ _).bind fun _ _ =>
      (failsIn_identifier _ _).bind fun _ _ => (failsIn_nonNegativeInteger _ _).bind fun _ _ =>
      (failsIn_identifier _ _).bind fun _ _ => (failsIn_positiveInteger _ _).bind fun _ _ =>
      (failsIn_positiveInteger _ _).bind fun _ _ =>
      (failsIn_nonNegativeInteger _ _).bind fun _ _ =>
      (failsIn_nonNegativeInteger _ _).bind fun _ _ => .ok _

variable {canonical : List (List UInt8 × List Match)}

theorem failsIn_writeMutation (h : planning.Sound casing context bucket planned)
    (hcanonical : canonicalPostings (planning.fullMutations context bucket) = .ok canonical)
    {mutation : FullMutation} (hmem : mutation ∈ planning.fullMutations context bucket) :
    FailsIn (fun e => e.ofTargets = false) (writeMutation v8 canonical mutation) := by
  rw [writeMutation]
  refine .ite (fun _ => FailsIn.bind (failsIn_failsAs (fun _ => rfl) _) fun _ _ => .ok _)
    fun hmode => ?_
  have htargets := encodable_foldedTargets h hcanonical hmem (not_not.mp hmode)
  rw [if_neg htargets.1, encodePostingLocator_eq htargets]
  exact .ok _

theorem failsIn_sortMutations (mutations : List Mutation) :
    FailsIn (fun e => e.ofTargets = false) (sortMutations mutations) :=
  FailsIn.bind (FailsIn.mapM fun mutation _ =>
    (failsIn_encodeKey mutation.key).bind fun _ _ => .ok _) fun _ _ => .ok _

theorem failsIn_exactMutationsForAnchors (anchors : List Anchor) (bucketMs : Nat) :
    FailsIn (fun e => e.ofTargets = false)
      (exactMutationsForAnchors v8 casing context anchors bucketMs) := by
  refine (failsIn_positiveInteger _ _).bind fun bucketMs _ =>
    ((failsIn_nonNegativeInteger _ _).bind fun _ _ => .ok _).bind fun bucket _ =>
    (FailsIn.foldlM failsIn_planAnchor).bind fun planning hplanning => ?_
  have hsound := planGroups_sound hplanning
  refine (FailsIn.mapM fun mutation _ =>
    (failsIn_encodeKey mutation.key).bind fun _ _ => .ok _).bind fun canonical hcanonical => ?_
  exact (FailsIn.mapM fun mutation hmem => failsIn_writeMutation hsound hcanonical hmem).bind
    fun written _ => (failsIn_sortMutations written).bind fun _ _ => .ok _

/-! ## What is planned -/

/-- What a plan has been made from. -/
structure PlannedFrom (v8 : V8) (context : ExactContext) (bucket : Nat) (planning : Planning)
    (canonical : List (List UInt8 × List Match)) (mutations : List Mutation) : Prop where
  listed : canonicalPostings (planning.fullMutations context bucket) = .ok canonical
  written : ∃ written,
    (planning.fullMutations context bucket).mapM (writeMutation v8 canonical) = .ok written ∧
      mutations.Perm written

theorem perm_of_sortMutations {mutations sorted : List Mutation}
    (h : sortMutations mutations = .ok sorted) : sorted.Perm mutations := by
  simp only [sortMutations, bind_ok_iff] at h
  obtain ⟨keyed, hkeyed, h⟩ := h
  cases h
  have hsnd : keyed.map Prod.snd = mutations := by
    have hall := forall₂_of_mapM hkeyed
    clear hkeyed
    induction hall with
    | nil => rfl
    | cons hstep _ ih =>
      obtain ⟨encoded, -, hstep⟩ := bind_ok_iff.mp hstep
      cases hstep
      rw [List.map_cons, ih]
  have hperm := (List.mergeSort_perm keyed fun left right => decide (left.1 ≤ right.1)).map Prod.snd
  rwa [hsnd] at hperm

theorem plannedFrom_of_ok {anchors : List Anchor} {bucketMs : Nat} {index : ExactIndex}
    (h : exactMutationsForAnchors v8 casing context anchors bucketMs = .ok index) :
    ∃ planning canonical, planGroups casing context index.metadata.bucket anchors = .ok planning ∧
      PlannedFrom v8 context index.metadata.bucket planning canonical index.mutations ∧
      index.metadata.indexedMatchCount =
        ((planning.fullMutations context index.metadata.bucket).map
          fun mutation => mutation.payload.exactMatches.length).sum ∧
      index.metadata.omittedMatchCount = planning.omittedMatches := by
  simp only [exactMutationsForAnchors, bind_ok_iff] at h
  obtain ⟨bucketMs, -, bucket, -, planning, hplanning, canonical, hcanonical, written, hwritten,
    mutations, hmutations, h⟩ := h
  cases h
  exact ⟨planning, canonical, hplanning,
    ⟨hcanonical, written, hwritten, perm_of_sortMutations hmutations⟩, rfl, rfl⟩

section PlannedFrom

variable {mutations : List Mutation} (h : planning.Sound casing context bucket planned)
  (hplan : PlannedFrom v8 context bucket planning canonical mutations)

theorem writeMutation_eq_ok {mutation : FullMutation} {written : Mutation}
    (hwritten : writeMutation v8 canonical mutation = .ok written) :
    written.key = mutation.key ∧
      ((mutation.payload.caseMode ≠ foldedMode ∧ written.kind = .exactPosting ∧
          encodeExactPostingBlock v8 mutation.payload = .ok written.payload) ∨
        (mutation.payload.caseMode = foldedMode ∧ written.kind = .exactFoldedPostingLocator ∧
          encodePostingLocator .exactFolded
            (foldedTargets canonical mutation.payload.exactMatches) = .ok written.payload)) := by
  rw [writeMutation] at hwritten
  split at hwritten
  · rename_i hmode
    obtain ⟨payload, hpayload, hwritten⟩ := bind_ok_iff.mp hwritten
    cases hwritten
    exact ⟨rfl, .inl ⟨hmode, rfl, failsAs_eq_ok.mp hpayload⟩⟩
  · rename_i hmode
    dsimp only at hwritten
    split at hwritten
    · cases hwritten
    · obtain ⟨payload, hpayload, hwritten⟩ := bind_ok_iff.mp hwritten
      cases hwritten
      exact ⟨rfl, .inr ⟨not_not.mp hmode, rfl, failsAs_eq_ok.mp hpayload⟩⟩

include hplan

theorem PlannedFrom.length_eq :
    mutations.length = (planning.fullMutations context bucket).length := by
  obtain ⟨written, hwritten, hperm⟩ := hplan.written
  rw [hperm.length_eq, length_of_mapM hwritten]

theorem PlannedFrom.exists_full {mutation : Mutation} (hmem : mutation ∈ mutations) :
    ∃ full ∈ planning.fullMutations context bucket,
      writeMutation v8 canonical full = .ok mutation := by
  obtain ⟨written, hwritten, hperm⟩ := hplan.written
  exact exists_source hwritten (hperm.mem_iff.mp hmem)

theorem PlannedFrom.exists_written {full : FullMutation}
    (hmem : full ∈ planning.fullMutations context bucket) :
    ∃ mutation ∈ mutations, writeMutation v8 canonical full = .ok mutation := by
  obtain ⟨written, hwritten, hperm⟩ := hplan.written
  obtain ⟨mutation, hmutation, hfull⟩ := exists_image hwritten hmem
  exact ⟨mutation, hperm.mem_iff.mpr hmutation, hfull⟩

/-- A posting under an exact form is written as it is. -/
theorem PlannedFrom.exists_block {target : List UInt8} {full : FullMutation}
    (hfull : IsCanonical context bucket planning target full) :
    ∃ mutation ∈ mutations, mutation.kind = .exactPosting ∧ encodeKey mutation.key = .ok target ∧
      encodeExactPostingBlock v8 full.payload = .ok mutation.payload := by
  obtain ⟨hmem, hmode, hencoded⟩ := hfull
  obtain ⟨mutation, hmutation, hwritten⟩ := hplan.exists_written hmem
  obtain ⟨hkey, ⟨-, hkind, hpayload⟩ | ⟨hfolded, -, -⟩⟩ := writeMutation_eq_ok hwritten
  · exact ⟨mutation, hmutation, hkind, by rw [hkey, hencoded], hpayload⟩
  · rw [hmode] at hfolded
    exact absurd hfolded exactMode_ne_foldedMode

theorem PlannedFrom.canonical_of_mem {found : List Match} {target : List UInt8}
    (htarget : target ∈ foldedTargets canonical found) :
    ∃ full, IsCanonical context bucket planning target full := by
  obtain ⟨one, -, htarget⟩ := mem_foldedTargets.mp htarget
  obtain ⟨listed, hlisted, -⟩ := mem_exactTargets.mp htarget
  obtain ⟨full, hfull, -⟩ := (mem_canonicalPostings hplan.listed).mp hlisted
  exact ⟨full, hfull⟩

include h

theorem PlannedFrom.exists_alias {full : FullMutation} {mutation : Mutation}
    (hmem : full ∈ planning.fullMutations context bucket)
    (hmode : full.payload.caseMode = foldedMode)
    (hwritten : writeMutation v8 canonical full = .ok mutation) :
    isPostingLocator mutation.payload = true ∧
      decodePostingLocator mutation.payload (some .exactFolded) = .ok
        ⟨Locator.FORMAT_VERSION, .exactFolded,
          foldedTargets canonical full.payload.exactMatches⟩ := by
  obtain ⟨-, ⟨hexact, -, -⟩ | ⟨-, -, hpayload⟩⟩ := writeMutation_eq_ok hwritten
  · exact absurd hmode hexact
  · have htargets := encodable_foldedTargets h hplan.listed hmem hmode
    refine ⟨?_, decode_encodePostingLocator htargets hpayload⟩
    rw [encodePostingLocator_eq htargets] at hpayload
    rw [← Except.ok.inj hpayload]
    simp [isPostingLocator]

end PlannedFrom

/-! ## Resolving aliases -/

/-- What has been put under a key is read, the last of it. -/
theorem putAll_get (store : RecordStore) (puts : List (List UInt8 × List UInt8))
    {put : List UInt8 × List UInt8} (hput : put ∈ puts) :
    ∃ last ∈ puts, last.1 = put.1 ∧ putAll store puts put.1 = some (.bytes last.2) := by
  induction puts using List.reverseRecOn with
  | nil => cases hput
  | append_singleton rest last ih =>
    rw [putAll, List.foldl_append, List.foldl_cons, List.foldl_nil]
    by_cases hkey : put.1 = last.1
    · refine ⟨last, List.mem_append_right _ List.mem_cons_self, hkey.symm, ?_⟩
      rw [hkey, Function.update_self]
    · rw [Function.update_of_ne hkey]
      rcases List.mem_append.mp hput with hput | hput
      · obtain ⟨before, hbefore, hsame, hget⟩ := ih hput
        exact ⟨before, List.mem_append_left _ hbefore, hsame, hget⟩
      · rw [List.mem_singleton.mp hput] at hkey
        exact absurd rfl hkey

theorem commit_get {store committed : RecordStore} {mutations : List Mutation}
    (h : commit store mutations = .ok committed) {mutation : Mutation}
    (hmem : mutation ∈ mutations) {encoded : List UInt8}
    (hencoded : encodeKey mutation.key = .ok encoded) :
    ∃ last ∈ mutations, encodeKey last.key = .ok encoded ∧
      committed encoded = some (.bytes last.payload) := by
  simp only [commit, bind_ok_iff] at h
  obtain ⟨puts, hputs, h⟩ := h
  cases h
  obtain ⟨put, hput, hread⟩ := exists_image hputs hmem
  rw [hencoded] at hread
  cases hread
  obtain ⟨last, hlast, hsame, hget⟩ := putAll_get store puts hput
  obtain ⟨source, hsource, hread⟩ := exists_source hputs hlast
  obtain ⟨key, hkey, hread⟩ := bind_ok_iff.mp hread
  cases hread
  exact ⟨source, hsource, by rw [hkey]; exact congrArg _ hsame, hget⟩

section Resolved

variable {mutations : List Mutation} {store committed : RecordStore}
  (h : planning.Sound casing context bucket planned)
  (hplan : PlannedFrom v8 context bucket planning canonical mutations)
  (hcommit : commit store mutations = .ok committed)

include h hplan

theorem PlannedFrom.exists_commit (store : RecordStore) :
    ∃ committed, commit store mutations = .ok committed := by
  obtain ⟨puts, hputs⟩ : ∃ puts, (mutations.mapM fun mutation => do
      let encoded ← encodeKey mutation.key
      return (encoded, mutation.payload)) = Except.ok puts := by
    refine exists_mapM fun mutation hmem => ?_
    obtain ⟨full, hfull, hwritten⟩ := hplan.exists_full hmem
    obtain ⟨encoded, hencoded⟩ := exists_encodeKey h hfull
    refine ⟨(encoded, mutation.payload), ?_⟩
    rw [(writeMutation_eq_ok hwritten).1, hencoded]
    rfl
  rw [commit, hputs]
  exact ⟨_, rfl⟩

include hcommit

theorem PlannedFrom.read_target {target : List UInt8} {full : FullMutation}
    (hfull : IsCanonical context bucket planning target full) :
    ∃ payload, committed target = some payload ∧ validatePosting v8 payload = .ok full.payload := by
  obtain ⟨mutation, hmutation, -, hencoded, -⟩ := hplan.exists_block hfull
  obtain ⟨last, hlast, hkey, hget⟩ := commit_get hcommit hmutation hencoded
  obtain ⟨other, hother, hwritten⟩ := hplan.exists_full hlast
  obtain ⟨hsame, hcase⟩ := writeMutation_eq_ok hwritten
  rw [hsame] at hkey
  obtain rfl := eq_of_encodeKey h hother hfull.1 hkey hfull.2.2
  refine ⟨_, hget, ?_⟩
  rcases hcase with ⟨-, -, hpayload⟩ | ⟨hfolded, -, -⟩
  · obtain ⟨hblock, hread⟩ := read_encodeExactPostingBlock v8 hpayload
    have hversion : other.payload.postingVersion = EXACT_POSTING_VERSION := by
      obtain ⟨identity, group, i, -, -, rfl⟩ := (mem_fullMutations h).mp hother
      rfl
    rw [validatePosting, readPosting, if_pos hblock, hread]
    exact if_pos hversion
  · exact absurd (hfull.2.1.symm.trans hfolded) exactMode_ne_foldedMode

theorem PlannedFrom.resolveTargets_eq {limit : Nat} (targets : List (List UInt8))
    (htargets : ∀ target ∈ targets, ∃ full, IsCanonical context bucket planning target full)
    (postings : List ExactPosting) (reads : Nat) (hlimit : reads + targets.length ≤ limit) :
    ∃ resolved, resolveTargets v8 committed limit targets postings reads =
        .ok ⟨postings ++ resolved, reads + targets.length, false⟩ ∧
      List.Forall₂ (fun target posting => ∃ full, IsCanonical context bucket planning target full ∧
        full.payload = posting) targets resolved := by
  induction targets generalizing postings reads with
  | nil => exact ⟨[], by rw [resolveTargets, List.append_nil]; rfl, .nil⟩
  | cons target rest ih =>
    rw [List.forall_mem_cons] at htargets
    obtain ⟨⟨full, hfull⟩, hrest⟩ := htargets
    rw [List.length_cons] at hlimit
    obtain ⟨payload, hget, hvalid⟩ := hplan.read_target h hcommit hfull
    obtain ⟨resolved, hresolved, hall⟩ :=
      ih hrest (postings ++ [full.payload]) (reads + 1) (by omega)
    refine ⟨full.payload :: resolved, ?_, .cons ⟨full, hfull, rfl⟩ hall⟩
    rw [resolveTargets, if_neg (by omega), hget]
    dsimp only
    rw [hvalid]
    dsimp only [bind, Except.bind]
    rw [if_neg (not_not.mpr hfull.2.1)]
    have hreads : reads + 1 + rest.length = reads + (target :: rest).length := by
      rw [List.length_cons]
      omega
    show resolveTargets v8 committed limit rest (postings ++ [full.payload]) (reads + 1) = _
    rw [hresolved, hreads, List.append_assoc, List.singleton_append]

theorem PlannedFrom.resolve_alias {full : FullMutation} {mutation : Mutation}
    (hmem : full ∈ planning.fullMutations context bucket)
    (hmode : full.payload.caseMode = foldedMode)
    (hwritten : writeMutation v8 canonical full = .ok mutation) :
    ∃ resolved, resolveExactPostingRecord v8 committed (.bytes mutation.payload) = .ok resolved ∧
      List.Forall₂ (fun target posting => ∃ full, IsCanonical context bucket planning target full ∧
        full.payload = posting) (foldedTargets canonical full.payload.exactMatches) resolved := by
  obtain ⟨hlocator, hdecode⟩ := hplan.exists_alias h hmem hmode hwritten
  have htargets := encodable_foldedTargets h hplan.listed hmem hmode
  have hlimit : 0 + (foldedTargets canonical full.payload.exactMatches).length ≤
      KeyEncoding.MAX_SAFE_INTEGER.toNat := by
    have hmax : Locator.MAX_TARGETS ≤ KeyEncoding.MAX_SAFE_INTEGER.toNat := by decide
    have hlength := htargets.2.1
    omega
  obtain ⟨resolved, hresolved, hall⟩ := hplan.resolveTargets_eq h hcommit
    (foldedTargets canonical full.payload.exactMatches)
    (fun target htarget => hplan.canonical_of_mem htarget) [] 0 hlimit
  have hbytes : (Payload.bytes mutation.payload).locatorBytes = some mutation.payload :=
    if_pos hlocator
  refine ⟨resolved, ?_, hall⟩
  rw [resolveExactPostingRecord, resolveExactPostingRecordBounded, hbytes]
  dsimp only
  rw [hdecode]
  show (resolveTargets v8 committed _ _ [] 0 >>= fun resolved => pure resolved.postings) = _
  rw [hresolved]
  rfl

end Resolved

/-! ## Folded forms -/

/-- The match is listed under the folded form. -/
def Planning.IndexedUnder (casing : Casing) (planning : Planning) (term : Text) (one : Match) :
    Prop :=
  (∃ identity group, planning.groups.get identity = some group ∧ group.caseMode = foldedMode ∧
    one ∈ group.found) ∧ formOf casing foldedMode one = term

theorem termKey_eq_ok {project term : Text} {start : List KeyField} :
    exactKeys.termPrefix project foldedMode term = .ok start ↔ (project ≠ [] ∧ term ≠ []) ∧
      start = [.string (text "exact"), .string project, .string foldedMode, .string term] := by
  have hmode : foldedMode ≠ [] := by decide
  simp only [exactKeys.termPrefix, bind_ok_iff, identifier_eq_ok]
  constructor
  · rintro ⟨_, ⟨rfl, hproject⟩, _, ⟨rfl, -⟩, _, ⟨rfl, hterm⟩, hstart⟩
    cases hstart
    exact ⟨⟨hproject, hterm⟩, rfl⟩
  · rintro ⟨⟨hproject, hterm⟩, rfl⟩
    exact ⟨_, ⟨rfl, hproject⟩, _, ⟨rfl, hmode⟩, _, ⟨rfl, hterm⟩, rfl⟩

/-- The fields of the start of the keys of a folded form. -/
def foldedStart (context : ExactContext) (term : Text) : List KeyField :=
  [.string (text "exact"), .string context.manifest.project, .string foldedMode, .string term]

theorem encodable_foldedStart {term : Text} {ordinal i : Nat}
    (h : KeyEncoding.Encodable (postingFields context bucket foldedMode term ordinal i)) :
    KeyEncoding.Encodable (foldedStart context term) := by
  have hsplit : postingFields context bucket foldedMode term ordinal i =
      foldedStart context term ++ (postingFields context bucket foldedMode term ordinal i).drop 4 :=
    rfl
  refine ⟨List.cons_ne_nil _ _, fun field hfield => h.fits field ?_, ?_⟩
  · rw [hsplit]
    exact List.mem_append_left _ hfield
  · have hsize := h.size
    rw [hsplit, KeyEncoding.tupleBytes, List.flatMap_append, ← List.cons_append,
      List.length_append] at hsize
    rw [KeyEncoding.tupleBytes]
    omega

theorem foldedStart_prefix_iff {caseMode term form : Text} {ordinal i : Nat}
    (hstart : KeyEncoding.Encodable (foldedStart context form))
    (hkey : KeyEncoding.Encodable (postingFields context bucket caseMode term ordinal i)) :
    KeyEncoding.tupleBytes (foldedStart context form) <+:
        KeyEncoding.tupleBytes (postingFields context bucket caseMode term ordinal i) ↔
      KeyField.stored (.string foldedMode) = KeyField.stored (.string caseMode) ∧
        KeyField.stored (.string form) = KeyField.stored (.string term) := by
  rw [KeyEncoding.tupleBytes_prefix_iff hstart hkey]
  simp [foldedStart, postingFields, List.cons_prefix_cons]

theorem caseMode_eq_folded {caseMode : Text} (hmode : caseMode = exactMode ∨ caseMode = foldedMode)
    (h : KeyField.stored (.string foldedMode) = KeyField.stored (.string caseMode)) :
    caseMode = foldedMode := by
  have hne : KeyEncoding.KeyField.stored (.string foldedMode) ≠
      KeyEncoding.KeyField.stored (.string exactMode) := by decide
  rcases hmode with rfl | rfl
  · exact absurd h hne
  · rfl

/-- Resolving the aliases of a folded form finds every match that is listed under it and under its
exact form; all that is found with that folded form is listed under its exact form. -/
theorem PlannedFrom.resolve_folded {mutations : List Mutation} {store committed : RecordStore}
    (h : planning.Sound casing context bucket planned)
    (hplan : PlannedFrom v8 context bucket planning canonical mutations)
    (hcommit : commit store mutations = .ok committed) {term : Text}
    (hterm : ∃ one, planning.IndexedUnder casing term one) :
    ∃ postings, resolveFolded v8 committed context.manifest.project term mutations = .ok postings ∧
      (∀ one, planning.IndexedUnder casing term one → one ∈ planning.canonical →
        one ∈ postings.flatMap ExactPosting.exactMatches) ∧
      ∀ one ∈ postings.flatMap ExactPosting.exactMatches, one ∈ planning.canonical := by
  -- the keys of the matches under the form start with it
  have hplaced : ∀ one, planning.IndexedUnder casing term one → ∃ identity group,
      planning.groups.get identity = some group ∧ group.caseMode = foldedMode ∧
        one ∈ group.found ∧ (context.manifest.project ≠ [] ∧ term ≠ []) ∧
        KeyEncoding.Encodable (foldedStart context term) ∧
        KeyField.stored (.string term) = KeyField.stored (.string group.term) := by
    rintro one ⟨⟨identity, group, hget, hmode, hone⟩, rfl⟩
    have hat := (h.placed identity group hget).1
    obtain ⟨ordinal, key, hkey, hencoded⟩ := hat.forms one hone
    have hstored := stored_eq_of_encodeKey hencoded hat.encoded
    rw [hmode] at hkey
    obtain ⟨hchecked, rfl⟩ := postingKey_eq_ok.mp hkey
    rw [(postingKey_eq_ok.mp hat.key).2] at hstored
    simp only [postingFields, List.map_cons, List.cons.injEq] at hstored
    exact ⟨identity, group, hget, hmode, hone, ⟨hchecked.project, hchecked.term⟩,
      encodable_foldedStart (encodeKey_eq_ok.mp hencoded).1, hstored.2.2.2.1⟩
  obtain ⟨first, hfirst⟩ := hterm
  obtain ⟨-, -, -, -, -, hchecked, hstart, -⟩ := hplaced first hfirst
  have hrecords : ∀ mutation ∈ mutations.filter (fun mutation =>
      (encodeKey mutation.key).toOption.any fun encoded =>
        (KeyEncoding.tupleBytes (foldedStart context term)).isPrefixOf encoded),
      ∃ full ∈ planning.fullMutations context bucket, full.payload.caseMode = foldedMode ∧
        writeMutation v8 canonical full = .ok mutation := by
    intro mutation hmem
    obtain ⟨hmem, hkey⟩ := List.mem_filter.mp hmem
    obtain ⟨full, hfull, hwritten⟩ := hplan.exists_full hmem
    refine ⟨full, hfull, ?_, hwritten⟩
    obtain ⟨identity, group, i, hget, hi, rfl⟩ := (mem_fullMutations h).mp hfull
    have hencoded := encodeKey_mutation h hget hi
    rw [(writeMutation_eq_ok hwritten).1, hencoded] at hkey
    have hle : KeyEncoding.tupleBytes (foldedStart context term) <+: _ :=
      List.isPrefixOf_iff_prefix.mp hkey
    have hsame := (foldedStart_prefix_iff hstart (encodeKey_eq_ok.mp hencoded).1).mp hle
    exact caseMode_eq_folded (h.placed identity group hget).1.mode hsame.1
  obtain ⟨resolved, hresolved⟩ := exists_mapM
    (f := fun mutation : Mutation =>
      resolveExactPostingRecord v8 committed (.bytes mutation.payload))
    fun mutation hmem => by
      obtain ⟨full, hfull, hmode, hwritten⟩ := hrecords mutation hmem
      obtain ⟨postings, hpostings, -⟩ := hplan.resolve_alias h hcommit hfull hmode hwritten
      exact ⟨postings, hpostings⟩
  refine ⟨resolved.flatten, ?_, fun one hunder hcovered => ?_, fun one hone => ?_⟩
  · rw [resolveFolded, termKey_eq_ok.mpr ⟨hchecked, rfl⟩]
    show (encodeKey (foldedStart context term) >>= _) = _
    rw [encodeKey_eq_ok.mpr ⟨hstart, rfl⟩]
    simp only [bind, Except.bind, hresolved]
    rfl
  · obtain ⟨identity, group, hget, hmode, hone, -, -, hsame⟩ := hplaced one hunder
    obtain ⟨i, hi, hsegment⟩ := exists_posting group hone
    have hencoded := encodeKey_mutation h hget hi
    have hfull := (mem_fullMutations h).mpr ⟨identity, group, i, hget, hi, rfl⟩
    obtain ⟨mutation, hmutation, hwritten⟩ := hplan.exists_written hfull
    have hkey : KeyEncoding.tupleBytes (foldedStart context term) <+:
        KeyEncoding.tupleBytes (group.mutation context bucket i).key :=
      (foldedStart_prefix_iff hstart (encodeKey_eq_ok.mp hencoded).1).mpr ⟨by rw [hmode], hsame⟩
    have hrecord : mutation ∈ mutations.filter fun mutation =>
        (encodeKey mutation.key).toOption.any fun encoded =>
          (KeyEncoding.tupleBytes (foldedStart context term)).isPrefixOf encoded := by
      refine List.mem_filter.mpr ⟨hmutation, ?_⟩
      rw [(writeMutation_eq_ok hwritten).1, hencoded]
      exact List.isPrefixOf_iff_prefix.mpr hkey
    obtain ⟨postings, hmem, hpostings⟩ := exists_image hresolved hrecord
    obtain ⟨postings', hpostings', hall⟩ := hplan.resolve_alias h hcommit hfull hmode hwritten
    rw [hpostings] at hpostings'
    obtain rfl := Except.ok.inj hpostings'
    obtain ⟨target, htarget, listed, hlisted, hones⟩ :=
      exists_target h hplan.listed hsegment hcovered
    obtain ⟨posting, hposting, other, hother, rfl⟩ := exists_right hall htarget
    obtain rfl := eq_of_encodeKey h hother.1 hlisted.1 hother.2.2 hlisted.2.2
    exact List.mem_flatMap.mpr
      ⟨other.payload, List.mem_flatten.mpr ⟨postings, hmem, hposting⟩, hones⟩
  · obtain ⟨posting, hposting, hone⟩ := List.mem_flatMap.mp hone
    obtain ⟨postings, hmem, hposting⟩ := List.mem_flatten.mp hposting
    obtain ⟨mutation, hmutation, hpostings⟩ := exists_source hresolved hmem
    obtain ⟨full, hfull, hmode, hwritten⟩ := hrecords mutation hmutation
    obtain ⟨postings', hpostings', hall⟩ := hplan.resolve_alias h hcommit hfull hmode hwritten
    rw [hpostings] at hpostings'
    obtain rfl := Except.ok.inj hpostings'
    obtain ⟨target, -, other, hother, rfl⟩ := exists_left hall hposting
    exact hother.mem_canonical h hone

/-- Planning never fails for the targets of an alias; what is planned stays below the limit and is
counted; every alias points to postings of the plan; and once the plan is stored, the aliases of a
folded form lead to every match that is listed under it and under its exact form, and to no other
match of that form than those that are listed under their exact form. -/
theorem exact_plan_resolves (v8 : V8) (casing : Casing) (context : ExactContext)
    (anchors : List Anchor) (bucketMs : Nat) :
    (∀ error, exactMutationsForAnchors v8 casing context anchors bucketMs = .error error →
      error ≠ .noCanonicalTarget ∧ ∀ message, error ≠ .locator message) ∧
    ∀ index, exactMutationsForAnchors v8 casing context anchors bucketMs = .ok index →
      index.mutations.length ≤ MAX_EXACT_POSTING_MUTATIONS ∧
      index.metadata.indexedMatchCount + index.metadata.omittedMatchCount =
        plannedMatches casing anchors ∧
      (∀ locator ∈ index.mutations, locator.kind = .exactFoldedPostingLocator →
        ∃ targets, decodePostingLocator locator.payload (some .exactFolded) =
            .ok ⟨Locator.FORMAT_VERSION, .exactFolded, targets⟩ ∧
          ∀ target ∈ targets, ∃ posting ∈ index.mutations, posting.kind = .exactPosting ∧
            encodeKey posting.key = .ok target) ∧
      ∃ planning, planGroups casing context index.metadata.bucket anchors = .ok planning ∧
        planning.omittedMatches = index.metadata.omittedMatchCount ∧
        ∀ store, ∃ committed, commit store index.mutations = .ok committed ∧
          ∀ term, (∃ one, planning.IndexedUnder casing term one) → ∃ postings,
            resolveFolded v8 committed context.manifest.project term index.mutations =
              .ok postings ∧
            (∀ one, planning.IndexedUnder casing term one → one ∈ planning.canonical →
              one ∈ (postings.flatMap ExactPosting.exactMatches).filter fun one =>
                formOf casing foldedMode one = term) ∧
            ∀ one ∈ (postings.flatMap ExactPosting.exactMatches).filter fun one =>
                formOf casing foldedMode one = term,
              formOf casing foldedMode one = term ∧ one ∈ planning.canonical := by
  constructor
  · intro error herror
    have hfails := failsIn_exactMutationsForAnchors anchors bucketMs error herror
    constructor
    · rintro rfl
      cases hfails
    · rintro message rfl
      cases hfails
  · intro index hindex
    obtain ⟨planning, canonical, hplanning, hplan, hindexed, homitted⟩ := plannedFrom_of_ok hindex
    have hsound := planGroups_sound hplanning
    refine ⟨?_, ?_, fun locator hmem hkind => ?_, planning, hplanning, homitted.symm,
      fun store => ?_⟩
    · rw [hplan.length_eq, length_fullMutations hsound]
      exact hsound.counted.capped
    · rw [hindexed, homitted]
      exact length_matches hsound
    · obtain ⟨full, hfull, hwritten⟩ := hplan.exists_full hmem
      obtain ⟨-, ⟨-, hexact, -⟩ | ⟨hmode, -, -⟩⟩ := writeMutation_eq_ok hwritten
      · rw [hkind] at hexact
        cases hexact
      · refine ⟨_, (hplan.exists_alias hsound hfull hmode hwritten).2, fun target htarget => ?_⟩
        obtain ⟨listed, hlisted⟩ := hplan.canonical_of_mem htarget
        obtain ⟨posting, hposting, hposted, hencoded, -⟩ := hplan.exists_block hlisted
        exact ⟨posting, hposting, hposted, hencoded⟩
    · obtain ⟨committed, hcommit⟩ := hplan.exists_commit hsound store
      refine ⟨committed, hcommit, fun term hterm => ?_⟩
      obtain ⟨postings, hpostings, hreach, hcanonical⟩ :=
        hplan.resolve_folded hsound hcommit hterm
      refine ⟨postings, hpostings, fun one hunder hcovered => ?_, fun one hone => ?_⟩
      · exact List.mem_filter.mpr ⟨hreach one hunder hcovered, decide_eq_true hunder.2⟩
      · obtain ⟨hone, hform⟩ := List.mem_filter.mp hone
        exact ⟨of_decide_eq_true hform, hcanonical one hone⟩

end ContextStore.Postings
