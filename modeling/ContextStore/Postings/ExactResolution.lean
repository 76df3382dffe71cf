import ContextStore.Postings.ExactGroups

/-! # Aliases of exact postings

An alias is resolved by reading the postings it points to. The plan for a document gives every alias
at least one posting to point to, and through the aliases of a folded form every match is found that
is listed under its exact form. -/

namespace ContextStore.Postings

open Unicode Outcomes
open Concurrent (bind_ok_iff)
open KeyEncoding (KeyField)
open Segments (segment segments number)

/-! ## Reading postings -/

/-- The payload of a record: bytes, or a posting as it was stored formerly. -/
inductive Payload where
  | bytes (value : List UInt8)
  | posting (value : ExactPosting)

abbrev RecordStore : Type := List UInt8 → Option Payload

variable (v8 : V8)

def readPosting : Payload → Except IndexError ExactPosting
  | .bytes value =>
    if isPostingBlock value then failsAs .block (decodeExactPostingBlock v8 value)
    else .error (.invalid "An exact posting is malformed.")
  | .posting value => .ok value

def validatePosting (payload : Payload) : Except IndexError ExactPosting := do
  let posting ← readPosting v8 payload
  if posting.postingVersion = EXACT_POSTING_VERSION then return posting
  else throw (.invalid "An exact posting is malformed.")

structure Resolved where
  postings : List ExactPosting
  targetReads : Nat
  truncated : Bool

/-- The loop over the targets of a locator. -/
def resolveTargets (store : RecordStore) (targetReadLimit : Nat) :
    List (List UInt8) → List ExactPosting → Nat → Except IndexError Resolved
  | [], postings, targetReads => .ok ⟨postings, targetReads, false⟩
  | target :: rest, postings, targetReads =>
    if targetReadLimit ≤ targetReads then .ok ⟨postings, targetReads, true⟩
    else
      match store target with
      | none => resolveTargets store targetReadLimit rest postings (targetReads + 1)
      | some payload => do
        let posting ← validatePosting v8 payload
        if posting.caseMode ≠ exactMode then
          throw (.invalid "A folded exact locator targets a non-canonical posting.")
        resolveTargets store targetReadLimit rest (postings ++ [posting]) (targetReads + 1)

def Payload.locatorBytes : Payload → Option (List UInt8)
  | .bytes value => if isPostingLocator value then some value else none
  | .posting _ => none

def resolveExactPostingRecordBounded (store : RecordStore) (payload : Payload)
    (targetReadLimit : Nat) : Except IndexError Resolved :=
  match payload.locatorBytes with
  | none => do
    let posting ← validatePosting v8 payload
    return ⟨[posting], 0, false⟩
  | some bytes => do
    let locator ← failsAs .locator (decodePostingLocator bytes (some .exactFolded))
    resolveTargets v8 store targetReadLimit locator.targets [] 0

def resolveExactPostingRecord (store : RecordStore) (payload : Payload) :
    Except IndexError (List ExactPosting) := do
  let resolved ← resolveExactPostingRecordBounded v8 store payload
    KeyEncoding.MAX_SAFE_INTEGER.toNat
  return resolved.postings

def putAll (store : RecordStore) (puts : List (List UInt8 × List UInt8)) : RecordStore :=
  puts.foldl (fun store put => Function.update store put.1 (some (.bytes put.2))) store

def commit (store : RecordStore) (mutations : List Mutation) :
    Except IndexError RecordStore := do
  let puts ← mutations.mapM fun mutation => do
    let encoded ← encodeKey mutation.key
    return (encoded, mutation.payload)
  return putAll store puts

/-- Resolves the mutations under a folded form, which a scan of its keys comes upon. -/
def resolveFolded (store : RecordStore) (project term : Text) (mutations : List Mutation) :
    Except IndexError (List ExactPosting) := do
  let start ← exactKeys.termPrefix project foldedMode term
  let start ← encodeKey start
  let records := mutations.filter fun mutation =>
    (encodeKey mutation.key).toOption.any fun encoded => start.isPrefixOf encoded
  let resolved ← records.mapM fun mutation =>
    resolveExactPostingRecord v8 store (.bytes mutation.payload)
  return resolved.flatten

/-! ## Postings of the groups -/

section FullMutations

variable {casing : Casing} {context : ExactContext} {bucket planned : Nat} {planning : Planning}

/-- A posting of a group. -/
def Group.mutation (context : ExactContext) (bucket : Nat) (group : Group) (i : Nat) :
    FullMutation :=
  ⟨postingFields context bucket group.caseMode group.term group.window.ordinal i,
    group.posting context bucket (segment MAX_MATCHES_PER_POSTING group.sorted i)⟩

theorem sorted_perm (group : Group) : group.sorted.Perm group.found := List.mergeSort_perm _ _

/-- How many postings does the group take? -/
def Group.postings (group : Group) : Nat := number MAX_MATCHES_PER_POSTING group.found.length

variable {identity : List UInt8} {group : Group}

theorem Group.mutations_eq (h : group.At casing context bucket identity) :
    group.mutations context bucket =
      (List.range group.postings).map (group.mutation context bucket) := by
  obtain ⟨-, hkey⟩ := postingKey_eq_ok.mp h.key
  apply List.ext_getElem
  · simp [Group.mutations, Group.postings, Segments.length_segments, (sorted_perm group).length_eq]
  · intro i _ _
    simp only [Group.mutations, List.getElem_map, List.getElem_zipIdx, List.getElem_range, hkey,
      Group.mutation, segments]
    rw [Nat.zero_add]
    rfl

theorem length_fullMutations (h : planning.Sound casing context bucket planned) :
    (planning.fullMutations context bucket).length = planning.postingMutationCount := by
  have hlength : ∀ groups : List Group,
      (∀ group ∈ groups, ∃ identity, group.At casing context bucket identity) →
      ((groups.flatMap (Group.mutations context bucket)).length : Int) =
        Totals.total (fun group => (number MAX_MATCHES_PER_POSTING group.found.length : Int))
          groups := by
    intro groups hgroups
    induction groups with
    | nil => rfl
    | cons group rest ih =>
      rw [List.forall_mem_cons] at hgroups
      obtain ⟨⟨identity, hat⟩, hrest⟩ := hgroups
      rw [List.flatMap_cons, List.length_append, Totals.total_cons, ← ih hrest,
        Group.mutations_eq hat, List.length_map, List.length_range, Group.postings]
      push_cast
      rfl
  have hall : ∀ group ∈ planning.groups.values,
      ∃ identity, group.At casing context bucket identity := by
    intro group hgroup
    obtain ⟨identity, hget⟩ := InsertionMap.mem_values.mp hgroup
    exact ⟨identity, (h.placed identity group hget).1⟩
  have hcount := h.counted.postings
  have htotal := hlength planning.groups.values hall
  rw [InsertionMap.total, ← htotal] at hcount
  exact_mod_cast hcount.symm

theorem length_matches (h : planning.Sound casing context bucket planned) :
    ((planning.fullMutations context bucket).map
        fun mutation => mutation.payload.exactMatches.length).sum + planning.omittedMatches =
      planned := by
  have hlength : ∀ groups : List Group, ((((groups.flatMap (Group.mutations context bucket)).map
          fun mutation => mutation.payload.exactMatches.length).sum : Nat) : Int) =
        Totals.total (fun group => (group.found.length : Int)) groups := by
    intro groups
    induction groups with
    | nil => rfl
    | cons group rest ih =>
      have hgroup : ((group.mutations context bucket).map
          fun mutation => mutation.payload.exactMatches.length).sum = group.found.length := by
        have hsum : ((group.mutations context bucket).map
            fun mutation => mutation.payload.exactMatches.length) =
            (segments MAX_MATCHES_PER_POSTING group.sorted).map List.length := by
          rw [Group.mutations, List.map_map]
          have hcomp : ((fun mutation : FullMutation => mutation.payload.exactMatches.length) ∘
              fun segment : List Match × Nat =>
                (⟨group.key.dropLast ++ [.number segment.2],
                  group.posting context bucket segment.1⟩ : FullMutation)) =
              List.length ∘ Prod.fst := rfl
          rw [hcomp, ← List.map_map, List.zipIdx_map_fst]
        rw [hsum, ← List.length_flatten, Segments.flatten_segments max_matches_pos,
          (sorted_perm group).length_eq]
      rw [List.flatMap_cons, List.map_append, List.sum_append, Totals.total_cons, ← ih, hgroup]
      push_cast
      rfl
  have htotal := hlength planning.groups.values
  have hmatched := h.counted.matched
  rw [InsertionMap.total, ← htotal] at hmatched
  exact_mod_cast hmatched

theorem mem_fullMutations (h : planning.Sound casing context bucket planned)
    {mutation : FullMutation} : mutation ∈ planning.fullMutations context bucket ↔
      ∃ identity group i, planning.groups.get identity = some group ∧ i < group.postings ∧
        mutation = group.mutation context bucket i := by
  simp only [Planning.fullMutations, List.mem_flatMap, InsertionMap.mem_values]
  constructor
  · rintro ⟨group, ⟨identity, hget⟩, hmem⟩
    rw [Group.mutations_eq (h.placed identity group hget).1] at hmem
    obtain ⟨i, hi, rfl⟩ := List.mem_map.mp hmem
    exact ⟨identity, group, i, hget, List.mem_range.mp hi, rfl⟩
  · rintro ⟨identity, group, i, hget, hi, rfl⟩
    refine ⟨group, ⟨identity, hget⟩, ?_⟩
    rw [Group.mutations_eq (h.placed identity group hget).1]
    exact List.mem_map_of_mem (List.mem_range.mpr hi)

theorem postings_le (h : planning.Sound casing context bucket planned)
    (hget : planning.groups.get identity = some group) :
    group.postings ≤ MAX_EXACT_POSTING_MUTATIONS := by
  have hnonneg : ∀ group : Group, 0 ≤ (number MAX_MATCHES_PER_POSTING group.found.length : Int) :=
    fun group => Int.natCast_nonneg _
  have hle := InsertionMap.le_total hnonneg hget
  rw [← h.counted.postings] at hle
  have hcapped := h.counted.capped
  rw [Group.postings]
  omega

/-- The keys of the postings of a group differ in their segment alone. -/
theorem tupleBytes_postingFields (context : ExactContext) (bucket : Nat) (caseMode term : Text)
    (ordinal i : Nat) :
    KeyEncoding.tupleBytes (postingFields context bucket caseMode term ordinal i) =
      KeyEncoding.tupleBytes (postingFields context bucket caseMode term ordinal 0).dropLast ++
        KeyEncoding.KeyField.word (.number i) := by
  simp [KeyEncoding.tupleBytes, postingFields, List.flatMap_cons, List.append_assoc]

theorem encodable_segment {caseMode term : Text} {ordinal i : Nat}
    (h : KeyEncoding.Encodable (postingFields context bucket caseMode term ordinal 0))
    (hi : (i : Int) ≤ KeyEncoding.MAX_SAFE_INTEGER) :
    KeyEncoding.Encodable (postingFields context bucket caseMode term ordinal i) := by
  refine ⟨List.cons_ne_nil _ _, fun field hfield => ?_, ?_⟩
  · have hsplit : postingFields context bucket caseMode term ordinal i =
        (postingFields context bucket caseMode term ordinal 0).dropLast ++ [.number i] := rfl
    rw [hsplit, List.mem_append, List.mem_singleton] at hfield
    rcases hfield with hfield | rfl
    · exact h.fits field (List.mem_of_mem_dropLast hfield)
    · exact ⟨Int.natCast_nonneg i, hi⟩
  · have hsize := h.size
    rw [tupleBytes_postingFields, List.length_append] at hsize ⊢
    have hword : ∀ n : Nat, (KeyEncoding.KeyField.word (.number n)).length = 9 := fun n => by
      rw [KeyEncoding.KeyField.word, List.length_cons, KeyEncoding.length_bigEndian]
    rw [hword] at hsize ⊢
    exact hsize

theorem encodeKey_mutation (h : planning.Sound casing context bucket planned)
    (hget : planning.groups.get identity = some group) {i : Nat} (hi : i < group.postings) :
    encodeKey (group.mutation context bucket i).key =
      .ok (KeyEncoding.tupleBytes (group.mutation context bucket i).key) := by
  have hat := (h.placed identity group hget).1
  obtain ⟨-, hkey⟩ := postingKey_eq_ok.mp hat.key
  have hencodable := (encodeKey_eq_ok.mp hat.encoded).1
  rw [hkey] at hencodable
  have hle := postings_le h hget
  have hmax : (MAX_EXACT_POSTING_MUTATIONS : Int) ≤ KeyEncoding.MAX_SAFE_INTEGER := by decide
  exact encodeKey_eq_ok.mpr ⟨encodable_segment hencodable (by omega), rfl⟩

theorem exists_encodeKey (h : planning.Sound casing context bucket planned)
    {mutation : FullMutation} (hmem : mutation ∈ planning.fullMutations context bucket) :
    ∃ encoded, encodeKey mutation.key = .ok encoded := by
  obtain ⟨identity, group, i, hget, hi, rfl⟩ := (mem_fullMutations h).mp hmem
  exact ⟨_, encodeKey_mutation h hget hi⟩

/-- No two postings of a plan share a key. -/
theorem eq_of_encodeKey (h : planning.Sound casing context bucket planned)
    {mutation other : FullMutation} (hmem : mutation ∈ planning.fullMutations context bucket)
    (hother : other ∈ planning.fullMutations context bucket) {encoded : List UInt8}
    (hkey : encodeKey mutation.key = .ok encoded) (hkey' : encodeKey other.key = .ok encoded) :
    mutation = other := by
  obtain ⟨identity, group, i, hget, hi, rfl⟩ := (mem_fullMutations h).mp hmem
  obtain ⟨identity', group', i', hget', hi', rfl⟩ := (mem_fullMutations h).mp hother
  have hstored := stored_eq_of_encodeKey hkey hkey'
  have hidentity : identity = identity' := by
    have hat := (h.placed identity group hget).1
    have hat' := (h.placed identity' group' hget').1
    rw [(encodeKey_eq_ok.mp hat.encoded).2, (encodeKey_eq_ok.mp hat'.encoded).2,
      (postingKey_eq_ok.mp hat.key).2, (postingKey_eq_ok.mp hat'.key).2,
      ← KeyEncoding.tupleBytes_stored,
      ← KeyEncoding.tupleBytes_stored (postingFields _ _ group'.caseMode _ _ _)]
    simp only [Group.mutation, postingFields, List.map_cons, List.cons.injEq] at hstored
    simp only [postingFields, List.map_cons, hstored]
  subst hidentity
  rw [hget] at hget'
  obtain rfl := Option.some.inj hget'
  simp only [Group.mutation, postingFields, List.map_cons, List.cons.injEq] at hstored
  have hsegment : i = i' := by
    have hnumber : (KeyField.number i) = .number i' := hstored.2.2.2.2.2.2.2.2.2.1
    exact_mod_cast KeyField.number.inj hnumber
  rw [hsegment]

/-! ## Targets -/

/-- The postings under exact forms, by their keys. -/
def IsCanonical (context : ExactContext) (bucket : Nat) (planning : Planning)
    (target : List UInt8) (mutation : FullMutation) : Prop :=
  mutation ∈ planning.fullMutations context bucket ∧ mutation.payload.caseMode = exactMode ∧
    encodeKey mutation.key = .ok target

variable {canonical : List (List UInt8 × List Match)}
  {target : List UInt8} {found : List Match} {one : Match}

theorem mem_canonicalPostings
    (hcanonical : canonicalPostings (planning.fullMutations context bucket) = .ok canonical) :
    (target, found) ∈ canonical ↔ ∃ mutation, IsCanonical context bucket planning target mutation ∧
      mutation.payload.exactMatches = found := by
  constructor
  · intro hmem
    obtain ⟨mutation, hmutation, hread⟩ := exists_source hcanonical hmem
    obtain ⟨hfull, hmode⟩ := List.mem_filter.mp hmutation
    obtain ⟨encoded, hencoded, hread⟩ := bind_ok_iff.mp hread
    cases hread
    exact ⟨mutation, ⟨hfull, of_decide_eq_true hmode, hencoded⟩, rfl⟩
  · rintro ⟨mutation, ⟨hfull, hmode, hencoded⟩, rfl⟩
    obtain ⟨target', hmem, hread⟩ := exists_image hcanonical
      (List.mem_filter.mpr ⟨hfull, decide_eq_true hmode⟩)
    rw [hencoded] at hread
    cases hread
    exact hmem

theorem mem_exactTargets {identity : Text} :
    target ∈ exactTargets canonical identity ↔
      ∃ found, (target, found) ∈ canonical ∧ ∃ one ∈ found, exactMatchIdentity one = identity := by
  simp only [exactTargets, List.mem_flatMap, List.mem_map, List.mem_filter, decide_eq_true_eq]
  constructor
  · rintro ⟨⟨target, found⟩, hmem, one, ⟨hone, hidentity⟩, rfl⟩
    exact ⟨found, hmem, one, hone, hidentity⟩
  · rintro ⟨found, hmem, one, hone, hidentity⟩
    exact ⟨(target, found), hmem, one, ⟨hone, hidentity⟩, rfl⟩

theorem collect_spec {targets seen : List (List UInt8)} (hseen : seen.Nodup) :
    (targets.foldl collect seen).Nodup ∧
      ∀ target, target ∈ targets.foldl collect seen ↔ target ∈ seen ∨ target ∈ targets := by
  induction targets generalizing seen with
  | nil => exact ⟨hseen, by simp⟩
  | cons first rest ih =>
    rw [List.foldl_cons, collect]
    split
    · rename_i hfirst
      obtain ⟨hnodup, hmem⟩ := ih hseen
      refine ⟨hnodup, fun target => ?_⟩
      rw [hmem, List.mem_cons]
      constructor
      · exact Or.imp_right Or.inr
      · rintro (htarget | rfl | htarget)
        · exact .inl htarget
        · exact .inl hfirst
        · exact .inr htarget
    · rename_i hfirst
      obtain ⟨hnodup, hmem⟩ := ih (List.nodup_append.mpr ⟨hseen, List.nodup_singleton first,
        fun a ha b hb => by rw [List.mem_singleton.mp hb]; rintro rfl; exact hfirst ha⟩)
      refine ⟨hnodup, fun target => ?_⟩
      rw [hmem, List.mem_append, List.mem_singleton, List.mem_cons, or_assoc]

theorem mem_foldedTargets :
    target ∈ foldedTargets canonical found ↔
      ∃ one ∈ found, target ∈ exactTargets canonical (exactMatchIdentity one) := by
  rw [foldedTargets, (collect_spec List.nodup_nil).2]
  simp

theorem exists_posting (group : Group) (hone : one ∈ group.found) :
    ∃ i, i < group.postings ∧ one ∈ segment MAX_MATCHES_PER_POSTING group.sorted i := by
  obtain ⟨s, hs, hones⟩ := Segments.exists_mem_segments max_matches_pos
    ((sorted_perm group).mem_iff.mpr hone)
  obtain ⟨i, hi, rfl⟩ := List.mem_map.mp hs
  refine ⟨i, ?_, hones⟩
  rw [Group.postings, ← (sorted_perm group).length_eq]
  exact List.mem_range.mp hi

/-- What a posting under an exact form lists is listed under its exact form. -/
theorem IsCanonical.mem_canonical {mutation : FullMutation}
    (hcanonical : IsCanonical context bucket planning target mutation)
    (h : planning.Sound casing context bucket planned)
    (hone : one ∈ mutation.payload.exactMatches) : one ∈ planning.canonical := by
  obtain ⟨hmem, hmode, -⟩ := hcanonical
  obtain ⟨identity, group, i, hget, -, rfl⟩ := (mem_fullMutations h).mp hmem
  refine Planning.mem_canonical.mpr ⟨identity, group, hget, hmode, ?_⟩
  exact (sorted_perm group).mem_iff.mp (List.mem_of_mem_drop (List.mem_of_mem_take hone))

theorem exists_target (h : planning.Sound casing context bucket planned)
    (hcanonical : canonicalPostings (planning.fullMutations context bucket) = .ok canonical)
    (hone : one ∈ found) (hcovered : one ∈ planning.canonical) :
    ∃ target ∈ foldedTargets canonical found, ∃ mutation,
      IsCanonical context bucket planning target mutation ∧
        one ∈ mutation.payload.exactMatches := by
  obtain ⟨identity, group, hget, hmode, hmem⟩ := Planning.mem_canonical.mp hcovered
  obtain ⟨i, hi, hones⟩ := exists_posting group hmem
  have hfull : IsCanonical context bucket planning
      (KeyEncoding.tupleBytes (group.mutation context bucket i).key)
      (group.mutation context bucket i) :=
    ⟨(mem_fullMutations h).mpr ⟨identity, group, i, hget, hi, rfl⟩, hmode,
      encodeKey_mutation h hget hi⟩
  refine ⟨_, mem_foldedTargets.mpr ⟨one, hone, mem_exactTargets.mpr ⟨_,
    (mem_canonicalPostings hcanonical).mpr ⟨_, hfull, rfl⟩, one, hones, rfl⟩⟩, _, hfull, hones⟩

/-- Every posting under a folded form lists a match that is listed under its exact form, so its
alias has a target; and the targets are few enough and small enough to be written. -/
theorem encodable_foldedTargets (h : planning.Sound casing context bucket planned)
    (hcanonical : canonicalPostings (planning.fullMutations context bucket) = .ok canonical)
    {mutation : FullMutation} (hmem : mutation ∈ planning.fullMutations context bucket)
    (hmode : mutation.payload.caseMode = foldedMode) :
    Encodable (foldedTargets canonical mutation.payload.exactMatches) := by
  have hsource : ∀ target ∈ foldedTargets canonical mutation.payload.exactMatches,
      ∃ other found, (target, found) ∈ canonical ∧
        IsCanonical context bucket planning target other := by
    intro target htarget
    obtain ⟨one, -, htarget⟩ := mem_foldedTargets.mp htarget
    obtain ⟨found, hfound, -⟩ := mem_exactTargets.mp htarget
    obtain ⟨other, hother, -⟩ := (mem_canonicalPostings hcanonical).mp hfound
    exact ⟨other, found, hfound, hother⟩
  refine ⟨?_, ?_, fun target htarget => ?_⟩
  · obtain ⟨identity, group, i, hget, hi, rfl⟩ := (mem_fullMutations h).mp hmem
    have hroom := h.covered.room identity group hget hmode
    have hcount : group.sorted.countP (fun one => decide (one ∉ planning.canonical)) <
        Segments.lastSize MAX_MATCHES_PER_POSTING group.sorted.length := by
      rw [(sorted_perm group).countP_eq, (sorted_perm group).length_eq]
      exact hroom
    have hsegment : segment MAX_MATCHES_PER_POSTING group.sorted i ∈
        segments MAX_MATCHES_PER_POSTING group.sorted := by
      refine List.mem_map_of_mem (List.mem_range.mpr ?_)
      rw [(sorted_perm group).length_eq]
      exact hi
    obtain ⟨one, hone, hcovered⟩ :=
      Segments.exists_mem_of_countP_lt max_matches_pos hcount hsegment
    obtain ⟨target, htarget, -⟩ := exists_target h hcanonical hone (by simpa using hcovered)
    exact List.ne_nil_of_mem htarget
  · have hnodup : (foldedTargets canonical mutation.payload.exactMatches).Nodup :=
      (collect_spec List.nodup_nil).1
    have hsubset : foldedTargets canonical mutation.payload.exactMatches ⊆
        canonical.map Prod.fst := by
      intro target htarget
      obtain ⟨-, found, hfound, -⟩ := hsource target htarget
      exact List.mem_map_of_mem hfound
    have hle := (List.subperm_of_subset hnodup hsubset).length_le
    have hcapped := h.counted.capped
    have hmax : MAX_EXACT_POSTING_MUTATIONS ≤ Locator.MAX_TARGETS := by decide
    have hfilter : canonical.length ≤ (planning.fullMutations context bucket).length := by
      rw [length_of_mapM hcanonical]
      exact List.length_filter_le _ _
    rw [List.length_map] at hle
    rw [length_fullMutations h] at hfilter
    omega
  · obtain ⟨other, -, -, -, -, hencoded⟩ := hsource target htarget
    obtain ⟨hencodable, rfl⟩ := encodeKey_eq_ok.mp hencoded
    exact ⟨List.cons_ne_nil _ _, hencodable.size⟩

end FullMutations

end ContextStore.Postings
