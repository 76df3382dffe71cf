import ContextStore.Foundation.Outcomes
import ContextStore.Postings.ExactPlan
import ContextStore.Store.KeyOrder

/-! # What is planned for exact values

The plan counts the postings that its groups take (`Counted`). A match under a folded form whose
exact form is left out comes only after the last posting has been started, so such matches are
fewer than the last posting of their group lists (`Covered`). -/

namespace ContextStore.Postings

open Unicode Outcomes
open Concurrent (bind_ok_iff)
open KeyEncoding (KeyField)
open Recall (Window)

variable {casing : Casing} {context : ExactContext} {bucket : Nat}

/-! ## One match more -/

section Admit

variable {planning : Planning} {identity : List UInt8} {fresh : Group} {found : Match}

theorem Planning.enter_cases (planning : Planning) (identity : List UInt8) (fresh : Group)
    (found : Match) :
    (planning.postingMutationCount = MAX_EXACT_POSTING_MUTATIONS ∧
      (planning.enter identity fresh found).groups = planning.groups ∧
      (planning.enter identity fresh found).postingMutationCount =
        planning.postingMutationCount ∧
      (planning.enter identity fresh found).omittedMatches = planning.omittedMatches + 1) ∨
    (((planning.group identity fresh).startsPosting = true →
        planning.postingMutationCount ≠ MAX_EXACT_POSTING_MUTATIONS) ∧
      (planning.enter identity fresh found).groups =
        planning.groups.set identity ((planning.group identity fresh).push found) ∧
      (planning.enter identity fresh found).postingMutationCount =
        planning.postingMutationCount +
          (if (planning.group identity fresh).startsPosting then 1 else 0) ∧
      (planning.enter identity fresh found).omittedMatches = planning.omittedMatches) := by
  rw [Planning.enter]
  split
  · rename_i hstarts
    split
    · rename_i hcap
      exact .inl ⟨hcap, rfl, rfl, rfl⟩
    · rename_i hcap
      exact .inr ⟨fun _ => hcap, rfl, rfl, rfl⟩
  · rename_i hstarts
    exact .inr ⟨fun h => absurd h hstarts, rfl, rfl, rfl⟩

/-- The plan counts its postings and its matches. -/
structure Planning.Counted (planning : Planning) (planned : Nat) : Prop where
  postings : (planning.postingMutationCount : Int) = planning.groups.total fun group =>
    (Segments.number MAX_MATCHES_PER_POSTING group.found.length : Int)
  capped : planning.postingMutationCount ≤ MAX_EXACT_POSTING_MUTATIONS
  matched : planning.groups.total (fun group => (group.found.length : Int)) +
    planning.omittedMatches = planned

theorem Planning.Counted.empty : Planning.empty.Counted 0 :=
  ⟨rfl, Nat.zero_le _, rfl⟩

theorem max_matches_pos : 0 < MAX_MATCHES_PER_POSTING := by decide

theorem startsPosting_iff (group : Group) :
    group.startsPosting = true ↔ group.found.length % MAX_MATCHES_PER_POSTING = 0 :=
  decide_eq_true_iff

theorem amount_group (planning : Planning) (amount : Group → Int) (identity : List UInt8)
    (fresh : Group) (hfresh : amount fresh = 0) :
    ((planning.groups.get identity).map amount).getD 0 =
      amount (planning.group identity fresh) := by
  rw [Planning.group]
  cases planning.groups.get identity with
  | none => exact hfresh.symm
  | some group => rfl

theorem Planning.Counted.enter {planned : Nat} (h : planning.Counted planned)
    (hfresh : fresh.found = []) :
    (planning.enter identity fresh found).Counted (planned + 1) := by
  obtain ⟨hpostings, hcapped, hmatched⟩ := h
  rcases planning.enter_cases identity fresh found with
    ⟨-, hgroups, hcount, homitted⟩ | ⟨hstarts, hgroups, hcount, homitted⟩
  · refine ⟨?_, ?_, ?_⟩
    · rw [hgroups, hcount, hpostings]
    · rwa [hcount]
    · rw [hgroups, homitted]
      push_cast
      omega
  · have hnumber := amount_group planning
      (fun group => (Segments.number MAX_MATCHES_PER_POSTING group.found.length : Int)) identity
      fresh (by simp [hfresh, max_matches_pos])
    have hlength := amount_group planning (fun group => (group.found.length : Int)) identity
      fresh (by simp [hfresh])
    have hnext : ((planning.group identity fresh).push found).found.length =
        (planning.group identity fresh).found.length + 1 := List.length_append
    have hsucc := Segments.number_succ max_matches_pos
      (planning.group identity fresh).found.length
    have hif : (if (planning.group identity fresh).startsPosting then 1 else 0) =
        (if (planning.group identity fresh).found.length % MAX_MATCHES_PER_POSTING = 0
          then 1 else 0) := by
      simp only [startsPosting_iff]
    refine ⟨?_, ?_, ?_⟩
    · rw [hgroups, InsertionMap.total_set, hnumber, hnext, hsucc, hcount, hif]
      push_cast
      omega
    · rw [hcount]
      split
      · rename_i h
        have := hstarts h
        omega
      · exact hcapped
    · rw [hgroups, InsertionMap.total_set, hlength, hnext, homitted]
      push_cast
      omega

theorem Planning.get_enter_of_ne {other : List UInt8} (hne : other ≠ identity) :
    (planning.enter identity fresh found).groups.get other = planning.groups.get other := by
  rcases planning.enter_cases identity fresh found with ⟨-, hgroups, -⟩ | ⟨-, hgroups, -⟩
  · rw [hgroups]
  · rw [hgroups, InsertionMap.get_set_of_ne _ _ hne]

/-! ## Matches under an exact form -/

/-- The matches that are listed under an exact form. -/
def Planning.canonical (planning : Planning) : List Match :=
  (planning.groups.values.filter fun group => group.caseMode = exactMode).flatMap Group.found

theorem Planning.mem_canonical {one : Match} : one ∈ planning.canonical ↔
    ∃ identity group, planning.groups.get identity = some group ∧
      group.caseMode = exactMode ∧ one ∈ group.found := by
  simp only [Planning.canonical, List.mem_flatMap, List.mem_filter, InsertionMap.mem_values,
    decide_eq_true_eq]
  constructor
  · rintro ⟨group, ⟨⟨identity, hget⟩, hmode⟩, hone⟩
    exact ⟨identity, group, hget, hmode, hone⟩
  · rintro ⟨identity, group, hget, hmode, hone⟩
    exact ⟨group, ⟨⟨identity, hget⟩, hmode⟩, hone⟩

/-- How many matches of the group are not listed under their exact form? -/
def Group.uncovered (canonical : List Match) (group : Group) : Nat :=
  group.found.countP fun one => decide (one ∉ canonical)

theorem uncovered_mono {before after : List Match} (h : ∀ one ∈ before, one ∈ after)
    (group : Group) : group.uncovered after ≤ group.uncovered before := by
  refine List.countP_mono_left fun one _ hone => ?_
  simp only [decide_eq_true_eq] at hone ⊢
  exact fun hmem => hone (h one hmem)

theorem uncovered_push_le (canonical : List Match) (group : Group) (one : Match) :
    (group.push one).uncovered canonical ≤ group.uncovered canonical + 1 := by
  rw [Group.uncovered, Group.push, List.countP_append, List.countP_singleton]
  split
  · exact Nat.le_refl _
  · exact Nat.le_succ _

theorem uncovered_eq_zero {canonical : List Match} {group : Group} :
    group.uncovered canonical = 0 ↔ ∀ one ∈ group.found, one ∈ canonical := by
  simp [Group.uncovered, List.countP_eq_zero]

/-- How many matches does the last posting of the group list? -/
def Group.lastSize (group : Group) : Nat :=
  Segments.lastSize MAX_MATCHES_PER_POSTING group.found.length

/-- As long as a posting can be started, every match is listed under its exact form; and in every
group the matches that are not are fewer than its last posting lists. -/
structure Planning.Covered (planning : Planning) : Prop where
  all : planning.postingMutationCount < MAX_EXACT_POSTING_MUTATIONS →
    ∀ identity group, planning.groups.get identity = some group →
      group.caseMode = foldedMode → group.uncovered planning.canonical = 0
  room : ∀ identity group, planning.groups.get identity = some group →
    group.caseMode = foldedMode → group.uncovered planning.canonical < group.lastSize

theorem Planning.Covered.empty : Planning.empty.Covered := by
  constructor
  · intro _ identity group hget
    cases hget
  · intro identity group hget
    cases hget

theorem exactMode_ne_foldedMode : exactMode ≠ foldedMode := by decide

theorem Planning.count_le_enter (planning : Planning) (identity : List UInt8) (fresh : Group)
    (found : Match) : planning.postingMutationCount ≤
      (planning.enter identity fresh found).postingMutationCount := by
  rcases planning.enter_cases identity fresh found with ⟨-, -, hcount, -⟩ | ⟨-, -, hcount, -⟩
  · rw [hcount]
  · rw [hcount]
    exact Nat.le_add_right _ _

/-- The group under an identity is of the mode of what is pushed to it. -/
def Planning.Agrees (planning : Planning) (identity : List UInt8) (fresh : Group) : Prop :=
  fresh.found = [] ∧
    ∀ group, planning.groups.get identity = some group → group.caseMode = fresh.caseMode

theorem Planning.Agrees.caseMode_group (h : planning.Agrees identity fresh) :
    (planning.group identity fresh).caseMode = fresh.caseMode := by
  rw [Planning.group]
  cases hget : planning.groups.get identity with
  | none => rfl
  | some group => exact h.2 group hget

/-- Groups lose nothing. -/
theorem Planning.canonical_subset_enter (h : planning.Agrees identity fresh) (found : Match) :
    ∀ one ∈ planning.canonical, one ∈ (planning.enter identity fresh found).canonical := by
  intro one hone
  rw [Planning.mem_canonical] at hone ⊢
  obtain ⟨other, group, hget, hmode, hmem⟩ := hone
  by_cases hother : other = identity
  · subst hother
    have hgroup : planning.group other fresh = group := by rw [Planning.group, hget]; rfl
    rcases planning.enter_cases other fresh found with ⟨-, hgroups, -⟩ | ⟨-, hgroups, -⟩
    · exact ⟨other, group, by rw [hgroups, hget], hmode, hmem⟩
    · refine ⟨other, group.push found, ?_, hmode, List.mem_append_left _ hmem⟩
      rw [hgroups, hgroup, InsertionMap.get_set_self]
  · exact ⟨other, group, by rw [Planning.get_enter_of_ne hother, hget], hmode, hmem⟩

/-- Under its exact form a match is left out only when no posting can be started any more. -/
theorem Planning.mem_canonical_enter (h : planning.Agrees identity fresh)
    (hmode : fresh.caseMode = exactMode)
    (hcount : (planning.enter identity fresh found).postingMutationCount <
      MAX_EXACT_POSTING_MUTATIONS) :
    found ∈ (planning.enter identity fresh found).canonical := by
  rcases planning.enter_cases identity fresh found with
    ⟨hcap, -, hsame, -⟩ | ⟨-, hgroups, -⟩
  · rw [hsame, hcap] at hcount
    exact absurd hcount (Nat.lt_irrefl _)
  · refine Planning.mem_canonical.mpr ⟨identity, (planning.group identity fresh).push found, ?_,
      h.caseMode_group.trans hmode, List.mem_append_right _ List.mem_cons_self⟩
    rw [hgroups, InsertionMap.get_set_self]

/-- A match under its exact form leaves the groups of the folded forms as they are. -/
theorem Planning.Covered.enter_exact (h : planning.Covered)
    (hagrees : planning.Agrees identity fresh) (hmode : fresh.caseMode = exactMode) :
    (planning.enter identity fresh found).Covered := by
  have hfolded : ∀ other group,
      (planning.enter identity fresh found).groups.get other = some group →
        group.caseMode = foldedMode → planning.groups.get other = some group := by
    intro other group hget hgroup
    by_cases hother : other = identity
    · subst hother
      rcases planning.enter_cases other fresh found with ⟨-, hgroups, -⟩ | ⟨-, hgroups, -⟩
      · rwa [hgroups] at hget
      · rw [hgroups, InsertionMap.get_set_self] at hget
        cases hget
        rw [Group.push, hagrees.caseMode_group, hmode] at hgroup
        exact absurd hgroup exactMode_ne_foldedMode
    · rwa [Planning.get_enter_of_ne hother] at hget
  have hmono := Planning.canonical_subset_enter hagrees found
  constructor
  · intro hcount other group hget hgroup
    have hbefore := h.all (Nat.lt_of_le_of_lt (planning.count_le_enter identity fresh found) hcount)
      other group (hfolded other group hget hgroup) hgroup
    exact Nat.le_zero.mp (hbefore ▸ uncovered_mono hmono group)
  · intro other group hget hgroup
    exact Nat.lt_of_le_of_lt (uncovered_mono hmono group)
      (h.room other group (hfolded other group hget hgroup) hgroup)

/-- A match under its folded form may be one that is not listed under its exact form only where it
makes the last posting of its group longer. -/
theorem Planning.Covered.enter_folded (h : planning.Covered)
    (hagrees : planning.Agrees identity fresh)
    (hmode : fresh.caseMode = foldedMode)
    (hfound : planning.postingMutationCount < MAX_EXACT_POSTING_MUTATIONS →
      found ∈ planning.canonical)
    (hcapped : planning.postingMutationCount ≤ MAX_EXACT_POSTING_MUTATIONS) :
    (planning.enter identity fresh found).Covered := by
  have hmono := Planning.canonical_subset_enter hagrees found
  have hcount := planning.count_le_enter identity fresh found
  -- what the group that is pushed to has not covered yet
  have hbefore : planning.postingMutationCount < MAX_EXACT_POSTING_MUTATIONS →
      (planning.group identity fresh).uncovered planning.canonical = 0 := by
    intro hlt
    rw [Planning.group]
    cases hget : planning.groups.get identity with
    | none => rw [Option.getD_none, uncovered_eq_zero, hagrees.1]; simp
    | some group => exact h.all hlt identity group hget ((hagrees.2 group hget).trans hmode)
  have hpushed : planning.postingMutationCount < MAX_EXACT_POSTING_MUTATIONS →
      ((planning.group identity fresh).push found).uncovered
        (planning.enter identity fresh found).canonical = 0 := by
    intro hlt
    rw [uncovered_eq_zero]
    intro one hone
    rcases List.mem_append.mp hone with hone | hone
    · exact hmono one (uncovered_eq_zero.mp (hbefore hlt) one hone)
    · rw [List.mem_singleton.mp hone]
      exact hmono found (hfound hlt)
  have hroom : (planning.group identity fresh).startsPosting = false →
      (planning.group identity fresh).uncovered planning.canonical <
        (planning.group identity fresh).lastSize := by
    intro hstarts
    rw [Planning.group] at hstarts ⊢
    cases hget : planning.groups.get identity with
    | none =>
      rw [hget, Option.getD_none, Group.startsPosting, hagrees.1] at hstarts
      cases hstarts
    | some group => exact h.room identity group hget ((hagrees.2 group hget).trans hmode)
  constructor
  · intro hlt other group hget hgroup
    have hless := Nat.lt_of_le_of_lt hcount hlt
    by_cases hother : other = identity
    · subst hother
      rcases planning.enter_cases other fresh found with ⟨hcap, -, -, -⟩ | ⟨-, hgroups, -⟩
      · omega
      · rw [hgroups, InsertionMap.get_set_self] at hget
        cases hget
        exact hpushed hless
    · rw [Planning.get_enter_of_ne hother] at hget
      exact Nat.le_zero.mp (h.all hless other group hget hgroup ▸ uncovered_mono hmono group)
  · intro other group hget hgroup
    by_cases hother : other = identity
    · subst hother
      rcases planning.enter_cases other fresh found with
        ⟨-, hgroups, -⟩ | ⟨hstarts, hgroups, -⟩
      · rw [hgroups] at hget
        exact Nat.lt_of_le_of_lt (uncovered_mono hmono group) (h.room other group hget hgroup)
      · rw [hgroups, InsertionMap.get_set_self] at hget
        cases hget
        cases hcase : (planning.group other fresh).startsPosting with
        | true =>
          rw [hpushed (Nat.lt_of_le_of_ne hcapped (hstarts hcase))]
          exact Segments.lastSize_pos _
        | false =>
          have hmod : (planning.group other fresh).found.length % MAX_MATCHES_PER_POSTING ≠ 0 :=
            fun hzero => by rw [(startsPosting_iff _).mpr hzero] at hcase; cases hcase
          have hlast : ((planning.group other fresh).push found).lastSize =
              (planning.group other fresh).lastSize + 1 := by
            rw [Group.lastSize, Group.push, List.length_append, List.length_singleton,
              Segments.lastSize_succ max_matches_pos hmod]
            rfl
          have hle := uncovered_mono hmono ((planning.group other fresh).push found)
          have hpush := uncovered_push_le planning.canonical (planning.group other fresh) found
          have hbound := hroom hcase
          omega
    · rw [Planning.get_enter_of_ne hother] at hget
      exact Nat.lt_of_le_of_lt (uncovered_mono hmono group) (h.room other group hget hgroup)

end Admit

/-! ## Keys of groups -/

/-- The key under which the first posting of a group is stored. -/
def postingKey (context : ExactContext) (bucket : Nat) (caseMode term : Text) (ordinal : Nat) :
    Except IndexError (List KeyField) :=
  exactKeys.posting context.manifest.project caseMode term bucket context.manifest.documentId
    context.manifest.version context.generation ordinal 0

def postingFields (context : ExactContext) (bucket : Nat) (caseMode term : Text)
    (ordinal segment : Nat) : List KeyField :=
  [.string (text "exact"), .string context.manifest.project, .string caseMode, .string term,
    .number bucket, .string context.manifest.documentId, .number context.manifest.version,
    .number context.generation, .number ordinal, .number segment]

variable {label : String} {value checked : Nat}

theorem identifier_eq_ok {value checked : Text} :
    identifier value label = .ok checked ↔ checked = value ∧ value ≠ [] := by
  rw [identifier]
  split
  · rename_i h
    simp [h]
  · rename_i h
    simp [h, eq_comm]

theorem positiveInteger_eq_ok :
    positiveInteger value label = .ok checked ↔
      checked = value ∧ 0 < value ∧ (value : Int) ≤ KeyEncoding.MAX_SAFE_INTEGER := by
  rw [positiveInteger]
  split
  · rename_i h
    simp only [reduceCtorEq, false_iff]
    rintro ⟨-, hpos, hle⟩
    omega
  · rename_i h
    simp only [Except.ok.injEq]
    constructor
    · rintro rfl
      exact ⟨rfl, by omega, by omega⟩
    · exact fun h => h.1.symm

theorem nonNegativeInteger_eq_ok :
    nonNegativeInteger value label = .ok checked ↔
      checked = value ∧ (value : Int) ≤ KeyEncoding.MAX_SAFE_INTEGER := by
  rw [nonNegativeInteger]
  split
  · rename_i h
    simp only [reduceCtorEq, false_iff]
    rintro ⟨-, hle⟩
    omega
  · rename_i h
    simp only [Except.ok.injEq]
    constructor
    · rintro rfl
      exact ⟨rfl, by omega⟩
    · exact fun h => h.1.symm

/-- What the checks of a key let through. -/
structure KeyChecked (context : ExactContext) (bucket : Nat) (caseMode term : Text)
    (ordinal : Nat) : Prop where
  project : context.manifest.project ≠ []
  caseMode : caseMode ≠ []
  term : term ≠ []
  bucket : (bucket : Int) ≤ KeyEncoding.MAX_SAFE_INTEGER
  documentId : context.manifest.documentId ≠ []
  version_pos : 0 < context.manifest.version
  version : (context.manifest.version : Int) ≤ KeyEncoding.MAX_SAFE_INTEGER
  generation_pos : 0 < context.generation
  generation : (context.generation : Int) ≤ KeyEncoding.MAX_SAFE_INTEGER
  ordinal : (ordinal : Int) ≤ KeyEncoding.MAX_SAFE_INTEGER

variable {caseMode term : Text} {ordinal : Nat} {key : List KeyField}

theorem postingKey_eq_ok : postingKey context bucket caseMode term ordinal = .ok key ↔
    KeyChecked context bucket caseMode term ordinal ∧
      key = postingFields context bucket caseMode term ordinal 0 := by
  simp only [postingKey, exactKeys.posting, bind_ok_iff, identifier_eq_ok,
    positiveInteger_eq_ok, nonNegativeInteger_eq_ok]
  constructor
  · rintro ⟨_, ⟨rfl, hproject⟩, _, ⟨rfl, hmode⟩, _, ⟨rfl, hterm⟩, _, ⟨rfl, hbucket⟩, _,
      ⟨rfl, hdocument⟩, _, ⟨rfl, hversion⟩, _, ⟨rfl, hgeneration⟩, _, ⟨rfl, hordinal⟩, _,
      ⟨rfl, -⟩, hkey⟩
    cases hkey
    exact ⟨⟨hproject, hmode, hterm, hbucket, hdocument, hversion.1, hversion.2, hgeneration.1,
      hgeneration.2, hordinal⟩, rfl⟩
  · rintro ⟨h, rfl⟩
    exact ⟨_, ⟨rfl, h.project⟩, _, ⟨rfl, h.caseMode⟩, _, ⟨rfl, h.term⟩, _, ⟨rfl, h.bucket⟩, _,
      ⟨rfl, h.documentId⟩, _, ⟨rfl, h.version_pos, h.version⟩, _,
      ⟨rfl, h.generation_pos, h.generation⟩, _, ⟨rfl, h.ordinal⟩, _, ⟨rfl, by decide⟩, rfl⟩

variable {encoded : List UInt8}

theorem encodeKey_eq_ok : encodeKey key = .ok encoded ↔
    KeyEncoding.Encodable key ∧ encoded = KeyEncoding.tupleBytes key := by
  rw [encodeKey, failsAs_eq_ok, KeyEncoding.encodeKey_eq_ok_iff]

/-- Keys of equal bytes have equal fields, up to what is stored of their texts. -/
theorem stored_eq_of_encodeKey {other : List KeyField} (h : encodeKey key = .ok encoded)
    (hother : encodeKey other = .ok encoded) :
    key.map KeyEncoding.KeyField.stored = other.map KeyEncoding.KeyField.stored := by
  obtain ⟨hencodable, hbytes⟩ := encodeKey_eq_ok.mp h
  obtain ⟨hothers, hsame⟩ := encodeKey_eq_ok.mp hother
  have hread := KeyEncoding.decodeKey_encoded hencodable
  rw [← hbytes, hsame, KeyEncoding.decodeKey_encoded hothers] at hread
  exact (Except.ok.inj hread).symm

/-- The form under which a match is listed. -/
def formOf (casing : Casing) (caseMode : Text) (one : Match) : Text :=
  normalizeExactValue casing one.value (caseMode = foldedMode || !caseSensitive one.type)

/-- A group stands under the key of its form, and so would the form of each of its matches. -/
structure Group.At (casing : Casing) (context : ExactContext) (bucket : Nat)
    (identity : List UInt8) (group : Group) : Prop where
  key : postingKey context bucket group.caseMode group.term group.window.ordinal = .ok group.key
  encoded : encodeKey group.key = .ok identity
  mode : group.caseMode = exactMode ∨ group.caseMode = foldedMode
  forms : ∀ one ∈ group.found, ∃ ordinal key,
    postingKey context bucket group.caseMode (formOf casing group.caseMode one) ordinal = .ok key ∧
      encodeKey key = .ok identity

def Planning.Placed (casing : Casing) (context : ExactContext) (bucket : Nat)
    (planning : Planning) : Prop :=
  ∀ identity group, planning.groups.get identity = some group →
    group.At casing context bucket identity ∧ group.found ≠ []

theorem Planning.Placed.empty : Planning.empty.Placed casing context bucket := by
  intro identity group hget
  cases hget

theorem Group.At.push {identity : List UInt8} {group : Group}
    (h : group.At casing context bucket identity) {found : Match}
    (hfound : ∃ ordinal key, postingKey context bucket group.caseMode
      (formOf casing group.caseMode found) ordinal = .ok key ∧ encodeKey key = .ok identity) :
    (group.push found).At casing context bucket identity where
  key := h.key
  encoded := h.encoded
  mode := h.mode
  forms := by
    intro one hone
    rcases List.mem_append.mp hone with hone | hone
    · exact h.forms one hone
    · rw [List.mem_singleton.mp hone]
      exact hfound

theorem caseMode_eq_of_encodeKey {caseMode' term' : Text} {ordinal' : Nat} {key' : List KeyField}
    (hmode : caseMode = exactMode ∨ caseMode = foldedMode)
    (hmode' : caseMode' = exactMode ∨ caseMode' = foldedMode)
    (hkey : postingKey context bucket caseMode term ordinal = .ok key)
    (hkey' : postingKey context bucket caseMode' term' ordinal' = .ok key')
    (h : encodeKey key = .ok encoded) (h' : encodeKey key' = .ok encoded) :
    caseMode = caseMode' := by
  have hstored := stored_eq_of_encodeKey h h'
  obtain ⟨-, rfl⟩ := postingKey_eq_ok.mp hkey
  obtain ⟨-, rfl⟩ := postingKey_eq_ok.mp hkey'
  simp only [postingFields, List.map_cons, List.cons.injEq] at hstored
  obtain ⟨-, -, hsame, -⟩ := hstored
  have hne : KeyEncoding.KeyField.stored (.string exactMode) ≠
      KeyEncoding.KeyField.stored (.string foldedMode) := by decide
  rcases hmode with rfl | rfl
  · rcases hmode' with rfl | rfl
    · rfl
    · exact absurd hsame hne
  · rcases hmode' with rfl | rfl
    · exact absurd hsame.symm hne
    · rfl

/-! ## The loop -/

section Loop

variable {planning next : Planning} {identity : List UInt8} {window : Window} {found : Match}
  {mode : Mode} {anchor : Anchor}

/-- What a group is created as. -/
def freshGroup (key : List KeyField) (mode : Mode) (window : Window) : Group :=
  ⟨key, mode.caseMode, mode.term, window, []⟩

theorem planMode_eq_ok (h : planMode context bucket window found planning mode = .ok next) :
    ∃ key identity, postingKey context bucket mode.caseMode mode.term window.ordinal = .ok key ∧
      encodeKey key = .ok identity ∧
      next = planning.enter identity (freshGroup key mode window) found := by
  simp only [planMode, bind_ok_iff] at h
  obtain ⟨key, hkey, identity, hidentity, h⟩ := h
  cases h
  exact ⟨key, identity, hkey, hidentity, rfl⟩

section Pushed

variable (h : planning.Placed casing context bucket)
  (hmode : mode.caseMode = exactMode ∨ mode.caseMode = foldedMode)
  (hkey : postingKey context bucket mode.caseMode mode.term window.ordinal = .ok key)
  (hidentity : encodeKey key = .ok identity)

include h hmode hkey hidentity

theorem Planning.Placed.agrees : planning.Agrees identity (freshGroup key mode window) := by
  refine ⟨rfl, fun group hget => ?_⟩
  have hat := (h identity group hget).1
  exact caseMode_eq_of_encodeKey hat.mode hmode hat.key hkey hat.encoded hidentity

theorem Planning.Placed.group_at :
    (planning.group identity (freshGroup key mode window)).At casing context bucket identity := by
  rw [Planning.group]
  cases hget : planning.groups.get identity with
  | none =>
    refine ⟨hkey, hidentity, hmode, fun one hone => ?_⟩
    cases hone
  | some group => exact (h identity group hget).1

theorem Planning.Placed.enter (hform : formOf casing mode.caseMode found = mode.term) :
    (planning.enter identity (freshGroup key mode window) found).Placed casing context bucket := by
  intro other group hget
  rcases planning.enter_cases identity (freshGroup key mode window) found with
    ⟨-, hgroups, -⟩ | ⟨-, hgroups, -⟩
  · rw [hgroups] at hget
    exact h other group hget
  · rw [hgroups, InsertionMap.get_set] at hget
    split at hget
    · rename_i hother
      cases hget
      rw [hother]
      refine ⟨(h.group_at hmode hkey hidentity).push ?_, List.append_ne_nil_of_right_ne_nil _
        (List.cons_ne_nil _ _)⟩
      rw [(h.agrees hmode hkey hidentity).caseMode_group]
      refine ⟨window.ordinal, key, ?_, hidentity⟩
      rw [freshGroup, hform]
      exact hkey
    · exact h other group hget

end Pushed

/-- What the plan keeps to while it is made. -/
structure Planning.Sound (casing : Casing) (context : ExactContext) (bucket : Nat)
    (planning : Planning) (planned : Nat) : Prop where
  counted : planning.Counted planned
  covered : planning.Covered
  placed : planning.Placed casing context bucket

theorem Planning.Sound.empty : Planning.empty.Sound casing context bucket 0 :=
  ⟨.empty, .empty, .empty⟩

variable {planned : Nat}

theorem Planning.Sound.exact (h : planning.Sound casing context bucket planned)
    (hform : formOf casing exactMode found = term)
    (hok : planMode context bucket window found planning ⟨exactMode, term⟩ = .ok next) :
    next.Sound casing context bucket (planned + 1) ∧
      (next.postingMutationCount < MAX_EXACT_POSTING_MUTATIONS → found ∈ next.canonical) := by
  obtain ⟨key, identity, hkey, hidentity, rfl⟩ := planMode_eq_ok hok
  have hmode : (⟨exactMode, term⟩ : Mode).caseMode = exactMode ∨
      (⟨exactMode, term⟩ : Mode).caseMode = foldedMode := .inl rfl
  have hagrees := h.placed.agrees hmode hkey hidentity
  exact ⟨⟨h.counted.enter rfl, h.covered.enter_exact hagrees rfl,
    h.placed.enter hmode hkey hidentity hform⟩, Planning.mem_canonical_enter hagrees rfl⟩

theorem Planning.Sound.folded (h : planning.Sound casing context bucket planned)
    (hform : formOf casing foldedMode found = term)
    (hfound : planning.postingMutationCount < MAX_EXACT_POSTING_MUTATIONS →
      found ∈ planning.canonical)
    (hok : planMode context bucket window found planning ⟨foldedMode, term⟩ = .ok next) :
    next.Sound casing context bucket (planned + 1) := by
  obtain ⟨key, identity, hkey, hidentity, rfl⟩ := planMode_eq_ok hok
  have hmode : (⟨foldedMode, term⟩ : Mode).caseMode = exactMode ∨
      (⟨foldedMode, term⟩ : Mode).caseMode = foldedMode := .inr rfl
  have hagrees := h.placed.agrees hmode hkey hidentity
  exact ⟨h.counted.enter rfl, h.covered.enter_folded hagrees rfl hfound h.counted.capped,
    h.placed.enter hmode hkey hidentity hform⟩

/-- A round of the loop plans the match once for every form. -/
theorem Planning.Sound.planAnchor (h : planning.Sound casing context bucket planned)
    (hok : planAnchor casing context bucket planning anchor = .ok next) :
    next.Sound casing context bucket (planned + (anchor.modes casing).length) := by
  rw [Postings.planAnchor] at hok
  obtain ⟨window, -, hok⟩ := bind_ok_iff.mp hok
  cases window with
  | none => cases hok
  | some window =>
    have hfolded : formOf casing foldedMode anchor.found = anchor.folded casing := rfl
    have hexact : formOf casing exactMode anchor.found = anchor.normalized casing := by
      have hne : decide (exactMode = foldedMode) = false := by decide
      rw [formOf, hne]
      rfl
    simp only [Anchor.modes, List.foldlM_cons] at hok ⊢
    obtain ⟨between, hbetween, hok⟩ := bind_ok_iff.mp hok
    obtain ⟨hsound, hfound⟩ := h.exact hexact hbetween
    split at hok
    · rename_i hsensitive
      rw [List.foldlM_cons] at hok
      obtain ⟨last, hlast, hok⟩ := bind_ok_iff.mp hok
      cases hok
      rw [if_pos hsensitive]
      exact hsound.folded hfolded hfound hlast
    · rename_i hsensitive
      cases hok
      rw [if_neg hsensitive]
      exact hsound

def plannedMatches (casing : Casing) (anchors : List Anchor) : Nat :=
  (anchors.map fun anchor => (anchor.modes casing).length).sum

theorem planGroups_sound {anchors : List Anchor}
    (hok : planGroups casing context bucket anchors = .ok planning) :
    planning.Sound casing context bucket (plannedMatches casing anchors) := by
  have hround : ∀ (done : List Anchor) (anchor : Anchor) (planning next : Planning),
      planning.Sound casing context bucket (plannedMatches casing done) →
      planAnchor casing context bucket planning anchor = .ok next →
      next.Sound casing context bucket (plannedMatches casing (done ++ [anchor])) := by
    intro done anchor planning next hinv hstep
    have hnext := hinv.planAnchor hstep
    rwa [plannedMatches, List.map_append, List.sum_append, List.map_singleton, List.sum_singleton]
  have hempty : Planning.empty.Sound casing context bucket (plannedMatches casing []) := .empty
  have hloop := foldlM_invariant _ hround hempty hok
  have hperm : (rankedAnchors anchors).Perm anchors := List.mergeSort_perm _ _
  have hsum : plannedMatches casing (rankedAnchors anchors) = plannedMatches casing anchors :=
    (hperm.map _).sum_eq
  rwa [List.nil_append, hsum] at hloop

end Loop

end ContextStore.Postings
