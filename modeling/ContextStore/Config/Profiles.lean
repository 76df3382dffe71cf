import ContextStore.Config.Glob
import ContextStore.Foundation.InsertionMap
import Mathlib.Data.List.MinMax
import Mathlib.Data.Rat.Cast.Order

/-! # Profiles for models

The layers of a configuration declare profiles under patterns, and patterns that differ in case
only are the same. What the layers say about a pattern is put together field by field, and stands
where the pattern was declared last (`entries_foldl_redeclare`); the place decides between patterns
that say equally much about a model. -/

namespace ContextStore.Config

/-- The fields of a profile. -/
inductive ProfileKey
  | rotationContextRatio
  | hardLimitContextRatio
  | rotationTurns

/-- The fields that a profile sets. -/
abbrev ModelProfile : Type := ProfileKey → Option ℚ

/-- A pattern with what is declared for it. -/
abbrev Declaration (κ : Type) : Type := List κ × ModelProfile

def ModelProfile.isEmpty (profile : ModelProfile) : Bool :=
  (profile .rotationContextRatio).isNone && (profile .hardLimitContextRatio).isNone &&
    (profile .rotationTurns).isNone

/-- `{ ...previousProfile, ...profile }` -/
def ModelProfile.over (profile previousProfile : ModelProfile) : ModelProfile :=
  fun key => (profile key).or (previousProfile key)

def parsePositiveRatio (parsed : Option ℚ) : Option ℚ := parsed.filter fun p => 0 < p ∧ p ≤ 1

def parsePositiveInteger (parsed : Option ℚ) : Option ℚ :=
  parsed.filter fun p => p.den = 1 ∧ p ≤ 9007199254740991 ∧ 0 < p

/-- The check of a field. -/
def ProfileKey.parse : ProfileKey → Option ℚ → Option ℚ
  | .rotationContextRatio => parsePositiveRatio
  | .hardLimitContextRatio => parsePositiveRatio
  | .rotationTurns => parsePositiveInteger

-- a character is a unit or a pair of them; `number` is `Number`, without what is not finite
variable {κ β ν : Type} [DecidableEq κ] [DecidableEq β] (star slash : κ) (units : κ → Nat)
  (caseFold : κ → β) (lower : List κ → List κ) (number : ν → Option ℚ)

/-- What a layer has under `models`: nothing but an object counts, and nothing but objects in it. -/
abbrev LayerModels (κ ν : Type) : Type :=
  Option (InsertionMap (List κ) (Option (ProfileKey → ν)))

def normalizeModelProfiles (value : LayerModels κ ν) : InsertionMap (List κ) ModelProfile :=
  match value with
  | none => .empty
  | some value => value.entries.foldl (fun profiles entry =>
      match entry.2 with
      | none => profiles
      | some candidate =>
        if slash ∈ entry.1 then profiles.set entry.1 fun key => key.parse (number (candidate key))
        else profiles) .empty

/-- The loop of `mergeModelProfiles` for one declaration. -/
def redeclare (merged : InsertionMap (List κ) ModelProfile) (entry : Declaration κ) :
    InsertionMap (List κ) ModelProfile :=
  match (merged.entries.map Prod.fst).find? fun candidate =>
      lower candidate = lower entry.1 with
  | none =>
    if entry.2.isEmpty then merged else merged.set entry.1 (entry.2.over fun _ => none)
  | some previousPattern =>
    (merged.delete previousPattern).set entry.1
      (entry.2.over ((merged.get previousPattern).getD fun _ => none))

def mergeModelProfiles (lowerProfiles higherProfiles : InsertionMap (List κ) ModelProfile) :
    InsertionMap (List κ) ModelProfile :=
  higherProfiles.entries.foldl (redeclare lower) lowerProfiles

/-- The loop of `loadConfig` over the layers. -/
def layeredProfiles (layers : List (LayerModels κ ν)) : InsertionMap (List κ) ModelProfile :=
  layers.foldl (fun models layer =>
    mergeModelProfiles lower models (normalizeModelProfiles slash number layer)) .empty

/-- `pattern.replaceAll("*", "").length` -/
def specificity (pattern : List κ) : Nat := ((pattern.filter (· ≠ star)).map units).sum

/-- The loop of `findModelProfile` for one profile. -/
def better (value : List κ) (best : Option (Declaration κ) × Int)
    (entry : Declaration κ) : Option (Declaration κ) × Int :=
  if globMatches star caseFold entry.1 value = true ∧ best.2 ≤ specificity star units entry.1 then
    (some entry, specificity star units entry.1)
  else best

/-- The profile with its pattern; a missing provider or id counts as an empty one. -/
def findModelProfile (models : List (Declaration κ)) (provider id : List κ) :
    Option (Declaration κ) :=
  if provider = [] ∨ id = [] then none
  else (models.foldl (better star units caseFold (provider ++ slash :: id)) (none, -1)).1

/-- What `resolveModelConfig` reads of a configuration. -/
structure ModelConfig (κ ν : Type) where
  models : List (Declaration κ)
  environmentOverrides : ProfileKey → Bool
  base : ProfileKey → ν
  retainTurns : ν

structure ResolvedConfig (κ : Type) where
  rotationContextRatio : ℚ
  hardLimitContextRatio : ℚ
  rotationTurns : ℚ
  pattern : Option (List κ)

/-- `DEFAULT_CONFIG` -/
def ProfileKey.default : ProfileKey → ℚ
  | .rotationContextRatio => 13 / 20
  | .hardLimitContextRatio => 4 / 5
  | .rotationTurns => 20

def retainTurns (config : ModelConfig κ ν) : ℚ :=
  (parsePositiveInteger (number config.retainTurns)).getD 5

/-- What the resolution makes of a field. -/
def resolvedValue (config : ModelConfig κ ν) (profile : Option (Declaration κ))
    (key : ProfileKey) : ℚ :=
  let base := number (config.base key)
  let value := if config.environmentOverrides key then base
    else ((profile.bind fun best => best.2 key).map some).getD base
  (key.parse value).getD key.default

def resolveModelConfig (config : ModelConfig κ ν) (provider id : List κ) : ResolvedConfig κ :=
  let profile := findModelProfile star slash units caseFold config.models provider id
  { rotationContextRatio := resolvedValue number config profile .rotationContextRatio
    hardLimitContextRatio := resolvedValue number config profile .hardLimitContextRatio
    rotationTurns := max (retainTurns number config + 1)
      (resolvedValue number config profile .rotationTurns)
    pattern := profile.map Prod.fst }

/-! ## What the layers say -/

/-- The declarations of all layers, the lowest first. -/
def declarations (layers : List (LayerModels κ ν)) : List (Declaration κ) :=
  layers.flatMap fun layer => (normalizeModelProfiles slash number layer).entries

/-- Each field as the last declaration of the pattern has it that sets it. -/
def combined (declared : List (Declaration κ)) (identity : List κ) : ModelProfile := fun key =>
  ((declared.filter fun entry => lower entry.1 = identity).filterMap
    fun entry => entry.2 key).getLast?

/-- The declarations whose pattern is not declared again. -/
def lastDeclarations : List (Declaration κ) → List (Declaration κ)
  | [] => []
  | entry :: rest =>
    if ∃ later ∈ rest, lower later.1 = lower entry.1 then lastDeclarations rest
    else entry :: lastDeclarations rest

/-- Every pattern that something is said about, with all that is said about it, where and as it is
    declared last. -/
def effectiveProfiles (declared : List (Declaration κ)) : List (Declaration κ) :=
  ((lastDeclarations lower declared).map fun entry =>
    (entry.1, combined lower declared (lower entry.1))).filter fun entry => !entry.2.isEmpty

/-- The last one of the profiles that say most about a model. -/
def mostSpecific (value : List κ) (models : List (Declaration κ)) : Option (Declaration κ) :=
  (models.filter fun entry => globMatches star caseFold entry.1 value).reverse.argmax
    fun entry => specificity star units entry.1

/-- The environment decides before the profile, and the profile before the base value. -/
def preferred (config : ModelConfig κ ν) (found : Option (Declaration κ)) (key : ProfileKey) : ℚ :=
  let base := (key.parse (number (config.base key))).getD key.default
  if config.environmentOverrides key then base
  else (found.bind fun best => best.2 key).getD base

variable {star slash units caseFold lower number} {declared : List (Declaration κ)}
  {entry : Declaration κ} {profile : ModelProfile}

theorem isEmpty_iff : profile.isEmpty = true ↔ profile = fun _ => none := by
  simp only [ModelProfile.isEmpty, Bool.and_eq_true, Option.isNone_iff_eq_none, funext_iff]
  constructor
  · rintro ⟨⟨hrotation, hhard⟩, hturns⟩ key
    cases key <;> assumption
  · exact fun h => ⟨⟨h _, h _⟩, h _⟩

theorem over_none (profile : ModelProfile) : (profile.over fun _ => none) = profile := by
  funext key
  exact Option.or_none

theorem isEmpty_over {previous : ModelProfile} (h : previous.isEmpty = false) :
    (profile.over previous).isEmpty = false := by
  rw [← Bool.not_eq_true, isEmpty_iff] at h ⊢
  intro hover
  refine h (funext fun key => ?_)
  exact (Option.or_eq_none_iff.mp (congrFun hover key)).2

theorem combined_append (identity : List κ) : combined lower (declared ++ [entry]) identity =
    if lower entry.1 = identity then entry.2.over (combined lower declared identity)
    else combined lower declared identity := by
  funext key
  split
  · next heq =>
    cases hkey : entry.2 key <;> simp [combined, ModelProfile.over, heq, hkey, List.filterMap_append]
  · next hne => simp [combined, hne]

theorem lastDeclarations_append : lastDeclarations lower (declared ++ [entry]) =
    (lastDeclarations lower declared).filter (fun other => lower other.1 ≠ lower entry.1) ++
      [entry] := by
  induction declared with
  | nil => simp [lastDeclarations]
  | cons first rest ih =>
    rw [List.cons_append, lastDeclarations, lastDeclarations, ih]
    have hmem : (∃ later ∈ rest ++ [entry], lower later.1 = lower first.1) ↔
        (∃ later ∈ rest, lower later.1 = lower first.1) ∨ lower entry.1 = lower first.1 := by
      simp [or_and_right, exists_or]
    by_cases hagain : ∃ later ∈ rest, lower later.1 = lower first.1
    · rw [if_pos (hmem.mpr (.inl hagain)), if_pos hagain]
    · rw [if_neg hagain]
      by_cases heq : lower entry.1 = lower first.1
      · rw [if_pos (hmem.mpr (.inr heq)), List.filter_cons_of_neg (by simpa using heq.symm)]
      · rw [if_neg fun h => (hmem.mp h).elim hagain heq,
          List.filter_cons_of_pos (by simpa using Ne.symm heq), List.cons_append]

theorem mem_lastDeclarations (lower : List κ → List κ) (h : entry ∈ declared) :
    ∃ last ∈ lastDeclarations lower declared, lower last.1 = lower entry.1 := by
  induction declared using List.reverseRecOn with
  | nil => cases h
  | append_singleton before last ih =>
    rw [lastDeclarations_append]
    by_cases heq : lower last.1 = lower entry.1
    · exact ⟨last, List.mem_append_right _ List.mem_cons_self, heq⟩
    · rcases List.mem_append.mp h with hbefore | hlast
      · obtain ⟨found, hfound, hsame⟩ := ih hbefore
        refine ⟨found, List.mem_append_left _ (List.mem_filter.mpr ⟨hfound, ?_⟩), hsame⟩
        simpa [hsame] using Ne.symm heq
      · exact absurd (by rw [List.mem_singleton.mp hlast]) heq

theorem effectiveProfiles_append : effectiveProfiles lower (declared ++ [entry]) =
    (effectiveProfiles lower declared).filter (fun other => lower other.1 ≠ lower entry.1) ++
      [(entry.1, entry.2.over (combined lower declared (lower entry.1)))].filter
        fun other => !other.2.isEmpty := by
  have hothers : ∀ other ∈ (lastDeclarations lower declared).filter
      (fun other => lower other.1 ≠ lower entry.1),
      (other.1, combined lower (declared ++ [entry]) (lower other.1)) =
        (other.1, combined lower declared (lower other.1)) := by
    intro other hother
    have hne : lower other.1 ≠ lower entry.1 := by simpa using (List.mem_filter.mp hother).2
    rw [combined_append, if_neg hne.symm]
  rw [effectiveProfiles, lastDeclarations_append, List.map_append, List.map_congr_left hothers,
    List.filter_append, effectiveProfiles, List.map_singleton, combined_append, if_pos rfl,
    List.filter_filter, List.filter_map, List.filter_map, List.filter_filter]
  simp only [Function.comp_def, Bool.and_comm]

theorem nodup_effectiveProfiles (lower : List κ → List κ) (declared : List (Declaration κ)) :
    ((effectiveProfiles lower declared).map fun entry => lower entry.1).Nodup := by
  induction declared using List.reverseRecOn with
  | nil => exact List.nodup_nil
  | append_singleton before entry ih =>
    rw [effectiveProfiles_append, List.map_append]
    refine List.Nodup.append ((List.filter_sublist.map _).nodup ih)
      ((List.filter_sublist.map _).nodup (List.nodup_singleton _)) ?_
    intro identity hbefore hlast
    obtain ⟨other, hother, rfl⟩ := List.mem_map.mp hbefore
    obtain ⟨same, hsame, heq⟩ := List.mem_map.mp hlast
    rw [List.mem_singleton.mp (List.mem_filter.mp hsame).1] at heq
    exact absurd heq.symm (by simpa using (List.mem_filter.mp hother).2)

/-- What is not there is said nowhere. -/
theorem combined_eq_none {identity : List κ}
    (h : ∀ entry ∈ effectiveProfiles lower declared, lower entry.1 ≠ identity) :
    combined lower declared identity = fun _ => none := by
  by_contra hsome
  have hfull : (combined lower declared identity).isEmpty = false := by
    rw [← Bool.not_eq_true, isEmpty_iff]
    exact hsome
  obtain ⟨entry, hentry, heq⟩ : ∃ entry ∈ declared, lower entry.1 = identity := by
    by_contra hnone
    push Not at hnone
    refine hsome (funext fun key => ?_)
    rw [combined, List.filter_eq_nil_iff.mpr (by simpa using hnone)]
    rfl
  obtain ⟨last, hlast, hsame⟩ := mem_lastDeclarations lower hentry
  refine h (last.1, combined lower declared identity) ?_ (hsame.trans heq)
  refine List.mem_filter.mpr ⟨List.mem_map.mpr ⟨last, hlast, ?_⟩, by simpa using hfull⟩
  rw [hsame, heq]

theorem setEntry_of_forall_ne {profiles : List (Declaration κ)} {pattern : List κ}
    (h : ∀ other ∈ profiles, lower other.1 ≠ lower pattern) :
    InsertionMap.setEntry pattern profile profiles = profiles ++ [(pattern, profile)] := by
  induction profiles with
  | nil => rfl
  | cons first rest ih =>
    obtain ⟨hfirst, hrest⟩ := List.forall_mem_cons.mp h
    rw [InsertionMap.setEntry, if_neg fun heq => hfirst (by rw [heq]), ih hrest, List.cons_append]

/-- One declaration after the other leads to what all of them say. -/
theorem entries_foldl_redeclare (declared : List (Declaration κ)) :
    (declared.foldl (redeclare lower) .empty).entries = effectiveProfiles lower declared := by
  induction declared using List.reverseRecOn with
  | nil => rfl
  | append_singleton before entry ih =>
    rw [List.foldl_append, List.foldl_cons, List.foldl_nil, effectiveProfiles_append, ← ih]
    generalize hmerged : before.foldl (redeclare lower) .empty = merged at ih
    have hpresent : ∀ other ∈ merged.entries, other.2.isEmpty = false ∧
        other.2 = combined lower before (lower other.1) := by
      intro other hother
      rw [ih] at hother
      obtain ⟨hmem, hfull⟩ := List.mem_filter.mp hother
      obtain ⟨last, -, rfl⟩ := List.mem_map.mp hmem
      exact ⟨by simpa using hfull, rfl⟩
    rw [redeclare]
    split
    · next hfind =>
      have hne : ∀ other ∈ merged.entries, lower other.1 ≠ lower entry.1 := by
        intro other hother
        simpa using List.find?_eq_none.mp hfind other.1 (List.mem_map_of_mem hother)
      rw [combined_eq_none (ih ▸ hne), over_none,
        List.filter_eq_self.mpr fun other hother => by simpa using hne other hother]
      split
      · next hempty => simp [hempty]
      · next hfull =>
        rw [List.filter_cons_of_pos (by simpa using hfull)]
        exact setEntry_of_forall_ne hne
    · next previous hfind =>
      have heq : lower previous = lower entry.1 := by simpa using List.find?_some hfind
      obtain ⟨found, hfound, rfl⟩ := List.mem_map.mp (List.mem_of_find?_eq_some hfind)
      obtain ⟨hfull, hcombined⟩ := hpresent found hfound
      have hget : merged.get found.1 = some found.2 := InsertionMap.get_eq_some_iff.mpr hfound
      have hdelete : (merged.delete found.1).entries =
          merged.entries.filter fun other => lower other.1 ≠ lower entry.1 := by
        refine List.filter_congr fun other hother => ?_
        have hsame : other.1 = found.1 ↔ lower other.1 = lower entry.1 := by
          refine ⟨fun h => by rw [h, heq], fun h => ?_⟩
          have hnodup := nodup_effectiveProfiles lower before
          rw [← ih] at hnodup
          rw [List.inj_on_of_nodup_map hnodup hother hfound (h.trans heq.symm)]
        simp [hsame]
      have hne : ∀ other ∈ (merged.delete found.1).entries, lower other.1 ≠ lower entry.1 := by
        intro other hother
        rw [hdelete] at hother
        simpa using (List.mem_filter.mp hother).2
      rw [hget, Option.getD_some, ← heq, ← hcombined,
        List.filter_cons_of_pos (by simpa using isEmpty_over hfull), heq, ← hdelete]
      exact setEntry_of_forall_ne hne

/-! ## What a model gets -/

theorem foldl_better (value : List κ) (models : List (Declaration κ)) :
    models.foldl (better star units caseFold value) (none, -1) =
      (mostSpecific star units caseFold value models,
        ((mostSpecific star units caseFold value models).map fun best =>
          (specificity star units best.1 : Int)).getD (-1)) := by
  induction models using List.reverseRecOn with
  | nil => rfl
  | append_singleton before entry ih =>
    rw [List.foldl_append, List.foldl_cons, List.foldl_nil, ih, better, mostSpecific,
      mostSpecific, List.filter_append, List.filter_singleton]
    cases hmatch : globMatches star caseFold entry.1 value with
    | false => simp
    | true =>
      rw [cond_true, List.reverse_append, List.reverse_singleton, List.singleton_append,
        List.argmax_cons]
      cases List.argmax (fun entry => specificity star units entry.1)
          (before.filter fun entry => globMatches star caseFold entry.1 value).reverse with
      | none => simp
      | some best =>
        by_cases hle : specificity star units best.1 ≤ specificity star units entry.1
        · simp [hle, Nat.not_lt.mpr hle]
        · simp [hle, Nat.lt_of_not_le hle]

/-- Every field that is set has passed its check. -/
def ModelProfile.Valid (profile : ModelProfile) : Prop :=
  ∀ key v, profile key = some v → key.parse (some v) = some v

theorem valid_parse (parsed : ProfileKey → Option ℚ) :
    ModelProfile.Valid fun key => key.parse (parsed key) := by
  intro key v h
  cases key
  all_goals
    simp only [ProfileKey.parse, parsePositiveRatio, parsePositiveInteger,
      Option.filter_eq_some_iff, true_and] at h ⊢
    exact h.2

theorem valid_normalizeModelProfiles {layer : LayerModels κ ν}
    (h : entry ∈ (normalizeModelProfiles slash number layer).entries) : entry.2.Valid := by
  cases layer with
  | none => cases h
  | some layer =>
    refine List.foldlRecOn layer.entries _ (motive := fun profiles :
      InsertionMap (List κ) ModelProfile => ∀ pattern profile,
        profiles.get pattern = some profile → profile.Valid)
      (fun pattern profile h => by cases h) ?_ _ _ (InsertionMap.get_eq_some_iff.mpr h)
    intro profiles hprofiles declared _
    split
    · exact hprofiles
    · split
      · intro pattern profile hget
        rw [InsertionMap.get_set] at hget
        split at hget
        · exact Option.some.inj hget ▸ valid_parse _
        · exact hprofiles pattern profile hget
      · exact hprofiles

theorem valid_combined (layers : List (LayerModels κ ν)) (identity : List κ) :
    (combined lower (declarations slash number layers) identity).Valid := by
  intro key v h
  obtain ⟨entry, hentry, hkey⟩ := List.mem_filterMap.mp (List.mem_of_getLast? h)
  obtain ⟨layer, -, hmem⟩ := List.mem_flatMap.mp (List.mem_filter.mp hentry).1
  exact valid_normalizeModelProfiles hmem key v hkey

omit [DecidableEq κ] in
theorem resolvedValue_eq (number : ν → Option ℚ) (config : ModelConfig κ ν)
    (models : List (Declaration κ)) {found : Option (Declaration κ)}
    (h : ∀ best ∈ found, best.2.Valid) (key : ProfileKey) :
    resolvedValue number { config with models } found key = preferred number config found key := by
  rw [resolvedValue, preferred]
  split
  · rfl
  · cases found with
    | none => rfl
    | some best =>
      rw [Option.bind_some]
      cases hkey : best.2 key with
      | none => rfl
      | some v => simp [h best rfl key v hkey]

/-- What the layers declare, which profile a model gets and what its limits are then. -/
theorem modelProfiles_layered (layers : List (LayerModels κ ν)) (provider id : List κ)
    (config : ModelConfig κ ν) :
    ∃ models found resolved, (layeredProfiles slash lower number layers).entries = models ∧
      findModelProfile star slash units caseFold models provider id = found ∧
      resolveModelConfig star slash units caseFold number { config with models } provider id =
        resolved ∧
      (models.map fun entry => lower entry.1).Nodup ∧
      models = effectiveProfiles lower (declarations slash number layers) ∧
      (found = if provider = [] ∨ id = [] then none
        else mostSpecific star units caseFold (provider ++ slash :: id) models) ∧
      resolved.rotationContextRatio = preferred number config found .rotationContextRatio ∧
      resolved.hardLimitContextRatio = preferred number config found .hardLimitContextRatio ∧
      resolved.rotationTurns =
        max (retainTurns number config + 1) (preferred number config found .rotationTurns) ∧
      resolved.pattern = found.map Prod.fst ∧ retainTurns number config < resolved.rotationTurns := by
  obtain ⟨models, heq⟩ :
      ∃ models, models = effectiveProfiles lower (declarations slash number layers) := ⟨_, rfl⟩
  have hmodels : (layeredProfiles slash lower number layers).entries = models := by
    rw [heq, ← entries_foldl_redeclare, declarations, List.foldl_flatMap]
    rfl
  have hfound : findModelProfile star slash units caseFold models provider id =
      if provider = [] ∨ id = [] then none
      else mostSpecific star units caseFold (provider ++ slash :: id) models := by
    rw [findModelProfile, foldl_better]
  have hvalid : ∀ best ∈ findModelProfile star slash units caseFold models provider id,
      best.2.Valid := by
    intro best hbest
    rw [hfound] at hbest
    split at hbest
    · cases hbest
    · have hmem := List.mem_reverse.mp (List.argmax_mem hbest)
      rw [heq] at hmem
      obtain ⟨last, -, rfl⟩ := List.mem_map.mp (List.mem_filter.mp (List.mem_filter.mp hmem).1).1
      exact valid_combined layers _
  have hvalue := resolvedValue_eq number config models hvalid
  exact ⟨models, _, _, hmodels, rfl, rfl, heq ▸ nodup_effectiveProfiles lower _, heq, hfound, hvalue _,
    hvalue _, congrArg (max (retainTurns number config + 1)) (hvalue _), rfl,
    lt_of_lt_of_le (lt_add_one (retainTurns number config)) (le_max_left _ _)⟩

end ContextStore.Config
