import ContextStore.Foundation.Updates
import ContextStore.Outbox.Plan

/-! # What a plan contains

The planner sorts and deduplicates, so a normalized plan has, for each key, no mutation, a single
one, or a put to prepare followed by a removal to clean up (`KeyShape`). Hence running a plan phase
by phase, as tablets do, is the same as running it in its sorted order
(`applyAll_phases`). Cutting a plan into tablets loses and reorders nothing
(`createTablets_mutations`). -/

namespace ContextStore

open KeyedUpdates

variable (codec : PlanCodec)

/-! ## Mutations as keyed updates -/

/-- The effect of one serialized mutation on the record under its key. -/
def MutationKind.act : MutationKind → Option String → Option (Option String)
  | .remove, _ => some none
  | .put false record, _ => some (some record)
  | .put true record, none => some (some record)
  | .put true record, some current => if current = record then some (some current) else none

/-- Serialized mutations as updates of the derived keyspace. -/
def mutationSemantics : Semantics String String SerializedMutation where
  key := SerializedMutation.key
  act := fun mutation => mutation.kind.act

/-- Run a list of mutations in order on the derived keyspace; `none` when an immutable record is
    in the way. -/
abbrev runMutations (derived : String → Option String) (mutations : List SerializedMutation) :
    Option (String → Option String) :=
  applyAll mutationSemantics derived mutations

/-! ## Sorting -/

theorem key_le_of_sortKey_le {m m' : SerializedMutation} (h : m.sortKey ≤ m'.sortKey) :
    m.key ≤ m'.key := by
  rcases (Prod.Lex.le_iff).mp h with hlt | ⟨heq, _⟩
  · exact le_of_lt hlt
  · exact le_of_eq heq

theorem pairwise_sorted (mutations : List SerializedMutation) :
    (mutations.insertionSort (·.sortKey ≤ ·.sortKey)).Pairwise (·.key ≤ ·.key) := by
  have htotal : Std.Total (fun m m' : SerializedMutation => m.sortKey ≤ m'.sortKey) :=
    ⟨fun m m' => le_total _ _⟩
  have htrans : IsTrans SerializedMutation (fun m m' => m.sortKey ≤ m'.sortKey) :=
    ⟨fun _ _ _ h h' => le_trans h h'⟩
  exact (List.pairwise_insertionSort _ mutations).imp key_le_of_sortKey_le

theorem mem_of_dropDuplicates {previous : Option SerializedMutation}
    {mutations kept : List SerializedMutation} (h : dropDuplicates previous mutations = .ok kept)
    {m : SerializedMutation} (hm : m ∈ kept) : m ∈ mutations := by
  induction mutations generalizing previous kept with
  | nil =>
    cases h
    exact hm
  | cons mutation rest ih =>
    have hcons : ∀ {p : Option SerializedMutation},
        (dropDuplicates p rest).map (mutation :: ·) = .ok kept → m ∈ mutation :: rest := by
      intro p hp
      obtain ⟨out, hout, rfl⟩ := Concurrent.map_ok_iff.mp hp
      rcases List.mem_cons.mp hm with rfl | hmem
      · exact List.mem_cons_self
      · exact List.mem_cons_of_mem _ (ih hout hmem)
    simp only [dropDuplicates] at h
    split at h
    · exact hcons h
    · split at h
      · exact hcons h
      · split at h
        · exact List.mem_cons_of_mem _ (ih h hm)
        · split at h
          · exact hcons h
          · cases h

/-! ## The shape of a normalized plan -/

/-- What a normalized plan may hold for one key. -/
def KeyShape : List SerializedMutation → Prop
  | [] => True
  | [_] => True
  | [prepare, cleanup] => stagedCleanup prepare cleanup
  | _ => False

/-- What may follow, under the key of the mutation kept last. -/
def FollowShape (previous : SerializedMutation) : List SerializedMutation → Prop
  | [] => True
  | [cleanup] => stagedCleanup previous cleanup
  | _ => False

theorem KeyShape.cons {m : SerializedMutation} {l : List SerializedMutation}
    (h : FollowShape m l) : KeyShape (m :: l) := by
  match l, h with
  | [], _ => trivial
  | [_], h => exact h

theorem ofKey_eq_nil {k : String} {l : List SerializedMutation} (h : ∀ m ∈ l, m.key ≠ k) :
    ofKey mutationSemantics k l = [] := by
  rw [ofKey, List.filter_eq_nil_iff]
  exact fun m hm hk => h m hm (of_decide_eq_true hk)

theorem not_stagedCleanup_of_cleanup {p c c' : SerializedMutation} (h : stagedCleanup p c) :
    ¬ stagedCleanup c c' := by
  intro h'
  have h₁ := h.2.2.1
  rw [h'.1] at h₁
  cases h₁

/-- The loop of the planner over sorted mutations: under the key kept last at most its cleanup
    follows, and every other key has the shape of a plan. -/
theorem keyShape_dropDuplicates {previous : Option SerializedMutation}
    {mutations kept : List SerializedMutation}
    (hsorted : mutations.Pairwise (·.key ≤ ·.key))
    (hprevious : ∀ p, previous = some p → ∀ m ∈ mutations, p.key ≤ m.key)
    (h : dropDuplicates previous mutations = .ok kept) :
    (∀ k, (∀ p, previous = some p → p.key ≠ k) → KeyShape (ofKey mutationSemantics k kept)) ∧
    ∀ p, previous = some p → FollowShape p (ofKey mutationSemantics p.key kept) := by
  induction mutations generalizing previous kept with
  | nil =>
    cases h
    exact ⟨fun _ _ => trivial, fun _ _ => trivial⟩
  | cons m rest ih =>
    obtain ⟨hm, hrest⟩ := List.pairwise_cons.mp hsorted
    -- After `m` is kept, its key is followed by its cleanup at most.
    have hkeep : ∀ {out}, dropDuplicates (some m) rest = .ok out →
        (∀ k, m.key ≠ k → KeyShape (ofKey mutationSemantics k out)) ∧
          FollowShape m (ofKey mutationSemantics m.key out) := by
      intro out hout
      obtain ⟨h₁, h₂⟩ := ih hrest (fun p hp m' hm' => by cases hp; exact hm m' hm') hout
      exact ⟨fun k hk => h₁ k fun p hp => by cases hp; exact hk, h₂ m rfl⟩
    have hshape : ∀ {out}, dropDuplicates (some m) rest = .ok out →
        ∀ k, KeyShape (ofKey mutationSemantics k (m :: out)) := by
      intro out hout k
      obtain ⟨h₁, h₂⟩ := hkeep hout
      by_cases hk : m.key = k
      · subst hk
        rw [show m.key = mutationSemantics.key m from rfl, ofKey_cons_self]
        exact KeyShape.cons h₂
      · rw [ofKey_cons_of_ne mutationSemantics hk]
        exact h₁ k hk
    simp only [dropDuplicates] at h
    split at h
    · obtain ⟨out, hout, rfl⟩ := Concurrent.map_ok_iff.mp h
      exact ⟨fun k _ => hshape hout k, fun p hp => by cases hp⟩
    · next last =>
      have hle : last.key ≤ m.key := hprevious last rfl m List.mem_cons_self
      split at h
      · next hne =>
        obtain ⟨out, hout, rfl⟩ := Concurrent.map_ok_iff.mp h
        refine ⟨fun k _ => hshape hout k, fun p hp => ?_⟩
        cases hp
        -- Sorting leaves the key of the last mutation behind for good.
        rw [ofKey_eq_nil]
        · trivial
        · intro m' hm'
          rcases List.mem_cons.mp hm' with rfl | hmem
          · exact Ne.symm hne
          · have hge := hm m' (mem_of_dropDuplicates hout hmem)
            exact (lt_of_lt_of_le (lt_of_le_of_ne hle hne) hge).ne'
      · next heq =>
        rw [ne_eq, not_not] at heq
        split at h
        · exact ih hrest (fun p hp m' hm' => by
            cases hp
            exact hle.trans (hm m' hm')) h
        · split at h
          · next hstaged =>
            obtain ⟨out, hout, rfl⟩ := Concurrent.map_ok_iff.mp h
            refine ⟨fun k _ => hshape hout k, fun p hp => ?_⟩
            cases hp
            obtain ⟨-, hfollow⟩ := hkeep hout
            rw [heq, show m.key = mutationSemantics.key m from rfl, ofKey_cons_self,
              show mutationSemantics.key m = m.key from rfl]
            rcases hl : ofKey mutationSemantics m.key out with _ | ⟨c, _ | ⟨d, others⟩⟩
            · exact hstaged
            · rw [hl] at hfollow
              exact absurd hfollow (not_stagedCleanup_of_cleanup hstaged)
            · rw [hl] at hfollow
              exact hfollow.elim
          · cases h

variable {mutations : List SerializedMutation} {results : List HandlerResult}
  {options : TabletOptions}

theorem keyShape_normalizeMutations (h : normalizeMutations codec results = .ok mutations)
    (k : String) : KeyShape (ofKey mutationSemantics k mutations) := by
  obtain ⟨serialized, -, hdrop⟩ := Concurrent.bind_ok_iff.mp h
  exact (keyShape_dropDuplicates (pairwise_sorted serialized) (fun p hp => by cases hp) hdrop).1 k
    fun p hp => by cases hp

/-! ## Phase by phase -/

def inPhase (phase : StagePhase) (mutations : List SerializedMutation) : List SerializedMutation :=
  mutations.filter (·.stagePhase = phase)

theorem KeyShape.phases {l : List SerializedMutation} (h : KeyShape l) :
    inPhase .prepare l ++ (inPhase .publish l ++ inPhase .cleanup l) = l := by
  match l, h with
  | [], _ => rfl
  | [m], _ => cases hm : m.stagePhase <;> simp [inPhase, hm]
  | [p, c], h => simp [inPhase, h.1, h.2.2.1]

theorem ofKey_inPhase (k : String) (phase : StagePhase) (mutations : List SerializedMutation) :
    ofKey mutationSemantics k (inPhase phase mutations) =
      inPhase phase (ofKey mutationSemantics k mutations) := by
  simp only [ofKey, inPhase, List.filter_filter, Bool.and_comm]

/-- A normalized plan does the same whether it runs in its sorted order or phase by phase. -/
theorem runMutations_phases (h : normalizeMutations codec results = .ok mutations)
    (derived : String → Option String) :
    runMutations derived (inPhase .prepare mutations ++
      (inPhase .publish mutations ++ inPhase .cleanup mutations)) =
    runMutations derived mutations := by
  refine applyAll_congr mutationSemantics (fun k => ?_) derived
  have hshape := keyShape_normalizeMutations codec h k
  simp only [ofKey, List.filter_append]
  change ofKey mutationSemantics k _ ++ (ofKey mutationSemantics k _ ++
    ofKey mutationSemantics k _) = ofKey mutationSemantics k mutations
  rw [ofKey_inPhase, ofKey_inPhase, ofKey_inPhase, hshape.phases]

/-! ## Tablets -/

/-- The mutations of a list of tablets, in order. -/
def mutationsOf (tablets : List Tablet) : List SerializedMutation :=
  tablets.flatMap (·.mutations)

def TabletBuilder.content (b : TabletBuilder) : List SerializedMutation :=
  mutationsOf b.tablets ++ b.current

theorem content_flush {b b' : TabletBuilder} (h : b.flush codec options = .ok b') :
    b'.content = b.content ∧ b'.current = [] := by
  unfold TabletBuilder.flush at h
  split at h
  · next hnil =>
    cases h
    exact ⟨rfl, hnil⟩
  · split at h
    · cases h
      simp [TabletBuilder.content, mutationsOf, sealTablet]
    · cases h

theorem content_push (b : TabletBuilder) (m : SerializedMutation) :
    (b.push codec m).content = b.content ++ [m] := by
  simp [TabletBuilder.content, TabletBuilder.push]

theorem content_fillTablets {mutationBudget : Nat} {b b' : TabletBuilder}
    (h : fillTablets codec options mutationBudget mutations b = .ok b') :
    mutationsOf b'.tablets = b.content ++ mutations := by
  induction mutations generalizing b with
  | nil =>
    obtain ⟨hcontent, hcurrent⟩ := content_flush codec h
    rw [← hcontent, TabletBuilder.content, hcurrent]
    simp
  | cons m rest ih =>
    simp only [fillTablets] at h
    split at h
    · cases h
    · obtain ⟨b₁, hb, hfill⟩ : ∃ b₁ : TabletBuilder, b₁.content = b.content ∧
          fillTablets codec options mutationBudget rest (b₁.push codec m) = .ok b' := by
        split at h
        · obtain ⟨b₁, hb₁, hfill⟩ := Concurrent.bind_ok_iff.mp h
          exact ⟨b₁, (content_flush codec hb₁).1, hfill⟩
        · obtain ⟨b₁, hb₁, hfill⟩ := Concurrent.bind_ok_iff.mp h
          cases hb₁
          exact ⟨b, rfl, hfill⟩
      rw [ih hfill, content_push, hb, List.append_assoc, List.singleton_append]

/-- Cutting mutations into tablets loses and reorders nothing. -/
theorem createTablets_mutations {tablets : List Tablet}
    (h : createTablets codec mutations options = .ok tablets) :
    mutationsOf tablets = mutations := by
  simp only [createTablets] at h
  split at h
  · cases h
  · obtain ⟨b, hb, hret⟩ := Concurrent.bind_ok_iff.mp h
    cases hret
    rw [content_fillTablets codec hb]
    rfl

/-! ## Plans in tablets -/

/-- A plan in tablets for these mutations: the header announces the tablets and carries the
    publication mutations, and the tablets hold the rest. -/
structure TabletsPlan (generation sequence : Nat) (mutations : List SerializedMutation)
    (plan : GenerationPlan) (header : TabletsHeader) : Prop where
  mode : plan.mode = .tablets header
  generation : plan.generation = generation
  outboxSequence : plan.outboxSequence = sequence
  publication : header.publicationMutations = inPhase .publish mutations
  tablets : mutationsOf plan.tabletRecords = tabletMutations mutations
  tabletCount : header.tabletCount = plan.tabletRecords.length
  tabletsDigest : header.tabletsDigest = codec.tabletsDigest (plan.tabletRecords.map (·.digest))

theorem inPhase_tabletMutations {phase : StagePhase} (hphase : phase ≠ .publish)
    (mutations : List SerializedMutation) :
    inPhase phase (tabletMutations mutations) = inPhase phase mutations := by
  rw [inPhase, tabletMutations, List.filter_filter]
  refine List.filter_congr fun m _ => ?_
  by_cases hm : m.stagePhase = phase
  · simp [hm, hphase]
  · simp [hm]

/-- Whatever the bounds, a plan the planner puts into tablets is a plan in tablets for the
    normalized mutations of the handlers. -/
theorem tabletsPlan_of_createGenerationPlan {claim : Claim} {options : PlanOptions}
    {plan : GenerationPlan} {header : TabletsHeader}
    (hnormal : normalizeMutations codec results = .ok mutations)
    (h : createGenerationPlan codec claim results options = .ok plan)
    (hmode : plan.mode = .tablets header) :
    TabletsPlan codec claim.generation claim.sequence mutations plan header := by
  simp only [createGenerationPlan, Concurrent.bind_ok_iff] at h
  obtain ⟨_, -, summaries, -, mutations', hmutations', _, -, _, -, h⟩ := h
  rw [hnormal, Except.ok.injEq] at hmutations'
  subst hmutations'
  split at h
  · cases h
    cases hmode
  · simp only [createTabletsPlan, Concurrent.bind_ok_iff] at h
    obtain ⟨_, -, _, -, h⟩ := h
    split at h
    · cases h
    · simp only [Concurrent.bind_ok_iff] at h
      obtain ⟨_, -, _, -, tablets, htablets, h⟩ := h
      cases h
      cases hmode
      exact ⟨rfl, rfl, rfl, rfl, createTablets_mutations codec htablets, rfl, rfl⟩

theorem atomic_of_createGenerationPlan {claim : Claim} {options : PlanOptions}
    {plan : GenerationPlan} {planned : List SerializedMutation}
    (hnormal : normalizeMutations codec results = .ok mutations)
    (h : createGenerationPlan codec claim results options = .ok plan)
    (hmode : plan.mode = .atomic planned) : planned = mutations := by
  simp only [createGenerationPlan, Concurrent.bind_ok_iff] at h
  obtain ⟨_, -, summaries, -, mutations', hmutations', _, -, _, -, h⟩ := h
  rw [hnormal, Except.ok.injEq] at hmutations'
  subst hmutations'
  split at h
  · cases h
    exact (PlanMode.atomic.inj hmode).symm
  · simp only [createTabletsPlan, Concurrent.bind_ok_iff] at h
    obtain ⟨_, -, _, -, h⟩ := h
    split at h
    · cases h
    · simp only [Concurrent.bind_ok_iff] at h
      obtain ⟨_, -, _, -, tablets, -, h⟩ := h
      cases h
      cases hmode

end ContextStore
