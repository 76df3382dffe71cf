import ContextStore.Outbox.Refinement
import Mathlib.Data.List.Perm.Basic

/-! # Plans do not depend on the order of their handlers

The mutations of all handlers are sorted before they are planned. The sort leaves open how mutations
stand that differ in nothing it compares, but such mutations are the same or end the plan. -/

namespace ContextStore

open Concurrent

section Sorting

variable {α κ : Type} [LinearOrder κ] {key : α → κ} {l l' : List α}

theorem pairwise_insertionSort_key (key : α → κ) (l : List α) :
    (l.insertionSort (key · ≤ key ·)).Pairwise (key · ≤ key ·) := by
  have htotal : Std.Total (fun a b : α => key a ≤ key b) := ⟨fun a b => le_total _ _⟩
  have htrans : IsTrans α (fun a b => key a ≤ key b) := ⟨fun _ _ _ h h' => le_trans h h'⟩
  exact List.pairwise_insertionSort _ l

/-- What is sorted by keys that tell its members apart does not depend on their order. -/
theorem insertionSort_eq_of_perm (h : l.Perm l') (hinj : ∀ a ∈ l, ∀ b ∈ l, key a = key b → a = b) :
    l.insertionSort (key · ≤ key ·) = l'.insertionSort (key · ≤ key ·) := by
  refine ((List.perm_insertionSort _ l).trans (h.trans (List.perm_insertionSort _ l').symm)
    ).eq_of_pairwise ?_ (pairwise_insertionSort_key key l) (pairwise_insertionSort_key key l')
  intro a b ha hb hab hba
  exact hinj a ((List.perm_insertionSort _ l).mem_iff.mp ha) b
    (h.mem_iff.mpr ((List.perm_insertionSort _ l').mem_iff.mp hb)) (le_antisymm hab hba)

end Sorting

/-- What the plan keeps of a handler. -/
def summarize (result : HandlerResult) : HandlerSummary :=
  ⟨result.id, result.mutations.length, result.metadata⟩

/-- The same handlers and mutations in another order. -/
structure Reordered (results results' : List HandlerResult) : Prop where
  handlers : (results.map summarize).Perm (results'.map summarize)
  mutations : (results.flatMap (·.mutations)).Perm (results'.flatMap (·.mutations))

variable {codec : PlanCodec} {results results' : List HandlerResult}
  {candidates : List HandlerMutation} {mutations out : List SerializedMutation}

/-- The label is for the error alone. -/
def serialized (codec : PlanCodec) (candidate : HandlerMutation) : Option SerializedMutation :=
  (serializeMutation codec candidate "").toOption

theorem serializeMutation_eq_ok {candidate : HandlerMutation} {mutation : SerializedMutation}
    {label : String} : serializeMutation codec candidate label = .ok mutation ↔
      serialized codec candidate = some mutation := by
  have hlabel : serializeMutation codec candidate label = .ok mutation ↔
      serializeMutation codec candidate "" = .ok mutation := by
    simp only [serializeMutation, bind_ok_iff]
    refine exists_congr fun key => and_congr_right fun _ => ?_
    split <;> simp
  rw [hlabel, serialized]
  cases serializeMutation codec candidate "" <;> simp [Except.toOption]

/-- All candidates can be serialized, and this is what they become. -/
def SerializesTo (codec : PlanCodec) (candidates : List HandlerMutation)
    (out : List SerializedMutation) : Prop :=
  (∀ candidate ∈ candidates, (serialized codec candidate).isSome) ∧
    candidates.filterMap (serialized codec) = out

theorem serializeAll_eq_ok {id : String} {index : Nat} :
    serializeAll codec id index candidates = .ok out ↔ SerializesTo codec candidates out := by
  induction candidates generalizing index out with
  | nil => simp [serializeAll, SerializesTo]
  | cons candidate rest ih =>
    simp only [serializeAll, bind_ok_iff, serializeMutation_eq_ok, ih, SerializesTo]
    cases h : serialized codec candidate with
    | none => simp [h]
    | some mutation => simp [h, pure, Except.pure]

theorem serializeResults_eq_ok : serializeResults codec results = .ok out ↔
    SerializesTo codec (results.flatMap (·.mutations)) out := by
  induction results generalizing out with
  | nil => simp [serializeResults, SerializesTo]
  | cons result rest ih =>
    simp only [serializeResults, bind_ok_iff, serializeAll_eq_ok, ih, SerializesTo]
    simp [pure, Except.pure, or_imp, forall_and, and_assoc]

/-- Sorted mutations of which none is dropped for another differ in what the sort compares. -/
theorem pairwise_of_dropDuplicates {previous : Option SerializedMutation}
    (hsorted : (previous.toList ++ mutations).Pairwise (·.sortKey ≤ ·.sortKey))
    (h : dropDuplicates previous mutations = .ok out) :
    (previous.toList ++ mutations).Pairwise fun m m' => m.sortKey = m'.sortKey → m = m' := by
  induction mutations generalizing previous out with
  | nil => cases previous <;> simp
  | cons m rest ih =>
    cases previous with
    | none =>
      obtain ⟨_, hout, -⟩ := map_ok_iff.mp h
      exact ih hsorted hout
    | some last =>
      obtain ⟨hlast, hrest⟩ := List.pairwise_cons.mp hsorted
      have hcons : (m :: rest).Pairwise (fun m m' => m.sortKey = m'.sortKey → m = m') →
          (last.sortKey = m.sortKey → last = m) →
          (last :: m :: rest).Pairwise fun m m' => m.sortKey = m'.sortKey → m = m' := by
        refine fun hrest' hm => List.pairwise_cons.mpr ⟨fun x hx heq => ?_, hrest'⟩
        -- `m` stands between `last` and `x`
        have hge : m.sortKey ≤ x.sortKey := by
          rcases List.mem_cons.mp hx with rfl | hmem
          · exact le_rfl
          · exact (List.pairwise_cons.mp hrest).1 x hmem
        have hsame : last.sortKey = m.sortKey :=
          le_antisymm (hlast m List.mem_cons_self) (heq ▸ hge)
        rcases List.mem_cons.mp hx with rfl | hmem
        · exact hm hsame
        · exact (hm hsame).trans ((List.pairwise_cons.mp hrest').1 x hmem (hsame.symm.trans heq))
      simp only [dropDuplicates] at h
      split at h
      · next hne =>
        obtain ⟨_, hout, -⟩ := map_ok_iff.mp h
        exact hcons (@ih _ (some m) hrest hout) fun hsame =>
          absurd (congrArg (fun key => (ofLex key).1) hsame) hne
      · split at h
        · next heq =>
          subst heq
          exact hcons (@ih _ (some last) hrest h) fun _ => rfl
        · split at h
          · next hstaged =>
            obtain ⟨_, hout, -⟩ := map_ok_iff.mp h
            refine hcons (@ih _ (some m) hrest hout) fun hsame => ?_
            have horder := congrArg (fun key => (ofLex (ofLex key).2).1) hsame
            simp [SerializedMutation.sortKey, hstaged.1, hstaged.2.2.1, StagePhase.order] at horder
          · cases h

theorem normalizeMutations_reordered (h : Reordered results results')
    (hok : normalizeMutations codec results = .ok mutations) :
    normalizeMutations codec results' = .ok mutations := by
  obtain ⟨serialized, hserialized, hdrop⟩ := bind_ok_iff.mp hok
  obtain ⟨hall, rfl⟩ := serializeResults_eq_ok.mp hserialized
  refine bind_ok_iff.mpr ⟨_, serializeResults_eq_ok.mpr
    ⟨fun candidate hmem => hall candidate (h.mutations.mem_iff.mpr hmem), rfl⟩, ?_⟩
  have hpairwise := @pairwise_of_dropDuplicates _ _ none (pairwise_insertionSort_key _ _) hdrop
  rw [← insertionSort_eq_of_perm (h.mutations.filterMap _) fun m hm m' hm' =>
    hpairwise.forall_of_forall_of_flip (fun _ _ _ => rfl)
      (hpairwise.imp fun h heq => (h heq.symm).symm)
      ((List.perm_insertionSort _ _).mem_iff.mpr hm)
      ((List.perm_insertionSort _ _).mem_iff.mpr hm')]
  exact hdrop

theorem summarizeHandlers_eq_ok {index : Nat} {summaries : List HandlerSummary} :
    summarizeHandlers index results = .ok summaries ↔
      (∀ result ∈ results, result.id ≠ "") ∧ results.map summarize = summaries := by
  induction results generalizing index summaries with
  | nil => simp [summarizeHandlers]
  | cons result rest ih =>
    by_cases hid : result.id = ""
    · simp [summarizeHandlers, identifier, hid, bind_ok_iff]
    · simp only [summarizeHandlers, identifier, if_neg hid, bind_ok_iff, ih, List.forall_mem_cons,
        List.map_cons]
      constructor
      · rintro ⟨_, _, others, ⟨hrest, rfl⟩, ⟨⟩⟩
        exact ⟨⟨hid, hrest⟩, rfl⟩
      · rintro ⟨⟨_, hrest⟩, rfl⟩
        exact ⟨(), trivial, _, ⟨hrest, rfl⟩, rfl⟩

/-- A plan does not depend on the order of the handlers or of their mutations. -/
theorem createGenerationPlan_reordered {claim : Claim} {options : PlanOptions}
    {plan : GenerationPlan} (h : Reordered results results')
    (hdistinct : (results.map (·.id)).Nodup)
    (hplan : createGenerationPlan codec claim results options = .ok plan) :
    createGenerationPlan codec claim results' options = .ok plan := by
  simp only [createGenerationPlan, bind_ok_iff] at hplan ⊢
  obtain ⟨_, hclaim, summaries, hsummaries, mutations, hmutations, hrest⟩ := hplan
  obtain ⟨hids, rfl⟩ := summarizeHandlers_eq_ok.mp hsummaries
  have hsorted := @insertionSort_eq_of_perm _ _ _ HandlerSummary.id _ _ h.handlers
    fun a ha b hb hab =>
      List.inj_on_of_nodup_map (by simpa [Function.comp_def, summarize] using hdistinct) ha hb hab
  refine ⟨(), hclaim, _, summarizeHandlers_eq_ok.mpr ⟨fun result hresult => ?_, rfl⟩, mutations,
    normalizeMutations_reordered h hmutations, hsorted ▸ hrest⟩
  obtain ⟨own, hown, hsame⟩ :=
    List.mem_map.mp (h.handlers.mem_iff.mpr (List.mem_map_of_mem hresult))
  rw [← show own.id = result.id from congrArg HandlerSummary.id hsame]
  exact hids own hown

/-- The sample results with the mutations of each handler reversed. -/
def reversedResults : List HandlerResult :=
  sampleResults.map fun result => { result with mutations := result.mutations.reverse }

theorem createGenerationPlan_reordered_reversed : createGenerationPlan sampleCodec sampleClaim
    reversedResults sampleOptions = .ok sampleTabletsPlan :=
  have hreordered : Reordered sampleResults reversedResults :=
    ⟨.refl _, (List.reverse_perm _).symm.append_right _⟩
  createGenerationPlan_reordered hreordered (by decide) (by rfl)

end ContextStore
