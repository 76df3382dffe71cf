import ContextStore.Semantic.IndexEntries

/-! # The totals of the semantic index

Every action that changes a project's state adjusts the totals by what the state gains or loses,
except for a removal, which leaves the entries and the bytes of the project it forgets in them. -/

namespace ContextStore.SemanticIndex

open Unicode
open Concurrent (Machine)

variable {config : Config} {s t : Index}

/-! ## Totals -/

def ProjectState.entryAmount (state : ProjectState) : Int := state.entries.entries.length
def ProjectState.documentAmount (state : ProjectState) : Int := state.documents.length
def ProjectState.metadataAmount (state : ProjectState) : Int := state.metadataBytes
def ProjectState.indexAmount (state : ProjectState) : Int := state.indexBytes

/-- The totals are the sums over the projects that are loaded. -/
structure Index.Accounted (s : Index) : Prop where
  entries : s.entryCount = s.states.total ProjectState.entryAmount
  documents : s.documentCount = s.states.total ProjectState.documentAmount
  metadata : s.metadataBytes = s.states.total ProjectState.metadataAmount
  index : s.indexBytes = s.states.total ProjectState.indexAmount

theorem accounted_empty : Index.empty.Accounted := ⟨rfl, rfl, rfl, rfl⟩

variable {indexing : Indexing} {project : Text} {state state' : ProjectState}
  {sizes : Option (Nat × Nat)}

/-- Putting a state in the place of another one changes a sum by the difference. -/
theorem total_set_of_get (hget : s.states.get project = some state) (amount : ProjectState → Int) :
    (s.states.set project state').total amount =
      s.states.total amount - amount state + amount state' := by
  rw [InsertionMap.total_set, hget]
  rfl

variable {state' : ProjectState} {state : ProjectState} {indexing indexing' : Indexing}
  {rounds : Nat} {added : Bool}

theorem total_delete_of_get
    (hget : s.states.get project = some state) (amount : ProjectState → Int) :
    (s.states.delete project).total amount = s.states.total amount - amount state := by
  rw [InsertionMap.total_delete, hget]
  rfl

/-- The bound that keeps a total from falling below zero is not reached. -/
theorem max_sub_of_get (hget : s.states.get project = some state) {amount : ProjectState → Int}
    (hamount : ∀ state, 0 ≤ amount state) {total : Int} (htotal : total = s.states.total amount) :
    max 0 (total - amount state) = (s.states.delete project).total amount := by
  have hle := InsertionMap.le_total hamount hget
  rw [total_delete_of_get hget, htotal]
  omega

/-! ## What is kept -/

def Index.Pending (s : Index) (project : Text) (entry : Entry) : Prop :=
  ∃ indexing, s.indexing = some indexing ∧ indexing.project = project ∧
    entry.document = indexing.document

/-- Each entry's document is in, or it is the one that is being indexed. -/
def Index.Counted (s : Index) : Prop :=
  ∀ project state, s.states.get project = some state → ∀ entry ∈ state.entries.values,
    entry.document ∈ state.documents ∨ s.Pending project entry

/-- What holds of the projects and of the document that is being indexed in every run. -/
structure Index.Sound (s : Index) : Prop where
  consistent : ∀ project state, s.states.get project = some state → state.Consistent
  current : ∀ indexing, s.indexing = some indexing → ∃ state,
    s.states.get indexing.project = some state ∧ Apart indexing.spans ∧
      Fresh indexing state.entries indexing.spans ∧
      (indexing.spans = [] ↔ indexing.document ∈ state.documents)
  counted : s.closed = true ∨ s.unavailable = true ∨ s.Counted

theorem sound_empty : Index.empty.Sound where
  consistent := by
    intro project state h
    cases h
  current := by
    intro indexing h
    cases h
  counted := by
    refine Or.inr (Or.inr ?_)
    intro project state h
    cases h

theorem fresh_of_document {entries : InsertionMap Nat Entry}
    (h : ∀ entry ∈ entries.values, entry.document ≠ indexing.document) (spans : List Span) :
    Fresh indexing entries spans := by
  intro span _ entry hentry heq
  exact h entry hentry (documentIdentity_of_vectorIdentity heq)

theorem Index.Counted.set (h : s.Counted) (hstates : t.states = s.states.set project state')
    (hown : ∀ entry ∈ state'.entries.values,
      entry.document ∈ state'.documents ∨ t.Pending project entry)
    (hpending : ∀ other entry, other ≠ project → s.Pending other entry → t.Pending other entry) :
    t.Counted := by
  intro other state hget entry hentry
  rw [hstates, InsertionMap.get_set] at hget
  split_ifs at hget with heq
  · obtain rfl := Option.some.inj hget
    rw [heq]
    exact hown entry hentry
  · exact (h other state hget entry hentry).imp_right (hpending other entry heq)

theorem Index.Counted.delete (h : s.Counted) (hstates : t.states = s.states.delete project)
    (hpending : ∀ other entry, s.Pending other entry → t.Pending other entry) : t.Counted := by
  intro other state hget entry hentry
  rw [hstates, InsertionMap.get_delete] at hget
  split_ifs at hget with heq
  exact (h other state hget entry hentry).imp_right (hpending other entry)

theorem consistent_set (h : s.Sound) (hconsistent : state'.Consistent)
    (hstates : t.states = s.states.set project state') :
    ∀ other state, t.states.get other = some state → state.Consistent := by
  intro other state hget
  rw [hstates, InsertionMap.get_set] at hget
  split_ifs at hget
  · rwa [← Option.some.inj hget]
  · exact h.consistent other state hget

theorem consistent_delete (h : s.Sound) (hstates : t.states = s.states.delete project) :
    ∀ other state, t.states.get other = some state → state.Consistent := by
  intro other state hget
  rw [hstates, InsertionMap.get_delete] at hget
  split_ifs at hget
  exact h.consistent other state hget

/-! ## Every action keeps the projects sound -/

/-- A state change that ends the indexing under way, or comes without one, leaves nothing current. -/
theorem Index.Sound.of_none (hnone : t.indexing = none)
    (hconsistent : ∀ project state, t.states.get project = some state → state.Consistent)
    (hcounted : t.closed = true ∨ t.unavailable = true ∨ t.Counted) : t.Sound where
  consistent := hconsistent
  current := by
    intro indexing h
    rw [hnone] at h
    cases h
  counted := hcounted

theorem Index.Counted.load (hcounted : s.Counted) (files : Files) :
    (s.loadStep config project files).Counted :=
  hcounted.set rfl
    (fun entry hentry => Or.inl ((loaded_loadProject config project files).documents entry hentry))
    fun _ _ _ hpending => hpending

theorem Index.Sound.load (h : s.Sound) (hget : s.states.get project = none) (files : Files) :
    (s.loadStep config project files).Sound where
  consistent := consistent_set h (loaded_loadProject config project files).consistent rfl
  current := by
    intro indexing hindexing
    obtain ⟨state, hstate, hspans⟩ := h.current indexing hindexing
    have hne : indexing.project ≠ project := by
      intro heq
      rw [heq, hget] at hstate
      cases hstate
    exact ⟨state, (InsertionMap.get_set_of_ne _ _ hne).trans hstate, hspans⟩
  counted := h.counted.imp_right (Or.imp_right fun hcounted => hcounted.load files)

/-- A document that begins to be indexed was not known, and nothing else was under way. -/
theorem Index.Counted.begin (hcounted : s.Counted) (hnone : s.indexing = none)
    (hget : s.states.get indexing.project = some state)
    (hstates : t.states = s.states.set indexing.project { state with viewed := false }) :
    t.Counted := by
  have hnothing : ∀ project entry, ¬ s.Pending project entry := by
    rintro project entry ⟨pending, hpending, -⟩
    rw [hnone] at hpending
    cases hpending
  refine hcounted.set hstates (fun entry hentry => Or.inl ?_) fun other entry _ hpending =>
    absurd hpending (hnothing other entry)
  exact (hcounted _ state hget entry hentry).resolve_right (hnothing _ entry)

theorem Index.Sound.begin (h : s.Sound) {writable : Bool} (hnone : s.indexing = none)
    (hstep : s.beginDocument indexing writable = some t) : t.Sound := by
  rw [beginDocument] at hstep
  split_ifs at hstep with hidle
  · rwa [← Option.some.inj hstep]
  · obtain ⟨state, hget, hstep⟩ := Option.map_eq_some_iff.mp hstep
    rw [not_or, not_or] at hidle
    split_ifs at hstep with hknown hviewed
    · rwa [← hstep]
    · subst hstep
      exact ⟨h.consistent, h.current, Or.inr (Or.inl rfl)⟩
    · subst hstep
      have hcounted : s.Counted := by
        rcases h.counted with hclosed | hunavailable | hcounted
        · exact absurd hclosed hidle.1
        · exact absurd hunavailable hidle.2.1
        · exact hcounted
      have hdocuments : ∀ entry ∈ state.entries.values, entry.document ∈ state.documents := by
        intro entry hentry
        rcases hcounted _ state hget entry hentry with hin | ⟨other, hother, -⟩
        · exact hin
        · rw [hnone] at hother
          cases hother
      have hconsistent : ({ state with viewed := false } : ProjectState).Consistent :=
        h.consistent _ state hget
      refine ⟨consistent_set h hconsistent rfl, ?_, Or.inr (Or.inr (hcounted.begin hnone hget rfl))⟩
      intro other hother
      obtain rfl := Option.some.inj hother
      refine ⟨_, InsertionMap.get_set_self _ _ _, apart_distinctSpans _, ?_, fun hnil => ?_,
        fun hin => absurd hin hknown⟩
      · exact fresh_of_document (fun entry hentry heq => hknown (heq ▸ hdocuments entry hentry)) _
      · exact absurd (distinctSpans_eq_nil.mp hnil) hidle.2.2

/-- The spans behind a batch are fresh when the batch is in. -/
theorem Added.fresh {spans rest : List Span}
    (hadded : Added indexing spans state state') (hapart : Apart (spans ++ rest))
    (hfresh : Fresh indexing state.entries rest) : Fresh indexing state'.entries rest := by
  intro span hspan entry hentry
  rcases hadded.mem_cases hentry with hold | ⟨other, hother, label, rfl⟩
  · exact hfresh span hspan entry hold
  · intro heq
    exact (List.pairwise_append.mp hapart).2.2 other hother span hspan (Indexing.identity_inj heq)

theorem embedBatch_eq_some (h : s.Sound) (hindexing : s.indexing = some indexing)
    (hspans : indexing.spans ≠ []) (hstep : s.embedBatch config indexing rounds added = some t) :
    ∃ state state', s.states.get indexing.project = some state ∧
      indexing.document ∉ state.documents ∧
      Added indexing (indexing.spans.take config.batchSize) { state with index := true } state' ∧
      Apart (indexing.spans.drop config.batchSize) ∧
      Fresh indexing state'.entries (indexing.spans.drop config.batchSize) ∧
      t = if added then
          { s with
            entryCount := s.entryCount + (indexing.spans.take config.batchSize).length }.endBatch
            { indexing with spans := indexing.spans.drop config.batchSize } state'
        else { s with
          entryCount := s.entryCount + (indexing.spans.take config.batchSize).length
          states := s.states.set indexing.project state'
          unavailable := true
          indexing := none } := by
  obtain ⟨state, hget, hstep⟩ := Option.bind_eq_some_iff.mp hstep
  obtain ⟨⟨total, state'⟩, hadd, rfl⟩ := Option.map_eq_some_iff.mp hstep
  obtain ⟨state₀, hget₀, hapart, hfresh, hlast⟩ := h.current indexing hindexing
  obtain rfl : state₀ = state := by
    rw [hget] at hget₀
    exact (Option.some.inj hget₀).symm
  have hconsistent : ({ state₀ with index := true } : ProjectState).Consistent :=
    h.consistent _ state₀ hget
  have hsplit : Apart (indexing.spans.take config.batchSize ++
      indexing.spans.drop config.batchSize) := by
    rwa [List.take_append_drop]
  obtain ⟨rfl, hadded⟩ := addSpans_spec hconsistent hapart.take
    (fun span hspan => hfresh span (List.mem_of_mem_take hspan)) hadd
  refine ⟨state₀, state', hget, fun hin => hspans (hlast.mpr hin), hadded, hapart.drop, hadded.fresh hsplit fun span hspan =>
    hfresh span (List.mem_of_mem_drop hspan), ?_⟩
  cases added <;> rfl

theorem Added.mem_or_document {spans : List Span} (hadded : Added indexing spans state state') :
    ∀ entry ∈ state'.entries.values,
      entry ∈ state.entries.values ∨ entry.document = indexing.document := by
  intro entry hentry
  rcases hadded.mem_cases hentry with hold | ⟨span, -, label, rfl⟩
  · exact Or.inl hold
  · exact Or.inr rfl

theorem Index.Counted.goOn (hcounted : s.Counted) (hindexing : s.indexing = some indexing)
    (hget : s.states.get indexing.project = some state)
    (hproject : indexing'.project = indexing.project)
    (hdocument : indexing'.document = indexing.document)
    (hstates : t.states = s.states.set indexing.project state')
    (hindexing' : t.indexing = some indexing')
    (hentries : ∀ entry ∈ state'.entries.values,
      entry ∈ state.entries.values ∨ entry.document = indexing.document)
    (hdocuments : ∀ document ∈ state.documents, document ∈ state'.documents) : t.Counted := by
  have hpending : ∀ project entry, s.Pending project entry → t.Pending project entry := by
    rintro project entry ⟨other, hother, hsame, hof⟩
    rw [hindexing] at hother
    obtain rfl := Option.some.inj hother
    exact ⟨indexing', hindexing', hproject.trans hsame, hof.trans hdocument.symm⟩
  refine hcounted.set hstates (fun entry hentry => ?_) fun other entry _ => hpending other entry
  rcases hentries entry hentry with hold | hnew
  · exact (hcounted _ state hget entry hold).imp (hdocuments _) (hpending _ entry)
  · exact Or.inr ⟨indexing', hindexing', hproject, hnew.trans hdocument.symm⟩

theorem Index.Sound.goOn (h : s.Sound) (hindexing : s.indexing = some indexing)
    (hget : s.states.get indexing.project = some state)
    (hproject : indexing'.project = indexing.project)
    (hdocument : indexing'.document = indexing.document)
    (hstates : t.states = s.states.set indexing.project state')
    (hindexing' : t.indexing = some indexing') (hclosed : t.closed = s.closed)
    (hunavailable : t.unavailable = s.unavailable) (hconsistent : state'.Consistent)
    (hapart : Apart indexing'.spans) (hfresh : Fresh indexing' state'.entries indexing'.spans)
    (hentries : ∀ entry ∈ state'.entries.values,
      entry ∈ state.entries.values ∨ entry.document = indexing.document)
    (hdocuments : ∀ document ∈ state.documents, document ∈ state'.documents)
    (hlast : indexing'.spans = [] ↔ indexing'.document ∈ state'.documents) : t.Sound where
  consistent := consistent_set h hconsistent hstates
  current := by
    intro other hother
    rw [hindexing'] at hother
    obtain rfl := Option.some.inj hother
    refine ⟨state', ?_, hapart, hfresh, hlast⟩
    rw [hstates, hproject, InsertionMap.get_set_self]
  counted := by
    rw [hclosed, hunavailable]
    exact h.counted.imp_right (Or.imp_right fun hcounted => hcounted.goOn hindexing hget hproject
      hdocument hstates hindexing' hentries hdocuments)

theorem Index.Sound.embedBatch (h : s.Sound) (hindexing : s.indexing = some indexing)
    (hspans : indexing.spans ≠ []) (hstep : s.embedBatch config indexing rounds added = some t) :
    t.Sound := by
  obtain ⟨state, state', hget, hnew, hadded, hapart, hfresh, rfl⟩ :=
    embedBatch_eq_some h hindexing hspans hstep
  have hdocuments : state'.documents = state.documents := by rw [hadded.frame]
  have hentries := hadded.mem_or_document
  cases added with
  | false => exact .of_none rfl (consistent_set h hadded.consistent rfl) (Or.inr (Or.inl rfl))
  | true =>
    simp only [if_true, Index.endBatch]
    split_ifs with hlast
    · refine h.goOn hindexing hget ?_ ?_ rfl rfl rfl rfl hadded.consistent hapart hfresh hentries
        (fun document hdocument => ?_) (iff_of_true hlast ?_)
      · rfl
      · rfl
      · exact mem_addDocument.mpr (Or.inr (hdocuments ▸ hdocument))
      · exact mem_addDocument.mpr (Or.inl rfl)
    · refine h.goOn hindexing hget ?_ ?_ rfl rfl rfl rfl hadded.consistent hapart hfresh hentries
        (fun document hdocument => hdocuments ▸ hdocument)
        (iff_of_false hlast (hdocuments ▸ hnew))
      · rfl
      · rfl

theorem Index.Sound.batch (h : s.Sound) {outcome : Batch} (hindexing : s.indexing = some indexing)
    (hspans : indexing.spans ≠ []) (hstep : s.batchStep config indexing outcome = some t) :
    t.Sound := by
  cases outcome with
  | closed =>
    rw [batchStep] at hstep
    split_ifs at hstep with hclosed
    rw [← Option.some.inj hstep]
    exact .of_none rfl h.consistent (Or.inl hclosed)
  | failed =>
    rw [← Option.some.inj hstep]
    exact .of_none rfl h.consistent (Or.inr (Or.inl rfl))
  | embedded rounds added => exact h.embedBatch hindexing hspans hstep

/-- When its last batch is in, the document is in. -/
theorem Index.Counted.persist (hcounted : s.Counted) (h : s.Sound)
    (hindexing : s.indexing = some indexing) (hlast : indexing.spans = [])
    (hstep : s.persistStep indexing sizes = some t) : t.Counted := by
  obtain ⟨state₀, hget₀, -, -, hdocument⟩ := h.current indexing hindexing
  have hin : ∀ project state, s.states.get project = some state →
      ∀ entry ∈ state.entries.values, entry.document ∈ state.documents := by
    intro project state hget entry hentry
    rcases hcounted project state hget entry hentry with hin | ⟨other, hother, hsame, hof⟩
    · exact hin
    · rw [hindexing] at hother
      obtain rfl := Option.some.inj hother
      rw [← hsame, hget₀] at hget
      obtain rfl := Option.some.inj hget
      rw [hof]
      exact hdocument.mp hlast
  rcases sizes with _ | sizes
  · rw [← Option.some.inj hstep]
    exact fun project state hget entry hentry => Or.inl (hin project state hget entry hentry)
  · obtain ⟨state, hget, rfl⟩ := Option.map_eq_some_iff.mp hstep
    intro project other hother entry hentry
    rw [InsertionMap.get_set] at hother
    split_ifs at hother with heq
    · obtain rfl := Option.some.inj hother
      exact Or.inl (hin _ state hget entry hentry)
    · exact Or.inl (hin project other hother entry hentry)

theorem Index.Sound.persist (h : s.Sound) (hindexing : s.indexing = some indexing)
    (hlast : indexing.spans = []) (hstep : s.persistStep indexing sizes = some t) : t.Sound := by
  rcases sizes with _ | ⟨metadataBytes, indexBytes⟩
  · rw [← Option.some.inj hstep]
    exact .of_none rfl h.consistent (Or.inr (Or.inl rfl))
  · obtain ⟨state, hget, ht⟩ := Option.map_eq_some_iff.mp hstep
    have hconsistent : ({ state with metadataBytes, indexBytes, dirty := false } :
        ProjectState).Consistent := h.consistent _ state hget
    subst ht
    exact .of_none rfl (consistent_set h hconsistent rfl)
      (h.counted.imp_right (Or.imp_right fun hcounted => hcounted.persist h hindexing hlast hstep))

theorem Index.Sound.swap (h : s.Sound) (hnone : s.indexing = none) (project : Text) :
    (s.swapProject project).Sound := by
  rw [swapProject]
  split
  · exact h
  · refine .of_none hnone (consistent_delete h rfl) ?_
    exact h.counted.imp_right (Or.imp_right fun hcounted =>
      hcounted.delete rfl fun _ _ hpending => hpending)

theorem Index.Sound.remove (h : s.Sound) (hnone : s.indexing = none) (project : Text) :
    (s.removeProject project).Sound := by
  rw [removeProject]
  split
  · exact h
  · refine .of_none hnone (consistent_delete h rfl) ?_
    exact h.counted.imp_right (Or.imp_right fun hcounted =>
      hcounted.delete rfl fun _ _ hpending => hpending)

theorem Index.Sound.step (h : s.Sound) {action : Action}
    (hstep : s.step config action = some t) : t.Sound := by
  cases action with
  | load project files =>
    simp only [Index.step] at hstep
    split_ifs at hstep with hget
    rw [← Option.some.inj hstep]
    exact h.load hget files
  | begin project documentId version spans writable =>
    simp only [Index.step] at hstep
    split_ifs at hstep with hnone
    exact h.begin hnone hstep
  | batch outcome =>
    obtain ⟨indexing, hindexing, hstep⟩ := Option.bind_eq_some_iff.mp hstep
    split_ifs at hstep with hspans
    exact h.batch hindexing hspans hstep
  | persist sizes =>
    obtain ⟨indexing, hindexing, hstep⟩ := Option.bind_eq_some_iff.mp hstep
    split_ifs at hstep with hlast
    exact h.persist hindexing hlast hstep
  | fail =>
    rw [← Option.some.inj hstep]
    exact ⟨h.consistent, h.current, Or.inr (Or.inl rfl)⟩
  | close =>
    rw [← Option.some.inj hstep]
    exact ⟨h.consistent, h.current, Or.inl rfl⟩
  | swap project =>
    simp only [Index.step] at hstep
    split_ifs at hstep with hnone
    rw [← Option.some.inj hstep]
    exact h.swap hnone project
  | removeProject project =>
    simp only [Index.step] at hstep
    split_ifs at hstep with hnone
    rw [← Option.some.inj hstep]
    exact h.remove hnone project

theorem sound_of_reaches {allowed : Index → Action → Prop}
    (h : (machine config).Reaches allowed s) : s.Sound := by
  refine h.invariant Index.Sound ?_ fun u action v hu _ hstep => hu.step hstep
  rintro u rfl
  exact sound_empty

/-! ## What every action adds to the totals -/

/-- The totals follow a project's state that is replaced. -/
theorem Index.Accounted.set (h : s.Accounted)
    (hget : s.states.get project = some state) (hstates : t.states = s.states.set project state')
    (hentries : t.entryCount = s.entryCount - state.entryAmount + state'.entryAmount)
    (hdocuments : t.documentCount = s.documentCount - state.documentAmount + state'.documentAmount)
    (hmetadata : t.metadataBytes = s.metadataBytes - state.metadataAmount + state'.metadataAmount)
    (hindex : t.indexBytes = s.indexBytes - state.indexAmount + state'.indexAmount) :
    t.Accounted := by
  refine ⟨?_, ?_, ?_, ?_⟩
  · rw [hstates, total_set_of_get hget, hentries, h.entries]
  · rw [hstates, total_set_of_get hget, hdocuments, h.documents]
  · rw [hstates, total_set_of_get hget, hmetadata, h.metadata]
  · rw [hstates, total_set_of_get hget, hindex, h.index]

theorem Index.Accounted.of_frame (h : s.Accounted) (hstates : t.states = s.states)
    (hentries : t.entryCount = s.entryCount) (hdocuments : t.documentCount = s.documentCount)
    (hmetadata : t.metadataBytes = s.metadataBytes) (hindex : t.indexBytes = s.indexBytes) :
    t.Accounted := by
  refine ⟨?_, ?_, ?_, ?_⟩
  · rw [hstates, hentries, h.entries]
  · rw [hstates, hdocuments, h.documents]
  · rw [hstates, hmetadata, h.metadata]
  · rw [hstates, hindex, h.index]

theorem Index.Accounted.load (h : s.Accounted)
    (hget : s.states.get project = none) (files : Files) :
    (s.loadStep config project files).Accounted := by
  have htotal : ∀ amount state', (s.states.set project state').total amount =
      s.states.total amount + amount state' := by
    intro amount state'
    rw [InsertionMap.total_set, hget]
    simp
  refine ⟨?_, ?_, ?_, ?_⟩
  · rw [loadStep, htotal, ← h.entries]
    rfl
  · rw [loadStep, htotal, ← h.documents]
    rfl
  · rw [loadStep, htotal, ← h.metadata]
    rfl
  · rw [loadStep, htotal, ← h.index]
    rfl

theorem Index.Accounted.begin (h : s.Accounted) {writable : Bool}
    (hstep : s.beginDocument indexing writable = some t) : t.Accounted := by
  rw [beginDocument] at hstep
  split_ifs at hstep
  · rwa [← Option.some.inj hstep]
  · obtain ⟨state, hget, hstep⟩ := Option.map_eq_some_iff.mp hstep
    split_ifs at hstep
    · rwa [← hstep]
    · rw [← hstep]
      exact h.of_frame rfl rfl rfl rfl rfl
    · rw [← hstep]
      refine h.set hget rfl ?_ ?_ ?_ ?_
      · simp [ProjectState.entryAmount]
      · simp [ProjectState.documentAmount]
      · simp [ProjectState.metadataAmount]
      · simp [ProjectState.indexAmount]

theorem Added.entryAmount {spans : List Span} (h : Added indexing spans state state') :
    state'.entryAmount = state.entryAmount + spans.length := by
  have hlength := h.length
  simp only [InsertionMap.values, List.length_map] at hlength
  rw [ProjectState.entryAmount, ProjectState.entryAmount, hlength]
  omega

theorem Index.Accounted.embedBatch (h : s.Accounted) (hsound : s.Sound)
    (hindexing : s.indexing = some indexing) (hspans : indexing.spans ≠ [])
    (hstep : s.embedBatch config indexing rounds added = some t) : t.Accounted := by
  obtain ⟨state, state', hget, hnew, hadded, -, -, rfl⟩ :=
    embedBatch_eq_some hsound hindexing hspans hstep
  have hentries := hadded.entryAmount
  have hdocuments : state'.documents = state.documents := by rw [hadded.frame]
  have hmetadata : state'.metadataBytes = state.metadataBytes := by rw [hadded.frame]
  have hindex : state'.indexBytes = state.indexBytes := by rw [hadded.frame]
  have hadd : addDocument state'.documents indexing.document =
      state.documents ++ [indexing.document] := by
    rw [hdocuments, addDocument, if_neg hnew]
  have htotal : s.entryCount + (indexing.spans.take config.batchSize).length =
      s.entryCount - state.entryAmount + state'.entryAmount := by
    simp only [ProjectState.entryAmount] at hentries ⊢
    omega
  cases added with
  | false =>
    refine h.set hget rfl ?_ ?_ ?_ ?_
    · exact htotal
    · simp [ProjectState.documentAmount, hdocuments]
    · simp [ProjectState.metadataAmount, hmetadata]
    · simp [ProjectState.indexAmount, hindex]
  | true =>
    simp only [if_true, Index.endBatch]
    split_ifs with hlast
    · refine h.set hget rfl ?_ ?_ ?_ ?_
      · exact htotal
      · simp only [ProjectState.documentAmount, ProjectState.addDocument]
        rw [show Indexing.document { indexing with
          spans := indexing.spans.drop config.batchSize } = indexing.document from rfl, hadd,
          List.length_append, List.length_singleton]
        omega
      · simp [ProjectState.metadataAmount, ProjectState.addDocument, hmetadata]
      · simp [ProjectState.indexAmount, ProjectState.addDocument, hindex]
    · refine h.set hget rfl ?_ ?_ ?_ ?_
      · exact htotal
      · simp [ProjectState.documentAmount, hdocuments]
      · simp [ProjectState.metadataAmount, hmetadata]
      · simp [ProjectState.indexAmount, hindex]

theorem Index.Accounted.persist (h : s.Accounted) (hstep : s.persistStep indexing sizes = some t) :
    t.Accounted := by
  rcases sizes with _ | ⟨metadataBytes, indexBytes⟩
  · rw [← Option.some.inj hstep]
    exact h.of_frame rfl rfl rfl rfl rfl
  · obtain ⟨state, hget, rfl⟩ := Option.map_eq_some_iff.mp hstep
    refine h.set hget rfl ?_ ?_ ?_ ?_
    · simp [ProjectState.entryAmount]
    · simp [ProjectState.documentAmount]
    · simp only [ProjectState.metadataAmount]
      omega
    · simp only [ProjectState.indexAmount]
      omega

theorem Index.Accounted.swap (h : s.Accounted) (project : Text) :
    (s.swapProject project).Accounted := by
  rw [swapProject]
  split
  · exact h
  · rename_i state hget
    refine ⟨?_, ?_, ?_, ?_⟩
    · exact max_sub_of_get hget (fun state => Int.natCast_nonneg _) h.entries
    · exact max_sub_of_get hget (fun state => Int.natCast_nonneg _) h.documents
    · exact max_sub_of_get hget (fun state => Int.natCast_nonneg _) h.metadata
    · exact max_sub_of_get hget (fun state => Int.natCast_nonneg _) h.index

/-- The project has neither entries nor files when it is loaded. -/
def Index.Vacant (s : Index) (project : Text) : Prop :=
  ∀ state, s.states.get project = some state →
    state.entries.entries = [] ∧ state.metadataBytes = 0 ∧ state.indexBytes = 0

/-- A removal keeps the totals right exactly when there is nothing in the project but documents. -/
theorem accounted_removeProject_iff (h : s.Accounted) (project : Text) :
    (s.removeProject project).Accounted ↔ s.Vacant project := by
  rcases hget : s.states.get project with _ | state
  · simp only [Index.removeProject, hget, Index.Vacant]
    refine iff_of_true h fun state hsome => ?_
    cases hsome
  · have hdocuments : max 0 (s.documentCount - state.documentAmount) =
        (s.states.delete project).total ProjectState.documentAmount :=
      max_sub_of_get hget (fun state => Int.natCast_nonneg _) h.documents
    have hleft : ∀ amount : ProjectState → Int, ∀ total, total = s.states.total amount →
        (total = (s.states.delete project).total amount ↔ amount state = 0) := by
      intro amount total htotal
      rw [total_delete_of_get hget, htotal]
      omega
    have hentries : state.entryAmount = 0 ↔ state.entries.entries = [] := by
      simp [ProjectState.entryAmount]
    have hmetadata : state.metadataAmount = 0 ↔ state.metadataBytes = 0 := by
      simp [ProjectState.metadataAmount]
    have hindex : state.indexAmount = 0 ↔ state.indexBytes = 0 := by
      simp [ProjectState.indexAmount]
    simp only [Index.removeProject, hget, Index.Vacant, Option.some.injEq]
    constructor
    · rintro hafter _ rfl
      exact ⟨hentries.mp ((hleft _ _ h.entries).mp hafter.entries),
        hmetadata.mp ((hleft _ _ h.metadata).mp hafter.metadata),
        hindex.mp ((hleft _ _ h.index).mp hafter.index)⟩
    · intro hvacant
      obtain ⟨hempty, hnometadata, hnoindex⟩ := hvacant state rfl
      exact ⟨(hleft _ _ h.entries).mpr (hentries.mpr hempty), hdocuments,
        (hleft _ _ h.metadata).mpr (hmetadata.mpr hnometadata),
        (hleft _ _ h.index).mpr (hindex.mpr hnoindex)⟩

/-- A project that is removed is vacant. -/
def Spares (s : Index) : Action → Prop
  | .removeProject project => s.Vacant project
  | _ => True

theorem Index.Accounted.step (h : s.Accounted) (hsound : s.Sound) {action : Action}
    (hspares : Spares s action) (hstep : s.step config action = some t) : t.Accounted := by
  cases action with
  | load project files =>
    simp only [Index.step] at hstep
    split_ifs at hstep with hget
    rw [← Option.some.inj hstep]
    exact h.load hget files
  | begin project documentId version spans writable =>
    simp only [Index.step] at hstep
    split_ifs at hstep
    exact h.begin hstep
  | batch outcome =>
    obtain ⟨indexing, hindexing, hstep⟩ := Option.bind_eq_some_iff.mp hstep
    split_ifs at hstep with hspans
    cases outcome with
    | closed =>
      rw [batchStep] at hstep
      split_ifs at hstep
      rw [← Option.some.inj hstep]
      exact h.of_frame rfl rfl rfl rfl rfl
    | failed =>
      rw [← Option.some.inj hstep]
      exact h.of_frame rfl rfl rfl rfl rfl
    | embedded rounds added => exact h.embedBatch hsound hindexing hspans hstep
  | persist sizes =>
    obtain ⟨indexing, -, hstep⟩ := Option.bind_eq_some_iff.mp hstep
    split_ifs at hstep
    exact h.persist hstep
  | fail =>
    rw [← Option.some.inj hstep]
    exact h.of_frame rfl rfl rfl rfl rfl
  | close =>
    rw [← Option.some.inj hstep]
    exact h.of_frame rfl rfl rfl rfl rfl
  | swap project =>
    simp only [Index.step] at hstep
    split_ifs at hstep
    rw [← Option.some.inj hstep]
    exact h.swap project
  | removeProject project =>
    simp only [Index.step] at hstep
    split_ifs at hstep
    rw [← Option.some.inj hstep]
    exact (accounted_removeProject_iff h project).mpr hspares

theorem accounted_of_reaches (h : (machine config).Reaches Spares s) : s.Accounted := by
  have hboth : s.Sound ∧ s.Accounted := by
    refine h.invariant (fun u => u.Sound ∧ u.Accounted) ?_ ?_
    · rintro u rfl
      exact ⟨sound_empty, accounted_empty⟩
    · intro u action v hu hspares hstep
      exact ⟨hu.1.step hstep, hu.2.step hu.1 hspares hstep⟩
  exact hboth.2

/-! ## Labels -/

/-- A project's state after an action has what it had under every label. -/
def Keeps (s t : Index) : Prop :=
  ∀ project state state', s.states.get project = some state → t.states.get project = some state' →
    ∀ label entry, state.entries.get label = some entry → state'.entries.get label = some entry

theorem keeps_of_set
    (hstates : t.states = s.states.set project state')
    (h : ∀ state, s.states.get project = some state → ∀ label entry,
      state.entries.get label = some entry → state'.entries.get label = some entry) :
    Keeps s t := by
  intro other state after hget hget'
  rw [hstates, InsertionMap.get_set] at hget'
  split_ifs at hget' with heq
  · obtain rfl := Option.some.inj hget'
    rw [heq] at hget
    exact h state hget
  · rw [hget] at hget'
    obtain rfl := Option.some.inj hget'
    exact fun _ _ hentry => hentry

theorem keeps_of_states (hstates : t.states = s.states) : Keeps s t := by
  intro project state state' hget hget' label entry hentry
  rw [hstates, hget] at hget'
  rwa [← Option.some.inj hget']

theorem keeps_of_delete (hstates : t.states = s.states.delete project) : Keeps s t := by
  intro other state state' hget hget' label entry hentry
  rw [hstates, InsertionMap.get_delete] at hget'
  split_ifs at hget'
  rw [hget] at hget'
  rwa [← Option.some.inj hget']

theorem keeps_embedBatch (h : s.Sound) (hindexing : s.indexing = some indexing)
    (hspans : indexing.spans ≠ []) (hstep : s.embedBatch config indexing rounds added = some t) :
    Keeps s t := by
  obtain ⟨state, state', hget, -, hadded, -, -, rfl⟩ := embedBatch_eq_some h hindexing hspans hstep
  have hkept : ∀ before, s.states.get indexing.project = some before → ∀ label entry,
      before.entries.get label = some entry → state'.entries.get label = some entry := by
    intro before hbefore label entry hentry
    rw [hget] at hbefore
    obtain rfl := Option.some.inj hbefore
    exact hadded.kept label entry hentry
  cases added with
  | false => exact keeps_of_set rfl hkept
  | true =>
    simp only [if_true, Index.endBatch]
    split_ifs
    · exact keeps_of_set rfl hkept
    · exact keeps_of_set rfl hkept

theorem keeps_step (h : s.Sound) {action : Action} (hstep : s.step config action = some t) :
    Keeps s t := by
  cases action with
  | load project files =>
    simp only [Index.step] at hstep
    split_ifs at hstep with hnone
    rw [← Option.some.inj hstep]
    refine keeps_of_set rfl fun state hget => ?_
    rw [hnone] at hget
    cases hget
  | begin project documentId version spans writable =>
    simp only [Index.step] at hstep
    split_ifs at hstep
    rw [Index.beginDocument] at hstep
    split_ifs at hstep
    · exact keeps_of_states (by rw [Option.some.inj hstep])
    · obtain ⟨state, hget, hstep⟩ := Option.map_eq_some_iff.mp hstep
      split_ifs at hstep
      · exact keeps_of_states (by rw [hstep])
      · exact keeps_of_states (by rw [← hstep])
      · rw [← hstep]
        refine keeps_of_set rfl fun before hbefore label entry hentry => ?_
        rw [hget] at hbefore
        rwa [← Option.some.inj hbefore] at hentry
  | batch outcome =>
    obtain ⟨indexing, hindexing, hstep⟩ := Option.bind_eq_some_iff.mp hstep
    split_ifs at hstep with hspans
    cases outcome with
    | closed =>
      rw [Index.batchStep] at hstep
      split_ifs at hstep
      exact keeps_of_states (by rw [← Option.some.inj hstep])
    | failed => exact keeps_of_states (by rw [← Option.some.inj hstep])
    | embedded rounds added => exact keeps_embedBatch h hindexing hspans hstep
  | persist sizes =>
    obtain ⟨indexing, -, hstep⟩ := Option.bind_eq_some_iff.mp hstep
    split_ifs at hstep
    rcases sizes with _ | sizes
    · exact keeps_of_states (by rw [← Option.some.inj hstep])
    · obtain ⟨state, hget, rfl⟩ := Option.map_eq_some_iff.mp hstep
      refine keeps_of_set rfl fun before hbefore label entry hentry => ?_
      rw [hget] at hbefore
      rwa [← Option.some.inj hbefore] at hentry
  | fail => exact keeps_of_states (by rw [← Option.some.inj hstep])
  | close => exact keeps_of_states (by rw [← Option.some.inj hstep])
  | swap project =>
    simp only [Index.step] at hstep
    split_ifs at hstep
    rw [← Option.some.inj hstep, Index.swapProject]
    split
    · exact keeps_of_states rfl
    · exact keeps_of_delete rfl
  | removeProject project =>
    simp only [Index.step] at hstep
    split_ifs at hstep
    rw [← Option.some.inj hstep, Index.removeProject]
    split
    · exact keeps_of_states rfl
    · exact keeps_of_delete rfl

/-! ## Documents -/

/-- A batch does not break off the indexing of a document that has entries already. -/
def Whole (s : Index) : Action → Prop
  | .batch (.embedded _ added) => added = true
  | .batch _ => ∀ indexing state, s.indexing = some indexing →
      s.states.get indexing.project = some state →
      ∀ entry ∈ state.entries.values, entry.document ≠ indexing.document
  | _ => True

theorem Index.Counted.giveUp (hcounted : s.Counted) (hindexing : s.indexing = some indexing)
    (hwhole : ∀ state, s.states.get indexing.project = some state →
      ∀ entry ∈ state.entries.values, entry.document ≠ indexing.document)
    (hstates : t.states = s.states) : t.Counted := by
  intro project state hget entry hentry
  rw [hstates] at hget
  rcases hcounted project state hget entry hentry with hin | ⟨other, hother, rfl, hof⟩
  · exact Or.inl hin
  · rw [hindexing] at hother
    obtain rfl := Option.some.inj hother
    exact absurd hof (hwhole state hget entry hentry)

theorem Index.Counted.batch (hcounted : s.Counted) (h : s.Sound) {outcome : Batch}
    (hindexing : s.indexing = some indexing) (hspans : indexing.spans ≠ [])
    (hwhole : Whole s (.batch outcome)) (hstep : s.batchStep config indexing outcome = some t) :
    t.Counted := by
  cases outcome with
  | closed =>
    rw [Index.batchStep] at hstep
    split_ifs at hstep
    exact hcounted.giveUp hindexing (fun state => hwhole indexing state hindexing)
      (by rw [← Option.some.inj hstep])
  | failed =>
    exact hcounted.giveUp hindexing (fun state => hwhole indexing state hindexing)
      (by rw [← Option.some.inj hstep])
  | embedded rounds added =>
    obtain rfl : added = true := hwhole
    obtain ⟨state, state', hget, hnew, hadded, -, -, rfl⟩ :=
      embedBatch_eq_some h hindexing hspans hstep
    have hdocuments : state'.documents = state.documents := by rw [hadded.frame]
    simp only [if_true, Index.endBatch]
    split_ifs
    · refine hcounted.goOn hindexing hget ?_ ?_ rfl rfl hadded.mem_or_document
        fun document hdocument => mem_addDocument.mpr (Or.inr (hdocuments ▸ hdocument))
      · rfl
      · rfl
    · refine hcounted.goOn hindexing hget ?_ ?_ rfl rfl hadded.mem_or_document
        fun document hdocument => hdocuments ▸ hdocument
      · rfl
      · rfl

theorem Index.Counted.step (hcounted : s.Counted) (h : s.Sound) {action : Action}
    (hwhole : Whole s action) (hstep : s.step config action = some t) : t.Counted := by
  cases action with
  | load project files =>
    simp only [Index.step] at hstep
    split_ifs at hstep
    rw [← Option.some.inj hstep]
    exact hcounted.load files
  | begin project documentId version spans writable =>
    simp only [Index.step] at hstep
    split_ifs at hstep with hnone
    rw [Index.beginDocument] at hstep
    split_ifs at hstep
    · rwa [← Option.some.inj hstep]
    · obtain ⟨state, hget, hstep⟩ := Option.map_eq_some_iff.mp hstep
      split_ifs at hstep
      · rwa [← hstep]
      · rw [← hstep]
        exact hcounted
      · rw [← hstep]
        exact hcounted.begin hnone hget rfl
  | batch outcome =>
    obtain ⟨indexing, hindexing, hstep⟩ := Option.bind_eq_some_iff.mp hstep
    split_ifs at hstep with hspans
    exact hcounted.batch h hindexing hspans hwhole hstep
  | persist sizes =>
    obtain ⟨indexing, hindexing, hstep⟩ := Option.bind_eq_some_iff.mp hstep
    split_ifs at hstep with hlast
    exact hcounted.persist h hindexing hlast hstep
  | fail =>
    rw [← Option.some.inj hstep]
    exact hcounted
  | close =>
    rw [← Option.some.inj hstep]
    exact hcounted
  | swap project =>
    simp only [Index.step] at hstep
    split_ifs at hstep
    rw [← Option.some.inj hstep, Index.swapProject]
    split
    · exact hcounted
    · exact hcounted.delete rfl fun _ _ hpending => hpending
  | removeProject project =>
    simp only [Index.step] at hstep
    split_ifs at hstep
    rw [← Option.some.inj hstep, Index.removeProject]
    split
    · exact hcounted
    · exact hcounted.delete rfl fun _ _ hpending => hpending

theorem counted_of_reaches (h : (machine config).Reaches Whole s) : s.Counted := by
  have hboth : s.Sound ∧ s.Counted := by
    refine h.invariant (fun u => u.Sound ∧ u.Counted) ?_ ?_
    · rintro u rfl
      refine ⟨sound_empty, fun project state hget => ?_⟩
      cases hget
    · intro u action v hu hwhole hstep
      exact ⟨hu.1.step hstep, hu.2.step hu.1 hwhole hstep⟩
  exact hboth.2

/-! ## Runs -/

/-- In every run whose removals are of vacant projects, the totals are the sums over the projects
    that are loaded, a project's counts are the numbers of its documents' entries and add up to its
    entries, an entry's document has a count, and no action puts another span under a label. If
    moreover no indexing is broken off between its batches, each entry's document is among the
    documents, but for the one that is being indexed. -/
theorem reported_totals (hs : (machine config).Reaches Spares s) :
    s.Accounted ∧ (∀ project state, s.states.get project = some state →
        Counts state.entries state.entryCountByDocumentIdentity ∧ ∀ entry ∈ state.entries.values,
            0 < (state.entryCountByDocumentIdentity.get entry.document).getD 0) ∧
      (∀ action t, s.step config action = some t → Keeps s t) ∧
      ((machine config).Reaches Whole s → s.Counted) := by
  have hsound := sound_of_reaches hs
  refine ⟨accounted_of_reaches hs, fun project state hget => ?_, fun action t => keeps_step hsound,
    counted_of_reaches⟩
  have hconsistent := hsound.consistent project state hget
  exact ⟨hconsistent, fun entry hentry => hconsistent.count_pos hentry⟩

/-! ## A project that is removed -/

def sampleConfig : Config where
  fingerprint := text "f"
  dimensions := 384
  batchSize := 16
  batchSize_pos := by decide
  vectorLabel _ salt := salt + 1

/-- One document of two spans is indexed in a project without files. -/
def sampleActions : List Action := [
  .load (text "p") ⟨none, none, none, true, 0, 0⟩,
  .begin (text "p") (text "d") 1 [⟨0, 0, 10⟩, ⟨0, 5, 20⟩] true,
  .batch (.embedded 2 true),
  .persist (some (67, 1200))]

theorem sampleActions_spared : ∀ action ∈ sampleActions, ∀ s, Spares s action ∧ Whole s action := by
  intro action haction s
  simp only [sampleActions, List.mem_cons, List.not_mem_nil, or_false] at haction
  rcases haction with rfl | rfl | rfl | rfl
  · exact ⟨trivial, trivial⟩
  · exact ⟨trivial, trivial⟩
  · exact ⟨trivial, rfl⟩
  · exact ⟨trivial, trivial⟩

theorem reported_totals_sampleActions :
    ∃ s, (machine sampleConfig).run .empty sampleActions = some s ∧ s.entryCount = 2 ∧
      s.Accounted ∧ s.Counted := by
  have hcount : ((machine sampleConfig).run .empty sampleActions).map Index.entryCount =
      some 2 := by decide +kernel
  obtain ⟨s, hrun, htwo⟩ := Option.map_eq_some_iff.mp hcount
  have hreaches : ∀ allowed, (∀ action ∈ sampleActions, ∀ s, allowed s action) →
      (machine sampleConfig).Reaches allowed s := fun allowed h =>
    Machine.Reaches.run (.initial rfl) (Machine.allowed_of_mem h _) hrun
  obtain ⟨haccounted, -, -, hcounted⟩ :=
    reported_totals (hreaches Spares fun action h s => (sampleActions_spared action h s).1)
  exact ⟨s, hrun, htwo, haccounted,
    hcounted (hreaches Whole fun action h s => (sampleActions_spared action h s).2)⟩

/-- A project with two entries is removed: no project is loaded, and the index still reports the
    entries and the bytes. -/
theorem removeProject_leaves_totals :
    ∃ s, (machine sampleConfig).Reaches (fun _ _ => True) s ∧ s.states.values.length = 0 ∧
      s.entryCount = 2 ∧ s.metadataBytes = 67 ∧ s.indexBytes = 1200 ∧ ¬ s.Accounted := by
  have hvalues : ((machine sampleConfig).run .empty
      (sampleActions ++ [.removeProject (text "p")])).map (fun s => (s.states.values.length,
        s.entryCount, s.metadataBytes, s.indexBytes)) = some (0, 2, 67, 1200) := by decide +kernel
  obtain ⟨s, hrun, hs⟩ := Option.map_eq_some_iff.mp hvalues
  rw [Prod.mk.injEq, Prod.mk.injEq, Prod.mk.injEq] at hs
  obtain ⟨hnone, hentries, hmetadata, hindex⟩ := hs
  refine ⟨s, Machine.Reaches.run (.initial rfl) (Machine.allowed_of_forall (fun _ _ => trivial) _ _)
    hrun, hnone, hentries, hmetadata, hindex, fun h => ?_⟩
  have htotal := h.entries
  rw [InsertionMap.total, List.length_eq_zero_iff.mp hnone, hentries, Totals.total_nil] at htotal
  cases htotal

end ContextStore.SemanticIndex
