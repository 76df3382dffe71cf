import ContextStore.Semantic.Index
import ContextStore.Semantic.MetadataLayout

/-! # The entries of a project

Loading and indexing keep a project's entry counts in step with its entries, and a span that is new
to the project gets a label of its own. -/

namespace ContextStore.SemanticIndex

open Unicode
open Metadata (append_decimal_inj)

/-! ## Identities -/

theorem documentIdentity_inj {a b : Text} {m n : Nat}
    (h : documentIdentity a m = documentIdentity b n) : a = b ∧ m = n := append_decimal_inj h

variable {m n start start' stop stop' : Nat} {entries : InsertionMap Nat Entry}
  {counts : InsertionMap Text Nat} {entry : Entry} {state : ProjectState}

theorem vectorIdentity_inj {project a b : Text}
    (h : vectorIdentity project a m start stop = vectorIdentity project b n start' stop') :
    documentIdentity a m = documentIdentity b n ∧ start = start' ∧ stop = stop' := by
  have hsplit : ∀ (c : Text) (k first last : Nat), vectorIdentity project c k first last =
      (project ++ 0 :: documentIdentity c k ++ 0 :: text (toString first)) ++
        0 :: text (toString last) := by
    intro c k first last
    simp [vectorIdentity]
  rw [hsplit, hsplit] at h
  obtain ⟨hinit, hstop⟩ := append_decimal_inj h
  obtain ⟨hdocument, hstart⟩ := append_decimal_inj hinit
  exact ⟨List.cons_injective (List.append_cancel_left hdocument), hstart, hstop⟩

theorem documentIdentity_of_vectorIdentity {project a b : Text}
    (h : vectorIdentity project a m start stop = vectorIdentity project b n start' stop') :
    documentIdentity a m = documentIdentity b n := (vectorIdentity_inj h).1

/-! ## Spans -/

/-- The spans of a document that are told apart have different bytes. -/
def Apart (spans : List Span) : Prop :=
  spans.Pairwise fun a b => ¬ (a.startByte = b.startByte ∧ a.endByte = b.endByte)

theorem mem_of_mem_distinctSpans {spans : List Span} {span : Span}
    (h : span ∈ distinctSpans spans) : span ∈ spans := by
  induction spans with
  | nil => exact h
  | cons first rest ih =>
    rw [distinctSpans, List.mem_cons] at h
    rcases h with rfl | h
    · exact List.mem_cons_self
    · exact List.mem_cons_of_mem _ (ih (List.mem_of_mem_filter h))

theorem distinctSpans_eq_nil {spans : List Span} : distinctSpans spans = [] ↔ spans = [] := by
  rcases spans with _ | ⟨span, rest⟩
  · simp [distinctSpans]
  · simp [distinctSpans]

theorem apart_distinctSpans (spans : List Span) : Apart (distinctSpans spans) := by
  induction spans with
  | nil => exact List.Pairwise.nil
  | cons span rest ih =>
    refine List.Pairwise.cons (fun other hother => ?_) (ih.filter _)
    have hkept := (List.mem_filter.mp hother).2
    simp only [Bool.not_eq_true', Bool.and_eq_false_iff, beq_eq_false_iff_ne] at hkept
    rintro ⟨hstart, hstop⟩
    rcases hkept with hne | hne
    · exact hne hstart.symm
    · exact hne hstop.symm

/-! ## Counts -/

/-- The entries are under their labels, and each document's count is the number of its entries. -/
structure Counts (entries : InsertionMap Nat Entry) (counts : InsertionMap Text Nat) : Prop where
  labels : ∀ label entry, entries.get label = some entry → entry.label = label
  count : ∀ identity, (counts.get identity).getD 0 =
    entries.values.countP fun entry => entry.document = identity
  sum : counts.total (fun count : Nat => (count : Int)) = entries.values.length

def ProjectState.Consistent (state : ProjectState) : Prop :=
  Counts state.entries state.entryCountByDocumentIdentity

theorem counts_empty : Counts .empty .empty := by
  refine ⟨fun label entry h => ?_, fun identity => ?_, rfl⟩
  · simp at h
  · simp

theorem Counts.add (h : Counts entries counts) (hnew : entries.get entry.label = none) :
    Counts (entries.set entry.label entry)
      (counts.set entry.document ((counts.get entry.document).getD 0 + 1)) := by
  refine ⟨fun label other hget => ?_, fun identity => ?_, ?_⟩
  · rw [InsertionMap.get_set] at hget
    split_ifs at hget with hlabel
    · rw [hlabel, ← Option.some.inj hget]
    · exact h.labels label other hget
  · rw [InsertionMap.get_set, InsertionMap.values_set_of_none hnew, List.countP_append]
    by_cases hidentity : identity = entry.document
    · rw [if_pos hidentity, Option.getD_some, ← hidentity, h.count identity]
      simp [hidentity]
    · rw [if_neg hidentity, h.count identity]
      simp [Ne.symm hidentity]
  · rw [InsertionMap.total_set, h.sum, InsertionMap.values_set_of_none hnew, List.length_append]
    rcases hget : counts.get entry.document with _ | count
    · simp
    · simp
      omega

theorem Counts.count_pos (h : Counts entries counts) (hentry : entry ∈ entries.values) :
    0 < (counts.get entry.document).getD 0 := by
  rw [h.count]
  exact List.countP_pos_iff.mpr ⟨entry, hentry, by simp⟩

/-! ## Loading -/

theorem mem_addDocument {documents : List Text} {identity other : Text} :
    other ∈ addDocument documents identity ↔ other = identity ∨ other ∈ documents := by
  rw [addDocument]
  split_ifs with h
  · constructor
    · exact Or.inr
    · rintro (rfl | hother)
      · exact h
      · exact hother
  · rw [List.mem_append, List.mem_singleton, or_comm]

/-- What loading has made of the entries it has gone through. -/
structure Loaded (state : ProjectState) : Prop where
  consistent : state.Consistent
  documents : ∀ entry ∈ state.entries.values, entry.document ∈ state.documents

theorem loaded_empty : Loaded .empty := ⟨counts_empty, by simp [ProjectState.empty]⟩

theorem Loaded.loadEntry (h : Loaded state) (hnew : state.entries.get entry.label = none) :
    Loaded (loadEntry state entry) where
  consistent := h.consistent.add hnew
  documents := by
    intro other hother
    have hvalues : (SemanticIndex.loadEntry state entry).entries.values =
        state.entries.values ++ [entry] := InsertionMap.values_set_of_none hnew entry
    rw [hvalues, List.mem_append, List.mem_singleton] at hother
    refine mem_addDocument.mpr ?_
    rcases hother with hother | rfl
    · exact Or.inr (h.documents other hother)
    · exact Or.inl rfl

theorem Loaded.foldl (h : Loaded state) {entries : List Entry}
    (hnodup : (entries.map Entry.label).Nodup)
    (hnew : ∀ entry ∈ entries, state.entries.get entry.label = none) :
    Loaded (entries.foldl SemanticIndex.loadEntry state) := by
  induction entries generalizing state with
  | nil => exact h
  | cons entry rest ih =>
    rw [List.map_cons, List.nodup_cons] at hnodup
    rw [List.forall_mem_cons] at hnew
    refine ih (h.loadEntry hnew.1) hnodup.2 fun other hother => ?_
    have hne : other.label ≠ entry.label := fun heq =>
      hnodup.1 (heq ▸ List.mem_map_of_mem hother)
    exact (InsertionMap.get_set_of_ne _ _ hne).trans (hnew.2 other hother)

theorem toOption_eq_some {ε α : Type} {x : Except ε α} {a : α} :
    x.toOption = some a ↔ x = .ok a := by
  rcases x with e | b
  · simp [Except.toOption]
  · simp [Except.toOption]

theorem nodup_labels_readMetadata {config : Config} {project : Text} {files : Files}
    {result : Metadata.SnapshotResult} (h : readMetadata config project files = some result) :
    ((result.entries.map ofMetadata).map Entry.label).Nodup := by
  have hlabels : (result.entries.map Metadata.CompactEntry.label).Nodup := by
    rw [readMetadata, Option.or_eq_some_iff] at h
    rcases h with h | ⟨-, h⟩
    · obtain ⟨value, -, hvalue⟩ := Option.bind_eq_some_iff.mp h
      exact Metadata.nodup_labels_decodeSemanticMetadata (toOption_eq_some.mp hvalue)
    · obtain ⟨snapshot, -, hsnapshot⟩ := Option.bind_eq_some_iff.mp h
      have hok := toOption_eq_some.mp hsnapshot
      rw [Metadata.normalizeLegacySemanticMetadata] at hok
      split_ifs at hok
      exact Metadata.nodup_labels_normalizeSnapshot hok
  have hmap : (result.entries.map ofMetadata).map Entry.label =
      (result.entries.map Metadata.CompactEntry.label).map Subtype.val := by
    rw [List.map_map, List.map_map]
    rfl
  rw [hmap]
  exact hlabels.map Subtype.val_injective

theorem loaded_loadProject (config : Config) (project : Text) (files : Files) :
    Loaded (loadProject config project files) := by
  rw [loadProject]
  rcases hread : readMetadata config project files with _ | result
  · exact loaded_empty
  · have hloaded : Loaded (loadEntries (result.entries.map ofMetadata)) := by
      refine Loaded.foldl ?_ (nodup_labels_readMetadata hread) fun entry _ => ?_
      · exact ⟨counts_empty, by simp [ProjectState.empty]⟩
      · simp [ProjectState.empty]
    simp only
    split_ifs
    · exact ⟨hloaded.consistent, hloaded.documents⟩
    · exact loaded_empty

/-! ## Adding the spans of a batch -/

variable {config : Config} {indexing : Indexing}

/-- No entry stands for one of the spans. -/
def Fresh (indexing : Indexing) (entries : InsertionMap Nat Entry) (spans : List Span) : Prop :=
  ∀ span ∈ spans, ∀ entry ∈ entries.values, entry.identity indexing.project ≠ indexing.identity span

/-- A label whose entry stands for another span is passed over, so the label of a fresh span has no
    entry. -/
theorem get_freeLabel {project identity : Text}
    {rounds salt label : Nat} (hfresh : ∀ entry ∈ entries.values, entry.identity project ≠ identity)
    (h : freeLabel config project entries identity rounds salt = some label) :
    entries.get label = none := by
  induction rounds generalizing salt with
  | zero => cases h
  | succ rounds ih =>
    rw [freeLabel] at h
    rcases hget : entries.get (config.vectorLabel identity salt) with _ | existing
    · rw [hget] at h
      rwa [← Option.some.inj h]
    · have hother := hfresh existing (InsertionMap.mem_values.mpr ⟨_, hget⟩)
      simp only [hget, hother, ne_eq, not_false_eq_true, if_true] at h
      exact ih h

/-- What a batch has added to a project: an entry for each span, and nothing else. -/
structure Added (indexing : Indexing) (spans : List Span) (state state' : ProjectState) : Prop where
  consistent : state'.Consistent
  values : ∃ entries, state'.entries.values = state.entries.values ++ entries ∧
    List.Forall₂ (fun span entry => ∃ label, entry = indexing.entry span label) spans entries
  kept : ∀ label entry, state.entries.get label = some entry → state'.entries.get label = some entry
  frame : state' = { state with
    entries := state'.entries
    entryCountByDocumentIdentity := state'.entryCountByDocumentIdentity }

theorem Indexing.identity_inj {a b : Span} (h : indexing.identity a = indexing.identity b) :
    a.startByte = b.startByte ∧ a.endByte = b.endByte := (vectorIdentity_inj h).2

variable {state state' : ProjectState} {spans : List Span} {added : Int × ProjectState}

theorem addSpan_spec {rounds : Nat} {span : Span} {rest : List Span} {total : Int}
    (hconsistent : state.Consistent) (hapart : Apart (span :: rest))
    (hfresh : Fresh indexing state.entries (span :: rest))
    (h : addSpan config indexing rounds span total state = some added) :
    added.1 = total + 1 ∧ Added indexing [span] state added.2 ∧
      Fresh indexing added.2.entries rest := by
  obtain ⟨label, hlabel, rfl⟩ := Option.map_eq_some_iff.mp h
  have hnew : state.entries.get label = none :=
    get_freeLabel (hfresh span List.mem_cons_self) hlabel
  have hvalues : (state.entries.set label (indexing.entry span label)).values =
      state.entries.values ++ [indexing.entry span label] := InsertionMap.values_set_of_none hnew _
  refine ⟨rfl, ⟨hconsistent.add hnew, ⟨[_], hvalues, List.Forall₂.cons ⟨label, rfl⟩ .nil⟩, ?_, rfl⟩,
    ?_⟩
  · intro other entry hget
    have hne : other ≠ label := by
      rintro rfl
      rw [hnew] at hget
      cases hget
    exact (InsertionMap.get_set_of_ne _ _ hne).trans hget
  · intro other hother entry hentry
    have hmem : entry ∈ state.entries.values ++ [indexing.entry span label] := hvalues ▸ hentry
    rw [List.mem_append, List.mem_singleton] at hmem
    rcases hmem with hmem | rfl
    · exact hfresh other (List.mem_cons_of_mem _ hother) entry hmem
    · intro heq
      exact (List.pairwise_cons.mp hapart).1 other hother (Indexing.identity_inj heq)

theorem addSpans_spec {rounds : Nat} {total : Int}
    (hconsistent : state.Consistent) (hapart : Apart spans)
    (hfresh : Fresh indexing state.entries spans)
    (h : addSpans config indexing rounds spans total state = some added) :
    added.1 = total + spans.length ∧ Added indexing spans state added.2 := by
  induction spans generalizing total state with
  | nil =>
    cases h
    exact ⟨by simp, hconsistent, ⟨[], by simp, .nil⟩, fun _ _ hget => hget, rfl⟩
  | cons span rest ih =>
    obtain ⟨first, hfirst, hrest⟩ := Option.bind_eq_some_iff.mp h
    obtain ⟨htotal, hadded, hfresh'⟩ := addSpan_spec hconsistent hapart hfresh hfirst
    obtain ⟨htotal', hadded'⟩ :=
      ih hadded.consistent (List.pairwise_cons.mp hapart).2 hfresh' hrest
    obtain ⟨entries, hentries, hspans⟩ := hadded.values
    obtain ⟨entries', hentries', hspans'⟩ := hadded'.values
    refine ⟨?_, hadded'.consistent, ⟨entries ++ entries', ?_, ?_⟩, fun label entry hget =>
      hadded'.kept label entry (hadded.kept label entry hget), ?_⟩
    · rw [htotal', htotal, List.length_cons]
      omega
    · rw [hentries', hentries, List.append_assoc]
    · exact List.rel_append hspans hspans'
    · rw [hadded'.frame, hadded.frame]

theorem exists_left_of_forall₂ {α β : Type} {r : α → β → Prop} {xs : List α} {ys : List β}
    (h : List.Forall₂ r xs ys) {y : β} (hy : y ∈ ys) : ∃ x ∈ xs, r x y := by
  induction h with
  | nil => cases hy
  | cons hxy _ ih =>
    rcases List.mem_cons.mp hy with rfl | hy
    · exact ⟨_, List.mem_cons_self, hxy⟩
    · obtain ⟨x, hx, hr⟩ := ih hy
      exact ⟨x, List.mem_cons_of_mem _ hx, hr⟩

theorem Added.mem_cases (h : Added indexing spans state state')
    (hentry : entry ∈ state'.entries.values) :
    entry ∈ state.entries.values ∨
      ∃ span ∈ spans, ∃ label, entry = indexing.entry span label := by
  obtain ⟨entries, hvalues, hspans⟩ := h.values
  rw [hvalues, List.mem_append] at hentry
  refine hentry.imp_right fun hadded => ?_
  obtain ⟨span, hspan, label, rfl⟩ := exists_left_of_forall₂ hspans hadded
  exact ⟨span, hspan, label, rfl⟩

theorem Added.length (h : Added indexing spans state state') :
    state'.entries.values.length = state.entries.values.length + spans.length := by
  obtain ⟨entries, hvalues, hspans⟩ := h.values
  rw [hvalues, List.length_append, hspans.length_eq]

end ContextStore.SemanticIndex
