import ContextStore.Postings.Analysis
import ContextStore.Postings.ExactGroups

/-! # The places of terms

The tokens of a window come in its order and lie between its offsets, whether the window is
tokenized at once or in segments (`InWindow`). So do the places that are recorded of a term
(`AnalyzedFrom`); their differences are not negative, and the places are recovered from them. -/

namespace ContextStore.Postings

open Unicode Outcomes
open Concurrent (bind_ok_iff)
open Recall (Window Materialized readDocumentRange decodeUtf8)

/-! ## The range of a text that is read -/

theorem length_subarray_le (bytes : List UInt8) (a b : Nat) :
    (subarray bytes a b).length ≤ b - a := by
  rw [subarray, List.length_take]
  exact Nat.min_le_left _ _

theorem byteLength_decodeUtf8_le {bytes : List UInt8} {chars : List Char}
    (h : decodeUtf8 bytes = .ok chars) : byteLength chars ≤ bytes.length := by
  unfold decodeUtf8 at h
  dsimp only at h
  split at h
  · rename_i hencoded
    cases h
    calc byteLength (Recall.withoutMark _) ≤ byteLength (decodeChars bytes.length bytes) :=
          Recall.byteLength_withoutMark_le _
      _ = bytes.length := by rw [byteLength, hencoded]
  · cases h

/-- The text that is read is no longer than its range, which is moved inwards only. -/
theorem readDocumentRange_within {contentHash : List UInt8 → Digest} {source : Recall.Source}
    {startByte endByte : Nat} {selected : Materialized}
    (h : readDocumentRange contentHash source startByte endByte true = .ok selected) :
    selected.startByte + byteLength selected.text ≤ selected.endByte ∧
      selected.endByte ≤ endByte := by
  unfold readDocumentRange at h
  split at h
  · cases h
  · rename_i hrange
    split at h
    · split at h
      · rename_i heq
        cases h
        exact ⟨Nat.le_of_eq heq, Nat.le_refl _⟩
      · cases h
    · rename_i first rest _
      split at h
      · cases h
      · rename_i hcovered
        obtain ⟨occurrences, -, h⟩ := bind_ok_iff.mp h
        obtain ⟨resolved, hresolved, h⟩ := bind_ok_iff.mp h
        have hfirst : first.startByte ≤ startByte := by
          simp only [not_or, Nat.not_lt] at hcovered
          exact hcovered.1
        have hle : startByte ≤ endByte := by
          simp only [not_or, Nat.not_lt] at hrange
          exact hrange.1
        simp only [Recall.resolveRange, if_pos, Except.ok.injEq] at hresolved
        subst hresolved
        generalize hbytes : occurrences.flatMap Prod.snd = bytes at h
        obtain ⟨hstart, hstop, -⟩ := Recall.firstBoundary_spec bytes
          (endByte - first.startByte - (startByte - first.startByte))
          (startByte - first.startByte)
        generalize hfound : Recall.firstBoundary bytes _ _ = start at h hstart hstop
        obtain ⟨hlast, hlow, -⟩ := Recall.lastBoundary_spec bytes
          (endByte - first.startByte - start) (endByte - first.startByte) (by omega)
        unfold Recall.cutRange at h
        obtain ⟨chars, hchars, h⟩ := bind_ok_iff.mp h
        obtain ⟨chunks, -, h⟩ := bind_ok_iff.mp h
        dsimp only at h
        split at h
        · cases h
        · cases h
          have hlength := Nat.le_trans (byteLength_decodeUtf8_le hchars) (length_subarray_le _ _ _)
          dsimp only
          omega

/-! ## The tokens of a window -/

structure InWindow (window : Window) (tokens : List Bm25Token) : Prop where
  within : ∃ position, TokensUpTo window.startByte (max window.startByte window.endByte) position
    tokens
  bounded : tokens.length ≤ MAX_BM25_TOKENS_PER_WINDOW

theorem Streaming.Sound.inWindow {window : Window} {state : Streaming} {stop : Nat}
    (h : state.Sound window.startByte stop) (hle : stop ≤ max window.startByte window.endByte) :
    InWindow window state.tokens := by
  refine ⟨⟨state.position, ?_⟩, h.bounded⟩
  have htokens := h.tokens
  unfold Streaming.Tokens at htokens
  split at htokens
  · exact htokens.mono hle
  · exact htokens.1.mono (by omega)

/-- The tokens of a text in the place of the text. -/
theorem TokensUpTo.shift {stop position : Nat} {tokens : List Bm25Token} (start : Nat)
    (h : TokensUpTo 0 stop position tokens) :
    TokensUpTo start (start + stop) position (tokens.map fun token => { token with
      startByte := start + token.startByte
      endByte := start + token.endByte }) where
  le := Nat.le_add_right _ _
  within := by
    intro token htoken
    obtain ⟨before, hbefore, rfl⟩ := List.mem_map.mp htoken
    obtain ⟨-, hend, hstop, hposition⟩ := h.within before hbefore
    exact ⟨Nat.le_add_right _ _, Nat.add_le_add_left hend _, Nat.add_le_add_left hstop _, hposition⟩
  terms := by
    intro token htoken
    obtain ⟨before, hbefore, rfl⟩ := List.mem_map.mp htoken
    exact h.terms before hbefore
  ordered := by
    rw [List.pairwise_map]
    exact h.ordered.imp fun hle => ⟨hle.1, Nat.add_le_add_left hle.2 _⟩
  positions := by
    have := h.positions
    omega

section Tokens

variable {lexicon : Lexicon} {window : Window} {tokens : List Bm25Token}

theorem windowTokens_inWindow {chars : List Char}
    (h : windowTokens lexicon chars window = .ok tokens) : InWindow window tokens := by
  unfold windowTokens at h
  obtain ⟨windowText, hdecoded, h⟩ := bind_ok_iff.mp h
  obtain ⟨_, hlimit, h⟩ := bind_ok_iff.mp h
  cases h
  have hlength := Nat.le_trans (byteLength_decodeUtf8_le (failsAs_eq_ok.mp hdecoded))
    (length_subarray_le _ _ _)
  obtain ⟨position, htokens⟩ := tokenizeBm25_tokens lexicon windowText
  refine ⟨⟨position, (htokens.shift window.startByte).mono (by omega)⟩, ?_⟩
  rw [List.length_map]
  exact preparationLimit_eq_ok.mp hlimit

variable {reader : SourceReader}

theorem streamWindow_sound {sourceSegmentBytes fuel cursor : Nat} {state state' : Streaming}
    (h : state.Sound window.startByte cursor) (hle : cursor ≤ max window.startByte window.endByte)
    (hok : streamWindow lexicon reader sourceSegmentBytes window fuel cursor state = .ok state') :
    InWindow window state'.tokens := by
  induction fuel generalizing cursor state with
  | zero =>
    cases hok
    exact h.inWindow hle
  | succ fuel ih =>
    rw [streamWindow] at hok
    split at hok
    · obtain ⟨selected, hselected, hok⟩ := bind_ok_iff.mp hok
      obtain ⟨hlength, hend⟩ := readDocumentRange_within (failsAs_eq_ok.mp hselected)
      dsimp only at hok
      split at hok
      · cases hok
      · rename_i hprogress
        obtain ⟨next, hnext, hok⟩ := bind_ok_iff.mp hok
        simp only [not_or, ne_eq, not_not] at hprogress
        rw [hprogress.1] at hnext hlength
        exact ih ((h.segment hnext).1.mono hlength) (by omega) hok
    · cases hok
      exact h.inWindow hle

theorem rangeTokens_inWindow {sourceSegmentBytes : Nat}
    (h : rangeTokens lexicon reader sourceSegmentBytes window = .ok tokens) :
    InWindow window tokens := by
  unfold rangeTokens at h
  dsimp only at h
  split at h
  · obtain ⟨state, hstate, h⟩ := bind_ok_iff.mp h
    cases h
    have hsound := ((Streaming.Sound.start window.startByte).segment hstate).1
    rw [byteLength_nil, Nat.add_zero] at hsound
    exact hsound.inWindow (Nat.le_max_left _ _)
  · obtain ⟨state, hstate, h⟩ := bind_ok_iff.mp h
    cases h
    exact streamWindow_sound (.start window.startByte) (Nat.le_max_left _ _) hstate

end Tokens

/-! ## The places of a term -/

/-- Where a term occurs among the tokens. -/
def places (tokens : List Bm25Token) (term : List Char) : List Position :=
  (tokens.filter fun token => token.term = term).map Bm25Token.place

theorem getD_groupTokens (tokens : List Bm25Token) (grouped : InsertionMap (List Char)
    (List Position)) (term : List Char) :
    ((tokens.foldl (fun grouped token =>
      grouped.set token.term ((grouped.get token.term).getD [] ++ [token.place])) grouped).get
        term).getD [] = (grouped.get term).getD [] ++ places tokens term := by
  induction tokens generalizing grouped with
  | nil => simp [places]
  | cons token rest ih =>
    rw [List.foldl_cons, ih, InsertionMap.get_set]
    by_cases hterm : token.term = term
    · simp [places, hterm]
    · simp [places, hterm, Ne.symm hterm]

variable {positions : List Position} {tokens : List Bm25Token}

theorem exists_token {grouped : InsertionMap (List Char) (List Position)}
    {term : List Char}
    (h : (tokens.foldl (fun grouped token =>
      grouped.set token.term ((grouped.get token.term).getD [] ++ [token.place])) grouped).get
        term = some positions) :
    (∃ token ∈ tokens, token.term = term) ∨ grouped.get term = some positions := by
  induction tokens generalizing grouped with
  | nil => exact .inr h
  | cons token rest ih =>
    rw [List.foldl_cons] at h
    rcases ih h with ⟨later, hlater, hterm⟩ | hget
    · exact .inl ⟨later, List.mem_cons_of_mem _ hlater, hterm⟩
    · rw [InsertionMap.get_set] at hget
      split at hget
      · rename_i hterm
        exact .inl ⟨token, List.mem_cons_self, hterm.symm⟩
      · exact .inr hget

/-- A term that is recorded with these places has them, and has one at least. -/
structure PlacesOf (tokens : List Bm25Token) (term : List Char) (positions : List Position) :
    Prop where
  eq : positions = places tokens term
  occurs : ∃ token ∈ tokens, token.term = term

theorem get_groupTokens {term : List Char} (h : (groupTokens tokens).get term = some positions) :
    PlacesOf tokens term positions := by
  have hall := getD_groupTokens tokens .empty term
  rw [← groupTokens, h] at hall
  refine ⟨hall, ?_⟩
  rcases exists_token h with hoccurs | hget
  · exact hoccurs
  · cases hget

/-- The recorded windows of an analysis hold the places of their terms. -/
def RecordedFrom (weight : Nat → ℚ)
    (tokensOf : Window → Except IndexError (List Bm25Token)) (windows : List Window)
    (termPostings : InsertionMap (List Char) (List Bm25Window)) : Prop :=
  ∀ term postings, termPostings.get term = some postings → ∀ posting ∈ postings,
    ∃ window ∈ windows, ∃ tokens, tokensOf window = .ok tokens ∧
      (∃ token ∈ tokens, token.term = term) ∧
      posting = windowPosting weight window tokens (places tokens term)

section Recorded

variable {weight : Nat → ℚ} {tokensOf : Window → Except IndexError (List Bm25Token)}
  {windows : List Window} {window : Window} {tokens : List Bm25Token}
  {termPostings next : InsertionMap (List Char) (List Bm25Window)}

theorem RecordedFrom.mono (h : RecordedFrom weight tokensOf windows termPostings)
    {more : List Window} (hsub : ∀ window ∈ windows, window ∈ more) :
    RecordedFrom weight tokensOf more termPostings := by
  intro term postings hget posting hposting
  obtain ⟨window, hwindow, hrecorded⟩ := h term postings hget posting hposting
  exact ⟨window, hsub window hwindow, hrecorded⟩

theorem RecordedFrom.addPosting (h : RecordedFrom weight tokensOf windows termPostings)
    (hwindow : window ∈ windows) (htokens : tokensOf window = .ok tokens)
    {entry : List Char × List Position} (hentry : PlacesOf tokens entry.1 entry.2)
    (hok : addPosting weight window tokens termPostings entry = .ok next) :
    RecordedFrom weight tokensOf windows next := by
  have hadded : ∀ postings, (∀ posting ∈ postings, ∃ window ∈ windows, ∃ tokens,
      tokensOf window = .ok tokens ∧ (∃ token ∈ tokens, token.term = entry.1) ∧
        posting = windowPosting weight window tokens (places tokens entry.1)) →
      RecordedFrom weight tokensOf windows (termPostings.set entry.1
        (postings ++ [windowPosting weight window tokens entry.2])) := by
    intro postings hpostings term all hget posting hposting
    rw [InsertionMap.get_set] at hget
    split at hget
    · rename_i hterm
      cases hget
      rw [hterm]
      rcases List.mem_append.mp hposting with hposting | hposting
      · exact hpostings posting hposting
      · rw [List.mem_singleton.mp hposting, hentry.eq]
        exact ⟨window, hwindow, tokens, htokens, hentry.occurs, rfl⟩
    · exact h term all hget posting hposting
  unfold Postings.addPosting at hok
  dsimp only at hok
  split at hok
  · rename_i postings hget
    cases hok
    exact hadded postings (h entry.1 postings hget)
  · obtain ⟨_, -, hok⟩ := bind_ok_iff.mp hok
    cases hok
    exact hadded [] (by simp)

theorem RecordedFrom.addWindow {analysis analysis' : Analysis}
    (h : RecordedFrom weight tokensOf windows analysis.termPostings)
    (hwindow : window ∈ windows) (htokens : tokensOf window = .ok tokens)
    (hok : addWindow weight analysis window tokens = .ok analysis') :
    RecordedFrom weight tokensOf windows analysis'.termPostings := by
  unfold Postings.addWindow at hok
  obtain ⟨_, -, hok⟩ := bind_ok_iff.mp hok
  dsimp only at hok
  obtain ⟨termPostings, hloop, hok⟩ := bind_ok_iff.mp hok
  obtain ⟨_, -, hok⟩ := bind_ok_iff.mp hok
  cases hok
  have hentries : ∀ entry ∈ (groupTokens tokens).entries, PlacesOf tokens entry.1 entry.2 :=
    fun entry hentry => get_groupTokens (InsertionMap.get_eq_some_iff.mpr hentry)
  have hround : ∀ (done : List (List Char × List Position)) entry termPostings next,
      ((∀ one ∈ done, one ∈ (groupTokens tokens).entries) →
        RecordedFrom weight tokensOf windows termPostings) →
      Postings.addPosting weight window tokens termPostings entry = .ok next →
      (∀ one ∈ done ++ [entry], one ∈ (groupTokens tokens).entries) →
        RecordedFrom weight tokensOf windows next := by
    intro done entry termPostings next hinv hstep hall
    refine (hinv fun one hone => hall one (List.mem_append_left _ hone)).addPosting hwindow htokens
      (hentries entry (hall entry (List.mem_append_right _ List.mem_cons_self))) hstep
  have hempty : (∀ one ∈ ([] : List (List Char × List Position)),
      one ∈ (groupTokens tokens).entries) →
      RecordedFrom weight tokensOf windows analysis.termPostings := fun _ => h
  exact foldlM_invariant _ hround hempty hloop fun one hone => hone

/-- The rule for the loop over the windows. -/
theorem foldlM_windows {step : Analysis → Window → Except IndexError Analysis}
    {analysis : Analysis}
    (hstep : ∀ (done : List Window) window before after,
      RecordedFrom weight tokensOf done before.termPostings → step before window = .ok after →
        RecordedFrom weight tokensOf (done ++ [window]) after.termPostings)
    (h : windows.foldlM step .empty = .ok analysis) :
    RecordedFrom weight tokensOf windows analysis.termPostings := by
  have hempty : RecordedFrom weight tokensOf [] Analysis.empty.termPostings := by
    intro term postings hget
    cases hget
  exact foldlM_invariant (fun done analysis =>
    RecordedFrom weight tokensOf done analysis.termPostings) hstep hempty h

end Recorded

variable {lexicon : Lexicon} {windows : List Window} {analysis : Analysis}

theorem analyzeDocument_recorded {chars : List Char}
    (h : analyzeDocument lexicon chars windows = .ok analysis) :
    RecordedFrom (fun _ => BM25_FIELD_WEIGHTS.neutral) (windowTokens lexicon chars) windows
      analysis.termPostings := by
  unfold analyzeDocument at h
  obtain ⟨last, hloop, h⟩ := bind_ok_iff.mp h
  obtain ⟨_, -, h⟩ := bind_ok_iff.mp h
  cases h
  refine foldlM_windows ?_ hloop
  intro done window analysis next hinv hstep
  obtain ⟨tokens, htokens, hstep⟩ := bind_ok_iff.mp hstep
  exact (hinv.mono fun one hone => List.mem_append_left _ hone).addWindow
    (List.mem_append_right _ List.mem_cons_self) htokens hstep

theorem analyzeDocumentFromRanges_recorded {reader : SourceReader} {sourceSegmentBytes : Nat}
    {fieldRanges : List FieldRange}
    (h : analyzeDocumentFromRanges lexicon reader sourceSegmentBytes fieldRanges windows =
      .ok analysis) :
    RecordedFrom (weightForByte fieldRanges) (rangeTokens lexicon reader sourceSegmentBytes)
      windows analysis.termPostings := by
  unfold analyzeDocumentFromRanges at h
  refine foldlM_windows ?_ h
  intro done window analysis next hinv hstep
  obtain ⟨tokens, htokens, hstep⟩ := bind_ok_iff.mp hstep
  obtain ⟨added, hadded, hstep⟩ := bind_ok_iff.mp hstep
  obtain ⟨_, -, hstep⟩ := bind_ok_iff.mp hstep
  cases hstep
  exact (hinv.mono fun one hone => List.mem_append_left _ hone).addWindow
    (List.mem_append_right _ List.mem_cons_self) htokens hadded

/-! ## Differences -/

/-- The differences as the numbers that they are where the places ascend. -/
def gapsFrom : Nat → Nat → List Position → List Nat
  | _, _, [] => []
  | priorPosition, priorStartByte, position :: rest =>
    (position.position - priorPosition) :: (position.startByte - priorStartByte) ::
      (position.endByte - position.startByte) ::
        gapsFrom position.position position.startByte rest

/-- The places come in order, behind the ones before them. -/
structure Ascending (priorPosition priorStartByte : Nat) (positions : List Position) : Prop where
  behind : ∀ position ∈ positions, priorPosition ≤ position.position ∧
    priorStartByte ≤ position.startByte ∧ position.startByte ≤ position.endByte
  ordered : positions.Pairwise fun position later =>
    position.position ≤ later.position ∧ position.startByte ≤ later.startByte

variable {positions : List Position} {priorPosition priorStartByte : Nat}

theorem Ascending.tail {position : Position} {rest : List Position}
    (h : Ascending priorPosition priorStartByte (position :: rest)) :
    Ascending position.position position.startByte rest := by
  obtain ⟨hfirst, hrest⟩ := List.pairwise_cons.mp h.ordered
  refine ⟨fun later hlater => ?_, hrest⟩
  obtain ⟨hposition, hstart⟩ := hfirst later hlater
  exact ⟨hposition, hstart, (h.behind later (List.mem_cons_of_mem _ hlater)).2.2⟩

theorem deltasFrom_eq (h : Ascending priorPosition priorStartByte positions) :
    deltasFrom priorPosition priorStartByte positions =
      (gapsFrom priorPosition priorStartByte positions).map Int.ofNat := by
  induction positions generalizing priorPosition priorStartByte with
  | nil => rfl
  | cons position rest ih =>
    obtain ⟨hposition, hstart, hend⟩ := h.behind position List.mem_cons_self
    simp only [deltasFrom, gapsFrom, List.map_cons, Int.ofNat_eq_natCast, List.cons.injEq]
    exact ⟨by omega, by omega, by omega, ih h.tail⟩

theorem length_gapsFrom (priorPosition priorStartByte : Nat) (positions : List Position) :
    (gapsFrom priorPosition priorStartByte positions).length = 3 * positions.length := by
  induction positions generalizing priorPosition priorStartByte with
  | nil => rfl
  | cons position rest ih =>
    simp only [gapsFrom, List.length_cons, ih]
    omega

theorem gapsFrom_le {bound : Nat}
    (h : ∀ position ∈ positions, position.position ≤ bound ∧ position.startByte ≤ bound ∧
      position.endByte ≤ bound) :
    ∀ gap ∈ gapsFrom priorPosition priorStartByte positions, gap ≤ bound := by
  induction positions generalizing priorPosition priorStartByte with
  | nil => simp [gapsFrom]
  | cons position rest ih =>
    obtain ⟨hposition, hstart, hend⟩ := h position List.mem_cons_self
    intro gap hgap
    simp only [gapsFrom, List.mem_cons] at hgap
    rcases hgap with rfl | rfl | rfl | hgap
    · exact Nat.le_trans (Nat.sub_le _ _) hposition
    · exact Nat.le_trans (Nat.sub_le _ _) hstart
    · exact Nat.le_trans (Nat.sub_le _ _) hend
    · exact ih (fun later hlater => h later (List.mem_cons_of_mem _ hlater)) gap hgap

/-- The places are recovered from their differences. -/
theorem positionsFrom_deltasFrom (priorPosition priorStartByte : Int) (positions : List Position) :
    positionsFrom priorPosition priorStartByte
      (deltasFrom priorPosition priorStartByte positions) = positions := by
  induction positions generalizing priorPosition priorStartByte with
  | nil => rfl
  | cons position rest ih =>
    have hposition : priorPosition + (position.position - priorPosition) = position.position := by
      omega
    have hstart : priorStartByte + (position.startByte - priorStartByte) =
        position.startByte := by omega
    have hend : (position.startByte : Int) + (position.endByte - position.startByte) =
        position.endByte := by omega
    simp only [deltasFrom, positionsFrom, hposition, hstart, hend, ih, Int.toNat_natCast]

theorem length_deltasFrom (priorPosition priorStartByte : Int) (positions : List Position) :
    (deltasFrom priorPosition priorStartByte positions).length = 3 * positions.length := by
  induction positions generalizing priorPosition priorStartByte with
  | nil => rfl
  | cons position rest ih =>
    simp only [deltasFrom, List.length_cons, ih]
    omega

theorem postingPositions_storedPostingWindow {window : Bm25Window}
    (h : window.positions = .found positions) :
    postingPositions (storedPostingWindow window) = .ok positions := by
  have hlength : ¬ (deltasFrom 0 window.startByte positions).length % 3 ≠ 0 := by
    rw [length_deltasFrom, Nat.mul_mod_right]
    exact not_not_intro rfl
  simp only [storedPostingWindow, h, postingPositions, if_neg hlength, positionsFrom_deltasFrom]

theorem InWindow.ascending {window : Window} (h : InWindow window tokens)
    (term : List Char) : Ascending 0 window.startByte (places tokens term) := by
  obtain ⟨position, htokens⟩ := h.within
  constructor
  · intro place hplace
    obtain ⟨token, htoken, rfl⟩ := List.mem_map.mp hplace
    obtain ⟨hstart, hend, -⟩ := htokens.within token (List.mem_filter.mp htoken).1
    exact ⟨Nat.zero_le _, hstart, hend⟩
  · rw [Postings.places, List.pairwise_map]
    exact htokens.ordered.filter _

end ContextStore.Postings
