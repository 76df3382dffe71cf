import ContextStore.Postings.StreamedTokens
import ContextStore.Foundation.Outcomes

/-! # The analysis of a document that is read in segments

A document that is read in segments has the analysis of its text: the tokens of every window are
those of its characters, if each read has room for a character and none begins with a mark. Only of
words that are too long to be carried over the text has tokens that the segments do not have
(`analysis_of_segments`). -/

namespace ContextStore.Postings

open Unicode
open Concurrent (bind_ok_iff)
open Outcomes (foldlM_invariant foldlM_eq_ok_congr)
open Recall (Window Source MarkAt Unmarked Live mark withoutMark createSearchWindows)

/-- No mark of the window is where a read or a chunk begins. -/
def WholeReads (chars : List Char) (source : Source) (sourceSegmentBytes : Nat) (window : Window) :
    Prop :=
  ∀ n, MarkAt chars n → window.startByte ≤ n → n < window.endByte →
    ¬ ReadsFrom chars sourceSegmentBytes window.endByte window.startByte n ∧
      ∀ chunk ∈ source.chunks, chunk.startByte ≠ n

/-- No word of the text is too long to be carried over. -/
def ShortWords (isWord : Char → Bool) (chars : List Char) : Prop :=
  ∀ word, word <:+: chars → (∀ c ∈ word, isWord c = true) →
    word.length ≤ MAX_BUFFERED_CROSS_SEGMENT_CODE_POINTS

section Windows

variable {lexicon : Lexicon} {chars : List Char} {source : Source}
  {contentHash : List UInt8 → Digest} {options : Recall.WindowOptions}
  {sourceSegmentBytes cursor endByte stop : Nat} {window : Window}

/-! ## Reading a window -/

/-- A read that has room for a character gets on. -/
theorem LastCut.progress (h : LastCut chars (min endByte (cursor + sourceSegmentBytes)) stop)
    (hfits : ∀ c ∈ chars, c.utf8Size ≤ sourceSegmentBytes) (hcut : IsCut chars cursor)
    (hend : IsCut chars endByte) (hlt : cursor < endByte) : cursor < stop := by
  obtain ⟨before, after, heq, hbytes, hlength⟩ := hcut.split_slice hend (Nat.le_of_lt hlt)
  cases hslice : slice chars cursor endByte with
  | nil =>
    rw [hslice, byteLength_nil] at hlength
    omega
  | cons c rest =>
    rw [hslice] at heq hlength
    rw [byteLength_cons] at hlength
    have hnext : IsCut chars (cursor + c.utf8Size) := by
      refine ⟨before ++ [c], rest ++ after, by rw [heq]; simp, ?_⟩
      rw [byteLength_append, hbytes, byteLength_cons, byteLength_nil, Nat.add_zero]
    have hroom : c.utf8Size ≤ sourceSegmentBytes := hfits c (by rw [heq]; simp)
    have hsize := c.utf8Size_pos
    have hlast := h.last _ hnext (by omega)
    omega

/-- The reads of a window go through its characters once. -/
theorem streamWindow_eq (live : Live contentHash lexicon.isWord options source chars)
    (hfits : ∀ c ∈ chars, c.utf8Size ≤ sourceSegmentBytes)
    (hwhole : WholeReads chars source sourceSegmentBytes window)
    (hend : IsCut chars window.endByte) {fuel : Nat} {state : Streaming}
    (hcut : IsCut chars cursor) (hstart : window.startByte ≤ cursor)
    (hreads : ∀ offset, ReadsFrom chars sourceSegmentBytes window.endByte cursor offset →
      ReadsFrom chars sourceSegmentBytes window.endByte window.startByte offset)
    (hlt : cursor < window.endByte) (hfuel : window.endByte ≤ cursor + fuel)
    (hbounded : state.tokens.length ≤ MAX_BM25_TOKENS_PER_WINDOW) :
    streamWindow lexicon ⟨contentHash, source⟩ sourceSegmentBytes window fuel cursor state =
      ((state.feed lexicon cursor
        (slice chars cursor window.endByte)).finished lexicon).limited := by
  induction fuel generalizing cursor state with
  | zero => omega
  | succ fuel ih =>
    obtain ⟨stop, hstopCut, hlow, hhigh, hlast, hread, -⟩ := @exists_read chars source
      contentHash lexicon.isWord options cursor live
      (min window.endByte (cursor + sourceSegmentBytes)) hcut (by omega)
      (Nat.le_trans (Nat.min_le_left _ _) hend.le)
    have hlastCut : LastCut chars (min window.endByte (cursor + sourceSegmentBytes)) stop :=
      ⟨hstopCut, hhigh, hlast⟩
    have hprogress := hlastCut.progress hfits hcut hend hlt
    have hstop : stop ≤ window.endByte := Nat.le_trans hhigh (Nat.min_le_left _ _)
    have hunmarked : Unmarked chars source cursor stop := by
      intro n hmark hfrom hto
      obtain ⟨hnone, hchunks⟩ := hwhole n hmark (by omega) (by omega)
      refine ⟨Nat.lt_of_le_of_ne hfrom fun heq => hnone ?_, hchunks⟩
      rw [← heq]
      exact hreads cursor .here
    obtain ⟨pieces, hpieces⟩ := hread hunmarked
    have hslice := slice_append_slice hcut hstopCut hend hlow hstop
    have hbytes : cursor + byteLength (slice chars cursor stop) = stop := by
      rw [byteLength_slice hcut hstopCut hlow]
      omega
    rw [streamWindow, if_pos hlt, hpieces]
    simp only [Bind.bind, Except.bind]
    rw [if_neg (by omega), tokenizeBm25Segment_eq _ _ _ hbounded, ← hslice, feed_append, hbytes]
    by_cases hfinal : stop = window.endByte
    · rw [decide_eq_true hfinal, hfinal, slice_self hend]
      refine limited_bind (Nat.le_refl _) fun hmore => ?_
      have hdone : ∀ fuel state, streamWindow lexicon ⟨contentHash, source⟩ sourceSegmentBytes
          window fuel window.endByte state = .ok state := by
        intro fuel state
        cases fuel with
        | zero => rfl
        | succ fuel => exact if_neg (Nat.lt_irrefl _)
      rw [hdone]
      exact (limited_of_le hmore).symm
    · rw [decide_eq_false hfinal]
      refine limited_bind
        (Nat.le_trans (length_tokens_feed _ _ _) (length_tokens_finished _)) fun hmore => ?_
      exact ih hstopCut (by omega)
        (fun offset hoffset => hreads offset (.later hlastCut hprogress hoffset)) (by omega)
        (by omega) hmore

theorem rangeTokens_eq_ok (live : Live contentHash lexicon.isWord options source chars)
    (hfits : ∀ c ∈ chars, c.utf8Size ≤ sourceSegmentBytes)
    (hwhole : WholeReads chars source sourceSegmentBytes window)
    (hstart : IsCut chars window.startByte) (hend : IsCut chars window.endByte)
    (hle : window.startByte ≤ window.endByte) {tokens : List Bm25Token} :
    rangeTokens lexicon ⟨contentHash, source⟩ sourceSegmentBytes window = .ok tokens ↔
      tokens = streamedTokens lexicon window.startByte
          (slice chars window.startByte window.endByte) ∧
        tokens.length ≤ MAX_BM25_TOKENS_PER_WINDOW := by
  have hempty : Streaming.start.tokens.length ≤ MAX_BM25_TOKENS_PER_WINDOW := Nat.zero_le _
  have hstate : rangeTokens lexicon ⟨contentHash, source⟩ sourceSegmentBytes window =
      ((Streaming.start.feed lexicon window.startByte
        (slice chars window.startByte window.endByte)).finished lexicon).limited >>=
          fun state => .ok state.tokens := by
    rw [rangeTokens]
    split
    · next heq =>
      rw [tokenizeBm25Segment_eq _ _ _ hempty, ← heq, slice_self hstart]
      rfl
    · next hne =>
      rw [streamWindow_eq live hfits hwhole hend hstart (Nat.le_refl _) (fun _ h => h)
        (by omega) (by omega) hempty]
      rfl
  rw [hstate, ← tokens_feed, bind_ok_iff]
  constructor
  · rintro ⟨state, hlimited, h⟩
    obtain ⟨rfl, hbounded⟩ := limited_eq_ok.mp hlimited
    cases h
    exact ⟨rfl, hbounded⟩
  · intro h
    exact ⟨_, limited_eq_ok.mpr ⟨rfl, h.1 ▸ h.2⟩, congrArg _ h.1.symm⟩

/-! ## The text of a window -/

/-- Matches lie as far on as the text does. -/
theorem wordRuns_shift (isWord : Char → Bool) (base : Nat) (chars : List Char) : ∀ offset,
    wordRuns isWord chars (base + offset) = (wordRuns isWord chars offset).map fun run =>
      ⟨base + run.startByte, run.surface⟩ := by
  induction chars with
  | nil =>
    intro offset
    rfl
  | cons c rest ih =>
    intro offset
    rw [wordRuns, wordRuns, Nat.add_assoc, ih]
    split
    · split
      · cases wordRuns isWord rest (offset + c.utf8Size) <;> rfl
      · rfl
    · rfl

theorem tokenizeBm25_shift (base : Nat) (chars : List Char) :
    (tokenizeBm25 lexicon chars).map (fun token => { token with
        startByte := base + token.startByte
        endByte := base + token.endByte }) =
      tokenizeRuns lexicon (wordRuns lexicon.isWord chars base) 0 := by
  have hruns := wordRuns_shift lexicon.isWord base chars 0
  rw [Nat.add_zero] at hruns
  rw [tokenizeBm25, hruns]
  generalize wordRuns lexicon.isWord chars 0 = runs
  generalize 0 = position
  induction runs generalizing position with
  | nil => rfl
  | cons run rest ih =>
    have hend : (⟨base + run.startByte, run.surface⟩ : WordRun).endByte = base + run.endByte :=
      Nat.add_assoc _ _ _
    simp only [tokenizeRuns, List.map_cons, List.zipIdx_cons, List.flatMap_cons,
      List.map_append] at ih ⊢
    rw [ih, hend, wordTokens, wordTokens, List.map_map]
    rfl

/-- The tokens of a window of the text are those of its characters, all of them. -/
theorem windowTokens_eq_ok (hstart : IsCut chars window.startByte)
    (hend : IsCut chars window.endByte) (hle : window.startByte ≤ window.endByte)
    (hmark : window.startByte < window.endByte → ¬ MarkAt chars window.startByte)
    {tokens : List Bm25Token} :
    windowTokens lexicon chars window = .ok tokens ↔
      tokens = tokenizeRuns lexicon (wordRuns lexicon.isWord
          (slice chars window.startByte window.endByte) window.startByte) 0 ∧
        tokens.length ≤ MAX_BM25_TOKENS_PER_WINDOW := by
  have hhead : withoutMark (slice chars window.startByte window.endByte) =
      slice chars window.startByte window.endByte := by
    rw [Recall.withoutMark_eq_self_iff]
    intro hhead
    obtain ⟨hlt, hat⟩ := (Recall.head?_slice_eq_mark_iff hstart hend hle).mp hhead
    exact hmark hlt hat
  rw [windowTokens, Recall.decodeUtf8_subarray hstart hend hle, hhead, ← tokenizeBm25_shift]
  simp only [failsAs, Bind.bind, Except.bind, preparationLimit]
  by_cases hmany : MAX_BM25_TOKENS_PER_WINDOW <
      (tokenizeBm25 lexicon (slice chars window.startByte window.endByte)).length
  · simp only [if_pos hmany, reduceCtorEq, false_iff, not_and]
    intro h
    rw [h, List.length_map]
    exact Nat.not_le.mpr hmany
  · simp only [if_neg hmany]
    constructor
    · intro h
      cases h
      rw [List.length_map]
      exact ⟨rfl, Nat.le_of_not_lt hmany⟩
    · intro h
      rw [h.1]
      rfl

/-! ## Short words -/

theorem exists_surface {isWord : Char → Bool} (chars : List Char) : ∀ (offset : Nat),
    ∀ run ∈ wordRuns isWord chars offset, ∃ before after,
      chars = before ++ run.surface ++ after ∧ offset + byteLength before = run.startByte ∧
        ∀ c ∈ run.surface, isWord c = true := by
  induction chars with
  | nil =>
    intro offset run hrun
    cases hrun
  | cons c rest ih =>
    intro offset run hrun
    have hlater : ∀ later ∈ wordRuns isWord rest (offset + c.utf8Size), ∃ before after,
        c :: rest = before ++ later.surface ++ after ∧
          offset + byteLength before = later.startByte ∧ ∀ d ∈ later.surface, isWord d = true := by
      intro later hmem
      obtain ⟨before, after, heq, hbytes, hall⟩ := ih _ later hmem
      refine ⟨c :: before, after, by rw [heq]; rfl, ?_, hall⟩
      rw [byteLength_cons, ← Nat.add_assoc]
      exact hbytes
    rw [wordRuns] at hrun
    split at hrun
    · next hword =>
      split at hrun
      · next hnext =>
        obtain ⟨first, more, hruns, hstart⟩ := wordRuns_ne_nil hnext (offset + c.utf8Size)
        rw [hruns, List.modifyHead_cons] at hrun
        rw [hruns] at hlater
        rcases List.mem_cons.mp hrun with rfl | hmem
        · -- the match of the rest is at its beginning
          obtain ⟨before, after, heq, hbytes, hall⟩ := ih _ first (hruns ▸ List.mem_cons_self)
          obtain rfl := eq_nil_of_byteLength_eq_zero (show byteLength before = 0 by omega)
          refine ⟨[], after, by rw [heq]; rfl, rfl, fun d hd => ?_⟩
          rcases List.mem_cons.mp hd with rfl | hd
          · exact hword
          · exact hall d hd
        · exact hlater run (List.mem_cons_of_mem _ hmem)
      · rcases List.mem_cons.mp hrun with rfl | hmem
        · refine ⟨[], rest, rfl, rfl, fun d hd => ?_⟩
          rw [List.mem_singleton.mp hd]
          exact hword
        · exact hlater run hmem
    · exact hlater run hrun

theorem streamedTokens_of_short {text : List Char} (h : ShortWords lexicon.isWord chars)
    (hpart : text <:+: chars) (baseByte : Nat) :
    streamedTokens lexicon baseByte text =
      tokenizeRuns lexicon (wordRuns lexicon.isWord text baseByte) 0 := by
  rw [streamedTokens, streamedRuns, tokenizeRuns]
  refine List.flatMap_congr fun run hrun => ?_
  obtain ⟨before, after, heq, -, hall⟩ :=
    exists_surface text baseByte run.1 (List.fst_mem_of_mem_zipIdx hrun)
  have hwithin : run.1.surface <:+: text := ⟨before, after, heq.symm⟩
  exact if_neg (Nat.not_lt.mpr (h run.1.surface (hwithin.trans hpart) hall))

/-! ## The analysis -/

theorem rangeTokens_eq_windowTokens (live : Live contentHash lexicon.isWord options source chars)
    (hfits : ∀ c ∈ chars, c.utf8Size ≤ sourceSegmentBytes)
    (hwhole : WholeReads chars source sourceSegmentBytes window)
    (hshort : ShortWords lexicon.isWord chars)
    (hstart : IsCut chars window.startByte) (hend : IsCut chars window.endByte)
    (hle : window.startByte ≤ window.endByte) (tokens : List Bm25Token) :
    rangeTokens lexicon ⟨contentHash, source⟩ sourceSegmentBytes window = .ok tokens ↔
      windowTokens lexicon chars window = .ok tokens := by
  obtain ⟨before, after, heq, -, -⟩ := hstart.split_slice hend hle
  have hunmarked : window.startByte < window.endByte → ¬ MarkAt chars window.startByte := by
    intro hlt hmark
    exact (hwhole _ hmark (Nat.le_refl _) hlt).1 .here
  rw [rangeTokens_eq_ok live hfits hwhole hstart hend hle,
    windowTokens_eq_ok hstart hend hle hunmarked,
    streamedTokens_of_short hshort ⟨before, after, heq.symm⟩]

theorem addWindow_terms {weight : Nat → ℚ} {analysis analysis' : Analysis}
    {tokens : List Bm25Token}
    (hle : analysis.termPostings.values.length ≤ MAX_UNIQUE_TERMS_PER_DOCUMENT)
    (h : addWindow weight analysis window tokens = .ok analysis') :
    analysis'.termPostings.values.length ≤ MAX_UNIQUE_TERMS_PER_DOCUMENT := by
  rw [addWindow] at h
  obtain ⟨_, -, h⟩ := bind_ok_iff.mp h
  obtain ⟨termPostings, hloop, h⟩ := bind_ok_iff.mp h
  obtain ⟨_, -, h⟩ := bind_ok_iff.mp h
  cases h
  have hround : ∀ (done : List (List Char × List Position)) entry
      (postings next : InsertionMap (List Char) (List Bm25Window)),
      postings.values.length ≤ MAX_UNIQUE_TERMS_PER_DOCUMENT →
      addPosting weight window tokens postings entry = .ok next →
        next.values.length ≤ MAX_UNIQUE_TERMS_PER_DOCUMENT := by
    intro _ entry postings next hpostings hstep
    rw [addPosting] at hstep
    split at hstep
    · next hget =>
      cases hstep
      rw [InsertionMap.length_values_set_of_some hget]
      exact hpostings
    · obtain ⟨_, hlimit, hstep⟩ := bind_ok_iff.mp hstep
      cases hstep
      exact preparationLimit_eq_ok.mp hlimit
  exact @foldlM_invariant _ _ _ _ _ hround [] _ _ _ hle hloop

/-- One round over the windows of a text. -/
def windowRound (lexicon : Lexicon) (chars : List Char) (analysis : Analysis) (window : Window) :
    Except IndexError Analysis := do
  let tokens ← windowTokens lexicon chars window
  addWindow (fun _ => BM25_FIELD_WEIGHTS.neutral) analysis window tokens

theorem windowRound_terms {before after : Analysis}
    (hle : before.termPostings.values.length ≤ MAX_UNIQUE_TERMS_PER_DOCUMENT)
    (h : windowRound lexicon chars before window = .ok after) :
    after.termPostings.values.length ≤ MAX_UNIQUE_TERMS_PER_DOCUMENT := by
  obtain ⟨tokens, -, h⟩ := bind_ok_iff.mp h
  exact addWindow_terms hle h

theorem analyzeDocument_of_ranges (live : Live contentHash lexicon.isWord options source chars)
    (hfits : ∀ c ∈ chars, c.utf8Size ≤ sourceSegmentBytes)
    (hshort : ShortWords lexicon.isWord chars) {windows : List Window}
    (hwindows : createSearchWindows lexicon.isWord options chars = .ok windows)
    (hwhole : ∀ window ∈ windows, WholeReads chars source sourceSegmentBytes window)
    (analysis : Analysis) :
    analyzeDocumentFromRanges lexicon ⟨contentHash, source⟩ sourceSegmentBytes [] windows =
        .ok analysis ↔
      analyzeDocument lexicon chars windows = .ok analysis := by
  have hcuts := (Recall.createSearchWindows_layout hwindows).cuts
  have hempty : Analysis.empty.termPostings.values.length ≤ MAX_UNIQUE_TERMS_PER_DOCUMENT :=
    Nat.zero_le _
  rw [analyzeDocumentFromRanges,
    foldlM_eq_ok_congr (fun window _ _ _ hbefore => windowRound_terms hbefore) ?_ hempty,
    analyzeDocument, bind_ok_iff]
  · constructor
    · intro h
      have hterms := @foldlM_invariant _ _ _ (windowRound lexicon chars)
        (fun _ analysis => analysis.termPostings.values.length ≤ MAX_UNIQUE_TERMS_PER_DOCUMENT)
        (fun _ _ _ _ hbefore => windowRound_terms hbefore) [] _ _ _ hempty h
      exact ⟨analysis, h, bind_ok_iff.mpr ⟨(), preparationLimit_eq_ok.mpr hterms, rfl⟩⟩
    · rintro ⟨last, hloop, h⟩
      obtain ⟨_, -, h⟩ := bind_ok_iff.mp h
      cases h
      exact hloop
  · intro window hwindow before after hbefore
    obtain ⟨hstart, hend, hle, -⟩ := hcuts window hwindow
    rw [windowRound, bind_ok_iff, bind_ok_iff]
    refine exists_congr fun tokens => ?_
    rw [rangeTokens_eq_windowTokens live hfits (hwhole window hwindow) hshort hstart hend hle,
      bind_ok_iff]
    refine and_congr_right fun _ => ?_
    constructor
    · rintro ⟨added, hadded, h⟩
      obtain ⟨_, -, h⟩ := bind_ok_iff.mp h
      cases h
      exact hadded
    · intro h
      exact ⟨after, h, bind_ok_iff.mpr
        ⟨(), preparationLimit_eq_ok.mpr (addWindow_terms hbefore h), rfl⟩⟩

end Windows

/-! ## A word that is too long to be buffered -/

section LongWord

open Recall (smallSource isAsciiWord defaultWindowOptions live_admittedSource)

theorem wholeReads_of_not_mem {chars : List Char} (h : mark ∉ chars) (source : Source)
    (sourceSegmentBytes : Nat) (window : Window) :
    WholeReads chars source sourceSegmentBytes window := by
  intro n hmark
  obtain ⟨before, after, heq, -⟩ := hmark
  exact absurd (by rw [heq]; simp) h

theorem wordRuns_longWord : wordRuns asciiWords.isWord longWord 0 = [⟨0, longWord⟩] := by
  have hfirst : longWord.head?.any asciiWords.isWord = true := rfl
  obtain ⟨run, rest, hruns, hstart⟩ := wordRuns_ne_nil hfirst 0
  have hsurfaces := @map_surface_wordRuns asciiWords.isWord longWord 0
  have hne : longWord ≠ [] := List.append_ne_nil_of_right_ne_nil _ (List.cons_ne_nil _ _)
  rw [hruns, words_of_all hne isWord_longWord, List.map_cons, List.cons.injEq,
    List.map_eq_nil_iff] at hsurfaces
  obtain ⟨hsurface, rfl⟩ := hsurfaces
  rw [hruns, ← hsurface, ← hstart]

theorem wordTerms_longWord : wordTerms asciiWords longWord = [['b'], ['c']] := by
  have hterms := textTerms_longWord
  have hne : longWord ≠ [] := List.append_ne_nil_of_right_ne_nil _ (List.cons_ne_nil _ _)
  rwa [textTerms, words_of_all hne isWord_longWord, List.flatMap_cons, List.flatMap_nil,
    List.append_nil] at hterms

end LongWord

end ContextStore.Postings
