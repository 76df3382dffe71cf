import ContextStore.Postings.SignatureTerms

/-! # Streamed tokens

However a text is cut into segments, tokenizing them one after the other goes through its characters
once (`Streaming.feed`), as the word is carried over that a segment ends in. Its tokens are those of
the text at once but for the words that are too long to be carried over, of which nothing is left
but the place (`streamedTokens`). A document that is read in segments so has the analysis of its
text, unless it has such words or a read loses a mark (`analysis_of_ranges`). -/

namespace ContextStore.Postings

open Unicode
open Concurrent (bind_ok_iff)
open Recall (Window Source MarkAt Unmarked Live mark withoutMark decodeUtf8 createSearchWindows)

variable (lexicon : Lexicon)

/-! ## Character by character -/

/-- The pending word goes on, or a word begins. -/
def Streaming.extend (state : Streaming) (offset : Nat) (fragment : List Char) : Streaming :=
  { state with
    pending := some (appendWordFragment (state.pending.getD ⟨offset, offset, 0, [], false⟩)
      fragment) }

/-- The pending word is over. -/
def Streaming.finished (state : Streaming) : Streaming :=
  match state.pending with
  | none => state
  | some word => {
      pending := none
      position := state.position + 1
      tokens := state.tokens ++ (word.terms lexicon).map fun term =>
        ⟨term, state.position, word.startByte, word.endByte⟩ }

namespace Streaming

/-- The characters of a text, from an offset on. -/
def feed : Streaming → Nat → List Char → Streaming
  | state, _, [] => state
  | state, offset, c :: rest =>
    feed (if lexicon.isWord c then state.extend offset [c] else state.finished lexicon)
      (offset + c.utf8Size) rest

/-- The last segment ends the pending word. -/
def settled (final : Bool) (state : Streaming) : Streaming :=
  if final then state.finished lexicon else state

/-- The match is added, and its word is over unless it reaches the end of the segment. -/
def addRun (stop : Nat) (final : Bool) (state : Streaming) (run : WordRun) : Streaming :=
  settled lexicon (run.endByte ≠ stop || final) (state.extend run.startByte run.surface)

/-- The rule for what goes on unless there are too many tokens. -/
def limited (state : Streaming) : Except IndexError Streaming :=
  if MAX_BM25_TOKENS_PER_WINDOW < state.tokens.length then
    .error (.preparationLimit "tokens per window" MAX_BM25_TOKENS_PER_WINDOW
      (MAX_BM25_TOKENS_PER_WINDOW + 1))
  else .ok state

end Streaming

section Steps

variable {lexicon} {state : Streaming}

theorem finished_of_none (h : state.pending = none) : state.finished lexicon = state := by
  rw [Streaming.finished, h]

theorem pending_finished (state : Streaming) : (state.finished lexicon).pending = none := by
  rw [Streaming.finished]
  split
  · assumption
  · rfl

@[simp]
theorem finished_finished (state : Streaming) :
    (state.finished lexicon).finished lexicon = state.finished lexicon :=
  finished_of_none (pending_finished state)

/-- A character and what follows it may be added one after the other. -/
theorem appendWordFragment_cons (word : PendingWord) (c : Char) (fragment : List Char) :
    appendWordFragment (appendWordFragment word [c]) fragment =
      appendWordFragment word (c :: fragment) := by
  by_cases hoverflow : word.overflow = true
  · simp [appendWordFragment, hoverflow, Nat.add_assoc]
  · by_cases hlong : MAX_BUFFERED_CROSS_SEGMENT_CODE_POINTS < word.codePoints + 1
    · simp [appendWordFragment, appendCharacters, hoverflow, hlong, Nat.add_assoc]
    · simp [appendWordFragment, appendCharacters, hoverflow, hlong, Nat.add_assoc]

theorem extend_extend (offset offset' : Nat) (c : Char) (fragment : List Char) :
    (state.extend offset [c]).extend offset' fragment = state.extend offset (c :: fragment) := by
  simp only [Streaming.extend, Option.getD_some, appendWordFragment_cons]

theorem feed_append (before after : List Char) : ∀ (state : Streaming) (offset : Nat),
    state.feed lexicon offset (before ++ after) =
      (state.feed lexicon offset before).feed lexicon (offset + byteLength before) after := by
  induction before with
  | nil =>
    intro state offset
    rw [byteLength_nil]
    rfl
  | cons c rest ih =>
    intro state offset
    rw [List.cons_append, Streaming.feed, Streaming.feed, ih, byteLength_cons, Nat.add_assoc]

/-! ## Tokens only grow -/

theorem length_tokens_finished (state : Streaming) :
    state.tokens.length ≤ (state.finished lexicon).tokens.length := by
  rw [Streaming.finished]
  split
  · exact Nat.le_refl _
  · rw [List.length_append]
    exact Nat.le_add_right _ _

theorem length_tokens_settled (final : Bool) (state : Streaming) :
    state.tokens.length ≤ (state.settled lexicon final).tokens.length := by
  rw [Streaming.settled]
  split
  · exact length_tokens_finished state
  · exact Nat.le_refl _

theorem length_tokens_addRun (stop : Nat) (final : Bool) (state : Streaming) (run : WordRun) :
    state.tokens.length ≤ (state.addRun lexicon stop final run).tokens.length :=
  length_tokens_settled _ (state.extend run.startByte run.surface)

theorem length_tokens_feed (chars : List Char) : ∀ (state : Streaming) (offset : Nat),
    state.tokens.length ≤ (state.feed lexicon offset chars).tokens.length := by
  induction chars with
  | nil =>
    intro state offset
    exact Nat.le_refl _
  | cons c rest ih =>
    intro state offset
    refine Nat.le_trans ?_ (ih _ _)
    split
    · exact Nat.le_refl _
    · exact length_tokens_finished state

/-! ## The limit -/

theorem limited_of_le (h : state.tokens.length ≤ MAX_BM25_TOKENS_PER_WINDOW) :
    state.limited = .ok state := if_neg (Nat.not_lt.mpr h)

theorem limited_eq_ok {state' : Streaming} : state.limited = .ok state' ↔
    state' = state ∧ state.tokens.length ≤ MAX_BM25_TOKENS_PER_WINDOW := by
  rw [Streaming.limited]
  split
  · next hmany =>
    constructor
    · intro h
      cases h
    · intro h
      exact absurd h.2 (Nat.not_le.mpr hmany)
  · next hfew =>
    constructor
    · intro h
      cases h
      exact ⟨rfl, Nat.le_of_not_lt hfew⟩
    · intro h
      rw [h.1]

/-- What exceeds the limit early does so in the end, with the same error. -/
theorem limited_bind {next : Streaming} {step : Streaming → Except IndexError Streaming}
    (hgrow : state.tokens.length ≤ next.tokens.length)
    (hstep : state.tokens.length ≤ MAX_BM25_TOKENS_PER_WINDOW → step state = next.limited) :
    (state.limited >>= step) = next.limited := by
  by_cases h : state.tokens.length ≤ MAX_BM25_TOKENS_PER_WINDOW
  · rw [limited_of_le h]
    exact hstep h
  · rw [Streaming.limited, Streaming.limited, if_pos (by omega), if_pos (by omega)]
    rfl

theorem foldlM_limited {α : Type} {step : Streaming → α → Except IndexError Streaming}
    {next : Streaming → α → Streaming}
    (hgrow : ∀ state a, state.tokens.length ≤ (next state a).tokens.length)
    (hstep : ∀ state a, state.tokens.length ≤ MAX_BM25_TOKENS_PER_WINDOW →
      step state a = (next state a).limited) (l : List α) : ∀ state : Streaming,
      state.tokens.length ≤ MAX_BM25_TOKENS_PER_WINDOW →
        l.foldlM step state = (l.foldl next state).limited := by
  have hgrows : ∀ (l : List α) (state : Streaming),
      state.tokens.length ≤ (l.foldl next state).tokens.length := by
    intro l
    induction l with
    | nil =>
      intro state
      exact Nat.le_refl _
    | cons a rest ih =>
      intro state
      exact Nat.le_trans (hgrow state a) (ih (next state a))
  induction l with
  | nil =>
    intro state h
    exact (limited_of_le h).symm
  | cons a rest ih =>
    intro state h
    rw [List.foldlM_cons, hstep state a h, List.foldl_cons]
    exact limited_bind (hgrows rest _) (ih _)

/-! ## The steps of the source -/

theorem pushTokens_eq (word : PendingWord) (terms : List (List Char)) : ∀ state : Streaming,
    state.tokens.length ≤ MAX_BM25_TOKENS_PER_WINDOW →
      terms.foldlM (pushToken word) state = Streaming.limited { state with
        tokens := state.tokens ++ terms.map fun term =>
          ⟨term, state.position, word.startByte, word.endByte⟩ } := by
  induction terms with
  | nil =>
    intro state h
    rw [List.map_nil, List.append_nil]
    exact (limited_of_le h).symm
  | cons term rest ih =>
    intro state h
    rw [List.foldlM_cons, pushToken]
    split
    · next hmany =>
      have hfull : state.tokens.length + 1 = MAX_BM25_TOKENS_PER_WINDOW + 1 := by omega
      have hlonger : MAX_BM25_TOKENS_PER_WINDOW < (state.tokens ++
          (term :: rest).map fun term =>
            (⟨term, state.position, word.startByte, word.endByte⟩ : Bm25Token)).length := by
        rw [List.length_append, List.map_cons, List.length_cons]
        omega
      rw [Streaming.limited, if_pos hlonger, hfull]
      rfl
    · next hroom =>
      refine (ih _ ?_).trans ?_
      · rw [List.length_append, List.length_singleton]
        exact Nat.le_of_not_lt hroom
      · simp only [List.append_assoc, List.map_cons, List.singleton_append]

theorem finishStreamedWord_eq (h : state.tokens.length ≤ MAX_BM25_TOKENS_PER_WINDOW) :
    finishStreamedWord lexicon state = (state.finished lexicon).limited := by
  unfold finishStreamedWord Streaming.finished
  cases state.pending with
  | none => exact (limited_of_le h).symm
  | some word =>
    dsimp only
    rw [pushTokens_eq word _ state h]
    simp only [Streaming.limited]
    split <;> rfl

theorem streamFragment_eq (chars : List Char) (baseByte : Nat) (final : Bool) (run : WordRun)
    (h : state.tokens.length ≤ MAX_BM25_TOKENS_PER_WINDOW) :
    streamFragment lexicon chars baseByte final state (state.pending.getD run.fresh) run =
      (state.addRun lexicon (baseByte + byteLength chars) final run).limited := by
  rw [streamFragment, Streaming.addRun, Streaming.settled]
  split
  · exact finishStreamedWord_eq h
  · exact (@limited_of_le (state.extend run.startByte run.surface) h).symm

/-- A match goes on with the pending word, or ends it first. -/
def Streaming.addNext (lexicon : Lexicon) (baseByte stop : Nat) (final : Bool) (state : Streaming)
    (run : WordRun × Nat) : Streaming :=
  if run.2 = 0 ∧ run.1.startByte = baseByte then state.addRun lexicon stop final run.1
  else (state.finished lexicon).addRun lexicon stop final run.1

theorem length_tokens_addNext (baseByte stop : Nat) (final : Bool) (state : Streaming)
    (run : WordRun × Nat) :
    state.tokens.length ≤ (state.addNext lexicon baseByte stop final run).tokens.length := by
  rw [Streaming.addNext]
  split
  · exact length_tokens_addRun stop final state run.1
  · exact Nat.le_trans (length_tokens_finished state) (length_tokens_addRun stop final _ run.1)

theorem streamRun_eq (chars : List Char) (baseByte : Nat) (final : Bool) (run : WordRun × Nat)
    (h : state.tokens.length ≤ MAX_BM25_TOKENS_PER_WINDOW) :
    streamRun lexicon chars baseByte final state run =
      (state.addNext lexicon baseByte (baseByte + byteLength chars) final run).limited := by
  have hfragment := @streamFragment_eq lexicon state chars baseByte final run.1 h
  unfold streamRun Streaming.addNext
  cases hpending : state.pending with
  | none =>
    rw [hpending] at hfragment
    rw [finished_of_none hpending, ite_self]
    exact hfragment
  | some word =>
    rw [hpending] at hfragment
    simp only [Bool.and_eq_true, decide_eq_true_eq]
    split
    · exact hfragment
    · rw [finishStreamedWord_eq h]
      refine limited_bind (length_tokens_addRun _ final _ run.1) fun hbounded => ?_
      have hfresh := @streamFragment_eq lexicon _ chars baseByte final run.1 hbounded
      rwa [pending_finished] at hfresh

/-! ## A segment -/

/-- The matches of a segment. -/
def Streaming.segment (lexicon : Lexicon) (state : Streaming) (baseByte : Nat) (chars : List Char)
    (final : Bool) : Streaming :=
  let runs := wordRuns lexicon.isWord chars baseByte
  settled lexicon ((runs = [] && chars ≠ []) || final)
    (runs.zipIdx.foldl (addNext lexicon baseByte (baseByte + byteLength chars) final) state)

theorem settled_eq (final : Bool) (h : state.tokens.length ≤ MAX_BM25_TOKENS_PER_WINDOW) :
    (if final then finishStreamedWord lexicon state else .ok state) =
      (state.settled lexicon final).limited := by
  rw [Streaming.settled]
  split
  · exact finishStreamedWord_eq h
  · exact (limited_of_le h).symm

theorem tokenizeBm25Segment_limited (baseByte : Nat) (chars : List Char) (final : Bool)
    (h : state.tokens.length ≤ MAX_BM25_TOKENS_PER_WINDOW) :
    tokenizeBm25Segment lexicon state chars baseByte final =
      (state.segment lexicon baseByte chars final).limited := by
  rw [tokenizeBm25Segment]
  rw [foldlM_limited (length_tokens_addNext baseByte (baseByte + byteLength chars) final)
    (fun state run hstate => streamRun_eq chars baseByte final run hstate) _ state h]
  exact limited_bind (length_tokens_settled _ _) fun hbounded => settled_eq _ hbounded

/-- The matches of the rest of a segment; the first of them may go on with the pending word. -/
def Streaming.addRuns (lexicon : Lexicon) (stop : Nat) (final : Bool) (state : Streaming)
    (offset : Nat) (chars : List Char) : Streaming :=
  match wordRuns lexicon.isWord chars offset with
  | [] => if chars = [] then state else state.finished lexicon
  | run :: rest =>
    rest.foldl (fun state run => (state.finished lexicon).addRun lexicon stop final run)
      (if run.startByte = offset then state.addRun lexicon stop final run
        else (state.finished lexicon).addRun lexicon stop final run)

theorem addRuns_of_nil {stop offset : Nat} {final : Bool} {chars : List Char}
    (h : wordRuns lexicon.isWord chars offset = []) :
    state.addRuns lexicon stop final offset chars =
      if chars = [] then state else state.finished lexicon := by
  rw [Streaming.addRuns, h]

theorem addRuns_of_cons {stop offset : Nat} {final : Bool} {chars : List Char} {run : WordRun}
    {rest : List WordRun} (h : wordRuns lexicon.isWord chars offset = run :: rest) :
    state.addRuns lexicon stop final offset chars =
      rest.foldl (fun state run => (state.finished lexicon).addRun lexicon stop final run)
        (if run.startByte = offset then state.addRun lexicon stop final run
          else (state.finished lexicon).addRun lexicon stop final run) := by
  rw [Streaming.addRuns, h]

theorem foldl_addNext (baseByte stop : Nat) (final : Bool) (runs : List WordRun) :
    ∀ (state : Streaming) (first : Nat), 0 < first →
      (runs.zipIdx first).foldl (Streaming.addNext lexicon baseByte stop final) state =
        runs.foldl (fun state run => (state.finished lexicon).addRun lexicon stop final run)
          state := by
  induction runs with
  | nil =>
    intro state first hfirst
    rfl
  | cons run rest ih =>
    intro state first hfirst
    rw [List.zipIdx_cons, List.foldl_cons, List.foldl_cons, ih _ _ (Nat.succ_pos _)]
    congr 1
    exact if_neg fun h => Nat.ne_of_gt hfirst h.1

theorem segment_eq_addRuns (state : Streaming) (baseByte : Nat) (chars : List Char)
    (final : Bool) : (state.segment lexicon baseByte chars final) =
      (state.addRuns lexicon (baseByte + byteLength chars) final baseByte chars).settled lexicon
        final := by
  rw [Streaming.segment]
  cases hruns : wordRuns lexicon.isWord chars baseByte with
  | nil =>
    rw [addRuns_of_nil hruns]
    by_cases hchars : chars = []
    · simp [hchars]
    · simp [hchars, Streaming.settled]
  | cons run rest =>
    rw [addRuns_of_cons hruns, List.zipIdx_cons, List.foldl_cons,
      foldl_addNext _ _ _ _ _ _ Nat.one_pos]
    simp [Streaming.addNext]

/-- A match behind a character that is no part of a word begins later. -/
theorem lt_startByte_of_not {isWord : Char → Bool} {chars : List Char} {offset : Nat}
    {run : WordRun} {rest : List WordRun} (h : chars.head?.any isWord = false)
    (hruns : wordRuns isWord chars offset = run :: rest) : offset < run.startByte := by
  cases chars with
  | nil => cases hruns
  | cons c more =>
    have hapart : isWord c = false := by simpa using h
    rw [wordRuns, hapart] at hruns
    have hfrom := wordRuns_runsFrom isWord more (offset + c.utf8Size)
    rw [show wordRuns isWord more (offset + c.utf8Size) = run :: rest from hruns] at hfrom
    have hsize := c.utf8Size_pos
    have hle := hfrom.1
    omega

/-- The matches of a segment add what its characters do. -/
theorem addRuns_eq_feed (final : Bool) {stop : Nat} (chars : List Char) :
    ∀ (state : Streaming) (offset : Nat), stop = offset + byteLength chars →
      (state.addRuns lexicon stop final offset chars).settled lexicon final =
        (state.feed lexicon offset chars).settled lexicon final := by
  induction chars with
  | nil =>
    intro state offset hstop
    rfl
  | cons c rest ih =>
    intro state offset hstop
    have hsize := c.utf8Size_pos
    rw [byteLength_cons, ← Nat.add_assoc] at hstop
    rw [Streaming.feed, ← ih _ _ hstop]
    by_cases hword : lexicon.isWord c = true
    · rw [if_pos hword]
      by_cases hnext : rest.head?.any lexicon.isWord = true
      · -- the match of the rest is that of the word without its first character
        obtain ⟨run, more, hruns, hstart⟩ := wordRuns_ne_nil hnext (offset + c.utf8Size)
        have hwords : wordRuns lexicon.isWord (c :: rest) offset =
            ⟨offset, c :: run.surface⟩ :: more := by
          rw [wordRuns, if_pos hword, if_pos hnext, hruns]
          rfl
        have hend : (⟨offset, c :: run.surface⟩ : WordRun).endByte = run.endByte := by
          rw [WordRun.endByte, WordRun.endByte, hstart, byteLength_cons, Nat.add_assoc]
        rw [addRuns_of_cons hwords, addRuns_of_cons hruns, if_pos rfl, if_pos hstart,
          Streaming.addRun, Streaming.addRun, hend, extend_extend]
      · have hwords : wordRuns lexicon.isWord (c :: rest) offset =
            ⟨offset, [c]⟩ :: wordRuns lexicon.isWord rest (offset + c.utf8Size) := by
          rw [wordRuns, if_pos hword, if_neg hnext]
        have hend : (⟨offset, [c]⟩ : WordRun).endByte = offset + c.utf8Size := by
          rw [WordRun.endByte, byteLength_cons, byteLength_nil]
          rfl
        rw [addRuns_of_cons hwords, if_pos rfl, Streaming.addRun, hend]
        by_cases hrest : rest = []
        · subst hrest
          rw [byteLength_nil, Nat.add_zero] at hstop
          have hnone : (state.extend offset [c]).addRuns lexicon stop final (offset + c.utf8Size)
              [] = state.extend offset [c] := rfl
          rw [hnone, hstop]
          cases final
          · simp [wordRuns, Streaming.settled]
          · simp [wordRuns, Streaming.settled]
        · have hbehind : offset + c.utf8Size ≠ stop := by
            have hpos : byteLength rest ≠ 0 := fun hzero =>
              hrest (eq_nil_of_byteLength_eq_zero hzero)
            omega
          have hover : (state.extend offset [c]).settled lexicon
              (offset + c.utf8Size ≠ stop || final) =
                (state.extend offset [c]).finished lexicon := by
            simp [hbehind, Streaming.settled]
          rw [hover]
          cases hruns : wordRuns lexicon.isWord rest (offset + c.utf8Size) with
          | nil => rw [addRuns_of_nil hruns, if_neg hrest, List.foldl_nil]
          | cons run more =>
            have hlater := lt_startByte_of_not (by simpa using hnext) hruns
            rw [addRuns_of_cons hruns, if_neg (Nat.ne_of_gt hlater), List.foldl_cons,
              finished_finished]
    · rw [if_neg hword]
      have hwords : wordRuns lexicon.isWord (c :: rest) offset =
          wordRuns lexicon.isWord rest (offset + c.utf8Size) := by
        rw [wordRuns, if_neg hword]
      cases hruns : wordRuns lexicon.isWord rest (offset + c.utf8Size) with
      | nil =>
        rw [addRuns_of_nil (hwords.trans hruns), addRuns_of_nil hruns, finished_finished,
          ite_self, if_neg (List.cons_ne_nil _ _)]
      | cons run more =>
        have hfrom := wordRuns_runsFrom lexicon.isWord rest (offset + c.utf8Size)
        rw [hruns] at hfrom
        have hle := hfrom.1
        have hlater : run.startByte ≠ offset := by omega
        rw [addRuns_of_cons (hwords.trans hruns), addRuns_of_cons hruns, if_neg hlater,
          finished_finished, ite_self]

/-- A segment adds what its characters do. -/
theorem tokenizeBm25Segment_eq (baseByte : Nat) (chars : List Char) (final : Bool)
    (h : state.tokens.length ≤ MAX_BM25_TOKENS_PER_WINDOW) :
    tokenizeBm25Segment lexicon state chars baseByte final =
      ((state.feed lexicon baseByte chars).settled lexicon final).limited := by
  rw [tokenizeBm25Segment_limited baseByte chars final h, segment_eq_addRuns,
    addRuns_eq_feed final chars state baseByte rfl]

/-! ## A text in segments -/

/-- The segments of a text, one after the other. -/
def tokenizeSegments (lexicon : Lexicon) :
    Nat → List (List Char) → Streaming → Except IndexError Streaming
  | _, [], state => .ok state
  | baseByte, chars :: rest, state => do
    let state ← tokenizeBm25Segment lexicon state chars baseByte rest.isEmpty
    tokenizeSegments lexicon (baseByte + byteLength chars) rest state

theorem tokenizeSegments_eq (segments : List (List Char)) : ∀ (baseByte : Nat) (state : Streaming),
    segments ≠ [] → state.tokens.length ≤ MAX_BM25_TOKENS_PER_WINDOW →
      tokenizeSegments lexicon baseByte segments state =
        ((state.feed lexicon baseByte segments.flatten).finished lexicon).limited := by
  induction segments with
  | nil =>
    intro baseByte state hne
    exact absurd rfl hne
  | cons chars rest ih =>
    intro baseByte state _ h
    rw [tokenizeSegments, tokenizeBm25Segment_eq baseByte chars _ h, List.flatten_cons, feed_append]
    by_cases hrest : rest = []
    · subst hrest
      refine limited_bind (Nat.le_refl _) fun hbounded => ?_
      exact (limited_of_le hbounded).symm
    · rw [List.isEmpty_eq_false_iff.mpr hrest]
      refine limited_bind (Nat.le_trans (length_tokens_feed _ _ _) (length_tokens_finished _))
        fun hbounded => ih _ _ hrest hbounded

end Steps

/-! ## A text at once -/

def streamedWord (run : WordRun) (position : Nat) : List Bm25Token :=
  if MAX_BUFFERED_CROSS_SEGMENT_CODE_POINTS < run.surface.length then []
  else wordTokens lexicon run.surface position run.startByte run.endByte

def streamedRuns (runs : List WordRun) (position : Nat) : List Bm25Token :=
  (runs.zipIdx position).flatMap fun run => streamedWord lexicon run.1 run.2

/-- The tokens of a text, but for those of words that are too long. -/
def streamedTokens (baseByte : Nat) (chars : List Char) : List Bm25Token :=
  streamedRuns lexicon (wordRuns lexicon.isWord chars baseByte) 0

section Whole

variable {lexicon} {state : Streaming}

theorem appendCharacters_eq (fragment : List Char) : ∀ word : PendingWord, word.overflow = false →
    word.codePoints = word.surface.length →
    word.codePoints ≤ MAX_BUFFERED_CROSS_SEGMENT_CODE_POINTS →
      (appendCharacters word fragment).terms lexicon =
        if MAX_BUFFERED_CROSS_SEGMENT_CODE_POINTS < (word.surface ++ fragment).length then []
        else wordTerms lexicon (word.surface ++ fragment) := by
  induction fragment with
  | nil =>
    intro word hoverflow hlength hle
    rw [List.append_nil, if_neg (by omega), appendCharacters, PendingWord.terms, hoverflow]
    rfl
  | cons character rest ih =>
    intro word hoverflow hlength hle
    rw [appendCharacters]
    split
    · next hlong =>
      rw [if_pos (by rw [List.length_append, List.length_cons]; omega)]
      rfl
    · next hshort =>
      have hlonger : word.codePoints + 1 = (word.surface ++ [character]).length := by
        rw [hlength, List.length_append, List.length_singleton]
      refine (ih { word with
        codePoints := word.codePoints + 1
        surface := word.surface ++ [character] } hoverflow hlonger
        (Nat.le_of_not_lt hshort)).trans ?_
      simp only [List.append_assoc, List.singleton_append]

theorem addRun_final (stop : Nat) (run : WordRun) (h : state.pending = none) :
    state.addRun lexicon stop true run = {
      pending := none
      position := state.position + 1
      tokens := state.tokens ++ streamedWord lexicon run state.position } := by
  have hterms := @appendCharacters_eq lexicon run.surface
    ⟨run.startByte, run.startByte + byteLength run.surface, 0, [], false⟩ rfl rfl (Nat.zero_le _)
  have hbytes := appendWordFragment_bytes ⟨run.startByte, run.startByte, 0, [], false⟩ run.surface
  rw [Streaming.addRun, Bool.or_true, Streaming.settled, if_pos rfl, Streaming.extend, h,
    Option.getD_none, Streaming.finished]
  dsimp only
  rw [hbytes.1, hbytes.2, streamedWord, wordTokens, WordRun.endByte]
  have hsame : (appendWordFragment ⟨run.startByte, run.startByte, 0, [], false⟩
      run.surface).terms lexicon = _ := hterms
  rw [hsame]
  split <;> simp_all

theorem addRuns_final (stop : Nat) (runs : List WordRun) : ∀ state : Streaming,
    state.pending = none →
      runs.foldl (fun state run => (state.finished lexicon).addRun lexicon stop true run) state = {
        pending := none
        position := state.position + runs.length
        tokens := state.tokens ++ streamedRuns lexicon runs state.position } := by
  induction runs with
  | nil =>
    intro state h
    simp [streamedRuns, ← h]
  | cons run rest ih =>
    intro state h
    rw [List.foldl_cons, finished_of_none h, addRun_final stop run h, ih _ rfl]
    simp only [streamedRuns, List.zipIdx_cons, List.flatMap_cons, List.append_assoc,
      List.length_cons, Nat.add_assoc, Nat.add_comm 1]

/-- A text at once leaves the tokens of its words. -/
theorem tokens_feed (baseByte : Nat) (chars : List Char) :
    ((Streaming.start.feed lexicon baseByte chars).finished lexicon).tokens =
      streamedTokens lexicon baseByte chars := by
  have hfeed := @addRuns_eq_feed lexicon true (baseByte + byteLength chars) chars .start baseByte
    rfl
  rw [Streaming.settled, if_pos rfl, Streaming.settled, if_pos rfl] at hfeed
  have hstart : Streaming.start.finished lexicon = .start := finished_of_none rfl
  rw [← hfeed, streamedTokens]
  cases hruns : wordRuns lexicon.isWord chars baseByte with
  | nil =>
    rw [addRuns_of_nil hruns, hstart, ite_self]
    rfl
  | cons run rest =>
    have hall := @addRuns_final lexicon (baseByte + byteLength chars) (run :: rest) .start rfl
    rw [List.foldl_cons, hstart] at hall
    rw [addRuns_of_cons hruns, hstart, ite_self, hall]
    simp [Streaming.finished, Streaming.start]

/-- However a text is cut into segments, its tokens are the streamed ones. -/
theorem tokens_of_segments (segments : List (List Char)) (tokens : List Bm25Token) :
    (∃ state, tokenizeSegments lexicon 0 segments .start = .ok state ∧ state.tokens = tokens) ↔
      tokens = streamedTokens lexicon 0 segments.flatten ∧
        tokens.length ≤ MAX_BM25_TOKENS_PER_WINDOW := by
  rw [← tokens_feed]
  by_cases hsegments : segments = []
  · subst hsegments
    constructor
    · rintro ⟨state, hok, rfl⟩
      cases hok
      exact ⟨rfl, Nat.zero_le _⟩
    · intro h
      exact ⟨.start, rfl, h.1.symm⟩
  · rw [tokenizeSegments_eq segments 0 .start hsegments (Nat.zero_le _)]
    constructor
    · rintro ⟨state, hok, rfl⟩
      obtain ⟨rfl, hbounded⟩ := limited_eq_ok.mp hok
      exact ⟨rfl, hbounded⟩
    · intro h
      exact ⟨_, limited_eq_ok.mpr ⟨rfl, h.1 ▸ h.2⟩, h.1.symm⟩

end Whole

end ContextStore.Postings
