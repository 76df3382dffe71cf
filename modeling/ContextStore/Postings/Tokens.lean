import ContextStore.Postings.Terms

/-! # Tokens

A text is tokenized at once, or segment by segment with the word carried over that a segment may end
in. Either way the tokens come in the order of the text, with growing positions (`TokensUpTo`). -/

namespace ContextStore.Postings

open Unicode
open Concurrent (bind_ok_iff)

def MAX_BM25_TOKENS_PER_WINDOW : Nat := 16000

def MAX_BUFFERED_CROSS_SEGMENT_CODE_POINTS : Nat := 1024

/-! ## Words -/

/-- A match of the expression for words. -/
structure WordRun where
  startByte : Nat
  surface : List Char

def WordRun.endByte (run : WordRun) : Nat := run.startByte + byteLength run.surface

/-- The matches of `/[\p{L}\p{M}\p{N}_]+/gu`: a word character directly before another belongs to
the same match. -/
def wordRuns (isWord : Char → Bool) : List Char → Nat → List WordRun
  | [], _ => []
  | c :: rest, offset =>
    let runs := wordRuns isWord rest (offset + c.utf8Size)
    if isWord c then
      if rest.head?.any isWord then
        runs.modifyHead fun run => ⟨offset, c :: run.surface⟩
      else ⟨offset, [c]⟩ :: runs
    else runs

structure Bm25Token where
  term : List Char
  position : Nat
  startByte : Nat
  endByte : Nat

/-! ## A text at once -/

variable (lexicon : Lexicon)

def wordTokens (surface : List Char) (position startByte endByte : Nat) : List Bm25Token :=
  (wordTerms lexicon surface).map fun term => ⟨term, position, startByte, endByte⟩

def tokenizeRuns (runs : List WordRun) (position : Nat) : List Bm25Token :=
  (runs.zipIdx position).flatMap fun run =>
    wordTokens lexicon run.1.surface run.2 run.1.startByte run.1.endByte

def tokenizeBm25 (chars : List Char) : List Bm25Token :=
  tokenizeRuns lexicon (wordRuns lexicon.isWord chars 0) 0

/-! ## A segment after the other -/

/-- A word that may go on in the next segment. -/
structure PendingWord where
  startByte : Nat
  endByte : Nat
  codePoints : Nat
  surface : List Char
  overflow : Bool

structure Streaming where
  pending : Option PendingWord
  position : Nat
  /-- The tokens so far, `target`. -/
  tokens : List Bm25Token

def Streaming.start : Streaming := ⟨none, 0, []⟩

/-- The loop of `appendWordFragment`. -/
def appendCharacters : PendingWord → List Char → PendingWord
  | word, [] => word
  | word, character :: rest =>
    if MAX_BUFFERED_CROSS_SEGMENT_CODE_POINTS < word.codePoints + 1 then
      { word with codePoints := word.codePoints + 1, surface := [], overflow := true }
    else
      appendCharacters { word with
        codePoints := word.codePoints + 1
        surface := word.surface ++ [character] } rest

def appendWordFragment (word : PendingWord) (fragment : List Char) : PendingWord :=
  let word := { word with endByte := word.endByte + byteLength fragment }
  if word.overflow then word else appendCharacters word fragment

def pushToken (word : PendingWord) (state : Streaming) (term : List Char) :
    Except IndexError Streaming :=
  if MAX_BM25_TOKENS_PER_WINDOW < state.tokens.length + 1 then
    .error (.preparationLimit "tokens per window" MAX_BM25_TOKENS_PER_WINDOW
      (state.tokens.length + 1))
  else .ok { state with
    tokens := state.tokens ++ [⟨term, state.position, word.startByte, word.endByte⟩] }

def PendingWord.terms (word : PendingWord) : List (List Char) :=
  if word.overflow then [] else wordTerms lexicon word.surface

def finishStreamedWord (state : Streaming) : Except IndexError Streaming :=
  match state.pending with
  | none => .ok state
  | some word => do
    let state ← (word.terms lexicon).foldlM (pushToken word) state
    return { state with position := state.position + 1, pending := none }

/-- A word that begins with the match. -/
def WordRun.fresh (run : WordRun) : PendingWord := ⟨run.startByte, run.startByte, 0, [], false⟩

/-- The word goes on with the match, and is over unless the match reaches the end of the segment. -/
def streamFragment (chars : List Char) (baseByte : Nat) (final : Bool) (state : Streaming)
    (word : PendingWord) (run : WordRun) : Except IndexError Streaming :=
  let state := { state with pending := some (appendWordFragment word run.surface) }
  if run.endByte ≠ baseByte + byteLength chars || final then finishStreamedWord lexicon state
  else .ok state

/-- One round of the loop over the words of a segment; the first of them may go on with the pending
word. -/
def streamRun (chars : List Char) (baseByte : Nat) (final : Bool) (state : Streaming)
    (run : WordRun × Nat) : Except IndexError Streaming :=
  match state.pending with
  | none => streamFragment lexicon chars baseByte final state run.1.fresh run.1
  | some word =>
    if run.2 = 0 && run.1.startByte = baseByte then
      streamFragment lexicon chars baseByte final state word run.1
    else do
      let state ← finishStreamedWord lexicon state
      streamFragment lexicon chars baseByte final state run.1.fresh run.1

def tokenizeBm25Segment (state : Streaming) (chars : List Char) (baseByte : Nat) (final : Bool) :
    Except IndexError Streaming := do
  let runs := wordRuns lexicon.isWord chars baseByte
  let state ← runs.zipIdx.foldlM (streamRun lexicon chars baseByte final) state
  if (runs = [] && chars ≠ []) || final then finishStreamedWord lexicon state else return state

/-! ## The order of tokens -/

/-- The tokens of a text between two offsets: they come in the order of the text, and each word
takes a byte at least, so positions stay below the offset. -/
structure TokensUpTo (start stop position : Nat) (tokens : List Bm25Token) : Prop where
  le : start ≤ stop
  within : ∀ token ∈ tokens, start ≤ token.startByte ∧ token.startByte ≤ token.endByte ∧
    token.endByte ≤ stop ∧ token.position < position
  terms : ∀ token ∈ tokens, token.term.length ≤ MAX_BM25_TERM_CODE_POINTS
  ordered : tokens.Pairwise fun token later =>
    token.position ≤ later.position ∧ token.startByte ≤ later.startByte
  positions : position ≤ stop - start

theorem TokensUpTo.nil (start : Nat) : TokensUpTo start start 0 [] where
  le := Nat.le_refl _
  within := by simp
  terms := by simp
  ordered := .nil
  positions := Nat.zero_le _

variable {tokens : List Bm25Token}

theorem TokensUpTo.mono {start stop stop' position : Nat}
    (h : TokensUpTo start stop position tokens) (hle : stop ≤ stop') :
    TokensUpTo start stop' position tokens where
  le := Nat.le_trans h.le hle
  within := by
    intro token htoken
    obtain ⟨hstart, hend, hstop, hposition⟩ := h.within token htoken
    exact ⟨hstart, hend, Nat.le_trans hstop hle, hposition⟩
  terms := h.terms
  ordered := h.ordered
  positions := Nat.le_trans h.positions (Nat.sub_le_sub_right hle start)

theorem TokensUpTo.word {start stop position endByte : Nat}
    (h : TokensUpTo start stop position tokens) (hlt : stop < endByte) {terms : List (List Char)}
    (hterms : ∀ term ∈ terms, term.length ≤ MAX_BM25_TERM_CODE_POINTS) :
    TokensUpTo start endByte (position + 1)
      (tokens ++ terms.map fun term => ⟨term, position, stop, endByte⟩) := by
  have hle := h.le
  have hpositions := h.positions
  refine ⟨by omega, ?_, ?_, ?_, by omega⟩
  · intro token htoken
    rcases List.mem_append.mp htoken with htoken | htoken
    · obtain ⟨hstart, hend, hstop, hposition⟩ := h.within token htoken
      exact ⟨hstart, hend, by omega, by omega⟩
    · obtain ⟨term, -, rfl⟩ := List.mem_map.mp htoken
      exact ⟨hle, Nat.le_of_lt hlt, Nat.le_refl _, Nat.lt_succ_self _⟩
  · intro token htoken
    rcases List.mem_append.mp htoken with htoken | htoken
    · exact h.terms token htoken
    · obtain ⟨term, hterm, rfl⟩ := List.mem_map.mp htoken
      exact hterms term hterm
  · refine List.pairwise_append.mpr ⟨h.ordered, ?_, fun token htoken later hlater => ?_⟩
    · rw [List.pairwise_map]
      exact List.pairwise_of_forall fun _ _ => ⟨Nat.le_refl _, Nat.le_refl _⟩
    · obtain ⟨term, -, rfl⟩ := List.mem_map.mp hlater
      obtain ⟨-, hend, hstop, hposition⟩ := h.within token htoken
      exact ⟨Nat.le_of_lt hposition, Nat.le_trans hend hstop⟩

theorem length_wordTerms_le (surface : List Char) :
    ∀ term ∈ wordTerms lexicon surface, term.length ≤ MAX_BM25_TERM_CODE_POINTS := by
  intro term hterm
  simp only [wordTerms, bm25Subterms, List.mem_append] at hterm
  rcases hterm with hterm | hterm
  · split at hterm
    · cases hterm
    · rw [List.mem_singleton.mp hterm]
      exact length_normalizeBm25Term_le lexicon surface
  · exact length_subtermsFrom_le lexicon hterm

/-! ## The order of words -/

/-- Words between two offsets, one behind the other. -/
def RunsFrom : Nat → Nat → List WordRun → Prop
  | offset, stop, [] => offset ≤ stop
  | offset, stop, run :: rest =>
    offset ≤ run.startByte ∧ run.surface ≠ [] ∧ RunsFrom run.endByte stop rest

theorem RunsFrom.weaken {offset offset' stop : Nat} {runs : List WordRun}
    (h : RunsFrom offset stop runs) (hle : offset' ≤ offset) : RunsFrom offset' stop runs := by
  cases runs with
  | nil => exact Nat.le_trans hle h
  | cons run rest => exact ⟨Nat.le_trans hle h.1, h.2⟩

theorem wordRuns_ne_nil {isWord : Char → Bool} {chars : List Char}
    (h : chars.head?.any isWord = true) (offset : Nat) :
    ∃ run rest, wordRuns isWord chars offset = run :: rest ∧ run.startByte = offset := by
  induction chars generalizing offset with
  | nil => cases h
  | cons c rest ih =>
    have hword : isWord c = true := by simpa using h
    simp only [wordRuns, if_pos hword]
    split
    · rename_i hnext
      obtain ⟨run, more, hruns, -⟩ := ih hnext (offset + c.utf8Size)
      rw [hruns]
      exact ⟨_, _, rfl, rfl⟩
    · exact ⟨_, _, rfl, rfl⟩

theorem wordRuns_runsFrom (isWord : Char → Bool) (chars : List Char) (offset : Nat) :
    RunsFrom offset (offset + byteLength chars) (wordRuns isWord chars offset) := by
  induction chars generalizing offset with
  | nil => exact Nat.le_refl _
  | cons c rest ih =>
    have hrest := ih (offset + c.utf8Size)
    have hsize : offset + byteLength (c :: rest) = offset + c.utf8Size + byteLength rest := by
      rw [byteLength_cons]
      omega
    rw [hsize]
    simp only [wordRuns]
    split
    · split
      · rename_i hnext
        -- the match of the rest begins directly behind the character
        obtain ⟨run, more, hruns, hstart⟩ := wordRuns_ne_nil hnext (offset + c.utf8Size)
        rw [hruns] at hrest ⊢
        obtain ⟨-, -, hmore⟩ := hrest
        have hend : (⟨offset, c :: run.surface⟩ : WordRun).endByte = run.endByte := by
          rw [WordRun.endByte, WordRun.endByte, hstart, byteLength_cons]
          dsimp only
          omega
        refine ⟨Nat.le_refl _, List.cons_ne_nil _ _, ?_⟩
        rw [hend]
        exact hmore
      · refine ⟨Nat.le_refl _, List.cons_ne_nil _ _, ?_⟩
        have hend : (⟨offset, [c]⟩ : WordRun).endByte = offset + c.utf8Size := by
          rw [WordRun.endByte, byteLength_cons, byteLength_nil]
          rfl
        rw [hend]
        exact hrest
    · exact hrest.weaken (Nat.le_add_right _ _)

theorem lt_endByte {run : WordRun} (h : run.surface ≠ []) : run.startByte < run.endByte := by
  have hpos : byteLength run.surface ≠ 0 := fun hzero => h (eq_nil_of_byteLength_eq_zero hzero)
  rw [WordRun.endByte]
  omega

/-- The tokens of words that stand one behind the other. -/
theorem TokensUpTo.runs {start offset stop position : Nat}
    (h : TokensUpTo start offset position tokens) {runs : List WordRun}
    (hruns : RunsFrom offset stop runs) :
    ∃ position',
      TokensUpTo start stop position' (tokens ++ tokenizeRuns lexicon runs position) := by
  induction runs generalizing offset position tokens with
  | nil =>
    refine ⟨position, ?_⟩
    rw [tokenizeRuns, List.zipIdx_nil, List.flatMap_nil, List.append_nil]
    exact h.mono hruns
  | cons run rest ih =>
    obtain ⟨hle, hsurface, hrest⟩ := hruns
    obtain ⟨position', hmore⟩ := ih ((h.mono hle).word (lt_endByte hsurface)
      (length_wordTerms_le lexicon run.surface)) hrest
    refine ⟨position', ?_⟩
    rw [tokenizeRuns, List.zipIdx_cons, List.flatMap_cons, ← List.append_assoc]
    exact hmore

theorem tokenizeBm25_tokens (chars : List Char) :
    ∃ position, TokensUpTo 0 (byteLength chars) position (tokenizeBm25 lexicon chars) := by
  have hruns := wordRuns_runsFrom lexicon.isWord chars 0
  rw [Nat.zero_add] at hruns
  obtain ⟨position, htokens⟩ := (TokensUpTo.nil 0).runs lexicon hruns
  exact ⟨position, htokens⟩

/-! ## The order of streamed tokens -/

/-- The tokens so far end where the pending word begins. -/
def Streaming.Tokens (start stop : Nat) (state : Streaming) : Prop :=
  match state.pending with
  | none => TokensUpTo start stop state.position state.tokens
  | some word => TokensUpTo start word.startByte state.position state.tokens ∧
      word.startByte < word.endByte ∧ word.endByte ≤ stop

structure Streaming.Sound (start stop : Nat) (state : Streaming) : Prop where
  tokens : state.Tokens start stop
  bounded : state.tokens.length ≤ MAX_BM25_TOKENS_PER_WINDOW

theorem Streaming.Sound.start (start : Nat) : Streaming.start.Sound start start :=
  ⟨.nil start, Nat.zero_le _⟩

variable {lexicon} {start stop stop' : Nat} {state state' : Streaming}

theorem Streaming.Sound.mono (h : state.Sound start stop) (hle : stop ≤ stop') :
    state.Sound start stop' := by
  refine ⟨?_, h.bounded⟩
  have htokens := h.tokens
  unfold Streaming.Tokens at htokens ⊢
  split at htokens
  · exact htokens.mono hle
  · exact ⟨htokens.1, htokens.2.1, Nat.le_trans htokens.2.2 hle⟩

theorem pushTokens_eq_ok {word : PendingWord} {terms : List (List Char)}
    (h : terms.foldlM (pushToken word) state = .ok state') :
    state'.tokens = state.tokens ++
        terms.map (fun term => ⟨term, state.position, word.startByte, word.endByte⟩) ∧
      state'.position = state.position ∧
      (state.tokens.length ≤ MAX_BM25_TOKENS_PER_WINDOW →
        state'.tokens.length ≤ MAX_BM25_TOKENS_PER_WINDOW) := by
  induction terms generalizing state with
  | nil =>
    cases h
    simp
  | cons term rest ih =>
    rw [List.foldlM_cons] at h
    obtain ⟨next, hnext, h⟩ := bind_ok_iff.mp h
    rw [pushToken] at hnext
    split at hnext
    · cases hnext
    · rename_i hlength
      cases hnext
      obtain ⟨htokens, hposition, hbounded⟩ := ih h
      refine ⟨?_, hposition, fun _ => hbounded ?_⟩
      · rw [htokens, List.append_assoc]
        rfl
      · rw [List.length_append, List.length_singleton]
        exact Nat.le_of_not_lt hlength

theorem PendingWord.length_terms_le (word : PendingWord) :
    ∀ term ∈ word.terms lexicon, term.length ≤ MAX_BM25_TERM_CODE_POINTS := by
  intro term hterm
  rw [PendingWord.terms] at hterm
  split at hterm
  · cases hterm
  · exact length_wordTerms_le lexicon word.surface term hterm

theorem Streaming.Sound.finish (h : state.Sound start stop)
    (hok : finishStreamedWord lexicon state = .ok state') :
    state'.Sound start stop ∧ state'.pending = none := by
  have htokens := h.tokens
  unfold Streaming.Tokens at htokens
  unfold finishStreamedWord at hok
  cases hpending : state.pending with
  | none =>
    rw [hpending] at hok
    cases hok
    exact ⟨h, hpending⟩
  | some word =>
    rw [hpending] at hok htokens
    obtain ⟨hbefore, hword, hstop⟩ := htokens
    obtain ⟨next, hnext, hok⟩ := bind_ok_iff.mp hok
    obtain ⟨hpushed, hposition, hbounded⟩ := pushTokens_eq_ok hnext
    cases hok
    refine ⟨⟨?_, hbounded h.bounded⟩, rfl⟩
    show TokensUpTo start stop (next.position + 1) next.tokens
    rw [hpushed, hposition]
    exact (hbefore.word hword word.length_terms_le).mono hstop

theorem appendCharacters_bytes (word : PendingWord) (fragment : List Char) :
    (appendCharacters word fragment).startByte = word.startByte ∧
      (appendCharacters word fragment).endByte = word.endByte := by
  induction fragment generalizing word with
  | nil => exact ⟨rfl, rfl⟩
  | cons character rest ih =>
    rw [appendCharacters]
    split
    · exact ⟨rfl, rfl⟩
    · exact ih _

theorem appendWordFragment_bytes (word : PendingWord) (fragment : List Char) :
    (appendWordFragment word fragment).startByte = word.startByte ∧
      (appendWordFragment word fragment).endByte = word.endByte + byteLength fragment := by
  simp only [appendWordFragment]
  split
  · exact ⟨rfl, rfl⟩
  · exact appendCharacters_bytes _ fragment

variable {chars : List Char}

theorem Streaming.Sound.fragment {baseByte : Nat} {final : Bool} {word : PendingWord}
    {run : WordRun} (h : TokensUpTo start word.startByte state.position state.tokens)
    (hbounded : state.tokens.length ≤ MAX_BM25_TOKENS_PER_WINDOW)
    (hword : word.startByte ≤ word.endByte) (hle : word.endByte ≤ run.startByte)
    (hsurface : run.surface ≠ [])
    (hok : streamFragment lexicon chars baseByte final state word run = .ok state') :
    state'.Sound start run.endByte := by
  obtain ⟨hstart, hend⟩ := appendWordFragment_bytes word run.surface
  have hlt := lt_endByte hsurface
  have hpending : ({ state with
      pending := some (appendWordFragment word run.surface) } : Streaming).Sound start
        run.endByte := by
    refine ⟨?_, hbounded⟩
    show TokensUpTo start _ state.position state.tokens ∧ _ < _ ∧ _ ≤ run.endByte
    rw [WordRun.endByte] at hlt ⊢
    rw [hstart, hend]
    exact ⟨h, by omega, by omega⟩
  simp only [streamFragment] at hok
  split at hok
  · exact (hpending.finish hok).1
  · cases hok
    exact hpending

theorem Streaming.Sound.tokensUpTo (h : state.Sound start stop) (hpending : state.pending = none) :
    TokensUpTo start stop state.position state.tokens := by
  have htokens := h.tokens
  unfold Streaming.Tokens at htokens
  rwa [hpending] at htokens

theorem Streaming.Sound.streamRun (h : state.Sound start stop) {baseByte : Nat} {final : Bool}
    {run : WordRun × Nat} (hle : stop ≤ run.1.startByte) (hsurface : run.1.surface ≠ [])
    (hok : streamRun lexicon chars baseByte final state run = .ok state') :
    state'.Sound start run.1.endByte := by
  unfold Postings.streamRun at hok
  cases hpending : state.pending with
  | none =>
    rw [hpending] at hok
    exact .fragment ((h.tokensUpTo hpending).mono hle) h.bounded (Nat.le_refl _)
      (Nat.le_refl _) hsurface hok
  | some word =>
    rw [hpending] at hok
    dsimp only at hok
    split at hok
    · have htokens := h.tokens
      unfold Streaming.Tokens at htokens
      rw [hpending] at htokens
      exact .fragment htokens.1 h.bounded (Nat.le_of_lt htokens.2.1)
        (Nat.le_trans htokens.2.2 hle) hsurface hok
    · obtain ⟨next, hnext, hok⟩ := bind_ok_iff.mp hok
      obtain ⟨hfinished, hnone⟩ := h.finish hnext
      exact .fragment ((hfinished.tokensUpTo hnone).mono hle) hfinished.bounded (Nat.le_refl _)
        (Nat.le_refl _) hsurface hok

theorem Streaming.Sound.streamRuns {baseByte : Nat} {final : Bool}
    {runs : List WordRun} {first : Nat} (h : state.Sound start stop)
    (hruns : RunsFrom stop stop' runs)
    (hok : (runs.zipIdx first).foldlM (Postings.streamRun lexicon chars baseByte final) state =
      .ok state') : state'.Sound start stop' := by
  induction runs generalizing state stop first with
  | nil =>
    cases hok
    exact h.mono hruns
  | cons run rest ih =>
    obtain ⟨hle, hsurface, hrest⟩ := hruns
    rw [List.zipIdx_cons, List.foldlM_cons] at hok
    obtain ⟨next, hnext, hok⟩ := bind_ok_iff.mp hok
    exact ih (h.streamRun hle hsurface hnext) hrest hok

/-- A segment adds tokens of its own range, and of the word that is carried over. -/
theorem Streaming.Sound.segment {final : Bool} (h : state.Sound start stop)
    (hok : tokenizeBm25Segment lexicon state chars stop final = .ok state') :
    state'.Sound start (stop + byteLength chars) ∧ (final = true → state'.pending = none) := by
  rw [tokenizeBm25Segment] at hok
  obtain ⟨next, hnext, hok⟩ := bind_ok_iff.mp hok
  have hsound := h.streamRuns (wordRuns_runsFrom lexicon.isWord chars stop) hnext
  split at hok
  · obtain ⟨hfinished, hnone⟩ := hsound.finish hok
    exact ⟨hfinished, fun _ => hnone⟩
  · rename_i hcond
    cases hok
    refine ⟨hsound, fun hfinal => ?_⟩
    rw [hfinal, Bool.or_true] at hcond
    exact absurd rfl hcond

end ContextStore.Postings
