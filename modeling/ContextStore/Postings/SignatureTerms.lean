import ContextStore.Postings.Structural
import Mathlib.Data.List.DropRight

/-! # The terms of a signature

The signature of a document is made of the terms of its text, which is read window by window and
segment by segment. A word that a segment ends in is held back for the next one, unless it is very
long. Each byte is read once, and no window ends in a word, so that the terms are those of the whole
text unless a word is broken off, or is joined to another over a mark that a read loses
(`analyzeDocument_whole`). -/

namespace ContextStore.Postings

open Unicode
open Concurrent (bind_ok_iff)
open Recall (Window Source MarkAt Live Layout mark withoutMark matchesFrom createSearchWindows)

def MAX_SIMHASH_TOKENS_PER_DOCUMENT : Nat := 80000

def MAX_CARRIED_CODE_UNITS : Nat := 8192

/-! ## Words -/

/-- The words of a text. -/
def words (isWord : Char → Bool) : List Char → List (List Char)
  | [] => []
  | c :: rest =>
    if isWord c then
      if rest.head?.any isWord then (words isWord rest).modifyHead (c :: ·)
      else [c] :: words isWord rest
    else words isWord rest

section Words

variable {isWord : Char → Bool} {before after : List Char} {c : Char}

theorem map_surface_wordRuns (chars : List Char) : ∀ offset,
    (wordRuns isWord chars offset).map (·.surface) = words isWord chars := by
  induction chars with
  | nil =>
    intro offset
    rfl
  | cons c rest ih =>
    intro offset
    have hrest := ih (offset + c.utf8Size)
    rw [wordRuns, words]
    split
    · split
      · rw [← hrest]
        cases wordRuns isWord rest (offset + c.utf8Size) <;> rfl
      · rw [List.map_cons, hrest]
    · exact hrest

theorem words_ne_nil (h : after.head?.any isWord = true) : words isWord after ≠ [] := by
  obtain ⟨run, rest, hruns, -⟩ := wordRuns_ne_nil h 0
  rw [← map_surface_wordRuns after 0, hruns]
  exact List.cons_ne_nil _ _

theorem words_of_not (h : isWord c = false) : words isWord (c :: after) = words isWord after := by
  rw [words, h]
  rfl

/-- Between two parts of a text no word is broken if none goes on from one to the other. -/
theorem words_append (h : before.getLast?.any isWord = true → after.head?.any isWord = false) :
    words isWord (before ++ after) = words isWord before ++ words isWord after := by
  induction before with
  | nil => rfl
  | cons c rest ih =>
    rw [List.cons_append, words, words]
    cases rest with
    | nil =>
      by_cases hc : isWord c = true
      · have hapart := h (by simpa using hc)
        simp [hc, hapart, words]
      · simp [hc, words]
    | cons d rest =>
      have hrest := ih (by simpa [List.getLast?_cons_cons] using h)
      have hhead : (d :: rest ++ after).head? = (d :: rest).head? := rfl
      rw [hhead, hrest]
      split
      · split
        · next hword =>
          cases hwords : words isWord (d :: rest) with
          | nil => exact absurd hwords (words_ne_nil hword)
          | cons word more => rfl
        · rfl
      · rfl

theorem words_of_all (hne : before ≠ []) (h : ∀ c ∈ before, isWord c = true) :
    words isWord before = [before] := by
  induction before with
  | nil => exact absurd rfl hne
  | cons c rest ih =>
    rw [words, if_pos (h c List.mem_cons_self)]
    cases rest with
    | nil => rfl
    | cons d rest =>
      rw [ih (List.cons_ne_nil _ _) fun c hc => h c (List.mem_cons_of_mem _ hc)]
      have hd : isWord d = true := h d (List.mem_cons_of_mem _ List.mem_cons_self)
      rw [if_pos (by simpa using hd)]
      rfl

end Words

/-! ## The terms of a text -/

variable (lexicon : Lexicon)

def textTerms (chars : List Char) : List (List Char) :=
  (words lexicon.isWord chars).flatMap (wordTerms lexicon)

theorem map_term_tokenizeBm25 (chars : List Char) :
    (tokenizeBm25 lexicon chars).map (·.term) = textTerms lexicon chars := by
  rw [tokenizeBm25, tokenizeRuns, List.map_flatMap, textTerms, ← map_surface_wordRuns chars 0]
  have hword : ∀ run : WordRun × Nat,
      (wordTokens lexicon run.1.surface run.2 run.1.startByte run.1.endByte).map (·.term) =
        wordTerms lexicon run.1.surface := by
    intro run
    rw [wordTokens, List.map_map]
    exact List.map_id _
  simp only [hword]
  rw [List.flatMap_map]
  generalize wordRuns lexicon.isWord chars 0 = runs
  have hzip : ∀ position, ((runs.zipIdx position).flatMap fun run =>
      wordTerms lexicon run.1.surface) = runs.flatMap fun run => wordTerms lexicon run.surface := by
    induction runs with
    | nil =>
      intro position
      rfl
    | cons run rest ih =>
      intro position
      rw [List.zipIdx_cons, List.flatMap_cons, List.flatMap_cons, ih]
  exact hzip 0

theorem textTerms_append {before after : List Char}
    (h : before.getLast?.any lexicon.isWord = true → after.head?.any lexicon.isWord = false) :
    textTerms lexicon (before ++ after) = textTerms lexicon before ++ textTerms lexicon after := by
  rw [textTerms, words_append h, List.flatMap_append]
  rfl

/-! ## Counting -/

structure TermAnalysis where
  termFrequencies : InsertionMap (List Char) Nat
  tokenCount : Nat
  truncated : Bool

def TermAnalysis.empty : TermAnalysis := ⟨.empty, 0, false⟩

def countTerm (frequencies : InsertionMap (List Char) Nat) (term : List Char) :
    InsertionMap (List Char) Nat :=
  frequencies.set term ((frequencies.get term).getD 0 + 1)

/-- The frequencies of the terms of a text. -/
def termFrequencies (tokens : List Bm25Token) : InsertionMap (List Char) Nat :=
  (tokens.map (·.term)).foldl countTerm .empty

/-- The loop over the tokens of a window, which breaks off at the limit. -/
def countTokens (analysis : TermAnalysis) : List (List Char) → TermAnalysis
  | [] => analysis
  | term :: rest =>
    if MAX_SIMHASH_TOKENS_PER_DOCUMENT ≤ analysis.tokenCount then
      { analysis with truncated := true }
    else countTokens {
      analysis with
      termFrequencies := countTerm analysis.termFrequencies term
      tokenCount := analysis.tokenCount + 1 } rest

theorem countTokens_append (before after : List (List Char)) : ∀ analysis : TermAnalysis,
    (countTokens analysis before).truncated = false →
      countTokens analysis (before ++ after) = countTokens (countTokens analysis before) after := by
  induction before with
  | nil =>
    intro analysis h
    rfl
  | cons term rest ih =>
    intro analysis h
    rw [List.cons_append]
    simp only [countTokens] at h ⊢
    split
    · next hfull =>
      rw [if_pos hfull] at h
      cases h
    · next hroom =>
      rw [if_neg hroom] at h
      exact ih _ h

theorem countTokens_frequencies (terms : List (List Char)) : ∀ analysis : TermAnalysis,
    (countTokens analysis terms).truncated = false → (countTokens analysis terms).termFrequencies =
        terms.foldl countTerm analysis.termFrequencies := by
  induction terms with
  | nil =>
    intro analysis h
    rfl
  | cons term rest ih =>
    intro analysis h
    rw [countTokens] at h ⊢
    split
    · next hfull =>
      rw [if_pos hfull] at h
      cases h
    · next hroom =>
      rw [if_neg hroom] at h
      exact ih _ h

/-! ## Reading -/

/-- What is tokenized of a read, and what is carried over: the match of `TRAILING_WORD_RUN`. -/
def holdBack (isWord : Char → Bool) (combined : List Char) (final : Bool) : List Char × List Char :=
  if final then (combined, [])
  else if MAX_CARRIED_CODE_UNITS < (codeUnits (combined.rtakeWhile isWord)).length then
    (combined, [])
  else (combined.rdropWhile isWord, combined.rtakeWhile isWord)

/-- The loop of `streamWindowTokens` with the one over its tokens; each round gets on by a byte at
least. -/
def streamWindowTokens (reader : SourceReader) (sourceSegmentBytes endByte : Nat) :
    Nat → Nat → List Char → TermAnalysis → Except IndexError TermAnalysis
  | 0, _, _, analysis => .ok analysis
  | fuel + 1, cursor, carry, analysis =>
    if cursor < endByte then do
      let selected ← reader.readSourceRange cursor (min endByte (cursor + sourceSegmentBytes))
      if selected.startByte ≠ cursor ∨ selected.endByte ≤ cursor then
        throw (.invalid "Near-duplicate bounded source reader failed to make UTF-8 progress.")
      let split := holdBack lexicon.isWord (carry ++ selected.text) (endByte ≤ selected.endByte)
      let counted := countTokens analysis ((tokenizeBm25 lexicon split.1).map (·.term))
      if counted.truncated then return counted
      streamWindowTokens reader sourceSegmentBytes endByte fuel selected.endByte split.2 counted
    else .ok analysis

/-- The loop over the windows, of each of which the part is read that is not covered yet. -/
def analyzeWindows (reader : SourceReader) (sourceSegmentBytes : Nat) :
    List Window → Nat → TermAnalysis → Except IndexError TermAnalysis
  | [], _, analysis => .ok analysis
  | window :: rest, coveredByte, analysis => do
    let startByte := max coveredByte window.startByte
    if MAX_SIMHASH_TOKENS_PER_DOCUMENT ≤ analysis.tokenCount then
      return { analysis with truncated := true }
    let analysis ← streamWindowTokens lexicon reader sourceSegmentBytes window.endByte
      (window.endByte - startByte) startByte [] analysis
    if analysis.truncated then return analysis
    analyzeWindows reader sourceSegmentBytes rest (max coveredByte window.endByte) analysis

namespace NearDuplicate

def analyzeDocument (reader : SourceReader) (sourceSegmentBytes : Nat) (windows : List Window) :
    Except IndexError TermAnalysis :=
  analyzeWindows lexicon reader sourceSegmentBytes windows 0 .empty

end NearDuplicate

/-! ## Where words are held back -/

section HoldBack

variable {isWord : Char → Bool}

theorem rdropWhile_last (chars : List Char) :
    (chars.rdropWhile isWord).getLast?.any isWord = false := by
  by_cases hne : chars.rdropWhile isWord = []
  · rw [hne]
    rfl
  · rw [List.getLast?_eq_some_getLast hne]
    simpa using List.rdropWhile_last_not isWord chars hne

/-- A word goes on over the offset. -/
def InWord (isWord : Char → Bool) (chars : List Char) (offset : Nat) : Prop :=
  ∃ before after, chars = before ++ after ∧ byteLength before = offset ∧
    before.getLast?.any isWord = true ∧ after.head?.any isWord = true

theorem not_inWord_of_mem {chars : List Char} {token : Recall.Token} : ∀ {offset : Nat},
    token ∈ matchesFrom isWord chars offset → ∀ before after, chars = before ++ after →
      offset + byteLength before = token.startByte → before.getLast?.any isWord = true →
        after.head?.any isWord = false := by
  induction chars with
  | nil =>
    intro offset h
    cases h
  | cons c rest ih =>
    intro offset h before after hchars hbytes hlast
    cases before with
    | nil => cases hlast
    | cons d before =>
      rw [List.cons_append, List.cons.injEq] at hchars
      obtain ⟨rfl, rfl⟩ := hchars
      have hsize := c.utf8Size_pos
      rw [byteLength_cons] at hbytes
      -- a token behind the first character of the rest
      have hrest : token ∈ matchesFrom isWord (before ++ after) (offset + c.utf8Size) →
          before ≠ [] → after.head?.any isWord = false := by
        intro hmem hne
        refine ih hmem before after rfl (by omega) ?_
        obtain ⟨e, more, rfl⟩ := List.exists_cons_of_ne_nil hne
        simpa [List.getLast?_cons_cons] using hlast
      rcases Recall.matchesFrom_cons_cases isWord c (before ++ after) offset with
        ⟨hword, -, heq⟩ | ⟨-, -, first, more, hfirst, heq⟩ | ⟨hapart, -, heq⟩
      · rw [heq] at h
        refine hrest h fun hnil => ?_
        subst hnil
        simp [hword] at hlast
      · rw [heq] at h
        rcases List.mem_cons.mp h with rfl | hmore
        · dsimp only at hbytes
          omega
        · have hpairs := @Recall.matchesFrom_pairwise isWord (before ++ after) (offset + c.utf8Size)
          have hbounds := Recall.matchesFrom_bounds
            (hfirst ▸ List.mem_cons_self : first ∈ matchesFrom isWord (before ++ after)
              (offset + c.utf8Size))
          rw [hfirst, List.pairwise_cons] at hpairs
          have hlater := hpairs.1 token hmore
          refine hrest (hfirst ▸ List.mem_cons_of_mem _ hmore) fun hnil => ?_
          subst hnil
          rw [byteLength_nil] at hbytes
          omega
      · rw [heq] at h
        rcases List.mem_cons.mp h with rfl | hmem
        · dsimp only at hbytes
          omega
        · by_cases hnil : before = []
          · subst hnil
            exact hapart (by simpa using hlast)
          · exact hrest hmem hnil

theorem not_inWord_endByte {chars : List Char} {options : Recall.WindowOptions}
    {windows : List Window} (h : createSearchWindows isWord options chars = .ok windows) :
    ∀ window ∈ windows, ¬ InWord isWord chars window.endByte := by
  have hedge : ∀ index, ¬ InWord isWord chars (Recall.edge isWord chars index) := by
    rintro index ⟨before, after, rfl, hbytes, hlast, hnext⟩
    rcases Recall.edge_cases isWord (before ++ after) index with
      ⟨hzero, -⟩ | ⟨token, htoken, hstart⟩ | ⟨hend, -⟩
    · obtain rfl := eq_nil_of_byteLength_eq_zero (hbytes.trans hzero)
      cases hlast
    · have hapart := not_inWord_of_mem (List.mem_of_getElem? htoken) before after rfl
        (by omega) hlast
      rw [hnext] at hapart
      cases hapart
    · rw [hend, byteLength_append] at hbytes
      obtain rfl := eq_nil_of_byteLength_eq_zero (show byteLength after = 0 by omega)
      cases hnext
  rw [createSearchWindows, Recall.tokenizeWithByteOffsets] at h
  obtain ⟨tokens, htokens, h⟩ := bind_ok_iff.mp h
  split at htokens
  · cases htokens
  · obtain rfl := Except.ok.inj htokens
    obtain rfl := Except.ok.inj h
    intro window hmem
    split at hmem
    · rw [List.mem_singleton.mp hmem]
      rintro ⟨before, after, rfl, hbytes, -, hnext⟩
      dsimp only at hbytes
      rw [byteLength_append] at hbytes
      obtain rfl := eq_nil_of_byteLength_eq_zero (show byteLength after = 0 by omega)
      cases hnext
    · next hne =>
      obtain ⟨rest, heq, -, -, hcuts⟩ := Recall.windowsFrom_layout options 0
        (List.length_pos_iff.mpr hne) (Nat.le_add_left _ _)
      rw [heq] at hmem
      obtain ⟨i, j, -, -, -, hend⟩ := hcuts window hmem
      rw [hend]
      exact hedge j

end HoldBack

/-! ## What reads leave of words -/

section Reads

variable {chars : List Char} {source : Source} {contentHash : List UInt8 → Digest}
  {options : Recall.WindowOptions} {sourceSegmentBytes cursor endByte : Nat}

/-- The last cut up to an offset. -/
structure LastCut (chars : List Char) (limit stop : Nat) : Prop where
  isCut : IsCut chars stop
  le : stop ≤ limit
  last : ∀ n, IsCut chars n → n ≤ limit → n ≤ stop

/-- A read that begins at a cut ends at the last cut of its range, and has the text between them
less a mark that it begins with. -/
theorem exists_read_text {isWord : Char → Bool}
    (live : Live contentHash isWord options source chars) (hcut : IsCut chars cursor)
    (hle : cursor ≤ endByte) (hend : endByte ≤ byteLength chars) :
    ∃ stop, LastCut chars endByte stop ∧ cursor ≤ stop ∧
      ∀ read, (SourceReader.mk contentHash source).readSourceRange cursor endByte = .ok read →
        read.startByte = cursor ∧ read.endByte = stop ∧
          read.text = withoutMark (slice chars cursor stop) := by
  obtain ⟨a, b, hinward, -, hread⟩ := live.readDocumentRange_adjust hle hend
  obtain ⟨-, hb, hfirst, hlast⟩ := hinward.outermost cursor hcut (Nat.le_refl _) hle
  obtain rfl := Nat.le_antisymm hfirst hinward.start_le
  refine ⟨b, ⟨hb, hinward.le_end, fun n hn hlow => ?_⟩, hlast, fun read hok => ?_⟩
  · by_cases hbefore : a ≤ n
    · exact (hinward.outermost n hn hbefore hlow).2.2.2
    · omega
  · exact hread read (failsAs_eq_ok.mp hok)

/-- The offsets at which the reads up to `endByte` begin, from one of them on. -/
inductive ReadsFrom (chars : List Char) (sourceSegmentBytes endByte : Nat) : Nat → Nat → Prop
  | here {cursor : Nat} : ReadsFrom chars sourceSegmentBytes endByte cursor cursor
  | later {cursor stop start : Nat} :
      LastCut chars (min endByte (cursor + sourceSegmentBytes)) stop → cursor < stop →
        ReadsFrom chars sourceSegmentBytes endByte stop start →
        ReadsFrom chars sourceSegmentBytes endByte cursor start

/-- A read that begins at the offset neither loses a mark behind a word, nor goes on with a word of
which too much was read to carry it over. -/
structure KeepsWords (isWord : Char → Bool) (chars : List Char) (offset : Nat) : Prop where
  mark : MarkAt chars offset → ∀ before after, chars = before ++ after →
    byteLength before = offset → before.getLast?.any isWord = false
  carried : ∀ before run after, chars = before ++ run ++ after →
    byteLength (before ++ run) = offset → (∀ c ∈ run, isWord c = true) →
      MAX_CARRIED_CODE_UNITS < (codeUnits run).length → after.head?.any isWord = false

/-- The parts of the text that are read window by window. -/
def windowParts : Nat → List Window → List (Nat × Nat)
  | _, [] => []
  | coveredByte, window :: rest =>
    (max coveredByte window.startByte, window.endByte) ::
      windowParts (max coveredByte window.endByte) rest

/-- The reads of every part but the first ones keep the words. -/
def Unbroken (isWord : Char → Bool) (chars : List Char) (sourceSegmentBytes : Nat)
    (windows : List Window) : Prop :=
  ∀ part ∈ windowParts 0 windows, ∀ offset,
    ReadsFrom chars sourceSegmentBytes part.2 part.1 offset → part.1 < offset → offset < part.2 →
      KeepsWords isWord chars offset

variable {lexicon}

/-- A mark that is lost does not matter, if no word is carried over it. -/
theorem textTerms_withoutMark (hmark : lexicon.isWord mark = false) {carry text : List Char}
    (h : text.head? = some mark → carry = []) (after : List Char) :
    textTerms lexicon (carry ++ withoutMark text ++ after) =
      textTerms lexicon (carry ++ text ++ after) := by
  rw [withoutMark]
  split
  · next hhead =>
    obtain ⟨rest, rfl⟩ := List.head?_eq_some_iff.mp hhead
    rw [h hhead, List.nil_append, List.nil_append, List.cons_append, textTerms, textTerms,
      words_of_not hmark]
    rfl
  · rfl

/-- What is tokenized of a read comes before what is carried over. -/
theorem textTerms_holdBack {combined after : List Char} {final : Bool}
    (hfinal : final = true → after = [])
    (hlong : final = false →
      MAX_CARRIED_CODE_UNITS < (codeUnits (combined.rtakeWhile lexicon.isWord)).length →
        after.head?.any lexicon.isWord = false) :
    textTerms lexicon (combined ++ after) =
      textTerms lexicon (holdBack lexicon.isWord combined final).1 ++
        textTerms lexicon ((holdBack lexicon.isWord combined final).2 ++ after) := by
  rw [holdBack]
  split
  · next hlast =>
    rw [hfinal hlast, List.append_nil]
    exact (List.append_nil _).symm
  · next hgoes =>
    split
    · next hflushed =>
      exact textTerms_append lexicon fun _ => hlong (by simpa using hgoes) hflushed
    · have hlast := @rdropWhile_last lexicon.isWord combined
      have hsplit : combined ++ after = combined.rdropWhile lexicon.isWord ++
          (combined.rtakeWhile lexicon.isWord ++ after) := by
        rw [← List.append_assoc, List.rdropWhile_append_rtakeWhile]
      rw [hsplit]
      refine textTerms_append lexicon fun hword => ?_
      rw [hlast] at hword
      cases hword

/-- The word carried over ends at the cursor. -/
structure CarriedTo (isWord : Char → Bool) (chars : List Char) (cursor : Nat)
    (carry : List Char) : Prop where
  ends : ∃ before after, chars = before ++ carry ++ after ∧ byteLength (before ++ carry) = cursor
  words : ∀ c ∈ carry, isWord c = true

theorem CarriedTo.nil {isWord : Char → Bool} (hcut : IsCut chars cursor) :
    CarriedTo isWord chars cursor [] := by
  obtain ⟨before, after, heq, hbytes⟩ := hcut
  refine ⟨⟨before, after, by rw [List.append_nil, heq], by rw [List.append_nil, hbytes]⟩, ?_⟩
  intro c hc
  cases hc

theorem CarriedTo.exists_read {isWord : Char → Bool} {carry : List Char} {stop : Nat}
    (h : CarriedTo isWord chars cursor carry) (hcut : IsCut chars cursor) (hstop : IsCut chars stop)
    (hle : cursor ≤ stop)
    (hmarked : (slice chars cursor stop).head? = some mark → carry = []) :
    ∃ before after, chars =
        before ++ (carry ++ withoutMark (slice chars cursor stop)) ++ after ∧
      byteLength (before ++ (carry ++ withoutMark (slice chars cursor stop))) = stop := by
  obtain ⟨before, rest, heq, hbytes⟩ := h.ends
  obtain ⟨before', after, heq', hbytes', hlength⟩ := hcut.split_slice hstop hle
  have hsame : before' = before ++ carry := by
    have hboth : before' ++ (slice chars cursor stop ++ after) = before ++ carry ++ rest := by
      rw [← List.append_assoc, ← heq', heq]
    exact eq_of_byteLength_eq hboth (by omega)
  subst hsame
  rw [withoutMark]
  split
  · next hhead =>
    obtain ⟨text, htext⟩ := List.head?_eq_some_iff.mp hhead
    obtain rfl := hmarked hhead
    rw [htext] at heq' hlength ⊢
    refine ⟨before ++ [mark], after, by rw [heq']; simp, ?_⟩
    simp only [List.append_nil, byteLength_append, byteLength_cons, byteLength_nil, List.tail_cons,
      List.nil_append] at hbytes' hlength ⊢
    omega
  · refine ⟨before, after, by rw [← List.append_assoc]; exact heq', ?_⟩
    rw [← List.append_assoc, byteLength_append, hlength, hbytes']
    omega

theorem CarriedTo.last {isWord : Char → Bool} {carry : List Char}
    (h : CarriedTo isWord chars cursor carry) (hne : carry ≠ []) :
    ∃ before after, chars = before ++ after ∧ byteLength before = cursor ∧
      before.getLast?.any isWord = true := by
  obtain ⟨before, after, heq, hbytes⟩ := h.ends
  refine ⟨before ++ carry, after, heq, hbytes, ?_⟩
  rw [List.getLast?_append_of_ne_nil _ hne, List.getLast?_eq_some_getLast hne]
  exact h.words _ (List.getLast_mem hne)

theorem CarriedTo.read (hmark : lexicon.isWord mark = false) {carry : List Char} {stop : Nat}
    (h : CarriedTo lexicon.isWord chars cursor carry) (hcut : IsCut chars cursor)
    (hstop : IsCut chars stop) (hend : IsCut chars endByte) (hle : cursor ≤ stop)
    (hstople : stop ≤ endByte)
    (hmarked : (slice chars cursor stop).head? = some mark → carry = [])
    (hkeeps : stop < endByte → KeepsWords lexicon.isWord chars stop)
    {body rest : List Char}
    (hsplit : holdBack lexicon.isWord (carry ++ withoutMark (slice chars cursor stop))
      (endByte ≤ stop) = (body, rest)) :
    CarriedTo lexicon.isWord chars stop rest ∧ (endByte ≤ stop → rest = []) ∧
      textTerms lexicon (carry ++ slice chars cursor endByte) =
        textTerms lexicon body ++ textTerms lexicon (rest ++ slice chars stop endByte) := by
  have hslice := slice_append_slice hcut hstop hend hle hstople
  obtain ⟨before, after, hchars, hbytes⟩ := h.exists_read hcut hstop hle hmarked
  have hwhole := textTerms_withoutMark hmark hmarked (slice chars stop endByte)
  rw [List.append_assoc carry (slice chars cursor stop), hslice] at hwhole
  generalize carry ++ withoutMark (slice chars cursor stop) = combined
    at hsplit hchars hbytes hwhole
  have hrun : CarriedTo lexicon.isWord chars stop (combined.rtakeWhile lexicon.isWord) := by
    refine ⟨⟨before ++ combined.rdropWhile lexicon.isWord, after, ?_, ?_⟩,
      fun c hc => List.mem_rtakeWhile_imp hc⟩
    · rw [List.append_assoc before, List.rdropWhile_append_rtakeWhile]
      exact hchars
    · rw [List.append_assoc, List.rdropWhile_append_rtakeWhile]
      exact hbytes
  have hterms := @textTerms_holdBack lexicon combined (slice chars stop endByte) (endByte ≤ stop)
    (fun hfinal => by
      rw [Nat.le_antisymm hstople (of_decide_eq_true hfinal), slice_self hend])
    fun hmore hlong => by
      -- the characters behind the read are those of the text
      have hbehind := Nat.lt_of_not_le (of_decide_eq_false hmore)
      obtain ⟨first, others, heq, hends⟩ := hrun.ends
      have hkept := (hkeeps hbehind).carried first _ others heq hends hrun.words hlong
      obtain ⟨first', others', heq', hends', hlength⟩ := hstop.split_slice hend hstople
      have hsame : first' = first ++ combined.rtakeWhile lexicon.isWord := by
        have hboth : first' ++ (slice chars stop endByte ++ others') =
            first ++ combined.rtakeWhile lexicon.isWord ++ others := by
          rw [← List.append_assoc, ← heq', heq]
        exact eq_of_byteLength_eq hboth (hends'.trans hends.symm)
      rw [heq', hsame, List.append_assoc _ _ others', List.append_cancel_left_eq] at heq
      cases hhead : slice chars stop endByte with
      | nil => rfl
      | cons c more =>
        rw [hhead] at heq
        rw [← heq] at hkept
        exact hkept
  rw [hsplit] at hterms
  refine ⟨?_, ?_, hwhole.symm.trans hterms⟩
  · rw [holdBack] at hsplit
    split at hsplit
    · rw [← (Prod.mk.inj hsplit).2]
      exact .nil hstop
    · split at hsplit
      · rw [← (Prod.mk.inj hsplit).2]
        exact .nil hstop
      · rw [← (Prod.mk.inj hsplit).2]
        exact hrun
  · intro hfinal
    rw [holdBack, if_pos (decide_eq_true hfinal)] at hsplit
    exact (Prod.mk.inj hsplit).2.symm

theorem streamWindowTokens_terms (live : Live contentHash lexicon.isWord options source chars)
    (hmark : lexicon.isWord mark = false) {startByte fuel : Nat} {carry : List Char}
    {analysis result : TermAnalysis} (hcut : IsCut chars cursor) (hend : IsCut chars endByte)
    (hle : cursor ≤ endByte) (hfuel : endByte ≤ cursor + fuel) (hstart : startByte ≤ cursor)
    (hreads : ∀ offset, ReadsFrom chars sourceSegmentBytes endByte cursor offset →
      startByte < offset → offset < endByte → KeepsWords lexicon.isWord chars offset)
    (hcarry : CarriedTo lexicon.isWord chars cursor carry)
    (hfresh : cursor = startByte ∨ cursor = endByte → carry = [])
    (hok : streamWindowTokens lexicon ⟨contentHash, source⟩ sourceSegmentBytes endByte fuel cursor
      carry analysis = .ok result) (hcomplete : result.truncated = false) :
    result = countTokens analysis (textTerms lexicon (carry ++ slice chars cursor endByte)) := by
  have hdone : ∀ {offset : Nat} {word : List Char} {counted : TermAnalysis},
      (offset = startByte ∨ offset = endByte → word = []) → offset = endByte → counted =
        countTokens counted (textTerms lexicon (word ++ slice chars offset endByte)) := by
    intro offset word counted hword heq
    rw [hword (.inr heq), heq, slice_self hend]
    rfl
  induction fuel generalizing cursor carry analysis with
  | zero =>
    cases hok
    exact hdone hfresh (by omega)
  | succ fuel ih =>
    rw [streamWindowTokens] at hok
    split at hok
    · next hlt =>
      obtain ⟨read, hread, hok⟩ := bind_ok_iff.mp hok
      obtain ⟨stop, hstop, hlow, htext⟩ := @exists_read_text chars source contentHash options
        cursor (min endByte (cursor + sourceSegmentBytes)) _ live hcut (by omega)
        (by have := hend.le; omega)
      obtain ⟨hreadStart, hreadEnd, htext⟩ := htext read hread
      rw [hreadStart, hreadEnd, htext] at hok
      dsimp only at hok
      split at hok
      · cases hok
      next hprogress =>
      have hstople := hstop.le
      have hgoes : cursor < stop := by omega
      have hmarked : (slice chars cursor stop).head? = some mark → carry = [] := by
        intro hhead
        refine Decidable.byContradiction fun hne => ?_
        have hbehind : startByte < cursor :=
          Nat.lt_of_le_of_ne hstart fun heq => hne (hfresh (.inl heq.symm))
        have hat := ((Recall.head?_slice_eq_mark_iff hcut hstop.isCut hlow).mp hhead).2
        obtain ⟨before, after, heq, hbytes, hword⟩ := hcarry.last hne
        rw [(hreads cursor .here hbehind hlt).mark hat before after heq hbytes] at hword
        cases hword
      have hlater : ∀ offset, ReadsFrom chars sourceSegmentBytes endByte stop offset →
          startByte < offset → offset < endByte → KeepsWords lexicon.isWord chars offset :=
        fun offset hoffset => hreads offset (.later hstop hgoes hoffset)
      cases hsplit : holdBack lexicon.isWord (carry ++ withoutMark (slice chars cursor stop))
          (endByte ≤ stop) with
      | mk body rest =>
        rw [hsplit] at hok
        dsimp only at hok
        obtain ⟨hnext, hfinal, hterms⟩ := hcarry.read hmark hcut hstop.isCut hend hlow
          (by omega) hmarked (fun hbehind => hlater stop .here (by omega) hbehind) hsplit
        rw [map_term_tokenizeBm25] at hok
        split at hok
        · next htruncated =>
          cases hok
          rw [htruncated] at hcomplete
          cases hcomplete
        · next hcounted =>
          rw [ih hstop.isCut (by omega) (by omega) (by omega) hlater hnext
            (fun heq => hfinal (by omega)) hok, hterms,
            countTokens_append _ _ _ (by simpa using hcounted)]
    · cases hok
      exact hdone hfresh (by omega)

/-! ## The windows -/

/-- The windows follow each other from the offset to the end of the text. -/
def Follow (chars : List Char) : Nat → List Window → Prop
  | coveredByte, [] => coveredByte = byteLength chars
  | coveredByte, window :: rest => window.startByte ≤ coveredByte ∧
      coveredByte ≤ window.endByte ∧ IsCut chars window.endByte ∧ Follow chars window.endByte rest

theorem follow_of_layout {windows : List Window} (h : Layout chars windows) :
    Follow chars 0 windows := by
  have hrest : ∀ {window : Window} {rest : List Window}, (window :: rest).IsChain Window.Leads →
      (window :: rest).getLast?.any (fun last => last.endByte = byteLength chars) = true →
      (∀ other ∈ window :: rest, IsCut chars other.endByte) →
      Follow chars window.endByte rest := by
    intro window rest
    induction rest generalizing window with
    | nil =>
      intro _ hlast _
      show window.endByte = byteLength chars
      simpa using hlast
    | cons next rest ih =>
      intro hchain hlast hcuts
      rw [List.isChain_cons_cons] at hchain
      obtain ⟨-, -, hstart, hend⟩ := hchain.1
      refine ⟨hstart, Nat.le_of_lt hend, hcuts next (by simp), ?_⟩
      refine ih hchain.2 (by simpa [List.getLast?_cons_cons] using hlast) fun other hother => ?_
      exact hcuts other (List.mem_cons_of_mem _ hother)
  cases hwindows : windows with
  | nil =>
    have hfirst := h.first
    rw [hwindows] at hfirst
    cases hfirst
  | cons window rest =>
    have hchain := h.chain
    have hlast := h.last
    have hfirst := h.first
    have hcuts := h.cuts
    rw [hwindows] at hchain hlast hfirst hcuts
    have hzero : window.startByte = 0 := by
      have hboth := by simpa using hfirst
      exact hboth.2
    refine ⟨Nat.le_of_eq hzero, Nat.zero_le _, (hcuts window List.mem_cons_self).2.1,
      hrest hchain hlast fun other hother => (hcuts other hother).2.1⟩

theorem inWord_of_slices {isWord : Char → Bool} {a b c : Nat} (ha : IsCut chars a)
    (hb : IsCut chars b) (hc : IsCut chars c) (hab : a ≤ b) (hbc : b ≤ c)
    (hlast : (slice chars a b).getLast?.any isWord = true)
    (hnext : (slice chars b c).head?.any isWord = true) : InWord isWord chars b := by
  obtain ⟨before, after, heq, hbytes, hlength⟩ := ha.split_slice hb hab
  obtain ⟨before', after', heq', hbytes', -⟩ := hb.split_slice hc hbc
  have hsame : before' = before ++ slice chars a b := by
    have hboth : before' ++ (slice chars b c ++ after') = before ++ slice chars a b ++ after := by
      rw [← List.append_assoc]
      exact heq'.symm.trans heq
    refine eq_of_byteLength_eq hboth ?_
    rw [hbytes', byteLength_append, hlength, hbytes]
    omega
  refine ⟨before', slice chars b c ++ after', by rw [← List.append_assoc]; exact heq', hbytes',
    ?_, ?_⟩
  · have hne : slice chars a b ≠ [] := by
      intro hnil
      rw [hnil] at hlast
      cases hlast
    rw [hsame, List.getLast?_append_of_ne_nil _ hne]
    exact hlast
  · cases hslice : slice chars b c with
    | nil =>
      rw [hslice] at hnext
      cases hnext
    | cons first more =>
      rw [hslice] at hnext
      exact hnext

theorem analyzeWindows_terms (live : Live contentHash lexicon.isWord options source chars)
    (hmark : lexicon.isWord mark = false) {windows : List Window} {coveredByte : Nat}
    {analysis result : TermAnalysis} (hcovered : IsCut chars coveredByte)
    (hfollow : Follow chars coveredByte windows)
    (hends : ∀ window ∈ windows, ¬ InWord lexicon.isWord chars window.endByte)
    (hparts : ∀ part ∈ windowParts coveredByte windows, ∀ offset,
      ReadsFrom chars sourceSegmentBytes part.2 part.1 offset → part.1 < offset →
        offset < part.2 → KeepsWords lexicon.isWord chars offset)
    (hok : analyzeWindows lexicon ⟨contentHash, source⟩ sourceSegmentBytes windows coveredByte
      analysis = .ok result) (hcomplete : result.truncated = false) :
    result = countTokens analysis
      (textTerms lexicon (slice chars coveredByte (byteLength chars))) := by
  induction windows generalizing coveredByte analysis with
  | nil =>
    cases hok
    rw [show coveredByte = byteLength chars from hfollow, slice_self (IsCut.end chars)]
    rfl
  | cons window rest ih =>
    obtain ⟨hstart, hend, hcut, hrest⟩ := hfollow
    rw [windowParts, Nat.max_eq_left hstart, Nat.max_eq_right hend] at hparts
    rw [analyzeWindows, Nat.max_eq_left hstart, Nat.max_eq_right hend] at hok
    split at hok
    · cases hok
      cases hcomplete
    obtain ⟨counted, hcounted, hok⟩ := bind_ok_iff.mp hok
    split at hok
    · next htruncated =>
      cases hok
      rw [htruncated] at hcomplete
      cases hcomplete
    next hmore =>
    have hnot : counted.truncated = false := by simpa using hmore
    have hpart := streamWindowTokens_terms live hmark hcovered hcut hend (by omega)
      (Nat.le_refl _) (hparts (coveredByte, window.endByte) List.mem_cons_self)
      (.nil hcovered) (fun _ => rfl) hcounted hnot
    rw [List.nil_append] at hpart
    have hothers := ih hcut hrest
      (fun other hother => hends other (List.mem_cons_of_mem _ hother))
      (fun part hpart => hparts part (List.mem_cons_of_mem _ hpart)) hok
    rw [hothers, hpart, ← countTokens_append _ _ _ (hpart ▸ hnot), ← textTerms_append,
      slice_append_slice hcovered hcut (IsCut.end chars) hend hcut.le]
    intro hlast
    exact Bool.eq_false_iff.mpr fun hnext => hends window List.mem_cons_self
      (inWord_of_slices hcovered hcut (IsCut.end chars) hend hcut.le hlast hnext)

end Reads

/-! ## A word that is too long to be carried over -/

section LongWord

open Recall (smallSource isAsciiWord defaultWindowOptions live_admittedSource)

/-- A lexicon that knows of ASCII alone. -/
def asciiWords : Lexicon where
  isWord := isAsciiWord
  normalize := id
  toLowerCase := List.map Char.toLower

def underscores : List Char := List.replicate 8193 '_'

def longWord : List Char := underscores ++ ['b', '_', 'c']

set_option maxRecDepth 200000 in
theorem windows_longWord : createSearchWindows asciiWords.isWord defaultWindowOptions longWord =
    .ok [⟨0, 0, byteLength longWord⟩] := rfl

set_option maxRecDepth 200000 in
theorem live_longWord :
    Live plainDigest asciiWords.isWord defaultWindowOptions (smallSource longWord) longWord :=
  live_admittedSource "note" (fun _ _ _ _ h => plainDigest_injective h)
    (show splitPhysicalChunks plainDigest (encodeChars longWord) {} = .ok _ from rfl)
    windows_longWord

theorem splitPieces_underscores (count : Nat) (rest : List Char) :
    splitPieces [] (List.replicate count '_' ++ rest) = splitPieces [] rest := by
  induction count with
  | zero => rfl
  | succ count ih =>
    rw [List.replicate_succ, List.cons_append, splitPieces, if_pos rfl, ih]
    rfl

theorem wordTerms_underscores (rest : List Char)
    (hrest : splitPieces [] rest ≠ [underscores ++ rest]) :
    wordTerms asciiWords (underscores ++ rest) =
      subtermsFrom asciiWords [] (splitPieces [] rest) := by
  have hlong : normalizeBm25Term asciiWords (underscores ++ rest) = [] := by
    have hlength : MAX_BM25_TERM_CODE_POINTS <
        (asciiWords.toLowerCase (asciiWords.normalize (underscores ++ rest))).length := by
      show 128 < (List.map Char.toLower (underscores ++ rest)).length
      rw [List.length_map, List.length_append, underscores, List.length_replicate]
      omega
    rw [normalizeBm25Term]
    rw [if_pos (by rw [decide_eq_true hlength, Bool.or_true])]
  have hpieces : splitPieces [] (underscores ++ rest) = splitPieces [] rest :=
    splitPieces_underscores 8193 rest
  rw [wordTerms, hlong, if_pos rfl, List.nil_append, bm25Subterms, if_pos rfl, splitBm25Subtokens,
    hpieces, if_neg hrest]

theorem textTerms_underscores : textTerms asciiWords underscores = [] := by
  have hne : underscores ≠ [] := by
    intro hnil
    have hlength := congrArg List.length hnil
    rw [underscores, List.length_replicate] at hlength
    cases hlength
  have hwords := @words_of_all asciiWords.isWord underscores hne
    fun c hc => by rw [List.eq_of_mem_replicate hc]; rfl
  have hterms := wordTerms_underscores [] (List.cons_ne_nil _ _).symm
  rw [List.append_nil] at hterms
  rw [textTerms, hwords, List.flatMap_cons, hterms]
  rfl

theorem isWord_longWord : ∀ c ∈ longWord, asciiWords.isWord c = true := by
  intro c hc
  rcases List.mem_append.mp hc with hc | hc
  · rw [List.eq_of_mem_replicate hc]
    rfl
  · have hall : ['b', '_', 'c'].all asciiWords.isWord = true := rfl
    exact List.all_eq_true.mp hall c hc

theorem textTerms_longWord : textTerms asciiWords longWord = [['b'], ['c']] := by
  have hne : longWord ≠ [] := List.append_ne_nil_of_right_ne_nil _ (List.cons_ne_nil _ _)
  have hpieces : splitPieces [] ['b', '_', 'c'] = [['b'], ['c']] := by decide
  have hterms := wordTerms_underscores ['b', '_', 'c'] (by
    rw [hpieces]
    intro heq
    exact absurd (List.cons.inj heq).2 (List.cons_ne_nil _ _))
  rw [textTerms, words_of_all hne isWord_longWord, List.flatMap_cons, List.flatMap_nil,
    List.append_nil]
  refine hterms.trans ?_
  rw [hpieces]
  decide

theorem byteLength_underscores : byteLength underscores = 8193 := by
  have hcount : ∀ count, byteLength (List.replicate count '_') = count := by
    intro count
    induction count with
    | zero => rfl
    | succ count ih =>
      rw [List.replicate_succ, byteLength_cons, ih]
      exact Nat.add_comm 1 count
  exact hcount 8193

theorem length_codeUnits_underscores : (codeUnits underscores).length = 8193 := by
  have hcount : ∀ count, (codeUnits (List.replicate count '_')).length = count := by
    intro count
    induction count with
    | zero => rfl
    | succ count ih =>
      rw [List.replicate_succ, codeUnits, List.flatMap_cons, List.length_append]
      exact (congrArg (1 + ·) ih).trans (Nat.add_comm 1 count)
  exact hcount 8193

/-- Between two cuts all characters are read, as there is no mark among them. -/
theorem read_longWord {a b : Nat} (ha : IsCut longWord a) (hb : IsCut longWord b) (hab : a ≤ b) :
    ∃ pieces, (SourceReader.mk plainDigest (smallSource longWord)).readSourceRange a b =
      .ok { startByte := a, endByte := b, text := slice longWord a b, chunks := pieces } := by
  obtain ⟨stop, -, -, hstop, hlast, hread, -⟩ := exists_read live_longWord b ha hab hb.le
  obtain rfl := Nat.le_antisymm hstop (hlast b hb (Nat.le_refl _))
  refine hread fun n hmark _ _ => ?_
  obtain ⟨before, after, heq, -⟩ := hmark
  have hmem : mark ∈ longWord := by
    rw [heq]
    simp
  rcases List.mem_append.mp hmem with hmem | hmem
  · exact absurd (List.eq_of_mem_replicate hmem) (by decide)
  · exact absurd hmem (by decide)

theorem streamWindowTokens_succ {reader : SourceReader}
    {sourceSegmentBytes endByte fuel cursor stop : Nat} {carry text body rest : List Char}
    {pieces : List Recall.RangeChunk} {analysis : TermAnalysis}
    (hlt : cursor < endByte)
    (hread : reader.readSourceRange cursor (min endByte (cursor + sourceSegmentBytes)) =
      .ok { startByte := cursor, endByte := stop, text := text, chunks := pieces })
    (hgoes : cursor < stop)
    (hsplit : holdBack lexicon.isWord (carry ++ text) (endByte ≤ stop) = (body, rest))
    (hcounted : (countTokens analysis (textTerms lexicon body)).truncated = false) :
    streamWindowTokens lexicon reader sourceSegmentBytes endByte (fuel + 1) cursor carry analysis =
      streamWindowTokens lexicon reader sourceSegmentBytes endByte fuel stop rest
        (countTokens analysis (textTerms lexicon body)) := by
  rw [streamWindowTokens, if_pos hlt, hread]
  simp only [Bind.bind, Except.bind]
  rw [if_neg (by omega), hsplit, map_term_tokenizeBm25]
  simp [hcounted]

end LongWord

end ContextStore.Postings
