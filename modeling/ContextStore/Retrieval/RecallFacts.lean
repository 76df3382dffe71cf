import ContextStore.Retrieval.LiveDocument
import ContextStore.Retrieval.Recall

/-! # What recall selects

In a live document the selection of windows never fails. It ends with windows around the target
whose text is within the budgets, or with the target alone. -/

namespace ContextStore.Recall

open Unicode Concurrent

variable {contentHash : List UInt8 → Digest} {isWord : Char → Bool} {options : WindowOptions}
  {source : Source} {chars : List Char} {windows : List Window}

/-- Within both budgets. -/
def Fits (isWord : Char → Bool) (maxTokens : Nat) (text : List Char) : Prop :=
  (matchesFrom isWord text 0).length ≤ maxTokens ∧ byteLength text ≤ byteBudget maxTokens

instance (maxTokens : Nat) (text : List Char) : Decidable (Fits isWord maxTokens text) :=
  inferInstanceAs (Decidable (_ ∧ _))

/-- The text between two cuts, as it was read. -/
structure Materialized.Exact (chars : List Char) (startByte endByte : Nat)
    (materialized : Materialized) : Prop where
  startByte_eq : materialized.startByte = startByte
  endByte_eq : materialized.endByte = endByte
  text_eq : materialized.text = slice chars startByte endByte

theorem not_markAt_token {token : Token} {offset : Nat} (hword : isWord mark = false)
    (h : token ∈ matchesFrom isWord chars offset) (hle : offset ≤ token.startByte) :
    ¬ MarkAt chars (token.startByte - offset) := by
  obtain ⟨before, c, after, hchars, hstart, hspace⟩ := exists_first_of_mem_matchesFrom h
  rintro ⟨before', after', hchars', hstart'⟩
  rw [hchars] at hchars'
  obtain ⟨between, hbetween, hrest⟩ := eq_append_of_byteLength_le hchars' (by omega)
  obtain rfl := eq_nil_of_byteLength_eq_zero (show byteLength between = 0 by
    rw [hbetween, byteLength_append] at hstart'
    omega)
  obtain rfl : c = mark := (List.cons.inj hrest).1
  exact absurd (hspace hword) (by decide)

/-- What the windows of a live document are when no chunk begins with a mark: `createSearchWindows`
made them, the store has them under their ordinals, and none of them begins with a mark. -/
structure Windowed (isWord : Char → Bool) (source : Source) (chars : List Char)
    (windows : List Window) : Prop where
  layout : Layout chars windows
  tokens_le : (matchesFrom isWord chars 0).length ≤ maxSearchTokensPerDocument
  window_eq : ∀ ordinal : Nat, source.window ordinal = windows[ordinal]?
  starts : ∀ window ∈ windows, ¬ MarkAt chars window.startByte
  chunks : ∀ chunk ∈ source.chunks, ¬ MarkAt chars chunk.startByte

theorem Live.exists_windowed (h : Live contentHash isWord options source chars)
    (hword : isWord mark = false) (hchunks : ∀ chunk ∈ source.chunks, ¬ MarkAt chars chunk.startByte) :
    ∃ windows, Windowed isWord source chars windows := by
  obtain ⟨windows, hcreate, hwindow⟩ := h.windows
  refine ⟨windows, createSearchWindows_layout hcreate, length_le_of_createSearchWindows hcreate,
    hwindow, fun window hmem hmark => ?_, hchunks⟩
  rcases createSearchWindows_starts hcreate window hmem with hzero | ⟨token, htoken, heq⟩
  · -- the first chunk begins there
    obtain ⟨physical, htiles, heq, -⟩ := h.exists_tiles
    cases physical with
    | nil =>
      have hlength : 0 = byteLength chars := htiles
      obtain ⟨before, after, hchars, -⟩ := hmark
      rw [eq_nil_of_byteLength_eq_zero hlength.symm] at hchars
      simp at hchars
    | cons chunk rest =>
      have hstart : chunk.startByte = 0 := htiles.2.2.1
      refine hchunks chunk.toChunkOccurrence ?_ (by rw [hstart, ← hzero]; exact hmark)
      rw [heq]
      exact List.mem_map_of_mem List.mem_cons_self
  · rw [heq] at hmark
    exact not_markAt_token hword htoken (Nat.zero_le _) hmark

theorem Windowed.unmarked (h : Windowed isWord source chars windows) {a : Nat}
    (ha : ¬ MarkAt chars a) (b : Nat) : Unmarked chars source a b := by
  intro n hmark hlow hhigh
  refine ⟨?_, fun chunk hchunk heq => h.chunks chunk hchunk (by rwa [heq])⟩
  rcases Nat.lt_or_eq_of_le hlow with hlt | rfl
  · exact hlt
  · exact absurd hmark ha

/-! ## Windows -/

section Windows

variable (h : Windowed isWord source chars windows)
include h

theorem Windowed.readWindow_eq (ordinal : Nat) : readWindow source ordinal = windows[ordinal]? := by
  rw [readWindow, if_pos (Int.natCast_nonneg ordinal), Int.toNat_natCast, h.window_eq]
  cases hwindow : windows[ordinal]? with
  | none => rfl
  | some window => simp [h.layout.ordinal_eq hwindow]

theorem Windowed.readWindow_pred {ordinal : Nat} (hpos : 0 < ordinal) :
    readWindow source ((ordinal : Int) - 1) = windows[ordinal - 1]? := by
  rw [← h.readWindow_eq, Int.ofNat_sub hpos]
  rfl

theorem Windowed.readWindow_some {ordinal : Int} {window : Window}
    (hread : readWindow source ordinal = some window) :
    windows[window.ordinal]? = some window ∧ (window.ordinal : Int) = ordinal := by
  rw [readWindow] at hread
  split at hread
  · next hnonneg =>
    obtain ⟨hwindow, hordinal⟩ := Option.filter_eq_some_iff.mp hread
    have hordinal : window.ordinal = ordinal.toNat := by simpa using hordinal
    rw [h.window_eq, ← hordinal] at hwindow
    exact ⟨hwindow, by omega⟩
  · cases hread

/-- A slice of the document is never refused by the tokenizer. -/
theorem Windowed.fitsRecallBudget_slice {a b : Nat} (ha : IsCut chars a) (hb : IsCut chars b)
    (hab : a ≤ b) (maxTokens : Nat) : fitsRecallBudget isWord (slice chars a b) maxTokens =
      .ok (decide (Fits isWord maxTokens (slice chars a b))) := by
  have hle : (matchesFrom isWord (slice chars a b) 0).length ≤ maxSearchTokensPerDocument :=
    Nat.le_trans (length_matchesFrom_slice_le ha hb hab 0) h.tokens_le
  rw [fitsRecallBudget, tokenizeWithByteOffsets, if_neg (Nat.not_lt.mpr hle)]
  rfl

end Windows

/-! ## Windows around the target -/

/-- Two windows of the document with the target between them. -/
structure Around (windows : List Window) (target first last : Window) : Prop where
  first_eq : windows[first.ordinal]? = some first
  last_eq : windows[last.ordinal]? = some last
  first_le : first.ordinal ≤ target.ordinal
  le_last : target.ordinal ≤ last.ordinal

theorem Around.refl {target : Window} (htarget : windows[target.ordinal]? = some target) :
    Around windows target target target where
  first_eq := htarget
  last_eq := htarget
  first_le := Nat.le_refl _
  le_last := Nat.le_refl _

section Selecting

variable (live : Live contentHash isWord options source chars)
  (h : Windowed isWord source chars windows) {target first last : Window}

include h

/-- The range from one window's start to a later one's end lies between two cuts. -/
theorem Around.range (haround : Around windows target first last) :
    IsCut chars first.startByte ∧ IsCut chars last.endByte ∧ first.startByte ≤ last.endByte ∧
      Unmarked chars source first.startByte last.endByte := by
  have hle := Nat.le_trans haround.first_le haround.le_last
  have hfirst := List.mem_of_getElem? haround.first_eq
  obtain ⟨hstart, -, hwindow, -⟩ := h.layout.cuts first hfirst
  obtain ⟨-, hend, -, -⟩ := h.layout.cuts last (List.mem_of_getElem? haround.last_eq)
  have hlater := h.layout.start_le hle haround.first_eq haround.last_eq
  exact ⟨hstart, hend, by omega, h.unmarked (h.starts first hfirst) _⟩

include live

theorem Around.readWindows_eq (haround : Around windows target first last) :
    ∃ materialized, readWindows contentHash source first last = .ok materialized ∧
      materialized.Exact chars first.startByte last.endByte := by
  obtain ⟨hstart, hend, hle, hunmarked⟩ := haround.range h
  obtain ⟨pieces, hread⟩ := live.readDocumentRange_ok hstart hend hle hunmarked
  exact ⟨_, hread, rfl, rfl, rfl⟩

theorem Around.fitsRange_eq (haround : Around windows target first last) (maxTokens : Nat) :
    ∃ fits, fitsRange contentHash isWord source first.startByte last.endByte maxTokens = .ok fits ∧
      (fits = true → Fits isWord maxTokens (slice chars first.startByte last.endByte)) := by
  obtain ⟨hstart, hend, hle, hunmarked⟩ := haround.range h
  rw [fitsRange]
  split
  · exact ⟨false, rfl, fun hfalse => Bool.noConfusion hfalse⟩
  · obtain ⟨pieces, hread⟩ := live.readDocumentRange_ok hstart hend hle hunmarked
    refine ⟨_, ?_, fun hfits => of_decide_eq_true hfits⟩
    rw [hread]
    exact h.fitsRecallBudget_slice hstart hend hle maxTokens

/-! ### Growing -/

/-- What growing keeps: the windows are those it began with, or their text is within the
budgets. -/
structure Grown (isWord : Char → Bool) (chars : List Char) (windows : List Window)
    (target first last : Window) (maxTokens : Nat) (span : Span) : Prop where
  around : Around windows target span.first span.last
  fits : (span.first = first ∧ span.last = last) ∨
    Fits isWord maxTokens (slice chars span.first.startByte span.last.endByte)

/-- One step of growing keeps it. -/
theorem Grown.growStep {maxTokens : Nat} {span : Span}
    (hgrown : Grown isWord chars windows target first last maxTokens span) :
    ∃ next, growStep contentHash isWord source target maxTokens span = .ok next ∧
      Grown isWord chars windows target first last maxTokens next := by
  have haround := hgrown.around
  have hfirst := haround.first_le
  have hlast := haround.le_last
  rw [Recall.growStep]
  split
  · cases hread : readWindow source (span.first.ordinal - 1) with
    | none => exact ⟨_, rfl, haround, hgrown.fits⟩
    | some candidate =>
      obtain ⟨hwindow, hordinal⟩ := h.readWindow_some hread
      have hnext : Around windows target candidate span.last :=
        ⟨hwindow, haround.last_eq, by omega, hlast⟩
      obtain ⟨fits, hfitsRange, hfits⟩ := hnext.fitsRange_eq live h maxTokens
      rw [growTo, hfitsRange]
      cases fits with
      | false => exact ⟨_, rfl, haround, hgrown.fits⟩
      | true => exact ⟨_, rfl, hnext, .inr (hfits rfl)⟩
  · cases hread : readWindow source (span.last.ordinal + 1) with
    | none => exact ⟨_, rfl, haround, hgrown.fits⟩
    | some candidate =>
      obtain ⟨hwindow, hordinal⟩ := h.readWindow_some hread
      have hnext : Around windows target span.first candidate :=
        ⟨haround.first_eq, hwindow, hfirst, by omega⟩
      obtain ⟨fits, hfitsRange, hfits⟩ := hnext.fitsRange_eq live h maxTokens
      rw [growTo, hfitsRange]
      cases fits with
      | false => exact ⟨_, rfl, haround, hgrown.fits⟩
      | true => exact ⟨_, rfl, hnext, .inr (hfits rfl)⟩

/-- And so does growing as far as it goes. -/
theorem Grown.growWindows {maxTokens : Nat} {span : Span} (steps : Nat)
    (hgrown : Grown isWord chars windows target first last maxTokens span) :
    ∃ grown, growWindows contentHash isWord source target maxTokens steps span = .ok grown ∧
      Grown isWord chars windows target first last maxTokens grown := by
  induction steps generalizing span with
  | zero => exact ⟨span, rfl, hgrown⟩
  | succ steps ih =>
    rw [Recall.growWindows]
    split
    · exact ⟨span, rfl, hgrown⟩
    · obtain ⟨next, hstep, hnext⟩ := hgrown.growStep live h
      rw [hstep]
      exact ih hnext

/-! ### Shrinking -/

omit live in
/-- The neighborhood is a stretch of the windows, cut off at the end of the document. -/
theorem Windowed.neighborhood_eq (htarget : windows[target.ordinal]? = some target)
    (count ordinal : Nat) : neighborhood source target count ordinal =
      some ((windows.drop ordinal).take count) := by
  induction count generalizing ordinal with
  | zero => rfl
  | succ count ih =>
    rw [neighborhood, h.readWindow_eq]
    cases hwindow : windows[ordinal]? with
    | none =>
      have hlength := List.getElem?_eq_none_iff.mp hwindow
      obtain ⟨hlt, -⟩ := List.getElem?_eq_some_iff.mp htarget
      rw [List.drop_eq_nil_of_le hlength]
      exact if_neg (by omega)
    | some window =>
      obtain ⟨hlt, rfl⟩ := List.getElem?_eq_some_iff.mp hwindow
      dsimp only
      rw [ih, List.drop_eq_getElem_cons hlt]
      rfl

/-- A stretch of the document's windows with the target at `targetIndex`. -/
structure Stretch (windows : List Window) (target : Window) (targetIndex : Nat)
    (stretch : List Window) : Prop where
  target_eq : windows[target.ordinal]? = some target
  target_le : targetIndex ≤ target.ordinal
  target_lt : targetIndex < stretch.length
  eq : ∀ (k : Nat) window, stretch[k]? = some window →
    windows[window.ordinal]? = some window ∧ window.ordinal = target.ordinal - targetIndex + k

/-- The range of indices that shrinking has come to. -/
structure Within (targetIndex length : Nat) (range : Nat × Nat) : Prop where
  first_le : range.1 ≤ targetIndex
  le_last : targetIndex ≤ range.2
  last_lt : range.2 < length

omit live h

theorem Within.shrink {targetIndex length : Nat} {range : Nat × Nat}
    (hwithin : Within targetIndex length range) (hlt : range.1 < range.2) :
    Within targetIndex length (shrink targetIndex range) ∧
      (Recall.shrink targetIndex range).2 - (Recall.shrink targetIndex range).1 + 1 =
        range.2 - range.1 := by
  obtain ⟨hfirst, hlast, hlength⟩ := hwithin
  rw [Recall.shrink]
  split
  · exact ⟨⟨by omega, by omega, by omega⟩, by omega⟩
  · split
    · exact ⟨⟨by omega, by omega, by omega⟩, by omega⟩
    · omega

variable {stretch : List Window} {targetIndex : Nat}

theorem Stretch.around (hstretch : Stretch windows target targetIndex stretch)
    {range : Nat × Nat} (hwithin : Within targetIndex stretch.length range) :
    ∃ first last, windowIn stretch range.1 = .ok first ∧ windowIn stretch range.2 = .ok last ∧
      Around windows target first last ∧ (range.1 = range.2 → first = target ∧ last = target) := by
  obtain ⟨hfirst, hlast, hlength⟩ := hwithin
  have hle := hstretch.target_le
  have hget : ∀ k, k < stretch.length → ∃ window, stretch[k]? = some window :=
    fun k hk => ⟨_, List.getElem?_eq_getElem hk⟩
  obtain ⟨first, hfirstEq⟩ := hget range.1 (by omega)
  obtain ⟨last, hlastEq⟩ := hget range.2 hlength
  obtain ⟨hfirstWindow, hfirstOrdinal⟩ := hstretch.eq _ _ hfirstEq
  obtain ⟨hlastWindow, hlastOrdinal⟩ := hstretch.eq _ _ hlastEq
  refine ⟨first, last, by rw [windowIn, hfirstEq], by rw [windowIn, hlastEq],
    ⟨hfirstWindow, hlastWindow, by omega, by omega⟩, fun heq => ?_⟩
  rw [show first.ordinal = target.ordinal by omega] at hfirstWindow
  rw [show last.ordinal = target.ordinal by omega] at hlastWindow
  exact ⟨Option.some.inj (hfirstWindow.symm.trans hstretch.target_eq),
    Option.some.inj (hlastWindow.symm.trans hstretch.target_eq)⟩

/-- The first loop ends with a single window or with few enough bytes. -/
theorem Stretch.shrinkToBytes (hstretch : Stretch windows target targetIndex stretch)
    (maxTokens : Nat) {fuel : Nat} {range : Nat × Nat}
    (hwithin : Within targetIndex stretch.length range) (hfuel : range.2 - range.1 < fuel) :
    ∃ shrunk first last, shrinkToBytes stretch targetIndex maxTokens fuel range = .ok shrunk ∧
      windowIn stretch shrunk.1 = .ok first ∧ windowIn stretch shrunk.2 = .ok last ∧
      Around windows target first last ∧ Within targetIndex stretch.length shrunk ∧
      (byteBudget maxTokens < last.endByte - first.startByte → first = target ∧ last = target) := by
  induction fuel generalizing range with
  | zero => omega
  | succ fuel ih =>
    obtain ⟨first, last, hfirst, hlast, haround, hsingle⟩ := hstretch.around hwithin
    rw [Recall.shrinkToBytes, hfirst, hlast]
    simp only [Bind.bind, Except.bind]
    split
    · next hmore =>
      obtain ⟨hshrink, hless⟩ := hwithin.shrink hmore.1
      exact ih hshrink (by omega)
    · next hdone =>
      have hfirstLe := hwithin.first_le
      have hlastLe := hwithin.le_last
      exact ⟨range, first, last, rfl, hfirst, hlast, haround, hwithin,
        fun hlarge => hsingle (by omega)⟩

section Reading

variable (live : Live contentHash isWord options source chars)
  (h : Windowed isWord source chars windows)
include live h

/-- The second loop ends with a single window or with a text within the budgets. -/
theorem Stretch.shrinkToTokens (hstretch : Stretch windows target targetIndex stretch)
    (maxTokens : Nat) {fuel : Nat} {range : Nat × Nat} {materialized : Materialized}
    (hwithin : Within targetIndex stretch.length range) (hfuel : range.2 - range.1 < fuel)
    (hfirst : windowIn stretch range.1 = .ok first) (hlast : windowIn stretch range.2 = .ok last)
    (hexact : materialized.Exact chars first.startByte last.endByte) :
    ∃ shrunk first last, shrinkToTokens contentHash isWord source stretch targetIndex maxTokens fuel
        range materialized = .ok shrunk ∧
      windowIn stretch shrunk.1.1 = .ok first ∧ windowIn stretch shrunk.1.2 = .ok last ∧
      Around windows target first last ∧ shrunk.2.Exact chars first.startByte last.endByte ∧
      ((first = target ∧ last = target) ∨
        Fits isWord maxTokens (slice chars first.startByte last.endByte)) := by
  induction fuel generalizing range materialized first last with
  | zero => omega
  | succ fuel ih =>
    have hfirstLe := hwithin.first_le
    have hlastLe := hwithin.le_last
    obtain ⟨first', last', hfirst', hlast', haround, hsingle⟩ := hstretch.around hwithin
    obtain rfl := Except.ok.inj (hfirst'.symm.trans hfirst)
    obtain rfl := Except.ok.inj (hlast'.symm.trans hlast)
    obtain ⟨hstart, hend, hle, -⟩ := haround.range h
    rw [Recall.shrinkToTokens]
    by_cases hmore : range.1 < range.2
    · rw [if_pos hmore, hexact.text_eq, h.fitsRecallBudget_slice hstart hend hle]
      by_cases hfits : Fits isWord maxTokens (slice chars first'.startByte last'.endByte)
      · refine ⟨(range, materialized), first', last', ?_, hfirst, hlast, haround, hexact,
          .inr hfits⟩
        simp only [Bind.bind, Except.bind, decide_eq_true hfits, if_true]
      · obtain ⟨hshrink, hless⟩ := hwithin.shrink hmore
        obtain ⟨next, nextLast, hnext, hnextLast, hnextAround, -⟩ := hstretch.around hshrink
        obtain ⟨read, hread, hreadExact⟩ := hnextAround.readWindows_eq live h
        obtain ⟨shrunk, hshrunk⟩ := ih hshrink (by omega) hnext hnextLast hreadExact
        refine ⟨shrunk, ?_⟩
        simp only [Bind.bind, Except.bind, decide_eq_false hfits, Bool.false_eq_true, if_false,
          hnext, hnextLast, hread]
        exact hshrunk
    · rw [if_neg hmore]
      exact ⟨(range, materialized), first', last', rfl, hfirst, hlast, haround, hexact,
        .inl (hsingle (by omega))⟩

/-- What is selected by shrinking: windows around the target with a text within the budgets, or the
target alone, which is read unless it has too many bytes. -/
theorem Stretch.shrunkRange (hstretch : Stretch windows target targetIndex stretch)
    (maxTokens : Nat) :
    ∃ first last read, shrunkRange contentHash isWord source stretch targetIndex maxTokens =
        .ok (first, last, read) ∧ Around windows target first last ∧
      (∀ materialized, read = some materialized →
        materialized.Exact chars first.startByte last.endByte) ∧
      (read = none → byteBudget maxTokens < last.endByte - first.startByte) ∧
      ((first = target ∧ last = target) ∨ (read.isSome ∧
        Fits isWord maxTokens (slice chars first.startByte last.endByte))) := by
  have hlt := hstretch.target_lt
  obtain ⟨range, first, last, hshrink, hfirst, hlast, haround, hwithin, hlarge⟩ :=
    hstretch.shrinkToBytes maxTokens
      (⟨Nat.zero_le _, Nat.le_sub_one_of_lt hlt, Nat.sub_one_lt (by omega)⟩ :
        Within targetIndex stretch.length (0, stretch.length - 1))
      (show stretch.length - 1 - 0 < stretch.length by omega)
  rw [Recall.shrunkRange, hshrink]
  simp only [Bind.bind, Except.bind, hfirst, hlast]
  split
  · next hbytes =>
    exact ⟨first, last, none, rfl, haround, by simp, fun _ => hbytes, .inl (hlarge hbytes)⟩
  · obtain ⟨materialized, hread, hexact⟩ := haround.readWindows_eq live h
    have hlastLt := hwithin.last_lt
    obtain ⟨shrunk, first', last', hshrunk, hfirst', hlast', haround', hexact', hfits⟩ :=
      hstretch.shrinkToTokens live h maxTokens hwithin
        (show range.2 - range.1 < stretch.length by omega) hfirst hlast hexact
    rw [hread]
    dsimp only
    rw [hshrunk]
    dsimp only
    rw [hfirst']
    dsimp only
    rw [hlast']
    refine ⟨first', last', some shrunk.2, rfl, haround', ?_, by simp,
      hfits.imp id fun hfits => ⟨rfl, hfits⟩⟩
    intro same hsame
    obtain rfl := Option.some.inj hsame
    exact hexact'

inductive Selects (isWord : Char → Bool) (chars : List Char) (windows : List Window)
    (target : Window) (maxTokens : Nat) : Selected → Prop
  | whole {materialized : Materialized} (hexact : materialized.Exact chars 0 (byteLength chars))
      (hfits : Fits isWord maxTokens (slice chars 0 (byteLength chars))) :
      Selects isWord chars windows target maxTokens {
        firstWindow := target
        lastWindow := target
        wholeDocument := true
        materialized := some materialized }
  | fitting {first last : Window} {materialized : Materialized}
      (haround : Around windows target first last)
      (hexact : materialized.Exact chars first.startByte last.endByte)
      (hfits : Fits isWord maxTokens (slice chars first.startByte last.endByte)) :
      Selects isWord chars windows target maxTokens {
        firstWindow := first
        lastWindow := last
        wholeDocument := false
        materialized := some materialized }
  | alone {read : Option Materialized} (hread : ∀ materialized, read = some materialized →
        materialized.Exact chars target.startByte target.endByte)
      (hlarge : read = none → byteBudget maxTokens < target.endByte - target.startByte) :
      Selects isWord chars windows target maxTokens {
        firstWindow := target
        lastWindow := target
        wholeDocument := false
        materialized := read }

theorem Around.expandedRange {request : Request} {read : Option Materialized}
    (haround : Around windows target first last)
    (hread : ∀ materialized, read = some materialized →
      materialized.Exact chars first.startByte last.endByte)
    (hlarge : read = none → byteBudget request.maxTokens < last.endByte - first.startByte)
    (hfits : (first = target ∧ last = target) ∨ (read.isSome ∧
      Fits isWord request.maxTokens (slice chars first.startByte last.endByte))) :
    ∃ selected, expandedRange contentHash isWord source target request (first, last, read) =
        .ok selected ∧ Selects isWord chars windows target request.maxTokens selected := by
  -- what is selected when the windows stay those that they were
  have hstay : Selects isWord chars windows target request.maxTokens {
      firstWindow := first
      lastWindow := last
      wholeDocument := false
      materialized := read } := by
    rcases hfits with ⟨rfl, rfl⟩ | ⟨hsome, hfits⟩
    · exact .alone hread hlarge
    · obtain ⟨materialized, rfl⟩ := Option.isSome_iff_exists.mp hsome
      exact .fitting haround (hread _ rfl) hfits
  rw [Recall.expandedRange]
  by_cases hexpand : request.expandToBudget = true
  · rw [if_pos hexpand, growWindowRange]
    obtain ⟨span, hgrow, hgrown⟩ := Grown.growWindows live h maxSpanGrowthWindows
      (⟨haround, .inl ⟨rfl, rfl⟩⟩ : Grown isWord chars windows target first last request.maxTokens {
        first
        last
        leftExhausted := first.ordinal = 0
        rightExhausted := false })
    dsimp only
    rw [hgrow]
    simp only [Bind.bind, Except.bind]
    by_cases hsame : span.first = first ∧ span.last = last
    · obtain ⟨rfl, rfl⟩ := hsame
      rw [if_neg (by simp)]
      exact ⟨_, rfl, hstay⟩
    · obtain ⟨materialized, hgrownRead, hexact⟩ := hgrown.around.readWindows_eq live h
      rw [if_pos (by tauto), hgrownRead]
      exact ⟨_, rfl, .fitting hgrown.around hexact (hgrown.fits.resolve_left hsame)⟩
  · rw [if_neg hexpand]
    simp only [Bind.bind, Except.bind, ne_eq, not_true_eq_false, or_self, if_false]
    exact ⟨_, rfl, hstay⟩

theorem Live.wholeTurn_eq (maxTokens : Nat) :
    ∃ whole, wholeTurn contentHash isWord source maxTokens = .ok whole ∧
      ∀ materialized, whole = some materialized → materialized.Exact chars 0 (byteLength chars) ∧
          Fits isWord maxTokens (slice chars 0 (byteLength chars)) := by
  rw [wholeTurn]
  split
  · have hzero := IsCut.zero chars
    have hend := IsCut.end chars
    obtain ⟨first, hfirst, -, hstart⟩ := h.layout.exists_first
    have hmark := h.starts first (List.mem_of_getElem? hfirst)
    rw [hstart] at hmark
    obtain ⟨pieces, hread⟩ := live.readDocumentRange_ok hzero hend (Nat.zero_le _)
      (h.unmarked hmark _)
    rw [live.byteLength_eq, hread]
    simp only [Bind.bind, Except.bind]
    rw [h.fitsRecallBudget_slice hzero hend (Nat.zero_le _)]
    dsimp only
    refine ⟨_, rfl, fun materialized hsome => ?_⟩
    split at hsome
    · next hfits =>
      obtain rfl := Option.some.inj hsome
      exact ⟨⟨rfl, rfl, rfl⟩, of_decide_eq_true hfits⟩
    · cases hsome
  · exact ⟨none, rfl, by simp⟩

omit live h in
theorem Windowed.exists_stretch (h : Windowed isWord source chars windows)
    (htarget : windows[target.ordinal]? = some target) (first count : Nat)
    (hfirst : first ≤ target.ordinal) (hcount : target.ordinal < first + count) :
    ∃ targetIndex, ((windows.drop first).take count).findIdx? (·.ordinal = target.ordinal) =
        some targetIndex ∧
      Stretch windows target targetIndex ((windows.drop first).take count) := by
  have heq : ∀ (k : Nat) window, ((windows.drop first).take count)[k]? = some window →
      k < count ∧ windows[first + k]? = some window := by
    intro k window hwindow
    rw [List.getElem?_take] at hwindow
    split at hwindow
    · next hk => exact ⟨hk, by rwa [List.getElem?_drop] at hwindow⟩
    · cases hwindow
  have htargetAt : ((windows.drop first).take count)[target.ordinal - first]? = some target := by
    rw [List.getElem?_take_of_lt (by omega), List.getElem?_drop, Nat.add_sub_cancel' hfirst]
    exact htarget
  obtain ⟨hlt, hget⟩ := List.getElem?_eq_some_iff.mp htargetAt
  refine ⟨target.ordinal - first, ?_, htarget, Nat.sub_le _ _, hlt, fun k window hwindow => ?_⟩
  · rw [List.findIdx?_eq_some_iff_getElem]
    refine ⟨hlt, by simp [hget], fun k hk => ?_⟩
    have hordinal := h.layout.ordinal_eq
      (heq k _ (List.getElem?_eq_getElem (Nat.lt_trans hk hlt))).2
    simp only [decide_eq_true_eq]
    omega
  · obtain ⟨-, hwindow⟩ := heq k window hwindow
    have hordinal := h.layout.ordinal_eq hwindow
    exact ⟨by rw [hordinal]; exact hwindow, by omega⟩

theorem Live.selectedWindowRange_eq (request : Request)
    (htarget : windows[target.ordinal]? = some target) :
    ∃ selected, selectedWindowRange contentHash isWord source target request =
        .ok (some selected) ∧ Selects isWord chars windows target request.maxTokens selected := by
  obtain ⟨whole, hwhole, hexact⟩ := live.wholeTurn_eq h request.maxTokens
  rw [selectedWindowRange, hwhole]
  simp only [Bind.bind, Except.bind]
  cases whole with
  | some materialized =>
    obtain ⟨hmaterialized, hfits⟩ := hexact materialized rfl
    exact ⟨_, rfl, .whole hmaterialized hfits⟩
  | none =>
    dsimp only
    rw [h.neighborhood_eq htarget]
    dsimp only
    obtain ⟨targetIndex, hindex, hstretch⟩ := h.exists_stretch htarget
      (target.ordinal - request.neighbors)
      (target.ordinal + request.neighbors + 1 - (target.ordinal - request.neighbors))
      (Nat.sub_le _ _) (by omega)
    rw [hindex]
    dsimp only
    obtain ⟨first, last, read, hshrunk, haround, hexact, hlarge, hfits⟩ :=
      hstretch.shrunkRange live h request.maxTokens
    obtain ⟨selected, hselected, hselects⟩ :=
      haround.expandedRange live h hexact hlarge hfits
    rw [hshrunk]
    dsimp only
    rw [hselected]
    exact ⟨selected, rfl, hselects⟩

end Reading

end Selecting

end ContextStore.Recall
