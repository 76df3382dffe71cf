import ContextStore.Retrieval.Clipping
import ContextStore.Retrieval.Ranges

/-! # Following continuations

What a recall returns, and where its continuation locators lead: from any response the earlier text
is reached by its first locators and the later text by its last ones, as long as clipping keeps the
start of every match. -/

namespace ContextStore.Recall

open Unicode Concurrent

variable {contentHash : List UInt8 → Digest} {isWord : Char → Bool} {options : WindowOptions}
  {source : Source} {chars : List Char} {windows : List Window}

/-! ## One recall -/

/-- Where the text comes from that is recalled for a match: the whole document, the selected
windows or a part of the target. -/
inductive Recalled (isWord : Char → Bool) (chars : List Char) (windows : List Window)
    (target : Window) (matchRange : ByteRange) (maxTokens : Nat) (selected : Selected)
    (read : Materialized) : Prop
  | whole (hwhole : selected.wholeDocument = true) (hstart : read.startByte = 0)
      (hend : read.endByte = byteLength chars)
  | windows (hwhole : selected.wholeDocument = false)
      (haround : Around windows target selected.firstWindow selected.lastWindow)
      (hstart : read.startByte = selected.firstWindow.startByte)
      (hend : read.endByte = selected.lastWindow.endByte)
  | clipped (hwhole : selected.wholeDocument = false) (hfirst : selected.firstWindow = target)
      (hlast : selected.lastWindow = target) (hstart : target.startByte ≤ read.startByte)
      (hend : read.endByte ≤ target.endByte)
      (hkept : HasStart matchRange read.startByte read.endByte ↔
        StartKept isWord chars target matchRange maxTokens)

/-- No mark comes first in what the byte budget leaves of a window. -/
def BoundedClear (chars : List Char) (window : Window) (matchRange : ByteRange)
    (maxTokens : Nat) : Prop :=
  ∀ left, Leaves chars window matchRange maxTokens left → ¬ MarkAt chars left.startByte

section Recalling

variable (live : Live contentHash isWord options source chars)
  (h : Windowed isWord source chars windows) {target : Window} {matchRange : ByteRange}
  {maxTokens : Nat}
include h

omit h in
theorem byteBoundedRange_inside {range bounded : ByteRange} {maxBytes : Nat}
    (hbounded : byteBoundedRange range matchRange maxBytes = .ok bounded) :
    range.startByte ≤ bounded.startByte ∧ bounded.endByte ≤ range.endByte := by
  rw [byteBoundedRange] at hbounded
  split at hbounded
  · obtain rfl := Except.ok.inj hbounded
    exact ⟨Nat.le_refl _, Nat.le_refl _⟩
  · dsimp only at hbounded
    split at hbounded
    all_goals
      split at hbounded
      · cases hbounded
      · next hvalid =>
        obtain rfl := Except.ok.inj hbounded
        dsimp only
        omega

omit h in
/-- A part of a stretch has no more tokens than the stretch. -/
theorem length_matchesFrom_part_le {a b a' b' : Nat} (ha : IsCut chars a) (hb : IsCut chars b)
    (ha' : IsCut chars a') (hb' : IsCut chars b') (hstart : a ≤ a') (hle : a' ≤ b')
    (hend : b' ≤ b) : (matchesFrom isWord (slice chars a' b') 0).length ≤
      (matchesFrom isWord (slice chars a b) 0).length := by
  have hcutStart : IsCut (slice chars a b) (a' - a) :=
    (isCut_slice_iff ha hb (by omega) (by omega)).mpr (by rwa [Nat.add_sub_cancel' hstart])
  have hcutEnd : IsCut (slice chars a b) (b' - a) :=
    (isCut_slice_iff ha hb (by omega) (by omega)).mpr (by rwa [Nat.add_sub_cancel' (by omega)])
  have hslice := slice_slice ha hb (by omega) hcutStart hcutEnd (by omega)
  rw [Nat.add_sub_cancel' hstart, Nat.add_sub_cancel' (by omega)] at hslice
  rw [← hslice]
  exact length_matchesFrom_slice_le hcutStart hcutEnd (by omega) 0

omit h in
/-- A stretch around the target with few enough tokens leaves few enough of it. -/
theorem startKept_of_fits {a b : Nat} (ha : IsCut chars a) (hb : IsCut chars b)
    (hstart : a ≤ target.startByte) (hend : target.endByte ≤ b)
    (hfits : Fits isWord maxTokens (slice chars a b)) :
    StartKept isWord chars target matchRange maxTokens := by
  intro left hleft
  obtain ⟨bounded, hbounded, hlow, hhigh, -⟩ := hleft.bounded
  obtain ⟨hlow', hhigh'⟩ := byteBoundedRange_inside hbounded
  have hlow'' : target.startByte ≤ bounded.startByte := hlow'
  have hhigh'' : bounded.endByte ≤ target.endByte := hhigh'
  have hmatchStart := hleft.start_le
  have hmatchEnd := hleft.le_end
  exact .inl (Nat.le_trans (length_matchesFrom_part_le ha hb hleft.startCut hleft.endCut (by omega)
    (by omega) (by omega)) hfits.1)

/-- What was recalled has the start of the match exactly if clipping keeps it: otherwise it is
there, and nothing had to be clipped. -/
theorem Recalled.hasStart_iff {selected : Selected} {read : Materialized}
    (htarget : windows[target.ordinal]? = some target)
    (hmatch : MatchIn chars target matchRange) (hgood : read.Good isWord chars maxTokens)
    (hrecalled : Recalled isWord chars windows target matchRange maxTokens selected read) :
    HasStart matchRange read.startByte read.endByte ↔
      StartKept isWord chars target matchRange maxTokens := by
  have hinner : target.startByte ≤ matchRange.startByte ∧
      matchRange.endByte ≤ target.endByte := ⟨hmatch.start_le, hmatch.end_le⟩
  have hordered := hmatch.ordered
  have hfits := hgood.fits
  rw [hgood.text_eq] at hfits
  -- everything around the target has the match, and few enough tokens
  have haround : read.startByte ≤ target.startByte → target.endByte ≤ read.endByte →
      (HasStart matchRange read.startByte read.endByte ↔
        StartKept isWord chars target matchRange maxTokens) := by
    intro hstart hend
    exact iff_of_true ⟨by omega, by omega, by omega⟩
      (startKept_of_fits hgood.startCut hgood.endCut hstart hend hfits)
  cases hrecalled with
  | whole hwhole hstart hend =>
    have hle := (h.layout.cuts target (List.mem_of_getElem? htarget)).2.1.le
    exact haround (by omega) (by omega)
  | windows hwhole hwindows hstart hend =>
    have hfirst := h.layout.start_le hwindows.first_le hwindows.first_eq htarget
    have hlast := h.layout.start_le hwindows.le_last htarget hwindows.last_eq
    exact haround (by omega) (by omega)
  | clipped hwhole hfirst hlast hstart hend hkept => exact hkept

include live

theorem Selects.recalledRange_eq {selected : Selected}
    (hselects : Selects isWord chars windows target maxTokens selected)
    (htarget : windows[target.ordinal]? = some target)
    (hmatch : MatchIn chars target matchRange) (hword : isWord mark = false)
    (hmarks : BoundedClear chars target matchRange maxTokens) (hmax : 3 ≤ maxTokens) :
    ∃ read, recalledRange contentHash isWord source target matchRange maxTokens selected =
        .ok read ∧ read.Good isWord chars maxTokens ∧
      Recalled isWord chars windows target matchRange maxTokens selected read := by
  cases hselects with
  | @whole materialized hexact hfits =>
    have hgood : materialized.Good isWord chars maxTokens := by
      obtain ⟨hstart, hend, htext⟩ := hexact
      exact ⟨by rw [hstart]; exact IsCut.zero chars, by rw [hend]; exact IsCut.end chars,
        by omega, by rw [htext, hstart, hend], by rw [htext]; exact hfits⟩
    exact ⟨materialized, rfl, hgood, .whole rfl hexact.startByte_eq hexact.endByte_eq⟩
  | @fitting first last materialized haround hexact hfits =>
    obtain ⟨hcutStart, hcutEnd, hle, -⟩ := haround.range h
    obtain ⟨hstart, hend, htext⟩ := hexact
    have hgood : materialized.Good isWord chars maxTokens :=
      ⟨by rw [hstart]; exact hcutStart, by rw [hend]; exact hcutEnd, by omega,
        by rw [htext, hstart, hend], by rw [htext]; exact hfits⟩
    refine ⟨materialized, ?_, hgood, .windows rfl haround hstart hend⟩
    rw [recalledRange]
    dsimp only
    split
    · rw [htext, h.fitsRecallBudget_slice hcutStart hcutEnd hle, decide_eq_true hfits]
      rfl
    · rfl
  | @alone read hread hlarge =>
    obtain ⟨hcutStart, hcutEnd, hle, -⟩ := (Around.refl htarget).range h
    obtain ⟨clipped, hclipped, hgood, hstart, hend, hkept⟩ :=
      hmatch.clippedTargetRange_eq live h hword hmarks hcutStart hcutEnd hmax hread hlarge
    have hrecalled : Recalled isWord chars windows target matchRange maxTokens {
        firstWindow := target
        lastWindow := target
        wholeDocument := false
        materialized := read } clipped := .clipped rfl rfl rfl hstart hend hkept
    rw [recalledRange]
    dsimp only
    rw [if_pos ⟨rfl, rfl⟩]
    cases read with
    | none => exact ⟨clipped, hclipped, hgood, hrecalled⟩
    | some materialized =>
      obtain ⟨hreadStart, hreadEnd, htext⟩ := hread materialized rfl
      dsimp only
      rw [htext, h.fitsRecallBudget_slice hcutStart hcutEnd hle]
      by_cases hfits : Fits isWord maxTokens (slice chars target.startByte target.endByte)
      · rw [decide_eq_true hfits]
        refine ⟨materialized, rfl, ⟨by rw [hreadStart]; exact hcutStart,
          by rw [hreadEnd]; exact hcutEnd, by omega, by rw [htext, hreadStart, hreadEnd],
          by rw [htext]; exact hfits⟩, .windows rfl (Around.refl htarget) hreadStart hreadEnd⟩
      · rw [decide_eq_false hfits]
        exact ⟨clipped, hclipped, hgood, hrecalled⟩

end Recalling

/-! ## Locators -/

/-- The response is a stretch of the document's text within both budgets. -/
structure Response.Good (isWord : Char → Bool) (chars : List Char) (maxTokens : Nat)
    (response : Response) : Prop where
  startCut : IsCut chars response.startByte
  endCut : IsCut chars response.endByte
  ordered : response.startByte ≤ response.endByte
  text_eq : response.text = slice chars response.startByte response.endByte
  fits : Fits isWord maxTokens response.text

/-- The locator names a match in a window of the document. -/
def Locates (chars : List Char) (windows : List Window) (locator : Locator) : Prop :=
  ∃ window, windows[locator.windowOrdinal]? = some window ∧ MatchIn chars window locator.matchRange

/-- Forward through the document: to a later window, or to a later match in the same. -/
def Locator.Precedes (locator next : Locator) : Prop :=
  locator.windowOrdinal < next.windowOrdinal ∨ locator.windowOrdinal = next.windowOrdinal ∧
    locator.matchRange.startByte < next.matchRange.startByte

/-- What a response to a locator says about where to go on. -/
structure Answers (chars : List Char) (windows : List Window) (locator : Locator)
    (response : Response) : Prop where
  after_none : response.after = none → response.endByte = byteLength chars
  after_some : ∀ next, response.after = some next → Locates chars windows next ∧
    next.matchRange.startByte ≤ response.endByte ∧
    next.matchRange.startByte < next.matchRange.endByte ∧
    (locator.matchRange.startByte < locator.matchRange.endByte →
      HasStart locator.matchRange response.startByte response.endByte → locator.Precedes next)
  before_none : response.before = none → response.startByte = 0
  before_some : ∀ next, response.before = some next → Locates chars windows next ∧
    next.matchRange.startByte < next.matchRange.endByte ∧
    next.matchRange.startByte < response.startByte

section Locating

variable (h : Windowed isWord source chars windows) {target : Window} {matchRange : ByteRange}
  {maxTokens : Nat} {selected : Selected} {read : Materialized}

/-- A window as a whole is a match in itself. -/
theorem locates_windowLocator (hlayout : Layout chars windows) {window : Window}
    (hwindow : windows[window.ordinal]? = some window) :
    Locates chars windows (windowLocator window) := by
  obtain ⟨hstart, hend, hle, -⟩ := hlayout.cuts window (List.mem_of_getElem? hwindow)
  exact ⟨window, hwindow, ⟨Nat.le_refl _, hle, Nat.le_refl _⟩, hstart, hend⟩

/-- No window but that of an empty document is empty. -/
theorem Windowed.window_lt {i j : Nat} {window other : Window}
    (h : Windowed isWord source chars windows) (hi : windows[i]? = some window)
    (hj : windows[j]? = some other) (hij : i ≠ j) : window.startByte < window.endByte := by
  obtain ⟨-, -, hle, hempty⟩ := h.layout.cuts window (List.mem_of_getElem? hi)
  obtain ⟨-, hend, -, -⟩ := h.layout.cuts other (List.mem_of_getElem? hj)
  obtain ⟨-, hend', -, -⟩ := h.layout.cuts window (List.mem_of_getElem? hi)
  rcases Nat.lt_or_eq_of_le hle with hlt | heq
  · exact hlt
  · -- in an empty document, two windows would begin at different places
    exfalso
    have hnil := hempty heq
    obtain ⟨-, hcutEnd, -, -⟩ := h.layout.cuts window (List.mem_of_getElem? hi)
    have hzero : byteLength chars = 0 := by rw [hnil]; rfl
    have hwindowEnd := hcutEnd.le
    have hotherEnd := hend.le
    rcases Nat.lt_or_gt_of_ne hij with hlt | hgt
    · have := h.layout.start_lt hlt hi hj
      omega
    · have := h.layout.start_lt hgt hj hi
      omega

include h

/-- At the end of what the windows have, the text ends with the last of them. -/
theorem Recalled.last (htarget : windows[target.ordinal]? = some target)
    (hrecalled : Recalled isWord chars windows target matchRange maxTokens selected read) :
    (selected.wholeDocument = true ∧ read.endByte = byteLength chars ∧ read.startByte = 0) ∨
    (selected.wholeDocument = false ∧
      Around windows target selected.firstWindow selected.lastWindow ∧
      (read.endByte < target.endByte ∧ target.startByte ≤ read.startByte ∨
        read.endByte = selected.lastWindow.endByte ∧ target.endByte ≤ read.endByte) ∧
      (target.startByte < read.startByte ∧ read.endByte ≤ target.endByte ∨
        read.startByte = selected.firstWindow.startByte ∧ read.startByte ≤ target.startByte)) := by
  cases hrecalled with
  | whole hwhole hstart hend => exact .inl ⟨hwhole, hend, hstart⟩
  | windows hwhole haround hstart hend =>
    have hfirst := h.layout.start_le haround.first_le haround.first_eq htarget
    have hlast := h.layout.start_le haround.le_last htarget haround.last_eq
    exact .inr ⟨hwhole, haround, by omega, by omega⟩
  | clipped hwhole hfirst hlast hstart hend hkept =>
    refine .inr ⟨hwhole, ?_, ?_, ?_⟩
    · rw [hfirst, hlast]
      exact Around.refl htarget
    · rw [hlast]
      omega
    · rw [hfirst]
      omega

theorem Recalled.after (htarget : windows[target.ordinal]? = some target)
    (hgood : read.Good isWord chars maxTokens)
    (hrecalled : Recalled isWord chars windows target matchRange maxTokens selected read) :
    (afterLocator source target selected read.endByte = none → read.endByte = byteLength chars) ∧
    ∀ next, afterLocator source target selected read.endByte = some next →
      Locates chars windows next ∧ next.matchRange.startByte ≤ read.endByte ∧
      next.matchRange.startByte < next.matchRange.endByte ∧
      (target.ordinal < next.windowOrdinal ∨
        target.ordinal = next.windowOrdinal ∧ next.matchRange.startByte = read.endByte) := by
  have hordered := hgood.ordered
  obtain ⟨-, hcutEnd, -, -⟩ := h.layout.cuts target (List.mem_of_getElem? htarget)
  rw [afterLocator]
  rcases hrecalled.last h htarget with ⟨hwhole, hend, -⟩ | ⟨hwhole, haround, hcases, -⟩
  · have hle := hcutEnd.le
    rw [if_neg (by omega), if_neg (by rw [hwhole]; exact Bool.true_eq_false.mp)]
    exact ⟨fun _ => hend, by simp⟩
  · split
    · next hlt =>
      refine ⟨by simp, fun next hnext => ?_⟩
      obtain rfl := Option.some.inj hnext
      exact ⟨⟨target, htarget, ⟨show target.startByte ≤ read.endByte by omega,
        Nat.le_of_lt hlt, Nat.le_refl _⟩, hgood.endCut, hcutEnd⟩, Nat.le_refl _, hlt,
        .inr ⟨rfl, rfl⟩⟩
    · next hnot =>
      obtain ⟨hlast, -⟩ := hcases.resolve_left fun hlt => hnot hlt.1
      have hle := haround.le_last
      cases hread : readWindow source (selected.lastWindow.ordinal + 1) with
      | none =>
        refine ⟨fun _ => ?_, by simp⟩
        rw [hlast]
        refine h.layout.last_end haround.last_eq ?_
        rw [← h.readWindow_eq]
        exact hread
      | some window =>
        refine ⟨by simp, fun next hnext => ?_⟩
        obtain rfl := Option.some.inj hnext
        obtain ⟨hwindow, hordinal⟩ := h.readWindow_some hread
        have hnext : windows[selected.lastWindow.ordinal + 1]? = some window := by
          rw [← hwindow]
          congr 1
          omega
        obtain ⟨-, -, hleads, -⟩ := h.layout.leads haround.last_eq hnext
        refine ⟨locates_windowLocator h.layout hwindow, ?_,
          h.window_lt hwindow haround.last_eq (by omega), .inl ?_⟩
        · show window.startByte ≤ read.endByte
          omega
        · show target.ordinal < window.ordinal
          omega

theorem Recalled.before (htarget : windows[target.ordinal]? = some target)
    (hgood : read.Good isWord chars maxTokens)
    (hrecalled : Recalled isWord chars windows target matchRange maxTokens selected read) :
    (beforeLocator source target selected read.startByte = none → read.startByte = 0) ∧
    ∀ next, beforeLocator source target selected read.startByte = some next →
      Locates chars windows next ∧ next.matchRange.startByte < next.matchRange.endByte ∧
      next.matchRange.startByte < read.startByte := by
  have hordered := hgood.ordered
  obtain ⟨hcutStart, -, -, -⟩ := h.layout.cuts target (List.mem_of_getElem? htarget)
  rw [beforeLocator]
  rcases hrecalled.last h htarget with ⟨hwhole, -, hstart⟩ | ⟨hwhole, haround, -, hcases⟩
  · rw [if_neg (by omega), if_neg (by rw [hwhole]; simp)]
    exact ⟨fun _ => hstart, by simp⟩
  · split
    · next hlt =>
      refine ⟨by simp, fun next hnext => ?_⟩
      obtain rfl := Option.some.inj hnext
      exact ⟨⟨target, htarget, ⟨Nat.le_refl _, Nat.le_of_lt hlt,
        show read.startByte ≤ target.endByte by omega⟩, hcutStart, hgood.startCut⟩, hlt, hlt⟩
    · next hnot =>
      obtain ⟨hfirst, -⟩ := hcases.resolve_left fun hlt => hnot hlt.1
      split
      · next hmore =>
        have hpos := hmore.2
        rw [h.readWindow_pred hpos]
        obtain ⟨hlength, -⟩ := List.getElem?_eq_some_iff.mp haround.first_eq
        obtain ⟨window, hwindow⟩ : ∃ window,
            windows[selected.firstWindow.ordinal - 1]? = some window :=
          ⟨_, List.getElem?_eq_getElem (by omega)⟩
        have hordinal := h.layout.ordinal_eq hwindow
        rw [hwindow]
        refine ⟨by simp, fun next hnext => ?_⟩
        obtain rfl := Option.some.inj hnext
        have hlt := h.layout.start_lt (by omega) hwindow haround.first_eq
        refine ⟨locates_windowLocator h.layout (by rw [hordinal]; exact hwindow),
          h.window_lt hwindow haround.first_eq (by omega), ?_⟩
        show window.startByte < read.startByte
        omega
      · next hfirstWindow =>
        refine ⟨fun _ => ?_, by simp⟩
        have hzero : selected.firstWindow.ordinal = 0 := by
          by_contra hne
          exact hfirstWindow ⟨hwhole, Nat.pos_of_ne_zero hne⟩
        obtain ⟨first, hfirstEq, -, hstart⟩ := h.layout.exists_first
        have heq := haround.first_eq
        rw [hzero, hfirstEq] at heq
        rw [hfirst, ← Option.some.inj heq, hstart]

theorem Recalled.answers (htarget : windows[target.ordinal]? = some target)
    (hgood : read.Good isWord chars maxTokens)
    (hrecalled : Recalled isWord chars windows target matchRange maxTokens selected read) :
    Answers chars windows { windowOrdinal := target.ordinal, matchRange }
      (responseOf source target selected read) := by
  obtain ⟨hafterNone, hafterSome⟩ := hrecalled.after h htarget hgood
  obtain ⟨hbeforeNone, hbeforeSome⟩ := hrecalled.before h htarget hgood
  refine ⟨hafterNone, fun next hnext => ?_, hbeforeNone, hbeforeSome⟩
  obtain ⟨hlocates, hle, hlt, hcases⟩ := hafterSome next hnext
  refine ⟨hlocates, hle, hlt, fun hnonempty hstart => ?_⟩
  rcases hcases with hlater | ⟨hsame, heq⟩
  · exact .inl hlater
  · refine .inr ⟨hsame, ?_⟩
    rw [heq]
    exact hstart.2.2 hnonempty

end Locating

/-- Every accepted request for a match is answered with a stretch of the text within both budgets. It
has the start of the match exactly if clipping keeps it. -/
theorem Live.recallSnapshot_eq (live : Live contentHash isWord options source chars)
    (h : Windowed isWord source chars windows) {target : Window} {locator : Locator}
    (hword : isWord mark = false) (htarget : windows[locator.windowOrdinal]? = some target)
    (hmatch : MatchIn chars target locator.matchRange) {request : Request}
    (hmarks : BoundedClear chars target locator.matchRange request.maxTokens)
    (haccepted : request.Accepted) :
    ∃ response, recallSnapshot contentHash isWord source locator request =
        .ok (.resolved response) ∧
      response.Good isWord chars request.maxTokens ∧ Answers chars windows locator response ∧
      (HasStart locator.matchRange response.startByte response.endByte ↔
        StartKept isWord chars target locator.matchRange request.maxTokens) := by
  obtain ⟨ordinal, matchRange⟩ := locator
  dsimp only at htarget hmatch hmarks
  obtain rfl := h.layout.ordinal_eq htarget
  have hmax : 3 ≤ request.maxTokens := by
    have := haccepted.2.1
    omega
  obtain ⟨selected, hselected, hselects⟩ := live.selectedWindowRange_eq h request htarget
  obtain ⟨read, hread, hgood, hrecalled⟩ :=
    hselects.recalledRange_eq live h htarget hmatch hword hmarks hmax
  have hfits := hgood.fits
  rw [hgood.text_eq] at hfits
  refine ⟨responseOf source target selected read, ?_,
    ⟨hgood.startCut, hgood.endCut, hgood.ordered, hgood.text_eq, hgood.fits⟩,
    hrecalled.answers h htarget hgood, hrecalled.hasStart_iff h htarget hmatch hgood⟩
  have hinside : ¬ (matchRange.startByte < target.startByte ∨
      target.endByte < matchRange.endByte) := by
    have hstart : target.startByte ≤ matchRange.startByte := hmatch.start_le
    have hend : matchRange.endByte ≤ target.endByte := hmatch.end_le
    omega
  rw [recallSnapshot]
  dsimp only
  rw [h.readWindow_eq, htarget]
  dsimp only
  rw [if_neg hinside, hselected]
  simp only [Bind.bind, Except.bind]
  rw [hread]
  dsimp only
  rw [hgood.text_eq, h.fitsRecallBudget_slice hgood.startCut hgood.endCut hgood.ordered,
    decide_eq_true hfits]
  rfl

/-! ## Coverage -/

section Coverage

variable (respond : Locator → Request → Except StoreError Outcome) (isWord : Char → Bool)
  (chars : List Char) (maxTokens : Nat)

/-- From the response, following the later locators reaches the end of the text: whatever neighbors
are asked for, each response takes up no later than the one before it ended, its locator comes later
than the one that was followed, and the last one ends with the text. -/
inductive ReachesEnd : Response → Prop
  | last {response : Response} (hafter : response.after = none)
      (hend : response.endByte = byteLength chars) : ReachesEnd response
  | more {response : Response} {locator : Locator}
      (next : ∀ request : Request, request.Accepted → request.maxTokens = maxTokens → Response)
      (hafter : response.after = some locator)
      (hnext : ∀ request haccepted hmax,
        respond locator request = .ok (.resolved (next request haccepted hmax)) ∧
          (next request haccepted hmax).Good isWord chars maxTokens ∧
          (next request haccepted hmax).startByte ≤ response.endByte ∧
          ∀ further, (next request haccepted hmax).after = some further → locator.Precedes further)
      (hrest : ∀ request haccepted hmax, ReachesEnd (next request haccepted hmax)) :
      ReachesEnd response

/-- From the response, following the earlier locators reaches the start of the text: each response
begins earlier than the one before it. From the last one the whole text is covered by following the
later locators. -/
inductive ReachesStart : Response → Prop
  | first {response : Response} (hbefore : response.before = none)
      (hstart : response.startByte = 0) : ReachesStart response
  | more {response : Response} {locator : Locator}
      (next : ∀ request : Request, request.Accepted → request.maxTokens = maxTokens → Response)
      (hbefore : response.before = some locator)
      (hnext : ∀ request haccepted hmax,
        respond locator request = .ok (.resolved (next request haccepted hmax)) ∧
          (next request haccepted hmax).Good isWord chars maxTokens ∧
          (next request haccepted hmax).startByte < response.startByte ∧
          ReachesEnd respond isWord chars maxTokens (next request haccepted hmax))
      (hrest : ∀ request haccepted hmax, ReachesStart (next request haccepted hmax)) :
      ReachesStart response

end Coverage

section Reaching

variable (live : Live contentHash isWord options source chars)
  (h : Windowed isWord source chars windows) {maxTokens : Nat}

/-- Every match in a window is clear of marks, and clipping keeps its start. -/
def AllKept (isWord : Char → Bool) (chars : List Char) (windows : List Window)
    (maxTokens : Nat) : Prop :=
  ∀ window ∈ windows, ∀ matchRange, MatchIn chars window matchRange →
    BoundedClear chars window matchRange maxTokens ∧
      StartKept isWord chars window matchRange maxTokens

/-- How far a locator is from the end of the document, window by window. -/
def distance (chars : List Char) (windows : List Window) (locator : Locator) : Nat :=
  (windows.length - locator.windowOrdinal) * (byteLength chars + 1) +
    (byteLength chars - locator.matchRange.startByte)

theorem Locates.bounds {locator : Locator} (hlocates : Locates chars windows locator) :
    locator.windowOrdinal < windows.length ∧ locator.matchRange.startByte ≤ byteLength chars := by
  obtain ⟨window, hwindow, hmatch⟩ := hlocates
  obtain ⟨hlt, -⟩ := List.getElem?_eq_some_iff.mp hwindow
  exact ⟨hlt, hmatch.startCut.le⟩

theorem Locator.Precedes.distance_lt {locator next : Locator} (hprecedes : locator.Precedes next)
    (hlocates : Locates chars windows next) :
    distance chars windows next < distance chars windows locator := by
  obtain ⟨hordinal, hstart⟩ := hlocates.bounds
  rw [distance, distance]
  rcases hprecedes with hlt | ⟨heq, hlt⟩
  · have hrounds := Nat.mul_le_mul_right (byteLength chars + 1)
      (show windows.length - next.windowOrdinal + 1 ≤
        windows.length - locator.windowOrdinal by omega)
    rw [Nat.add_mul] at hrounds
    omega
  · rw [heq]
    omega

include live h

theorem Live.recall_located (hword : isWord mark = false)
    (hall : AllKept isWord chars windows maxTokens) {locator : Locator}
    (hlocates : Locates chars windows locator) (request : Request)
    (haccepted : request.Accepted) (hmax : request.maxTokens = maxTokens) :
    ∃ response, recallSnapshot contentHash isWord source locator request =
        .ok (.resolved response) ∧
      response.Good isWord chars maxTokens ∧ Answers chars windows locator response ∧
      HasStart locator.matchRange response.startByte response.endByte := by
  obtain ⟨target, htarget, hmatch⟩ := hlocates
  subst hmax
  obtain ⟨hmarks, hkept⟩ := hall target (List.mem_of_getElem? htarget) _ hmatch
  obtain ⟨response, hresponse, hgood, hanswers, hstart⟩ :=
    live.recallSnapshot_eq h hword htarget hmatch hmarks haccepted
  exact ⟨response, hresponse, hgood, hanswers, hstart.mpr hkept⟩

/-- The later locators lead to the end. -/
theorem Live.reachesEnd (hword : isWord mark = false)
    (hall : AllKept isWord chars windows maxTokens) {locator : Locator} {response : Response}
    (hanswers : Answers chars windows locator response) :
    ReachesEnd (recallSnapshot contentHash isWord source) isWord chars maxTokens response := by
  cases hafter : response.after with
  | none => exact .last hafter (hanswers.after_none hafter)
  | some next =>
    -- the induction is on how far the locator is from the end
    induction hdistance : distance chars windows next using Nat.strong_induction_on
      generalizing locator response next with
    | _ far ih =>
      obtain ⟨hlocates, hgap, hnonempty, -⟩ := hanswers.after_some next hafter
      choose answer hanswer hgood hfollowing hstart using
        live.recall_located h hword hall hlocates
      refine .more answer hafter (fun request haccepted hmax => ⟨hanswer _ haccepted hmax,
        hgood _ haccepted hmax, Nat.le_trans (hstart _ haccepted hmax).1 hgap,
        fun further hfurther => ?_⟩) fun request haccepted hmax => ?_
      · exact ((hfollowing _ haccepted hmax).after_some further hfurther).2.2.2 hnonempty
          (hstart _ haccepted hmax)
      · cases hmore : (answer request haccepted hmax).after with
        | none => exact .last hmore ((hfollowing _ haccepted hmax).after_none hmore)
        | some further =>
          obtain ⟨hlocates', -, -, hprecedes⟩ :=
            (hfollowing _ haccepted hmax).after_some further hmore
          have hlt := (hprecedes hnonempty (hstart _ haccepted hmax)).distance_lt hlocates'
          rw [hdistance] at hlt
          exact ih _ hlt (hfollowing _ haccepted hmax) further hmore rfl

theorem Live.reachesStart (hword : isWord mark = false)
    (hall : AllKept isWord chars windows maxTokens) {locator : Locator} {response : Response}
    (hanswers : Answers chars windows locator response) :
    ReachesStart (recallSnapshot contentHash isWord source) isWord chars maxTokens response := by
  -- the induction is on where the response begins
  induction hbegin : response.startByte using Nat.strong_induction_on
    generalizing locator response with
  | _ begin ih =>
    cases hbefore : response.before with
    | none => exact .first hbefore (hanswers.before_none hbefore)
    | some previous =>
      obtain ⟨hlocates, -, hearlier⟩ := hanswers.before_some previous hbefore
      choose answer hanswer hgood hfollowing hstart using
        live.recall_located h hword hall hlocates
      have hlt : ∀ request haccepted hmax,
          (answer request haccepted hmax).startByte < response.startByte :=
        fun request haccepted hmax =>
          Nat.lt_of_le_of_lt (hstart request haccepted hmax).1 hearlier
      refine .more answer hbefore (fun request haccepted hmax => ⟨hanswer _ haccepted hmax,
        hgood _ haccepted hmax, hlt _ haccepted hmax,
        live.reachesEnd h hword hall (hfollowing _ haccepted hmax)⟩)
        fun request haccepted hmax => ?_
      refine ih _ ?_ (hfollowing _ haccepted hmax) rfl
      rw [← hbegin]
      exact hlt _ haccepted hmax

end Reaching

/-- What a recall of the match is to give, for any number of neighbors: a stretch of the text within
both budgets with the start of the match, from which all of the text is reached. -/
def Recovers (contentHash : List UInt8 → Digest) (isWord : Char → Bool) (source : Source)
    (chars : List Char) (maxTokens : Nat) (locator : Locator) : Prop :=
  ∀ request : Request, request.Accepted → request.maxTokens = maxTokens →
    ∃ response, recallSnapshot contentHash isWord source locator request =
        .ok (.resolved response) ∧
      response.Good isWord chars maxTokens ∧
      HasStart locator.matchRange response.startByte response.endByte ∧
      ReachesStart (recallSnapshot contentHash isWord source) isWord chars maxTokens response ∧
      ReachesEnd (recallSnapshot contentHash isWord source) isWord chars maxTokens response

/-- No mark comes first in a chunk, or in what the byte budget leaves of a window. -/
structure MarksClear (source : Source) (chars : List Char) (maxTokens : Nat) : Prop where
  chunks : ∀ chunk ∈ source.chunks, ¬ MarkAt chars chunk.startByte
  bounded : ∀ ordinal window matchRange, source.window ordinal = some window →
    MatchIn chars window matchRange → BoundedClear chars window matchRange maxTokens

/-- When no mark is in the way, every match of a document is recalled with its start, and the whole
text is reached from it by the continuations, exactly if clipping keeps the start of every match. -/
theorem recall_recovers_iff (live : Live contentHash isWord options source chars)
    (hword : isWord mark = false) {maxTokens : Nat} (hmin : 39 ≤ maxTokens)
    (hmax : maxTokens ≤ 100000) (hmarks : MarksClear source chars maxTokens) :
    (∀ locator window, source.window locator.windowOrdinal = some window →
      MatchIn chars window locator.matchRange →
        Recovers contentHash isWord source chars maxTokens locator) ↔
    ∀ ordinal window matchRange, source.window ordinal = some window →
      MatchIn chars window matchRange → StartKept isWord chars window matchRange maxTokens := by
  obtain ⟨windows, h⟩ := live.exists_windowed hword hmarks.chunks
  constructor
  · intro hrecovers ordinal window matchRange hwindow hmatch
    -- a request for the match alone decides it
    have haccepted : ({ neighbors := 0, maxTokens, expandToBudget := false } : Request).Accepted :=
      ⟨Nat.zero_le _, hmin, hmax⟩
    obtain ⟨response, hresponse, -, hstart, -⟩ :=
      hrecovers { windowOrdinal := ordinal, matchRange } window hwindow hmatch _ haccepted rfl
    have hget : windows[ordinal]? = some window := by
      rw [← h.window_eq]
      exact hwindow
    obtain ⟨same, hsame, -, -, hkept⟩ := live.recallSnapshot_eq h hword
      (show windows[({ windowOrdinal := ordinal, matchRange } : Locator).windowOrdinal]? =
        some window from hget) hmatch (hmarks.bounded ordinal window matchRange hwindow hmatch)
      haccepted
    obtain rfl := Outcome.resolved.inj (Except.ok.inj (hresponse.symm.trans hsame))
    exact hkept.mp hstart
  · intro hkept locator window hwindow hmatch request haccepted hrequest
    have hall : AllKept isWord chars windows maxTokens := by
      intro other hmem matchRange hother
      obtain ⟨ordinal, hordinal⟩ := List.getElem?_of_mem hmem
      rw [← h.window_eq] at hordinal
      exact ⟨hmarks.bounded ordinal other matchRange hordinal hother,
        hkept ordinal other matchRange hordinal hother⟩
    have hlocates : Locates chars windows locator :=
      ⟨window, by rw [← h.window_eq]; exact hwindow, hmatch⟩
    obtain ⟨response, hresponse, hgood, hanswers, hstart⟩ :=
      live.recall_located h hword hall hlocates request haccepted hrequest
    exact ⟨response, hresponse, hgood, hstart, live.reachesStart h hword hall hanswers,
      live.reachesEnd h hword hall hanswers⟩

theorem recall_recovers_iff_example :
    (∀ locator window, (smallSource ['a']).window locator.windowOrdinal = some window →
      MatchIn ['a'] window locator.matchRange →
        Recovers plainDigest isAsciiWord (smallSource ['a']) ['a'] 39 locator) ↔
    ∀ ordinal window matchRange, (smallSource ['a']).window ordinal = some window →
      MatchIn ['a'] window matchRange → StartKept isAsciiWord ['a'] window matchRange 39 := by
  have hlive : Live plainDigest isAsciiWord defaultWindowOptions (smallSource ['a']) ['a'] :=
    live_admittedSource "note" (fun _ _ _ _ h => plainDigest_injective h)
      (show splitPhysicalChunks plainDigest (encodeChars ['a']) {} = .ok _ from rfl) rfl
  have hnone : ∀ n, ¬ MarkAt ['a'] n := by
    rintro n ⟨before, after, heq, -⟩
    have hmem : mark ∈ ['a'] := by
      rw [heq]
      simp
    exact absurd (List.mem_singleton.mp hmem) (by decide)
  exact recall_recovers_iff hlive (by decide) (Nat.le_refl 39) (by decide)
    ⟨fun _ _ => hnone _, fun _ _ _ _ _ _ _ => hnone _⟩

/-- Forty words with a space behind each. -/
def spacedWords : List Char := (List.replicate 40 ['a', ' ']).flatten

/-- The last space is recalled without it, and what comes after is again the last space. -/
theorem last_space_never_recalled :
    Live plainDigest isAsciiWord defaultWindowOptions (smallSource spacedWords) spacedWords ∧
    ∃ response, recallSnapshot plainDigest isAsciiWord (smallSource spacedWords)
        { windowOrdinal := 0, matchRange := { startByte := 79, endByte := 80 } }
        { neighbors := 0, maxTokens := 39, expandToBudget := false } = .ok (.resolved response) ∧
      response.startByte = 2 ∧ response.endByte = 79 ∧
      response.after = some {
        windowOrdinal := 0
        matchRange := { startByte := 79, endByte := 80 } } :=
  ⟨live_admittedSource "note" (fun _ _ _ _ h => plainDigest_injective h)
    (show splitPhysicalChunks plainDigest (encodeChars spacedWords) {} = .ok _ from rfl) rfl,
    _, rfl, rfl, rfl, rfl⟩

end ContextStore.Recall
