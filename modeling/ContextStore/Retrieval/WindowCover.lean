import ContextStore.Retrieval.TokenOffsets

/-! # How windows cover a text

The windows of a text leave out none of it, hold no more tokens than asked for and split no token
between them; any range of the text is answered with a window. -/

namespace ContextStore.Recall

open Unicode Concurrent

/-! ## Ranges -/

/-- Does the window at a position among so many intersect the range? -/
def intersectsAt (count startByte endByte : Nat) (window : Window) (index : Nat) : Bool :=
  if startByte = endByte then
    (window.startByte ≤ startByte && startByte < window.endByte) ||
      (index = count - 1 && startByte = window.endByte)
  else window.startByte < endByte && startByte < window.endByte

def windowsForByteRange (windows : List Window) (startByte endByte : Nat) :
    Except StoreError (List Window) :=
  if windows = [] then
    .error (.typeError "windows must contain at least one logical window.")
  else if endByte < startByte then
    .error (.rangeError "endByte must not precede startByte.")
  else if windows.zipIdx.any (fun placed => placed.1.ordinal != placed.2) then
    .error (.typeError "windows must be ordered by ordinal.")
  else
    .ok ((windows.zipIdx.filter fun placed =>
      intersectsAt windows.length startByte endByte placed.1 placed.2).map Prod.fst)

/-- Does the window at a position among so many intersecting ones contain the range? -/
def containsAt (count startByte endByte : Nat) (window : Window) (index : Nat) : Bool :=
  window.startByte ≤ startByte && endByte ≤ window.endByte &&
    (startByte < window.endByte || index = count - 1)

def windowForByteRange (windows : List Window) (startByte endByte : Nat) :
    Except StoreError (Option Window) := do
  let intersecting ← windowsForByteRange windows startByte endByte
  let containing := intersecting.zipIdx.find? fun placed =>
    containsAt intersecting.length startByte endByte placed.1 placed.2
  return (containing.map Prod.fst).or intersecting.head?

/-- The window holds the whole range. -/
def Window.Contains (window : Window) (startByte endByte : Nat) : Prop :=
  window.startByte ≤ startByte ∧ endByte ≤ window.endByte

/-- The window and the range share a byte; an empty range lies in the window. -/
def Window.Intersects (window : Window) (startByte endByte : Nat) : Prop :=
  if startByte = endByte then window.Contains startByte endByte
  else window.startByte < endByte ∧ startByte < window.endByte

theorem Window.Contains.intersects {window : Window} {startByte endByte : Nat}
    (h : window.Contains startByte endByte) (hle : startByte ≤ endByte) :
    window.Intersects startByte endByte := by
  obtain ⟨hstart, hend⟩ := h
  rw [Window.Intersects]
  split
  · exact ⟨hstart, hend⟩
  · omega

section Ranges

variable {chars : List Char} {windows : List Window} {startByte endByte : Nat}

/-- Windows in their order are looked through. -/
theorem Layout.windowsForByteRange_eq (h : Layout chars windows) (hle : startByte ≤ endByte) :
    windowsForByteRange windows startByte endByte =
      .ok ((windows.zipIdx.filter fun placed =>
        intersectsAt windows.length startByte endByte placed.1 placed.2).map Prod.fst) := by
  have hne : windows ≠ [] := by
    obtain ⟨first, hfirst, -⟩ := h.exists_first
    intro hnil
    rw [hnil] at hfirst
    cases hfirst
  have hordered : windows.zipIdx.any (fun placed => placed.1.ordinal != placed.2) = false := by
    rw [List.any_eq_false]
    intro placed hmem
    have hordinal := h.ordinal_eq (List.mk_mem_zipIdx_iff_getElem?.mp hmem)
    simp [hordinal]
  rw [windowsForByteRange, if_neg hne, if_neg (by omega), if_neg (by simp [hordered])]

/-- What is found contains the range, when anything does that the search looks at. -/
theorem find_contains {intersecting : List Window} (h : ∃ placed ∈ intersecting.zipIdx,
      containsAt intersecting.length startByte endByte placed.1 placed.2 = true) :
    ∃ window ∈ intersecting, window.Contains startByte endByte ∧
      ((intersecting.zipIdx.find? fun placed =>
        containsAt intersecting.length startByte endByte placed.1 placed.2).map Prod.fst).or
          intersecting.head? = some window := by
  obtain ⟨placed, hmem, hcontains⟩ := h
  cases hfind : intersecting.zipIdx.find? fun placed =>
      containsAt intersecting.length startByte endByte placed.1 placed.2 with
  | none => exact absurd hcontains (by simpa using List.find?_eq_none.mp hfind placed hmem)
  | some found =>
    have hholds := List.find?_some hfind
    simp only [containsAt, Bool.and_eq_true, decide_eq_true_eq] at hholds
    exact ⟨found.1, List.fst_mem_of_mem_zipIdx (List.mem_of_find?_eq_some hfind), hholds.1, rfl⟩

/-- What `windowsForByteRange` answers with. -/
def intersecting (windows : List Window) (startByte endByte : Nat) : List Window :=
  (windows.zipIdx.filter fun placed =>
    intersectsAt windows.length startByte endByte placed.1 placed.2).map Prod.fst

variable {window : Window}

theorem mem_intersecting {i : Nat} (hi : windows[i]? = some window)
    (h : intersectsAt windows.length startByte endByte window i = true) :
    window ∈ intersecting windows startByte endByte :=
  List.mem_map.mpr ⟨(window, i),
    List.mem_filter.mpr ⟨List.mk_mem_zipIdx_iff_getElem?.mpr hi, h⟩, rfl⟩

/-- A window that the range begins before the end of is found where it stands. -/
theorem exists_containsAt_of_lt {i : Nat} (hi : windows[i]? = some window)
    (hcontains : window.Contains startByte endByte) (hle : startByte ≤ endByte)
    (hlt : startByte < window.endByte) :
    ∃ placed ∈ (intersecting windows startByte endByte).zipIdx,
      containsAt (intersecting windows startByte endByte).length startByte endByte placed.1
        placed.2 = true := by
  obtain ⟨hstart, hend⟩ := hcontains
  have hmem : window ∈ intersecting windows startByte endByte := by
    refine mem_intersecting hi ?_
    rw [intersectsAt]
    split
    · simp [hstart, hlt]
    · simp only [Bool.and_eq_true, decide_eq_true_eq]
      omega
  obtain ⟨j, hj⟩ := List.getElem?_of_mem hmem
  refine ⟨(window, j), List.mk_mem_zipIdx_iff_getElem?.mpr hj, ?_⟩
  simp [containsAt, hstart, hend, hlt]

theorem exists_containsAt_of_last {before : List Window}
    (hstart : window.startByte ≤ window.endByte) :
    ∃ placed ∈ (intersecting (before ++ [window]) window.endByte window.endByte).zipIdx,
      containsAt (intersecting (before ++ [window]) window.endByte window.endByte).length
        window.endByte window.endByte placed.1 placed.2 = true := by
  have hlast : intersectsAt (before ++ [window]).length window.endByte window.endByte window
      before.length = true := by
    simp [intersectsAt]
  obtain ⟨front, hfront⟩ : ∃ front, intersecting (before ++ [window]) window.endByte
      window.endByte = front ++ [window] := by
    rw [intersecting, List.zipIdx_append, List.filter_append, List.map_append, Nat.zero_add,
      List.zipIdx_singleton]
    simp only [List.filter_cons, hlast, if_true, List.filter_nil, List.map_cons, List.map_nil]
    exact ⟨_, rfl⟩
  rw [hfront]
  refine ⟨(window, front.length), ?_, ?_⟩
  · exact List.mk_mem_zipIdx_iff_getElem?.mpr (by simp)
  · simp [containsAt, hstart]

/-- A window that contains the range comes up in the search. -/
theorem Layout.exists_containsAt (h : Layout chars windows) (hle : startByte ≤ endByte)
    (hcontains : ∃ window ∈ windows, window.Contains startByte endByte) :
    ∃ placed ∈ (intersecting windows startByte endByte).zipIdx,
      containsAt (intersecting windows startByte endByte).length startByte endByte placed.1
        placed.2 = true := by
  obtain ⟨window, hmem, hcontains⟩ := hcontains
  obtain ⟨i, hi⟩ := List.getElem?_of_mem hmem
  by_cases hlt : startByte < window.endByte
  · exact exists_containsAt_of_lt hi hcontains hle hlt
  · -- an empty range at the end of the window
    obtain ⟨hstart, hend⟩ := hcontains
    obtain rfl : startByte = window.endByte := by omega
    obtain rfl : endByte = window.endByte := by omega
    cases hnext : windows[i + 1]? with
    | some next =>
      obtain ⟨-, -, hnextStart, hnextEnd⟩ := h.leads hi hnext
      exact exists_containsAt_of_lt hnext ⟨hnextStart, Nat.le_of_lt hnextEnd⟩ hle hnextEnd
    | none =>
      have hlength := List.getElem?_eq_none_iff.mp hnext
      obtain ⟨before, last, rfl⟩ :=
        List.eq_nil_or_concat' windows |>.resolve_left (List.ne_nil_of_mem hmem)
      obtain ⟨hi', -⟩ := List.getElem?_eq_some_iff.mp hi
      have hposition : i = before.length := by
        simp only [List.length_append, List.length_singleton] at hlength hi'
        omega
      rw [hposition, List.getElem?_concat_length] at hi
      obtain rfl := Option.some.inj hi
      exact exists_containsAt_of_last hstart

/-- What intersects a range that is not empty shares a byte with it. -/
theorem intersects_of_mem (hne : startByte ≠ endByte)
    (h : window ∈ intersecting windows startByte endByte) :
    window.Intersects startByte endByte := by
  obtain ⟨placed, hplaced, rfl⟩ := List.mem_map.mp h
  have hholds := (List.mem_filter.mp hplaced).2
  simp only [intersectsAt, if_neg hne, Bool.and_eq_true, decide_eq_true_eq] at hholds
  rw [Window.Intersects, if_neg hne]
  exact hholds

theorem find_mem {intersecting : List Window} (hne : intersecting ≠ []) :
    ∃ window ∈ intersecting, ((intersecting.zipIdx.find? fun placed =>
        containsAt intersecting.length startByte endByte placed.1 placed.2).map Prod.fst).or
          intersecting.head? = some window := by
  cases hfind : intersecting.zipIdx.find? fun placed =>
      containsAt intersecting.length startByte endByte placed.1 placed.2 with
  | some found =>
    exact ⟨found.1, List.fst_mem_of_mem_zipIdx (List.mem_of_find?_eq_some hfind), rfl⟩
  | none => exact ⟨intersecting.head hne, List.head_mem hne, by simp [List.head?_eq_some_head hne]⟩

theorem Layout.windowForByteRange_eq (h : Layout chars windows) (hle : startByte ≤ endByte) :
    ∃ found, windowForByteRange windows startByte endByte = .ok found ∧
      ((∃ window ∈ windows, window.Contains startByte endByte) →
        ∃ window ∈ windows, found = some window ∧ window.Contains startByte endByte) ∧
      ((∃ window ∈ windows, window.Intersects startByte endByte) →
        ∃ window ∈ windows, found = some window ∧ window.Intersects startByte endByte) := by
  have hsubset : ∀ window ∈ intersecting windows startByte endByte, window ∈ windows := by
    intro window hmem
    obtain ⟨placed, hplaced, rfl⟩ := List.mem_map.mp hmem
    exact List.fst_mem_of_mem_zipIdx (List.mem_filter.mp hplaced).1
  rw [windowForByteRange, h.windowsForByteRange_eq hle]
  refine ⟨_, rfl, ?_⟩
  by_cases hcontains : ∃ window ∈ windows, window.Contains startByte endByte
  · obtain ⟨window, hmem, hholds, hfound⟩ := find_contains (h.exists_containsAt hle hcontains)
    exact ⟨fun _ => ⟨window, hsubset window hmem, hfound, hholds⟩,
      fun _ => ⟨window, hsubset window hmem, hfound, hholds.intersects hle⟩⟩
  · refine ⟨fun hsome => absurd hsome hcontains, ?_⟩
    rintro ⟨window, hmem, hmeets⟩
    have hne : startByte ≠ endByte := by
      intro hempty
      rw [Window.Intersects, if_pos hempty] at hmeets
      exact hcontains ⟨window, hmem, hmeets⟩
    obtain ⟨i, hi⟩ := List.getElem?_of_mem hmem
    have hwindow : window ∈ intersecting windows startByte endByte := by
      refine mem_intersecting hi ?_
      rw [Window.Intersects, if_neg hne] at hmeets
      simpa [intersectsAt, hne] using hmeets
    obtain ⟨other, hother, hfound⟩ := find_mem (List.ne_nil_of_mem hwindow)
    exact ⟨other, hsubset other hother, hfound, intersects_of_mem hne hother⟩

theorem Layout.exists_window (h : Layout chars windows) {position : Nat}
    (hposition : position < byteLength chars) :
    ∃ window ∈ windows, window.startByte ≤ position ∧ position < window.endByte := by
  -- from a window that ends behind the position back to one that begins before it
  have hback : ∀ (i : Nat) (window : Window), windows[i]? = some window →
      position < window.endByte →
      ∃ window ∈ windows, window.startByte ≤ position ∧ position < window.endByte := by
    intro i
    induction i with
    | zero =>
      intro window hi hend
      obtain ⟨first, hfirst, -, hzero⟩ := h.exists_first
      obtain rfl := Option.some.inj (hfirst.symm.trans hi)
      exact ⟨first, List.mem_of_getElem? hi, by omega, hend⟩
    | succ i ih =>
      intro window hi hend
      by_cases hstart : window.startByte ≤ position
      · exact ⟨window, List.mem_of_getElem? hi, hstart, hend⟩
      · obtain ⟨hlt, -⟩ := List.getElem?_eq_some_iff.mp hi
        have hprevious := List.getElem?_eq_getElem (l := windows) (i := i) (by omega)
        obtain ⟨-, -, hjoin, -⟩ := h.leads hprevious hi
        exact ih _ hprevious (by omega)
  have hlast := h.last
  rw [List.getLast?_eq_getElem?, Option.any_eq_true] at hlast
  obtain ⟨last, hlast, hend⟩ := hlast
  exact hback _ last hlast (of_decide_eq_true hend ▸ hposition)

/-- Every range that begins inside the text shares a byte with a window. -/
theorem Layout.exists_intersects (h : Layout chars windows) (hle : startByte ≤ endByte)
    (hinside : startByte < byteLength chars) :
    ∃ window ∈ windows, window.Intersects startByte endByte := by
  obtain ⟨window, hmem, hstart, hend⟩ := h.exists_window hinside
  refine ⟨window, hmem, ?_⟩
  rw [Window.Intersects]
  split
  · next hempty => exact ⟨hstart, by omega⟩
  · omega

end Ranges

/-! ## The tokens of the windows -/

/-- The window holds the whole token. -/
def Window.Holds (window : Window) (token : Token) : Prop :=
  window.startByte ≤ token.startByte ∧ token.endByte ≤ window.endByte

/-- The window and the token share a byte. -/
def Window.touches (window : Window) (token : Token) : Bool :=
  token.startByte < window.endByte && window.startByte < token.endByte

theorem Window.touches_iff {window : Window} {token : Token} :
    window.touches token = true ↔
      token.startByte < window.endByte ∧ window.startByte < token.endByte := by
  simp [Window.touches]

/-- What the windows of a text are to its tokens. -/
structure Covers (options : WindowOptions) (chars : List Char) (tokens : List Token)
    (windows : List Window) : Prop where
  few : ∀ window ∈ windows, (tokens.filter window.touches).length ≤ options.windowTokens
  increasing : windows.Pairwise fun window later => window.startByte < later.startByte
  first : windows.head?.map Window.startByte = some 0
  starts : ∀ window ∈ windows.tail, ∃ token ∈ tokens, window.startByte = token.startByte
  inside : ∀ window ∈ windows, window.endByte ≤ byteLength chars
  gapless : ∀ position < byteLength chars, ∃ window ∈ windows,
    window.startByte ≤ position ∧ position < window.endByte
  whole : ∀ token ∈ tokens, ∃ window ∈ windows, window.Holds token

section Tokens

variable {isWord : Char → Bool} {chars : List Char} {options : WindowOptions} {token : Token}

theorem edge_le_startByte {i j : Nat} (hij : i ≤ j)
    (hj : (matchesFrom isWord chars 0)[j]? = some token) :
    edge isWord chars i ≤ token.startByte := by
  obtain ⟨hlt, -⟩ := List.getElem?_eq_some_iff.mp hj
  refine Nat.le_trans (edge_le_edge hij (by omega)) ?_
  rcases edge_cases isWord chars j with ⟨hzero, -⟩ | ⟨same, hsame, hedge⟩ | ⟨-, hlength⟩
  · omega
  · obtain rfl := Option.some.inj (hj.symm.trans hsame)
    exact Nat.le_of_eq hedge
  · omega

theorem endByte_le_edge {i j : Nat} (hij : j < i)
    (hj : (matchesFrom isWord chars 0)[j]? = some token) : token.endByte ≤ edge isWord chars i := by
  rcases edge_cases isWord chars i with ⟨-, hzero⟩ | ⟨later, hlater, hedge⟩ | ⟨hedge, -⟩
  · omega
  · rw [hedge]
    exact matchesFrom_order hij hj hlater
  · have hbounds := matchesFrom_bounds (List.mem_of_getElem? hj)
    omega

/-- The window of a round holds the tokens from its first on. -/
theorem windowAt_holds {startToken j : Nat} (ordinal : Nat)
    (hj : (matchesFrom isWord chars 0)[j]? = some token) (hfrom : startToken ≤ j)
    (hto : j < startToken + options.windowTokens) :
    (windowAt isWord chars options startToken ordinal).Holds token :=
  ⟨edge_le_startByte hfrom hj, endByte_le_edge hto hj⟩

/-- The window of a round touches no more tokens than asked for. -/
theorem length_touches_le (startToken ordinal : Nat) :
    ((matchesFrom isWord chars 0).filter
      (windowAt isWord chars options startToken ordinal).touches).length ≤
        options.windowTokens := by
  have hbefore : ((matchesFrom isWord chars 0).take startToken).filter
      (windowAt isWord chars options startToken ordinal).touches = [] := by
    rw [List.filter_eq_nil_iff]
    intro token hmem
    obtain ⟨j, hj⟩ := List.getElem?_of_mem hmem
    rw [List.getElem?_take] at hj
    split at hj
    · next hlt =>
      have hle : token.endByte ≤ (windowAt isWord chars options startToken ordinal).startByte :=
        endByte_le_edge hlt hj
      rw [Window.touches_iff]
      omega
    · cases hj
  have hafter : (((matchesFrom isWord chars 0).drop startToken).drop options.windowTokens).filter
      (windowAt isWord chars options startToken ordinal).touches = [] := by
    rw [List.filter_eq_nil_iff]
    intro token hmem
    obtain ⟨j, hj⟩ := List.getElem?_of_mem hmem
    rw [List.drop_drop, List.getElem?_drop] at hj
    have hle : (windowAt isWord chars options startToken ordinal).endByte ≤ token.startByte :=
      edge_le_startByte (Nat.le_add_right _ j) hj
    rw [Window.touches_iff]
    omega
  rw [← List.take_append_drop startToken (matchesFrom isWord chars 0),
    ← List.take_append_drop options.windowTokens ((matchesFrom isWord chars 0).drop startToken),
    List.filter_append, List.filter_append, hbefore, hafter, List.nil_append, List.append_nil]
  exact Nat.le_trans (List.length_filter_le _ _) (List.length_take_le _ _)

theorem exists_windowAt {window : Window} {fuel startToken ordinal : Nat}
    (h : window ∈ windowsFrom options (matchesFrom isWord chars 0) (byteLength chars) fuel
      startToken ordinal) :
    ∃ i k, window = windowAt isWord chars options i k := by
  induction fuel generalizing startToken ordinal with
  | zero => cases h
  | succ fuel ih =>
    by_cases hstart : startToken < (matchesFrom isWord chars 0).length
    · rw [windowsFrom_succ fuel ordinal hstart, List.mem_cons] at h
      rcases h with rfl | h
      · exact ⟨startToken, ordinal, rfl⟩
      · split at h
        · cases h
        · exact ih h
    · rw [windowsFrom, if_pos (by omega)] at h
      cases h

/-- Each token from the first of a round on comes in a window of this round or a later one. -/
theorem exists_holds {fuel j : Nat} (startToken ordinal : Nat)
    (hj : (matchesFrom isWord chars 0)[j]? = some token) (hfrom : startToken ≤ j)
    (hfuel : (matchesFrom isWord chars 0).length ≤ startToken + fuel) :
    ∃ window ∈ windowsFrom options (matchesFrom isWord chars 0) (byteLength chars) fuel startToken
      ordinal, window.Holds token := by
  obtain ⟨hlt, -⟩ := List.getElem?_eq_some_iff.mp hj
  induction fuel generalizing startToken ordinal with
  | zero => omega
  | succ fuel ih =>
    have hpositive := options.positive
    have hsmaller := options.smaller
    rw [windowsFrom_succ fuel ordinal (by omega)]
    by_cases hto : j < startToken + options.windowTokens
    · exact ⟨_, List.mem_cons_self, windowAt_holds ordinal hj hfrom hto⟩
    · -- the next window begins no later than this one ends
      rw [if_neg (by omega)]
      obtain ⟨window, hmem, hholds⟩ := ih
        (startToken + (options.windowTokens - options.overlapTokens)) (ordinal + 1)
        (by omega) (by omega)
      exact ⟨window, List.mem_cons_of_mem _ hmem, hholds⟩

/-- The loop ends by itself: more rounds than tokens change nothing. -/
theorem windowsFrom_fuel (options : WindowOptions) (tokens : List Token) (length : Nat)
    (fuel fuel' startToken ordinal : Nat) (hfuel : tokens.length ≤ startToken + fuel)
    (hfuel' : tokens.length ≤ startToken + fuel') :
    windowsFrom options tokens length fuel startToken ordinal =
      windowsFrom options tokens length fuel' startToken ordinal := by
  have hpositive := options.positive
  have hsmaller := options.smaller
  induction fuel generalizing fuel' startToken ordinal with
  | zero =>
    cases fuel' with
    | zero => rfl
    | succ fuel' => rw [windowsFrom, windowsFrom, if_pos (by omega)]
  | succ fuel ih =>
    cases fuel' with
    | zero => rw [windowsFrom, windowsFrom, if_pos (by omega)]
    | succ fuel' =>
      rw [windowsFrom, windowsFrom, ih fuel' _ (ordinal + 1) (by omega) (by omega)]

end Tokens

/-! ## The tokens a tokenizer may give out -/

/-- The loop of `validateTokenRanges`, with the end of the token before. -/
def validateFrom (length : Nat) : Nat → Nat → List Token → Except StoreError Unit
  | _, _, [] => .ok ()
  | previousEnd, index, token :: rest =>
    if token.endByte ≤ token.startByte ∨ token.startByte < previousEnd ∨
        length < token.endByte then
      .error (.rangeError s!"Token {index} has invalid or overlapping byte coordinates.")
    else validateFrom length token.endByte (index + 1) rest

def validateTokenRanges (tokens : List Token) (length : Nat) : Except StoreError (List Token) :=
  if maxSearchTokensPerDocument < tokens.length then
    .error (.coded "INVALID_REQUEST" s!"Tokenizer returned more than {maxSearchTokensPerDocument} searchable tokens.")
  else (validateFrom length 0 0 tokens).map fun _ => tokens

theorem validateFrom_eq_ok {length previousEnd index : Nat} {tokens : List Token}
    (horder : tokens.Pairwise fun token later => token.endByte ≤ later.startByte)
    (hbounds : ∀ token ∈ tokens, previousEnd ≤ token.startByte ∧
      token.startByte < token.endByte ∧ token.endByte ≤ length) :
    validateFrom length previousEnd index tokens = .ok () := by
  induction tokens generalizing previousEnd index with
  | nil => rfl
  | cons token rest ih =>
    obtain ⟨hbehind, horder⟩ := List.pairwise_cons.mp horder
    have hfirst := hbounds token List.mem_cons_self
    rw [validateFrom, if_neg (by omega)]
    refine ih horder fun later hlater => ?_
    have hlast := hbounds later (List.mem_cons_of_mem _ hlater)
    exact ⟨hbehind later hlater, hlast.2⟩

/-- The tokens of a text pass the check of the windows. -/
theorem validateTokenRanges_matchesFrom {isWord : Char → Bool} {chars : List Char}
    (hcount : (matchesFrom isWord chars 0).length ≤ maxSearchTokensPerDocument) :
    validateTokenRanges (matchesFrom isWord chars 0) (byteLength chars) =
      .ok (matchesFrom isWord chars 0) := by
  have hbounds : ∀ token ∈ matchesFrom isWord chars 0, 0 ≤ token.startByte ∧
      token.startByte < token.endByte ∧ token.endByte ≤ byteLength chars := by
    intro token hmem
    have := matchesFrom_bounds hmem
    omega
  rw [validateTokenRanges, if_neg (by omega),
    validateFrom_eq_ok (matchesFrom_pairwise chars 0) hbounds]
  rfl

/-! ## All of it -/

section Cover

variable {isWord : Char → Bool} {chars : List Char} {options : WindowOptions}

theorem createSearchWindows_eq (options : WindowOptions)
    (hcount : (matchesFrom isWord chars 0).length ≤ maxSearchTokensPerDocument) :
    createSearchWindows isWord options chars = .ok (if matchesFrom isWord chars 0 = [] then
      [{ ordinal := 0, startByte := 0, endByte := byteLength chars }]
      else windowsFrom options (matchesFrom isWord chars 0) (byteLength chars)
        (matchesFrom isWord chars 0).length 0 0) := by
  rw [createSearchWindows, tokenizeWithByteOffsets, if_neg (by omega)]
  rfl

variable {windows : List Window}

theorem Layout.increasing (h : Layout chars windows) :
    windows.Pairwise fun window later => window.startByte < later.startByte := by
  rw [List.pairwise_iff_getElem]
  intro i j hi hj hij
  exact (h.start_lt hij (List.getElem?_eq_getElem hi) (List.getElem?_eq_getElem hj)).1

theorem Layout.covers (h : Layout chars windows)
    (hwindows : createSearchWindows isWord options chars = .ok windows) :
    Covers options chars (matchesFrom isWord chars 0) windows := by
  have hcount := length_le_of_createSearchWindows hwindows
  have hstarts := createSearchWindows_starts hwindows
  rw [createSearchWindows_eq options hcount] at hwindows
  have heq := (Except.ok.inj hwindows).symm
  refine ⟨?_, h.increasing, ?_, ?_, ?_, fun position hposition => h.exists_window hposition, ?_⟩
  · intro window hmem
    split at heq
    · next hnil => simp [hnil]
    · rw [heq] at hmem
      obtain ⟨i, k, rfl⟩ := exists_windowAt hmem
      exact length_touches_le i k
  · obtain ⟨first, hfirst, -, hzero⟩ := h.exists_first
    rw [List.head?_eq_getElem?, hfirst, Option.map_some, hzero]
  · intro window hmem
    refine (hstarts window (List.mem_of_mem_tail hmem)).resolve_left fun hzero => ?_
    -- a later window begins behind the first one
    obtain ⟨i, hi⟩ := List.getElem?_of_mem hmem
    rw [List.getElem?_tail] at hi
    obtain ⟨first, hfirst, -⟩ := h.exists_first
    have hlt := (h.start_lt (Nat.succ_pos i) hfirst hi).1
    omega
  · intro window hmem
    exact (h.cuts window hmem).2.1.le
  · intro token hmem
    obtain ⟨j, hj⟩ := List.getElem?_of_mem hmem
    rw [if_neg (List.ne_nil_of_mem hmem)] at heq
    rw [heq]
    exact exists_holds 0 0 hj (Nat.zero_le j) (Nat.le_add_left _ _)

/-- A well-formed text with no more matches than allowed has the same tokens on both paths of the
tokenizer, at the offsets of their bytes, and windows that cover it; each range is answered with a
window that contains it, else with one that shares a byte with it. -/
theorem windows_of_wellFormed (isWord : Char → Bool) (options : WindowOptions) (source : Text)
    (hwellFormed : isWellFormed source = true)
    (hcount : (matchAll isWord (codePoints source) 0).length ≤ maxSearchTokensPerDocument) :
    ∃ tokens windows, tokenizeWithByteOffsets isWord (codePoints source) = .ok tokens ∧
      tokenizeUnits isWord source = .ok (tokens.map Token.inUnits) ∧
      (∀ singleByteText, (singleByteText = true → isSingleByteText source = true) →
        placeMatches source singleByteText 0 0 (matchAll isWord (codePoints source) 0) =
          tokens.map Token.inUnits) ∧
      (∀ token ∈ tokens, utf8 token.inUnits.value =
        ((utf8 source).drop token.startByte).take (token.endByte - token.startByte)) ∧
      validateTokenRanges tokens (byteLength (codePoints source)) = .ok tokens ∧
      createSearchWindows isWord options (codePoints source) = .ok windows ∧
      (∀ fuel, tokens.length ≤ fuel →
        windowsFrom options tokens (byteLength (codePoints source)) fuel 0 0 =
          windowsFrom options tokens (byteLength (codePoints source)) tokens.length 0 0) ∧
      Covers options (codePoints source) tokens windows ∧
      ∀ startByte endByte, startByte ≤ endByte →
        ∃ found, windowForByteRange windows startByte endByte = .ok found ∧
          ((∃ window ∈ windows, window.Contains startByte endByte) →
            ∃ window ∈ windows, found = some window ∧ window.Contains startByte endByte) ∧
          ((∃ window ∈ windows, window.Intersects startByte endByte) →
            ∃ window ∈ windows, found = some window ∧ window.Intersects startByte endByte) ∧
          (startByte < byteLength (codePoints source) →
            ∃ window ∈ windows, window.Intersects startByte endByte) := by
  have hsource := toWellFormed_of_isWellFormed hwellFormed
  rw [length_matchAll] at hcount
  have htokens : tokenizeWithByteOffsets isWord (codePoints source) =
      .ok (matchesFrom isWord (codePoints source) 0) := by
    rw [tokenizeWithByteOffsets, if_neg (by omega)]
  have hwindows := createSearchWindows_eq options hcount
  have hlayout := createSearchWindows_layout hwindows
  refine ⟨_, _, htokens, ?_, ?_, ?_, validateTokenRanges_matchesFrom hcount, hwindows, ?_,
    hlayout.covers hwindows, ?_⟩
  · have hunits := tokenizeUnits_codeUnits isWord (codePoints source)
    rw [hsource, htokens] at hunits
    exact hunits
  · intro singleByteText hsingle
    have hplaced := placeMatches_matchAll isWord (codePoints source) singleByteText fun htrue =>
      (isSingleByteText_codeUnits _).mp (hsource.symm ▸ hsingle htrue)
    rw [hsource] at hplaced
    exact hplaced
  · intro token hmem
    exact utf8_inUnits hmem
  · intro fuel hfuel
    exact windowsFrom_fuel options _ _ _ _ 0 0 (by omega) (by omega)
  · intro startByte endByte hle
    obtain ⟨found, hfound, hcontains, hintersects⟩ := hlayout.windowForByteRange_eq hle
    exact ⟨found, hfound, hcontains, hintersects, hlayout.exists_intersects hle⟩

theorem windows_of_wellFormed_words :
    ∃ tokens, tokenizeUnits Char.isAlphanum (text " añ €") = .ok tokens := by
  obtain ⟨tokens, -, -, hunits, -⟩ := windows_of_wellFormed Char.isAlphanum
    { windowTokens := 2, overlapTokens := 1, positive := by decide, smaller := by decide }
    (text " añ €") (by decide) (by decide)
  exact ⟨_, hunits⟩

/-- The first window begins with the text, not with the first token. -/
theorem first_window_not_at_token :
    ∃ windows, createSearchWindows Char.isAlphanum
        { windowTokens := 2, overlapTokens := 1, positive := by decide, smaller := by decide }
        [' ', 'a'] = .ok windows ∧
      ¬ ∀ window ∈ windows, ∃ token ∈ matchesFrom Char.isAlphanum [' ', 'a'] 0,
        window.startByte = token.startByte := by
  refine ⟨[{ ordinal := 0, startByte := 0, endByte := 2 }], by decide, by decide⟩

end Cover

end ContextStore.Recall
