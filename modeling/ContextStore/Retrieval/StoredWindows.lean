import ContextStore.Foundation.Paging
import ContextStore.Retrieval.WindowCover
import Mathlib.Data.List.Find

/-! # Looking a window up in the store

The windows of a document are stored by their ordinals and read a page at a time. The lookup has
only the page in hand: what it takes for the last window of the document is the last one of the
page. For every range that is not empty, and for every empty one that no page but the last ends at,
it finds what `windowForByteRange` finds in the whole list (`stored_window_eq_iff`). -/

namespace ContextStore.Recall

open Unicode

/-- `WINDOW_SCAN_PAGE` -/
def windowScanPage : Nat := 1000

def intersectsStored (startByte endByte : Nat) (candidate : Window) : Bool :=
  if startByte = endByte then candidate.startByte = startByte || candidate.endByte = endByte
  else endByte > candidate.startByte && candidate.endByte > startByte

/-- How a page ends: with an answer, or with the first window so far that intersects the range. -/
inductive PageOutcome where
  | found (window : Option Window)
  | exhausted (firstIntersecting : Option Window)

/-- The answer when no page comes behind. -/
def PageOutcome.value : PageOutcome → Option Window
  | .found window => window
  | .exhausted firstIntersecting => firstIntersecting

/-- The search goes on where a page leaves it. -/
def PageOutcome.andThen (outcome : PageOutcome) (search : Option Window → PageOutcome) :
    PageOutcome :=
  match outcome with
  | .found window => .found window
  | .exhausted firstIntersecting => search firstIntersecting

/-- The loop over a page. -/
def searchPage (startByte endByte : Nat) : List Window → Option Window → PageOutcome
  | [], firstIntersecting => .exhausted firstIntersecting
  | candidate :: rest, firstIntersecting =>
    let firstIntersecting := firstIntersecting.or
      (if intersectsStored startByte endByte candidate then some candidate else none)
    if candidate.startByte ≤ startByte ∧ endByte ≤ candidate.endByte ∧
        (startByte < candidate.endByte ∨ rest = []) then .found (some candidate)
    else if firstIntersecting.isSome = true ∧ endByte ≤ candidate.startByte then
      .found firstIntersecting
    else searchPage startByte endByte rest firstIntersecting

/-- The loop over the pages; nothing when the rounds are used up. -/
def findFrom (scan : Option Nat → List Window) (pageSize startByte endByte : Nat) :
    Nat → Option Nat → Option Window → Option (Option Window)
  | 0, _, _ => none
  | fuel + 1, after, firstIntersecting =>
    let page := scan after
    match searchPage startByte endByte page firstIntersecting with
    | .found window => some window
    | .exhausted firstIntersecting =>
      if page.length < pageSize then some firstIntersecting
      else findFrom scan pageSize startByte endByte fuel
        (page.getLast?.map Window.ordinal) firstIntersecting

/-- The store scans the windows of a document in the order of their ordinals. -/
def findStoredWindowForByteRange (pageSize : Nat) (stored : List Window) (startByte endByte : Nat)
    (fuel : Nat) : Option (Option Window) :=
  findFrom (Paging.pageAfter Window.ordinal stored pageSize) pageSize startByte endByte fuel
    none none

/-! ## The pages as one list -/

section Pages

variable {startByte endByte : Nat}

/-- The loop over a page, with another word for its last window. -/
def searchWith (closes : Window → Bool) (startByte endByte : Nat) :
    List Window → Option Window → PageOutcome
  | [], firstIntersecting => .exhausted firstIntersecting
  | candidate :: rest, firstIntersecting =>
    let firstIntersecting := firstIntersecting.or
      (if intersectsStored startByte endByte candidate then some candidate else none)
    if candidate.startByte ≤ startByte ∧ endByte ≤ candidate.endByte ∧
        (startByte < candidate.endByte ∨ closes candidate = true) then .found (some candidate)
    else if firstIntersecting.isSome = true ∧ endByte ≤ candidate.startByte then
      .found firstIntersecting
    else searchWith closes startByte endByte rest firstIntersecting

theorem searchPage_eq_searchWith {closes : Window → Bool} {page : List Window}
    (h : ∀ before window after, page = before ++ window :: after →
      (closes window = true ↔ after = [])) (firstIntersecting : Option Window) :
    searchPage startByte endByte page firstIntersecting =
      searchWith closes startByte endByte page firstIntersecting := by
  induction page generalizing firstIntersecting with
  | nil => rfl
  | cons candidate rest ih =>
    have hlast := h [] candidate rest rfl
    have hrest := ih (fun before window after heq =>
      h (candidate :: before) window after (by rw [heq, List.cons_append]))
    simp only [searchPage, searchWith, hlast, hrest]

theorem searchWith_append (closes : Window → Bool) (before after : List Window)
    (firstIntersecting : Option Window) :
    searchWith closes startByte endByte (before ++ after) firstIntersecting =
      (searchWith closes startByte endByte before firstIntersecting).andThen
        (searchWith closes startByte endByte after) := by
  induction before generalizing firstIntersecting with
  | nil => rfl
  | cons candidate before ih =>
    simp only [List.cons_append, searchWith]
    generalize firstIntersecting.or _ = first
    split
    · rfl
    · split
      · rfl
      · exact ih first

def closesPage (pageSize count : Nat) (window : Window) : Bool :=
  (window.ordinal + 1) % pageSize = 0 || window.ordinal + 1 = count

variable {windows : List Window} {pageSize : Nat}

/-- On a page that begins behind whole pages, its last window is the one that closes it. -/
theorem closesPage_iff
    (hordinal : ∀ i (window : Window), windows[i]? = some window → window.ordinal = i)
    {done rest : List Window} (hwindows : windows = done ++ rest)
    (hdone : pageSize ∣ done.length) {before after : List Window} {window : Window}
    (hpage : rest.take pageSize = before ++ window :: after) :
    closesPage pageSize windows.length window = true ↔ after = [] := by
  have hlength := congrArg List.length hpage
  simp only [List.length_take, List.length_append, List.length_cons] at hlength
  have hplace : windows[done.length + before.length]? = some window := by
    rw [hwindows, List.getElem?_append_right (Nat.le_add_right _ _), Nat.add_sub_cancel_left,
      ← List.take_append_drop pageSize rest, hpage, List.append_assoc,
      List.getElem?_append_right (Nat.le_refl _), Nat.sub_self]
    rfl
  have hcount : windows.length = done.length + rest.length := by
    rw [hwindows, List.length_append]
  obtain ⟨pages, hpages⟩ := hdone
  rw [closesPage, hordinal _ _ hplace, Bool.or_eq_true, decide_eq_true_eq, decide_eq_true_eq,
    ← List.length_eq_zero_iff, hpages, Nat.add_assoc, Nat.mul_add_mod]
  by_cases hfull : before.length + 1 = pageSize
  · rw [hfull, Nat.mod_self]
    omega
  · rw [Nat.mod_eq_of_lt (by omega)]
    omega

theorem findFrom_eq
    (hordinal : ∀ i (window : Window), windows[i]? = some window → window.ordinal = i)
    (hsorted : windows.Pairwise fun window later => window.ordinal < later.ordinal)
    (hsize : 0 < pageSize) {fuel : Nat} {after : Option Nat} {done rest : List Window}
    (hwindows : windows = done ++ rest) (hdone : pageSize ∣ done.length)
    (hrest : windows.filter (fun window => after.all (· < window.ordinal)) = rest)
    (hfuel : rest.length < fuel) (firstIntersecting : Option Window) :
    findFrom (Paging.pageAfter Window.ordinal windows pageSize) pageSize startByte endByte fuel
      after firstIntersecting =
        some (searchWith (closesPage pageSize windows.length) startByte endByte rest
          firstIntersecting).value := by
  induction fuel generalizing after done rest firstIntersecting with
  | zero => exact absurd hfuel (Nat.not_lt_zero _)
  | succ fuel ih =>
    have hpage : Paging.pageAfter Window.ordinal windows pageSize after = rest.take pageSize := by
      rw [Paging.pageAfter, hrest]
    have hsearch := @searchPage_eq_searchWith startByte endByte _ _
      (fun before window behind heq => closesPage_iff hordinal hwindows hdone heq)
      firstIntersecting
    have hsplit := @searchWith_append startByte endByte
      (closesPage pageSize windows.length) (rest.take pageSize) (rest.drop pageSize)
      firstIntersecting
    rw [List.take_append_drop] at hsplit
    simp only [findFrom, hpage, hsearch]
    rw [hsplit]
    cases searchWith (closesPage pageSize windows.length) startByte endByte (rest.take pageSize)
        firstIntersecting with
    | found window => rfl
    | exhausted firstIntersecting =>
      simp only [List.length_take]
      split
      · next hshort =>
        rw [List.drop_of_length_le (by omega)]
        rfl
      · next hfull =>
        have hne : rest.take pageSize ≠ [] := by
          intro hnil
          have := congrArg List.length hnil
          simp only [List.length_take, List.length_nil] at this
          omega
        have hcut : rest = (rest.take pageSize).dropLast ++
            (rest.take pageSize).getLast hne :: rest.drop pageSize := by
          calc rest = rest.take pageSize ++ rest.drop pageSize :=
                (List.take_append_drop _ _).symm
            _ = ((rest.take pageSize).dropLast ++ [(rest.take pageSize).getLast hne]) ++
                rest.drop pageSize := by rw [List.dropLast_concat_getLast hne]
            _ = _ := by simp
        have hbehind := Paging.filter_behind hsorted (hrest.trans hcut)
        rw [List.getLast?_eq_some_getLast hne, Option.map_some]
        refine @ih _ (done ++ rest.take pageSize) _ ?_ ?_ hbehind ?_ firstIntersecting
        · rw [List.append_assoc, List.take_append_drop, hwindows]
        · rw [List.length_append, List.length_take, Nat.min_eq_left (by omega)]
          exact Nat.dvd_add hdone (Nat.dvd_refl _)
        · rw [List.length_drop]
          omega

end Pages

/-! ## What the search finds -/

section Found

variable {startByte endByte : Nat}

/-- The window contains the range, and the range begins before its end or the window closes. -/
def holdsWith (closes : Window → Bool) (startByte endByte : Nat) (window : Window) : Bool :=
  window.startByte ≤ startByte && endByte ≤ window.endByte &&
    (startByte < window.endByte || closes window)

/-- The early answer passes over no window that contains the range. -/
theorem searchWith_value (closes : Window → Bool) (hle : startByte ≤ endByte)
    {windows : List Window}
    (hsorted : windows.Pairwise fun window later => window.startByte < later.startByte)
    (firstIntersecting : Option Window) :
    (searchWith closes startByte endByte windows firstIntersecting).value =
      (windows.find? (holdsWith closes startByte endByte)).or
        (firstIntersecting.or (windows.find? (intersectsStored startByte endByte))) := by
  induction windows generalizing firstIntersecting with
  | nil => simp [searchWith, PageOutcome.value]
  | cons candidate rest ih =>
    obtain ⟨hbehind, hsorted⟩ := List.pairwise_cons.mp hsorted
    have hholds : holdsWith closes startByte endByte candidate = true ↔
        candidate.startByte ≤ startByte ∧ endByte ≤ candidate.endByte ∧
          (startByte < candidate.endByte ∨ closes candidate = true) := by
      simp [holdsWith, and_assoc]
    have hfirst : (firstIntersecting.or
        (if intersectsStored startByte endByte candidate then some candidate else none)).or
          (rest.find? (intersectsStored startByte endByte)) =
        firstIntersecting.or
          ((candidate :: rest).find? (intersectsStored startByte endByte)) := by
      rw [Option.or_assoc, List.find?_cons]
      split <;> simp [*]
    simp only [searchWith]
    generalize hnew : firstIntersecting.or _ = first at hfirst ⊢
    by_cases hcontains : holdsWith closes startByte endByte candidate = true
    · rw [if_pos (hholds.mp hcontains), List.find?_cons_of_pos hcontains]
      rfl
    · rw [if_neg (fun h => hcontains (hholds.mpr h)), List.find?_cons_of_neg hcontains]
      split
      · next hearly =>
        -- the windows behind begin behind the range
        have hnone : rest.find? (holdsWith closes startByte endByte) = none := by
          rw [List.find?_eq_none]
          intro window hmem
          have hlt := hbehind window hmem
          simp only [holdsWith, Bool.and_eq_true, decide_eq_true_eq, not_and]
          omega
        obtain ⟨window, hwindow⟩ := Option.isSome_iff_exists.mp hearly.1
        rw [hnone, ← hfirst, hwindow]
        rfl
      · rw [ih hsorted, hfirst]

variable {chars : List Char} {windows : List Window} {pageSize : Nat}

theorem Layout.ordinals (h : Layout chars windows) :
    windows.Pairwise fun window later => window.ordinal < later.ordinal := by
  rw [List.pairwise_iff_getElem]
  intro i j hi hj hij
  rw [h.ordinal_eq (List.getElem?_eq_getElem hi), h.ordinal_eq (List.getElem?_eq_getElem hj)]
  exact hij

/-- The lookup ends, and finds the first window that contains the range as its page sees it, else
the first that intersects it. -/
theorem Layout.findStoredWindow_eq (h : Layout chars windows) (hsize : 0 < pageSize)
    (hle : startByte ≤ endByte) {fuel : Nat} (hfuel : windows.length < fuel) :
    findStoredWindowForByteRange pageSize windows startByte endByte fuel =
      some ((windows.find? (holdsWith (closesPage pageSize windows.length) startByte endByte)).or
        (windows.find? (intersectsStored startByte endByte))) := by
  have hevery : windows.filter (fun window => (none : Option Nat).all (· < window.ordinal)) =
      windows := by simp
  rw [findStoredWindowForByteRange, findFrom_eq (fun _ _ hi => h.ordinal_eq hi) h.ordinals hsize
    (List.nil_append windows).symm (Nat.dvd_zero _) hevery hfuel,
    searchWith_value _ hle h.increasing, Option.none_or]

/-- The windows that intersect, by what they know of themselves. -/
theorem Layout.intersecting_eq (h : Layout chars windows) :
    intersecting windows startByte endByte = windows.filter fun window =>
      intersectsAt windows.length startByte endByte window window.ordinal := by
  have hcongr : ∀ placed ∈ windows.zipIdx,
      intersectsAt windows.length startByte endByte placed.1 placed.2 =
        ((fun window => intersectsAt windows.length startByte endByte window window.ordinal) ∘
          Prod.fst) placed := by
    intro placed hmem
    rw [Function.comp_apply, h.ordinal_eq (List.mk_mem_zipIdx_iff_getElem?.mp hmem)]
  rw [intersecting, List.filter_congr hcongr, ← List.filter_map, List.zipIdx_map_fst]

theorem Layout.windowForByteRange_ok (h : Layout chars windows) (hle : startByte ≤ endByte) :
    windowForByteRange windows startByte endByte =
      .ok ((((intersecting windows startByte endByte).zipIdx.find? fun placed =>
        containsAt (intersecting windows startByte endByte).length startByte endByte placed.1
          placed.2).map Prod.fst).or (intersecting windows startByte endByte).head?) := by
  rw [windowForByteRange, h.windowsForByteRange_eq hle]
  rfl

/-- In a range with bytes the place of a window in the list does not matter. -/
theorem Layout.windowForByteRange_of_lt (h : Layout chars windows) (hlt : startByte < endByte)
    (closes : Window → Bool) :
    windowForByteRange windows startByte endByte =
      .ok ((windows.find? (holdsWith closes startByte endByte)).or
        (windows.find? (intersectsStored startByte endByte))) := by
  have hmeets : intersecting windows startByte endByte =
      windows.filter (intersectsStored startByte endByte) := by
    rw [h.intersecting_eq]
    refine List.filter_congr fun window _ => ?_
    rw [intersectsAt, intersectsStored, if_neg (Nat.ne_of_lt hlt), if_neg (Nat.ne_of_lt hlt)]
  have hcontains : ∀ (count : Nat) (placed : Window × Nat),
      containsAt count startByte endByte placed.1 placed.2 =
        (holdsWith closes startByte endByte ∘ Prod.fst) placed := by
    intro count placed
    rw [Function.comp_apply, containsAt, holdsWith, Bool.eq_iff_iff]
    simp only [Bool.and_eq_true, Bool.or_eq_true, decide_eq_true_eq]
    omega
  have hfind : ((windows.filter (intersectsStored startByte endByte)).zipIdx.find? fun placed =>
      containsAt (windows.filter (intersectsStored startByte endByte)).length startByte endByte
        placed.1 placed.2).map Prod.fst =
      windows.find? (holdsWith closes startByte endByte) := by
    simp only [hcontains]
    rw [← List.find?_map, List.zipIdx_map_fst, List.find?_filter]
    refine congrArg (windows.find? ·) (funext fun window => ?_)
    rw [Bool.eq_iff_iff]
    simp only [holdsWith, intersectsStored, if_neg (Nat.ne_of_lt hlt), Bool.and_eq_true,
      Bool.or_eq_true, decide_eq_true_eq]
    omega
  rw [h.windowForByteRange_ok (Nat.le_of_lt hlt), hmeets, hfind, List.head?_filter]

/-- An empty range is answered with the window it lies in, or with the last one at its end. -/
theorem Layout.windowForByteRange_empty (h : Layout chars windows) {position : Nat} :
    windowForByteRange windows position position =
      .ok (windows.find? fun window =>
        intersectsAt windows.length position position window window.ordinal) := by
  have hmeets := @Layout.intersecting_eq position position _ _ h
  have hhead : windows.find? (fun window =>
      intersectsAt windows.length position position window window.ordinal) =
        (intersecting windows position position).head? := by
    rw [hmeets, List.head?_filter]
  rw [h.windowForByteRange_ok (Nat.le_refl _), hhead]
  cases hlist : intersecting windows position position with
  | nil => rfl
  | cons first rest =>
    have hfirst : containsAt (first :: rest).length position position first 0 = true := by
      rw [hmeets] at hlist
      have hmem : first ∈ windows.filter fun window =>
          intersectsAt windows.length position position window window.ordinal := by
        rw [hlist]
        exact List.mem_cons_self
      obtain ⟨hwindow, hholds⟩ := List.mem_filter.mp hmem
      have hbounds := (h.cuts first hwindow).2.2.1
      simp only [intersectsAt, if_true, Bool.or_eq_true, Bool.and_eq_true,
        decide_eq_true_eq] at hholds
      rcases hholds with ⟨hstart, hend⟩ | ⟨hlast, hend⟩
      · simp [containsAt, hstart, hend, Nat.le_of_lt hend]
      · -- behind the last window no other one comes
        have hnil : rest = [] := by
          have hsorted : (first :: rest).Pairwise fun window later =>
              window.ordinal < later.ordinal := by
            rw [← hlist]
            exact h.ordinals.sublist List.filter_sublist
          rw [List.eq_nil_iff_forall_not_mem]
          intro later hlater
          have hlt := (List.pairwise_cons.mp hsorted).1 later hlater
          have hmem' := List.mem_of_mem_filter (hlist ▸ List.mem_cons_of_mem first hlater)
          obtain ⟨i, hi⟩ := List.getElem?_of_mem hmem'
          obtain ⟨hbound, -⟩ := List.getElem?_eq_some_iff.mp hi
          have := h.ordinal_eq hi
          omega
        simp [hnil, containsAt, hend, hbounds]
    rw [List.zipIdx_cons, List.find?_cons]
    simp only [hfirst]
    rfl

/-- A window ends at the position that is the last of a page, but not of the document. -/
def EndsPage (pageSize : Nat) (windows : List Window) (position : Nat) : Prop :=
  ∃ i window, windows[i]? = some window ∧ window.endByte = position ∧
    (i + 1) % pageSize = 0 ∧ i + 1 < windows.length

/-- Away from the ends of the pages an empty range lies in the same windows to both. -/
theorem Layout.holdsWith_eq (h : Layout chars windows) {position : Nat}
    (hends : ¬ EndsPage pageSize windows position) {window : Window} (hmem : window ∈ windows) :
    holdsWith (closesPage pageSize windows.length) position position window =
      intersectsAt windows.length position position window window.ordinal := by
  have hbounds := (h.cuts window hmem).2.2.1
  obtain ⟨i, hi⟩ := List.getElem?_of_mem hmem
  obtain ⟨hlt, -⟩ := List.getElem?_eq_some_iff.mp hi
  have hordinal := h.ordinal_eq hi
  have hpage : window.endByte = position → (window.ordinal + 1) % pageSize = 0 →
      window.ordinal = windows.length - 1 := by
    intro hend hcloses
    rw [hordinal] at hcloses ⊢
    by_cases hmore : i + 1 < windows.length
    · exact absurd ⟨i, window, hi, hend, hcloses, hmore⟩ hends
    · omega
  rw [Bool.eq_iff_iff]
  simp only [holdsWith, closesPage, intersectsAt, if_true, Bool.and_eq_true, Bool.or_eq_true,
    decide_eq_true_eq]
  constructor
  · rintro ⟨⟨hstart, hend⟩, hinside | hcloses | hlast⟩
    · exact .inl ⟨hstart, hinside⟩
    · by_cases hinside : position < window.endByte
      · exact .inl ⟨hstart, hinside⟩
      · exact .inr ⟨hpage (by omega) hcloses, by omega⟩
    · by_cases hinside : position < window.endByte
      · exact .inl ⟨hstart, hinside⟩
      · exact .inr ⟨by omega, by omega⟩
  · rintro (⟨hstart, hinside⟩ | ⟨hlast, hend⟩)
    · exact ⟨⟨hstart, Nat.le_of_lt hinside⟩, .inl hinside⟩
    · exact ⟨⟨by omega, by omega⟩, .inr (.inr (by omega))⟩

/-- A position of the text lies in a window, or at the end of the last one. -/
theorem Layout.exists_intersectsAt (h : Layout chars windows) {position : Nat}
    (hposition : position ≤ byteLength chars) :
    ∃ window ∈ windows,
      intersectsAt windows.length position position window window.ordinal = true := by
  rcases Nat.lt_or_eq_of_le hposition with hinside | hend
  · obtain ⟨window, hmem, hstart, hlt⟩ := h.exists_window hinside
    exact ⟨window, hmem, by simp [intersectsAt, hstart, hlt]⟩
  · have hlast := h.last
    rw [List.getLast?_eq_getElem?, Option.any_eq_true] at hlast
    obtain ⟨last, hlast, hlength⟩ := hlast
    refine ⟨last, List.mem_of_getElem? hlast, ?_⟩
    simp [intersectsAt, h.ordinal_eq hlast, hend, of_decide_eq_true hlength]

theorem Layout.findStoredWindow_of_endsPage (h : Layout chars windows) {position i : Nat}
    {window : Window} (hi : windows[i]? = some window) (hend : window.endByte = position)
    (hcloses : (i + 1) % pageSize = 0) :
    windows.find? (holdsWith (closesPage pageSize windows.length) position position) =
      some window := by
  subst hend
  have hbounds := (h.cuts window (List.mem_of_getElem? hi)).2.2.1
  have hordinal := h.ordinal_eq hi
  obtain ⟨hlt, hwindow⟩ := List.getElem?_eq_some_iff.mp hi
  rw [List.find?_eq_some_iff_getElem]
  refine ⟨?_, i, hlt, hwindow, ?_⟩
  · simp [holdsWith, closesPage, hordinal, hcloses, hbounds]
  · intro j hj
    have hbefore := (h.start_lt hj (List.getElem?_eq_getElem (Nat.lt_trans hj hlt)) hi).2
    simp only [holdsWith, Bool.not_eq_true', Bool.and_eq_false_iff, decide_eq_false_iff_not]
    exact .inl (.inr (by omega))

/-- The lookup in the store finds what the search of the whole list finds, unless the range is
empty and lies where a page ends before the last one does. -/
theorem Layout.findStoredWindow_eq_iff (h : Layout chars windows) (hsize : 0 < pageSize)
    (hle : startByte ≤ endByte) (hinside : endByte ≤ byteLength chars) {fuel : Nat}
    (hfuel : windows.length < fuel) :
    ∃ stored found,
      findStoredWindowForByteRange pageSize windows startByte endByte fuel = some stored ∧
      windowForByteRange windows startByte endByte = .ok found ∧
      (stored = found ↔ ¬ (startByte = endByte ∧ EndsPage pageSize windows startByte)) := by
  rcases Nat.lt_or_eq_of_le hle with hlt | rfl
  · refine ⟨_, _, h.findStoredWindow_eq hsize hle hfuel, h.windowForByteRange_of_lt hlt
      (closesPage pageSize windows.length), ?_⟩
    exact iff_of_true rfl (fun hempty => absurd hempty.1 (Nat.ne_of_lt hlt))
  · refine ⟨_, _, h.findStoredWindow_eq hsize hle hfuel, h.windowForByteRange_empty, ?_⟩
    by_cases hends : EndsPage pageSize windows startByte
    · refine iff_of_false ?_ (not_not_intro ⟨rfl, hends⟩)
      obtain ⟨i, window, hi, hend, hcloses, hmore⟩ := hends
      rw [h.findStoredWindow_of_endsPage hi hend hcloses, Option.some_or]
      intro hfound
      have hholds := List.find?_some hfound.symm
      simp only [intersectsAt, h.ordinal_eq hi, hend, if_true, Bool.or_eq_true, Bool.and_eq_true,
        decide_eq_true_eq, and_true] at hholds
      omega
    · refine iff_of_true ?_ (fun hboth => hends hboth.2)
      obtain ⟨found, hmem, hholds⟩ := h.exists_intersectsAt hinside
      have hsome : (windows.find? fun window => intersectsAt windows.length startByte startByte
          window window.ordinal).isSome = true := by
        rw [List.find?_isSome]
        exact ⟨found, hmem, hholds⟩
      rw [List.find?_congr fun window hmem => h.holdsWith_eq hends hmem]
      obtain ⟨window, hwindow⟩ := Option.isSome_iff_exists.mp hsome
      rw [hwindow]
      rfl

end Found

/-! ## Every page size -/

section Lookup

variable {isWord : Char → Bool} {chars : List Char} {options : WindowOptions}
  {windows : List Window}

/-- Exactly the empty ranges where a page ends before the last one does are answered with another
window than the search of the whole list answers them with. -/
theorem stored_window_eq_iff (hwindows : createSearchWindows isWord options chars = .ok windows)
    {pageSize : Nat} (hsize : 0 < pageSize) {startByte endByte : Nat} (hle : startByte ≤ endByte)
    (hinside : endByte ≤ byteLength chars) {fuel : Nat} (hfuel : windows.length < fuel) :
    ∃ stored found,
      findStoredWindowForByteRange pageSize windows startByte endByte fuel = some stored ∧
      windowForByteRange windows startByte endByte = .ok found ∧
      (stored = found ↔ ¬ (startByte = endByte ∧ EndsPage pageSize windows startByte)) :=
  (createSearchWindows_layout hwindows).findStoredWindow_eq_iff hsize hle hinside hfuel

/-- Two windows of a token each, read one at a time: the range in the second one. -/
theorem stored_window_eq_iff_pair : ∃ stored found,
    findStoredWindowForByteRange 1 [⟨0, 0, 1⟩, ⟨1, 1, 2⟩] 1 2 3 = some stored ∧
    windowForByteRange [⟨0, 0, 1⟩, ⟨1, 1, 2⟩] 1 2 = .ok found ∧
    (stored = found ↔ ¬ (1 = 2 ∧ EndsPage 1 [⟨0, 0, 1⟩, ⟨1, 1, 2⟩] 1)) :=
  @stored_window_eq_iff (fun _ => false) ['!', '!'] ⟨1, 0, by decide, by decide⟩ _ rfl 1
    (by decide) 1 2 (by decide) (by decide) 3 (by decide)

/-! A text of one sign over and over has a token for each of them. -/

theorem matchesFrom_replicate_succ {c : Char} (hword : isWord c = false)
    (hspace : isSpace c = false) (count offset : Nat) :
    matchesFrom isWord (List.replicate (count + 1) c) offset =
      { value := [c], startByte := offset, endByte := offset + c.utf8Size } ::
        matchesFrom isWord (List.replicate count c) (offset + c.utf8Size) := by
  rw [List.replicate_succ, matchesFrom_cons_of_new (by simp [hword]) (fun _ => hspace)]

theorem length_matchesFrom_replicate {c : Char} (hword : isWord c = false)
    (hspace : isSpace c = false) (count offset : Nat) :
    (matchesFrom isWord (List.replicate count c) offset).length = count := by
  induction count generalizing offset with
  | zero => rfl
  | succ count ih => rw [matchesFrom_replicate_succ hword hspace, List.length_cons, ih]

theorem matchesFrom_replicate {c : Char} (hword : isWord c = false) (hspace : isSpace c = false)
    {count i : Nat} (offset : Nat) (hi : i < count) :
    ∃ token, (matchesFrom isWord (List.replicate count c) offset)[i]? = some token ∧
      token.startByte = offset + i * c.utf8Size := by
  induction count generalizing offset i with
  | zero => omega
  | succ count ih =>
    rw [matchesFrom_replicate_succ hword hspace]
    cases i with
    | zero => exact ⟨_, rfl, by simp⟩
    | succ i =>
      obtain ⟨token, htoken, hstart⟩ := @ih i (offset + c.utf8Size) (Nat.lt_of_succ_lt_succ hi)
      refine ⟨token, htoken, ?_⟩
      rw [hstart, Nat.succ_mul]
      omega

/-- The window of a round is there if the rounds before it do not end the text. -/
theorem windowsFrom_getElem? {fuel startToken k : Nat} (ordinal : Nat)
    (hstart : startToken + k * (options.windowTokens - options.overlapTokens) +
      options.overlapTokens < (matchesFrom isWord chars 0).length)
    (hfuel : k < fuel) :
    (windowsFrom options (matchesFrom isWord chars 0) (byteLength chars) fuel startToken
      ordinal)[k]? = some (windowAt isWord chars options
        (startToken + k * (options.windowTokens - options.overlapTokens)) (ordinal + k)) := by
  induction k generalizing fuel startToken ordinal with
  | zero =>
    obtain ⟨fuel, rfl⟩ := Nat.exists_eq_succ_of_ne_zero (Nat.ne_of_gt hfuel)
    rw [windowsFrom_succ fuel ordinal (by omega), List.getElem?_cons_zero, Nat.zero_mul]
    rfl
  | succ k ih =>
    have hsmaller := options.smaller
    obtain ⟨fuel, rfl⟩ := Nat.exists_eq_succ_of_ne_zero (Nat.ne_of_gt (Nat.zero_lt_of_lt hfuel))
    rw [Nat.succ_mul] at hstart ⊢
    rw [windowsFrom_succ fuel ordinal (by omega), List.getElem?_cons_succ, if_neg (by omega),
      ih (ordinal + 1) (by omega) (by omega)]
    congr 2 <;> omega

/-- Windows of a token each over a text of one sign: each ends where the next one begins. -/
theorem replicate_windows {c : Char} (hword : isWord c = false) (hspace : isSpace c = false)
    {count k : Nat} (hone : options.windowTokens = 1) (hk : k + 1 < count)
    (hcount : count ≤ maxSearchTokensPerDocument) :
    ∃ windows window next, createSearchWindows isWord options (List.replicate count c) =
        .ok windows ∧ windows[k]? = some window ∧ windows[k + 1]? = some next ∧
      window.endByte = (k + 1) * c.utf8Size ∧
      (k + 1) * c.utf8Size < byteLength (List.replicate count c) := by
  have hlength : (matchesFrom isWord (List.replicate count c) 0).length = count :=
    length_matchesFrom_replicate hword hspace count 0
  have hzero : options.overlapTokens = 0 := by
    have := options.smaller
    omega
  have hne : matchesFrom isWord (List.replicate count c) 0 ≠ [] := by
    intro hnil
    rw [hnil, List.length_nil] at hlength
    omega
  obtain ⟨token, htoken, hstart⟩ := matchesFrom_replicate hword hspace 0 hk
  have hbounds := matchesFrom_bounds (List.mem_of_getElem? htoken)
  rw [Nat.zero_add] at hstart hbounds
  have hround : ∀ k, k < count → (windowsFrom options (matchesFrom isWord (List.replicate count c)
      0) (byteLength (List.replicate count c)) count 0 0)[k]? =
        some (windowAt isWord (List.replicate count c) options k k) := by
    intro k hk
    rw [windowsFrom_getElem? 0 (by rw [hlength, hone, hzero]; omega) hk, hone, hzero]
    simp
  refine ⟨_, windowAt isWord (List.replicate count c) options k k,
    windowAt isWord (List.replicate count c) options (k + 1) (k + 1),
    createSearchWindows_eq options (by omega), ?_, ?_, ?_, ?_⟩
  · rw [if_neg hne, hlength]
    exact hround k (by omega)
  · rw [if_neg hne, hlength]
    exact hround (k + 1) hk
  · change edge isWord (List.replicate count c) (k + options.windowTokens) = _
    rw [hone, edge, if_neg (Nat.succ_ne_zero k), htoken]
    exact hstart
  · omega

/-- More signs than a page has windows: behind the thousandth window the store is asked for the
empty range there, and answers with the window before it. -/
theorem stored_window_differs :
    ∃ windows stored found, createSearchWindows (fun _ => false) ⟨1, 0, by decide, by decide⟩
        (List.replicate 1001 '!') = .ok windows ∧
      1000 ≤ byteLength (List.replicate 1001 '!') ∧
      findStoredWindowForByteRange windowScanPage windows 1000 1000 (windows.length + 1) =
        some stored ∧
      windowForByteRange windows 1000 1000 = .ok found ∧ stored ≠ found := by
  obtain ⟨windows, window, next, hwindows, hwindow, hnext, hend, hinside⟩ :=
    @replicate_windows (fun _ => false) ⟨1, 0, by decide, by decide⟩ '!' rfl (by decide) 1001 999
      rfl (by decide) (by decide)
  have hends : EndsPage windowScanPage windows 1000 :=
    ⟨999, window, hwindow, hend, rfl, (List.getElem?_eq_some_iff.mp hnext).1⟩
  have hlayout := createSearchWindows_layout hwindows
  obtain ⟨stored, found, hstored, hfound, hiff⟩ := @Layout.findStoredWindow_eq_iff 1000 1000 _ _
    windowScanPage hlayout (by decide) (Nat.le_refl 1000) (Nat.le_of_lt hinside) _
    (Nat.lt_succ_self _)
  exact ⟨windows, stored, found, hwindows, Nat.le_of_lt hinside, hstored, hfound,
    fun heq => hiff.mp heq ⟨rfl, hends⟩⟩

end Lookup

end ContextStore.Recall
