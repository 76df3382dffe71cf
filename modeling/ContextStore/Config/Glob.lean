import ContextStore.Foundation.Matching

/-! # Patterns for models

A pattern matches a value when every star of it can be filled in with tokens. The literals between
the stars are placed one after the other, each as far to the left as it goes, which leaves the most
room for those that follow (`scattered_cons_iff`). -/

namespace ContextStore.Config

open Matching

variable {κ β : Type} [DecidableEq κ]

/-! ## Matching -/

section Definitions

variable [DecidableEq β]

/-- The place of the first occurrence between two offsets; `none` stands for `-1`. -/
def literalPosition (candidate literal : List β) (start stop : Nat) : Option Nat :=
  (find literal (prefixTable literal) ((candidate.take stop).drop start) start 0).map
    (· - literal.length)

def tokensAt (candidate literal : List β) (start : Int) : Bool :=
  0 ≤ start && start + literal.length ≤ candidate.length &&
    (candidate.drop start.toNat).take literal.length = literal

/-- `pattern.split("*")` -/
def split (star : κ) : List κ → List (List κ)
  | [] => [[]]
  | c :: rest =>
    if c = star then [] :: split star rest
    else (split star rest).modifyHead (c :: ·)

/-- The literals behind the one that the value has to begin with, and where that one ends. -/
def takePrefix (anchoredStart : Bool) (candidate : List β) (literals : List (List β)) :
    Option (List (List β) × Nat) :=
  if anchoredStart then
    match literals with
    | [] => none
    | first :: rest => if tokensAt candidate first 0 then some (rest, first.length) else none
  else some (literals, 0)

/-- The literals before the one that the value has to end with, and where that one begins. -/
def takeSuffix (anchoredEnd : Bool) (candidate : List β) (literals : List (List β)) (start : Nat) :
    Option (List (List β) × Nat) :=
  if anchoredEnd then
    match literals.getLast? with
    | none => none
    | some last =>
      if !tokensAt candidate last (candidate.length - last.length) ||
          (candidate.length : Int) - last.length < start then none
      else some (literals.dropLast, candidate.length - last.length)
  else some (literals, candidate.length)

/-- The loop over the literals. -/
def placeAll (candidate : List β) (stop : Nat) : List (List β) → Nat → Option Nat
  | [], start => some start
  | literal :: rest, start =>
    match literalPosition candidate literal start stop with
    | none => none
    | some position => placeAll candidate stop rest (position + literal.length)

/-- The part of `globMatches` behind `literals.length === 0`. -/
def matchLiterals (anchoredStart anchoredEnd : Bool) (candidate : List β)
    (literals : List (List β)) : Bool :=
  match takePrefix anchoredStart candidate literals with
  | none => false
  | some (literals, start) =>
    match takeSuffix anchoredEnd candidate literals start with
    | none => false
    | some (literals, stop) =>
      match placeAll candidate stop literals start with
      | none => false
      | some start => start ≤ stop

def globMatches (star : κ) (caseFold : κ → β) (pattern value : List κ) : Bool :=
  let candidate := value.map caseFold
  if star ∉ pattern then pattern.map caseFold = candidate
  else
    let literals :=
      ((split star pattern).filter fun literal => literal ≠ []).map (List.map caseFold)
    if literals = [] then true
    else matchLiterals (pattern.head? ≠ some star) (pattern.getLast? ≠ some star) candidate literals

end Definitions

/-! ## What a pattern says -/

/-- The stars of the pattern can be filled in so that it gives the tokens. -/
def Fills (star : κ) (caseFold : κ → β) : List κ → List β → Prop
  | [], tokens => tokens = []
  | c :: rest, tokens =>
    if c = star then ∃ filler after, tokens = filler ++ after ∧ Fills star caseFold rest after
    else ∃ after, tokens = caseFold c :: after ∧ Fills star caseFold rest after

/-- The pieces make up the text with something between each two. -/
def Spread : List (List β) → List β → Prop
  | [], _ => False
  | [last], text => text = last
  | piece :: next :: rest, text =>
    ∃ filler after, text = piece ++ (filler ++ after) ∧ Spread (next :: rest) after

/-- The pieces occur in the text one behind the other. -/
def Scattered : List (List β) → List β → Prop
  | [], _ => True
  | piece :: rest, text =>
    ∃ filler after, text = filler ++ (piece ++ after) ∧ Scattered rest after

variable {star : κ} {caseFold : κ → β} {pattern : List κ} {text : List β}
  {pieces : List (List β)}

theorem split_ne_nil (star : κ) (pattern : List κ) : split star pattern ≠ [] := by
  induction pattern with
  | nil => exact List.cons_ne_nil _ _
  | cons c rest ih =>
    rw [split]
    split
    · exact List.cons_ne_nil _ _
    · cases hrest : split star rest with
      | nil => exact absurd hrest ih
      | cons piece more => exact List.cons_ne_nil _ _

theorem split_of_notMem (h : star ∉ pattern) : split star pattern = [pattern] := by
  induction pattern with
  | nil => rfl
  | cons c rest ih =>
    rw [List.mem_cons, not_or] at h
    rw [split, if_neg (Ne.symm h.1), ih h.2]
    rfl

/-- The pieces of a pattern with a star: there are two at least, and an outer one is empty just
where the star stands outside. -/
theorem split_of_mem (h : star ∈ pattern) : ∃ first between last,
    split star pattern = first :: (between ++ [last]) ∧
      (first = [] ↔ pattern.head? = some star) ∧ (last = [] ↔ pattern.getLast? = some star) := by
  induction pattern with
  | nil => cases h
  | cons c rest ih =>
    rw [split]
    by_cases hc : c = star
    · rw [if_pos hc]
      by_cases hrest : star ∈ rest
      · obtain ⟨first, between, last, hsplit, -, hlast⟩ := ih hrest
        refine ⟨[], first :: between, last, by rw [hsplit]; rfl, by simp [hc], ?_⟩
        rw [List.getLast?_cons_of_ne_nil (List.ne_nil_of_mem hrest)]
        exact hlast
      · refine ⟨[], [], rest, by rw [split_of_notMem hrest]; rfl, by simp [hc], ?_⟩
        cases hrest' : rest with
        | nil => simp [hc]
        | cons d more =>
          rw [hrest'] at hrest
          rw [List.getLast?_cons_of_ne_nil (List.cons_ne_nil _ _)]
          simp only [reduceCtorEq, false_iff]
          exact fun hlast => hrest (List.mem_of_getLast? hlast)
    · have hrest : star ∈ rest := (List.mem_cons.mp h).resolve_left (Ne.symm hc)
      obtain ⟨first, between, last, hsplit, -, hlast⟩ := ih hrest
      rw [if_neg hc, hsplit]
      refine ⟨c :: first, between, last, rfl, by simp [hc], ?_⟩
      rw [List.getLast?_cons_of_ne_nil (List.ne_nil_of_mem hrest)]
      exact hlast

/-! ## Pieces -/

theorem spread_cons {a : β} {piece : List β} {more : List (List β)} :
    Spread ((a :: piece) :: more) text ↔ ∃ after, text = a :: after ∧
      Spread (piece :: more) after := by
  cases more with
  | nil => simp [Spread]
  | cons next rest =>
    simp only [Spread]
    constructor
    · rintro ⟨filler, after, rfl, hafter⟩
      exact ⟨piece ++ (filler ++ after), rfl, filler, after, rfl, hafter⟩
    · rintro ⟨_, rfl, filler, after, rfl, hafter⟩
      exact ⟨filler, after, rfl, hafter⟩

theorem fills_iff_spread :
    Fills star caseFold pattern text ↔
      Spread ((split star pattern).map (List.map caseFold)) text := by
  induction pattern generalizing text with
  | nil => rfl
  | cons c rest ih =>
    rw [Fills, split]
    split
    · cases hrest : split star rest with
      | nil => exact absurd hrest (split_ne_nil star rest)
      | cons piece more =>
        simp only [List.map_cons, List.map_nil, Spread, List.nil_append]
        simp only [hrest, List.map_cons] at ih
        simp only [ih]
    · cases hrest : split star rest with
      | nil => exact absurd hrest (split_ne_nil star rest)
      | cons piece more =>
        simp only [hrest, List.map_cons] at ih
        simp only [List.modifyHead_cons, List.map_cons, spread_cons, ih]

theorem spread_iff {first last : List β} {between : List (List β)} :
    Spread (first :: (between ++ [last])) text ↔
      ∃ middle, text = first ++ (middle ++ last) ∧ Scattered between middle := by
  induction between generalizing first text with
  | nil => simp [Spread, Scattered]
  | cons piece between ih =>
    simp only [List.cons_append, Spread, ih, Scattered]
    constructor
    · rintro ⟨filler, _, rfl, middle, rfl, hmiddle⟩
      exact ⟨filler ++ (piece ++ middle), by simp, filler, middle, rfl, hmiddle⟩
    · rintro ⟨_, rfl, filler, middle, rfl, hmiddle⟩
      exact ⟨filler, piece ++ (middle ++ last), by simp, middle, rfl, hmiddle⟩

theorem Scattered.of_suffix {shorter : List β} (h : Scattered pieces shorter)
    (hsuffix : shorter <:+ text) : Scattered pieces text := by
  cases pieces with
  | nil => trivial
  | cons piece rest =>
    obtain ⟨before, rfl⟩ := hsuffix
    obtain ⟨filler, after, rfl, hafter⟩ := h
    exact ⟨before ++ filler, after, by simp, hafter⟩

/-- Empty pieces occur anywhere. -/
theorem scattered_filter [DecidableEq β] :
    Scattered (pieces.filter fun piece => piece ≠ []) text ↔ Scattered pieces text := by
  induction pieces generalizing text with
  | nil => rfl
  | cons piece rest ih =>
    by_cases hempty : piece = []
    · subst hempty
      rw [List.filter_cons_of_neg (by simp), ih]
      constructor
      · exact fun h => ⟨[], text, rfl, h⟩
      · rintro ⟨filler, after, rfl, hafter⟩
        exact hafter.of_suffix ⟨filler, by simp⟩
    · rw [List.filter_cons_of_pos (by simpa using hempty)]
      simp only [Scattered, ih]

/-- A piece may be placed as far to the left as it goes. -/
theorem scattered_cons_iff {piece : List β} {rest : List (List β)} :
    Scattered (piece :: rest) text ↔
      ∃ p, Leftmost piece text p ∧ Scattered rest (text.drop (p + piece.length)) := by
  constructor
  · rintro ⟨filler, after, rfl, hafter⟩
    have hoccurs : piece <+: (filler ++ (piece ++ after)).drop filler.length := by
      rw [List.drop_left]
      exact List.prefix_append _ _
    obtain ⟨p, hp, hleftmost⟩ := exists_leftmost hoccurs
    refine ⟨p, hleftmost, hafter.of_suffix ?_⟩
    have hdrop : after = (filler ++ (piece ++ after)).drop (filler.length + piece.length) := by
      rw [← List.append_assoc, ← List.length_append, List.drop_left]
    have hstep : filler.length + piece.length =
        p + piece.length + (filler.length - p) := by omega
    rw [hstep, ← List.drop_drop] at hdrop
    have hsuffix := List.drop_suffix (filler.length - p)
      ((filler ++ (piece ++ after)).drop (p + piece.length))
    rwa [← hdrop] at hsuffix
  · rintro ⟨p, ⟨⟨after, hafter⟩, -⟩, hrest⟩
    have hdrop : text.drop (p + piece.length) = after := by
      rw [← List.drop_drop, ← hafter, List.drop_left]
    rw [hdrop] at hrest
    refine ⟨text.take p, after, ?_, hrest⟩
    rw [hafter, List.take_append_drop]

/-! ## Placing literals -/

section Placing

variable [DecidableEq β] {candidate literal : List β} {start stop : Nat}

/-- The literal occurs at the position, inside of the two offsets. -/
def Inside (candidate literal : List β) (start stop position : Nat) : Prop :=
  literal <+: candidate.drop position ∧ start ≤ position ∧ position + literal.length ≤ stop

omit [DecidableEq β] in
theorem inside_iff (hne : literal ≠ []) {p : Nat} :
    literal <+: ((candidate.take stop).drop start).drop p ↔
      Inside candidate literal start stop (start + p) := by
  have hpos := List.length_pos_iff.mpr hne
  rw [List.drop_drop, List.drop_take, Inside, List.prefix_take_iff]
  constructor
  · rintro ⟨hoccurs, hlength⟩
    exact ⟨hoccurs, by omega, by omega⟩
  · rintro ⟨hoccurs, -, hlength⟩
    exact ⟨hoccurs, by omega⟩

theorem literalPosition_cases (hne : literal ≠ []) (candidate : List β) (start stop : Nat) :
    (literalPosition candidate literal start stop = none ∧
      ∀ p, ¬ literal <+: ((candidate.take stop).drop start).drop p) ∨
    ∃ p, literalPosition candidate literal start stop = some (start + p) ∧
      Leftmost literal ((candidate.take stop).drop start) p := by
  rw [literalPosition]
  rcases find_prefixTable hne ((candidate.take stop).drop start) start with
    ⟨hnone, hall⟩ | ⟨p, hsome, hleftmost⟩
  · exact .inl ⟨by rw [hnone]; rfl, hall⟩
  · refine .inr ⟨p, ?_, hleftmost⟩
    rw [hsome, Option.map_some, Nat.add_sub_cancel]

/-- The place that is found is the first one inside of the offsets, and none is found only where
there is none. -/
theorem literalPosition_spec (hne : literal ≠ []) (candidate : List β) (start stop : Nat) :
    (∀ position, literalPosition candidate literal start stop = some position ↔
      Inside candidate literal start stop position ∧
        ∀ other, Inside candidate literal start stop other → position ≤ other) ∧
    (literalPosition candidate literal start stop = none ↔
      ∀ position, ¬ Inside candidate literal start stop position) := by
  rcases literalPosition_cases hne candidate start stop with
    ⟨hnone, hall⟩ | ⟨p, hsome, hoccurs, hfirst⟩
  · have hno : ∀ position, ¬ Inside candidate literal start stop position := by
      intro position hinside
      obtain ⟨p, rfl⟩ := Nat.exists_eq_add_of_le hinside.2.1
      exact hall p ((inside_iff hne).mpr hinside)
    rw [hnone]
    refine ⟨fun position => ⟨?_, fun h => absurd h.1 (hno position)⟩, fun _ => hno, fun _ => rfl⟩
    intro h
    cases h
  · have hinside := (inside_iff hne).mp hoccurs
    have hleast : ∀ other, Inside candidate literal start stop other → start + p ≤ other := by
      intro other hother
      obtain ⟨q, rfl⟩ := Nat.exists_eq_add_of_le hother.2.1
      by_cases hlt : q < p
      · exact absurd ((inside_iff hne).mpr hother) (hfirst q hlt)
      · omega
    rw [hsome]
    refine ⟨fun position => ⟨fun h => ?_, fun h => ?_⟩, fun h => ?_, fun h => ?_⟩
    · cases h
      exact ⟨hinside, hleast⟩
    · have hle := hleast position h.1
      have hge := h.2 _ hinside
      exact congrArg some (by omega)
    · cases h
    · exact absurd hinside (h _)

/-- The literals can be placed between the offsets just where they occur there one behind the
other. -/
theorem placeAll_iff {literals : List (List β)} (hne : ∀ literal ∈ literals, literal ≠ [])
    (hstart : start ≤ stop) :
    (∃ last, placeAll candidate stop literals start = some last ∧ last ≤ stop) ↔
      Scattered literals ((candidate.take stop).drop start) := by
  induction literals generalizing start with
  | nil => simp [placeAll, Scattered, hstart]
  | cons literal rest ih =>
    have hliteral := hne literal List.mem_cons_self
    rw [scattered_cons_iff, placeAll]
    rcases literalPosition_cases hliteral candidate start stop with
      ⟨hnone, hall⟩ | ⟨p, hsome, hleftmost⟩
    · rw [hnone]
      constructor
      · rintro ⟨last, hlast, -⟩
        cases hlast
      · rintro ⟨p, hp, -⟩
        exact absurd hp.1 (hall p)
    · obtain ⟨-, -, hend⟩ := (inside_iff hliteral).mp hleftmost.1
      have hnext := @ih (start + p + literal.length)
        (fun other hother => hne other (List.mem_cons_of_mem _ hother)) hend
      have hdrop : ((candidate.take stop).drop start).drop (p + literal.length) =
          (candidate.take stop).drop (start + p + literal.length) := by
        rw [List.drop_drop, Nat.add_assoc]
      rw [hsome]
      dsimp only
      rw [hnext, ← hdrop]
      constructor
      · exact fun h => ⟨p, hleftmost, h⟩
      · rintro ⟨q, hq, h⟩
        rwa [hq.unique hleftmost] at h

theorem tokensAt_zero : tokensAt candidate literal 0 = true ↔ literal <+: candidate := by
  rw [List.prefix_iff_eq_take]
  simp only [tokensAt, Bool.and_eq_true, decide_eq_true_eq, Int.toNat_zero, List.drop_zero]
  constructor
  · rintro ⟨-, h⟩
    exact h.symm
  · intro h
    have hlength := congrArg List.length h
    rw [List.length_take] at hlength
    exact ⟨⟨by omega, by omega⟩, h.symm⟩

theorem tokensAt_end :
    tokensAt candidate literal (candidate.length - literal.length) = true ↔
      literal <:+ candidate := by
  rw [List.suffix_iff_eq_drop]
  simp only [tokensAt, Bool.and_eq_true, decide_eq_true_eq]
  constructor
  · rintro ⟨⟨hle, -⟩, h⟩
    have hstart : ((candidate.length : Int) - literal.length).toNat =
        candidate.length - literal.length := by omega
    have hlength : (candidate.drop (candidate.length - literal.length)).length =
        literal.length := by
      rw [List.length_drop]
      omega
    rw [hstart, List.take_of_length_le (Nat.le_of_eq hlength)] at h
    exact h.symm
  · intro h
    have hlength := congrArg List.length h
    rw [List.length_drop] at hlength
    have hstart : ((candidate.length : Int) - literal.length).toNat =
        candidate.length - literal.length := by omega
    refine ⟨⟨by omega, by omega⟩, ?_⟩
    rw [hstart, ← h, List.take_length]

omit [DecidableEq β] in
/-- The value between its beginning and its end. -/
theorem exists_middle_iff {first last : List β} {p : List β → Prop} :
    (∃ middle, candidate = first ++ (middle ++ last) ∧ p middle) ↔
      first <+: candidate ∧ last <:+ candidate ∧ first.length ≤ candidate.length - last.length ∧
        last.length ≤ candidate.length ∧
        p ((candidate.take (candidate.length - last.length)).drop first.length) := by
  constructor
  · rintro ⟨middle, rfl, hmiddle⟩
    have htake : (first ++ (middle ++ last)).take
        ((first ++ (middle ++ last)).length - last.length) = first ++ middle := by
      rw [← List.append_assoc]
      refine List.take_left' ?_
      simp only [List.length_append]
      omega
    rw [htake, List.drop_left]
    refine ⟨List.prefix_append _ _, ⟨first ++ middle, by simp⟩, ?_, ?_, hmiddle⟩
    · simp only [List.length_append]
      omega
    · simp only [List.length_append]
      omega
  · rintro ⟨hfirst, hlast, hroom, hle, hmiddle⟩
    refine ⟨_, ?_, hmiddle⟩
    have hbefore : first <+: candidate.take (candidate.length - last.length) := by
      rw [List.prefix_take_iff]
      exact ⟨hfirst, hroom⟩
    calc candidate = candidate.take (candidate.length - last.length) ++
          candidate.drop (candidate.length - last.length) := (List.take_append_drop _ _).symm
      _ = first ++ (candidate.take (candidate.length - last.length)).drop first.length ++ last := by
          rw [← List.suffix_iff_eq_drop.mp hlast, ← List.prefix_iff_eq_append.mp hbefore,
            List.drop_left]
      _ = _ := List.append_assoc _ _ _

end Placing

/-! ## Matching is filling in -/

section Main

variable [DecidableEq β] {candidate : List β}

/-- A piece as the literals hold it, which leave it out where it is empty. -/
def literalOf (piece : List β) : List (List β) := if piece = [] then [] else [piece]

omit [DecidableEq β] in
theorem literalOf_eq_nil {piece : List β} : literalOf piece = [] ↔ piece = [] := by
  simp [literalOf]

theorem takePrefix_eq (candidate first : List β) (more : List (List β)) :
    takePrefix (decide (first ≠ [])) candidate (literalOf first ++ more) =
      if first <+: candidate then some (more, first.length) else none := by
  by_cases hempty : first = []
  · simp [takePrefix, literalOf, hempty]
  · simp [takePrefix, literalOf, hempty, tokensAt_zero]

theorem takeSuffix_eq (last : List β) (more : List (List β)) {start : Nat}
    (hstart : start ≤ candidate.length) :
    takeSuffix (decide (last ≠ [])) candidate (more ++ literalOf last) start =
      if last <:+ candidate ∧ start ≤ candidate.length - last.length ∧
          last.length ≤ candidate.length then
        some (more, candidate.length - last.length)
      else none := by
  by_cases hempty : last = []
  · simp [takeSuffix, literalOf, hempty, hstart]
  · have hlast : (more ++ [last]).getLast? = some last := List.getLast?_concat
    have hcond : (!tokensAt candidate last (candidate.length - last.length) ||
        decide ((candidate.length : Int) - last.length < start)) = true ↔
        ¬ (last <:+ candidate ∧ start ≤ candidate.length - last.length ∧
          last.length ≤ candidate.length) := by
      rw [Bool.or_eq_true, Bool.not_eq_true', ← Bool.not_eq_true, tokensAt_end, decide_eq_true_eq]
      constructor
      · rintro hor ⟨hsuffix, hroom, hle⟩
        rcases hor with hor | hor
        · exact hor hsuffix
        · omega
      · intro hnot
        by_cases hsuffix : last <:+ candidate
        · have := hsuffix.length_le
          exact .inr (Int.lt_of_not_ge fun hge => hnot ⟨hsuffix, by omega, this⟩)
        · exact .inl hsuffix
    rw [takeSuffix, literalOf, if_neg hempty, if_pos (decide_eq_true hempty), hlast]
    dsimp only
    by_cases hgood : last <:+ candidate ∧ start ≤ candidate.length - last.length ∧
        last.length ≤ candidate.length
    · rw [if_neg (mt hcond.mp (not_not_intro hgood)), if_pos hgood, List.dropLast_concat]
    · rw [if_pos (hcond.mpr hgood), if_neg hgood]

theorem matchLiterals_iff (first last : List β) {between : List (List β)}
    (hne : ∀ literal ∈ between, literal ≠ []) :
    matchLiterals (decide (first ≠ [])) (decide (last ≠ [])) candidate
        (literalOf first ++ (between ++ literalOf last)) = true ↔
      ∃ middle, candidate = first ++ (middle ++ last) ∧ Scattered between middle := by
  rw [exists_middle_iff, matchLiterals, takePrefix_eq]
  by_cases hfirst : first <+: candidate
  · rw [if_pos hfirst]
    dsimp only
    rw [takeSuffix_eq last between hfirst.length_le]
    by_cases hlast : last <:+ candidate ∧ first.length ≤ candidate.length - last.length ∧
        last.length ≤ candidate.length
    · rw [if_pos hlast, ← placeAll_iff hne hlast.2.1]
      dsimp only
      cases hplaced : placeAll candidate (candidate.length - last.length) between first.length with
      | none => simp
      | some start => simp [hfirst, hlast]
    · rw [if_neg hlast]
      simp only [Bool.false_eq_true, false_iff]
      rintro ⟨-, hsuffix, hroom, hle, -⟩
      exact hlast ⟨hsuffix, hroom, hle⟩
  · rw [if_neg hfirst]
    simp [hfirst]

omit [DecidableEq κ] [DecidableEq β] in
theorem map_filter_ne_nil (caseFold : κ → β) (pieces : List (List κ)) :
    (pieces.filter fun piece => piece ≠ []).map (List.map caseFold) =
      (pieces.map (List.map caseFold)).filter fun piece => piece ≠ [] := by
  rw [List.filter_map]
  refine congrArg _ (List.filter_congr fun piece _ => ?_)
  simp

omit [DecidableEq β] in
theorem filter_ends (first last : List β) (between : List (List β)) :
    (first :: (between ++ [last])).filter (fun piece => piece ≠ []) =
      literalOf first ++ (between.filter (fun piece => piece ≠ []) ++ literalOf last) := by
  have hsingle : ∀ piece : List β, [piece].filter (fun piece => piece ≠ []) = literalOf piece := by
    intro piece
    by_cases hempty : piece = []
    · simp [literalOf, hempty]
    · simp [literalOf, hempty]
  rw [← List.singleton_append, List.filter_append, List.filter_append, hsingle, hsingle]

/-- A pattern matches just where its stars can be filled in. A literal is found at its first
occurrence between the offsets, and is not found only where it does not occur there. -/
theorem globMatches_iff (star : κ) (caseFold : κ → β) :
    (∀ pattern value, globMatches star caseFold pattern value = true ↔
      Fills star caseFold pattern (value.map caseFold)) ∧
    ∀ (candidate : List β) first rest start stop,
      (∀ position, literalPosition candidate (first :: rest) start stop = some position ↔
        Inside candidate (first :: rest) start stop position ∧
          ∀ other, Inside candidate (first :: rest) start stop other → position ≤ other) ∧
      (literalPosition candidate (first :: rest) start stop = none ↔
        ∀ position, ¬ Inside candidate (first :: rest) start stop position) := by
  refine ⟨fun pattern value => ?_, fun candidate first rest start stop =>
    literalPosition_spec (List.cons_ne_nil first rest) candidate start stop⟩
  rw [fills_iff_spread]
  by_cases hstar : star ∈ pattern
  · obtain ⟨first, between, last, hsplit, hfirst, hlast⟩ := split_of_mem hstar
    have hbegins : decide (pattern.head? ≠ some star) = decide (first.map caseFold ≠ []) := by
      simp [← hfirst]
    have hends : decide (pattern.getLast? ≠ some star) = decide (last.map caseFold ≠ []) := by
      simp [← hlast]
    have hliterals : ((split star pattern).filter fun literal => literal ≠ []).map
        (List.map caseFold) = literalOf (first.map caseFold) ++
          ((between.map (List.map caseFold)).filter (fun piece => piece ≠ []) ++
            literalOf (last.map caseFold)) := by
      rw [map_filter_ne_nil, hsplit, List.map_cons, List.map_append, List.map_singleton,
        filter_ends]
    have hspread : Spread ((split star pattern).map (List.map caseFold)) (value.map caseFold) ↔
        ∃ middle, value.map caseFold =
          first.map caseFold ++ (middle ++ last.map caseFold) ∧
            Scattered ((between.map (List.map caseFold)).filter fun piece => piece ≠ [])
              middle := by
      simp only [hsplit, List.map_cons, List.map_append, List.map_nil, spread_iff, scattered_filter]
    rw [globMatches, if_neg (not_not_intro hstar), hspread]
    dsimp only
    rw [hliterals, hbegins, hends]
    split
    · next hnone =>
      -- Nothing but stars: the value is what one of them is filled in with.
      obtain ⟨hfirst', hbetween, hlast'⟩ : literalOf (first.map caseFold) = [] ∧
          (between.map (List.map caseFold)).filter (fun piece => piece ≠ []) = [] ∧
          literalOf (last.map caseFold) = [] := by
        rw [List.append_eq_nil_iff, List.append_eq_nil_iff] at hnone
        exact hnone
      rw [hbetween, literalOf_eq_nil.mp hfirst', literalOf_eq_nil.mp hlast']
      exact ⟨fun _ => ⟨value.map caseFold, by simp, trivial⟩, fun _ => rfl⟩
    · exact matchLiterals_iff _ _ (by simp)
  · rw [globMatches, if_pos hstar, split_of_notMem hstar]
    simp [Spread, eq_comm]

-- The two anchors may not overlap on the value.
example : globMatches '*' id "ab*ba".toList "aba".toList = false ∧
    globMatches '*' id "ab*ba".toList "abba".toList = true := by decide

end Main

end ContextStore.Config
