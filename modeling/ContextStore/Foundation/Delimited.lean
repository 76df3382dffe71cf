import Mathlib.Data.List.TakeWhile
import Mathlib.Algebra.Order.Ring.Nat

/-! # Streams cut at a delimiter

A stream of frames ended by a delimiter arrives in chunks. `cut` is what a reader makes of one
chunk behind the rest that the chunks before have left: the frames finished by it and the new rest.
Cutting chunk after chunk is cutting the stream (`cut_append`), and the frames and the rest are the
only delimiter-free pieces the stream is made of (`cut_join`, `delimiter_notMem_cut`). -/

namespace Delimited

variable {α : Type} [DecidableEq α] (delimiter : α)

def cut : List α → List α → List (List α) × List α
  | rest, [] => ([], rest)
  | rest, a :: stream =>
    if a = delimiter then (rest :: (cut [] stream).1, (cut [] stream).2)
    else cut (rest ++ [a]) stream

def frames (stream : List α) : List (List α) := (cut delimiter [] stream).1

/-- What stands behind the last delimiter. -/
def tail (stream : List α) : List α := (cut delimiter [] stream).2

@[simp]
theorem cut_nil (rest : List α) : cut delimiter rest [] = ([], rest) := rfl

@[simp]
theorem cut_delimiter (rest stream : List α) :
    cut delimiter rest (delimiter :: stream) =
      (rest :: (cut delimiter [] stream).1, (cut delimiter [] stream).2) := by
  simp [cut]

variable {delimiter}

theorem cut_cons_of_ne {a : α} (ha : a ≠ delimiter) (rest stream : List α) :
    cut delimiter rest (a :: stream) = cut delimiter (rest ++ [a]) stream := by
  simp [cut, ha]

theorem cut_of_notMem {stream : List α} (h : delimiter ∉ stream) (rest : List α) :
    cut delimiter rest stream = ([], rest ++ stream) := by
  induction stream generalizing rest with
  | nil => simp
  | cons a stream ih =>
    rw [List.mem_cons, not_or] at h
    rw [cut_cons_of_ne (Ne.symm h.1), ih h.2, List.append_assoc, List.singleton_append]

/-! ## One chunk after the other -/

theorem cut_append (rest s t : List α) :
    cut delimiter rest (s ++ t) =
      ((cut delimiter rest s).1 ++ (cut delimiter (cut delimiter rest s).2 t).1,
        (cut delimiter (cut delimiter rest s).2 t).2) := by
  induction s generalizing rest with
  | nil => simp
  | cons a s ih =>
    by_cases ha : a = delimiter
    · subst ha
      simp [ih]
    · simp only [List.cons_append, cut_cons_of_ne ha, ih]

theorem frames_append (s t : List α) :
    frames delimiter (s ++ t) = frames delimiter s ++ (cut delimiter (tail delimiter s) t).1 := by
  simp [frames, tail, cut_append]

theorem tail_append (s t : List α) :
    tail delimiter (s ++ t) = (cut delimiter (tail delimiter s) t).2 := by
  simp [tail, cut_append]

/-- A stream's tail is all that stands behind its last delimiter. -/
theorem tail_append_delimiter {t : List α} (h : delimiter ∉ t) (s : List α) :
    tail delimiter (s ++ delimiter :: t) = t := by
  rw [tail_append, cut_delimiter, cut_of_notMem h, List.nil_append]

theorem cut_join (rest stream : List α) :
    (cut delimiter rest stream).1.flatMap (· ++ [delimiter]) ++ (cut delimiter rest stream).2 =
      rest ++ stream := by
  induction stream generalizing rest with
  | nil => simp
  | cons a stream ih =>
    by_cases ha : a = delimiter
    · subst ha
      simp [ih]
    · simp [cut_cons_of_ne ha, ih]

variable (delimiter) in
/-- Every element is in a frame or in the rest, or it is a delimiter that ended a frame. -/
theorem sum_length_cut (rest stream : List α) :
    ((cut delimiter rest stream).1.map List.length).sum + (cut delimiter rest stream).1.length +
      (cut delimiter rest stream).2.length = rest.length + stream.length := by
  induction stream generalizing rest with
  | nil => simp
  | cons a stream ih =>
    by_cases ha : a = delimiter
    · subst ha
      have h := ih []
      simp only [cut_delimiter, List.map_cons, List.sum_cons, List.length_cons,
        List.length_nil] at h ⊢
      omega
    · have h := ih (rest ++ [a])
      simp only [List.length_append, List.length_cons, List.length_nil] at h
      simp only [cut_cons_of_ne ha, List.length_cons]
      omega

/-! ## A limit on the frames -/

variable (delimiter)

/-- No frame is longer than the limit, nor is the rest, which belongs to one frame as well. -/
def Within (limit : Nat) (pieces : List (List α) × List α) : Prop :=
  (∀ frame ∈ pieces.1, frame.length ≤ limit) ∧ pieces.2.length ≤ limit

instance (limit : Nat) (pieces : List (List α) × List α) : Decidable (Within limit pieces) :=
  inferInstanceAs (Decidable (_ ∧ _))

def Fits (limit : Nat) (stream : List α) : Prop := Within limit (cut delimiter [] stream)

instance (limit : Nat) (stream : List α) : Decidable (Fits delimiter limit stream) :=
  inferInstanceAs (Decidable (Within _ _))

/-- The frames before the first one that is too long. -/
def framesWithin (limit : Nat) (stream : List α) : List (List α) :=
  (frames delimiter stream).takeWhile (·.length ≤ limit)

variable {delimiter} {limit : Nat}

/-- What was left before a chunk is the beginning of the first piece cut from it. -/
theorem length_le_of_within {rest stream : List α} (h : Within limit (cut delimiter rest stream)) :
    rest.length ≤ limit := by
  induction stream generalizing rest with
  | nil => exact h.2
  | cons a stream ih =>
    by_cases ha : a = delimiter
    · subst ha
      rw [cut_delimiter] at h
      exact h.1 rest List.mem_cons_self
    · rw [cut_cons_of_ne ha] at h
      have := ih h
      rw [List.length_append] at this
      omega

theorem within_append (rest s t : List α) :
    Within limit (cut delimiter rest (s ++ t)) ↔ Within limit (cut delimiter rest s) ∧
        Within limit (cut delimiter (cut delimiter rest s).2 t) := by
  rw [cut_append]
  constructor
  · intro h
    have hafter : Within limit (cut delimiter (cut delimiter rest s).2 t) :=
      ⟨fun frame hframe => h.1 frame (List.mem_append_right _ hframe), h.2⟩
    exact ⟨⟨fun frame hframe => h.1 frame (List.mem_append_left _ hframe),
      length_le_of_within hafter⟩, hafter⟩
  · intro h
    refine ⟨fun frame hframe => ?_, h.2.2⟩
    rcases List.mem_append.mp hframe with hbefore | hafter
    · exact h.1.1 frame hbefore
    · exact h.2.1 frame hafter

theorem fits_append (s t : List α) :
    Fits delimiter limit (s ++ t) ↔
      Fits delimiter limit s ∧ Within limit (cut delimiter (tail delimiter s) t) :=
  within_append [] s t

theorem framesWithin_of_fits {stream : List α} (h : Fits delimiter limit stream) :
    framesWithin delimiter limit stream = frames delimiter stream := by
  refine List.takeWhile_eq_self_iff.mpr fun frame hframe => ?_
  simpa using h.1 frame hframe

theorem framesWithin_append {s : List α} (h : Fits delimiter limit s) (t : List α) :
    framesWithin delimiter limit (s ++ t) =
      frames delimiter s ++
        (cut delimiter (tail delimiter s) t).1.takeWhile (·.length ≤ limit) := by
  rw [framesWithin, frames_append, List.takeWhile_append_of_pos]
  intro frame hframe
  simpa using h.1 frame hframe

/-- Cutting a stream that does not fit finishes no frame within the limit exactly when no delimiter
of it ends one. -/
theorem takeWhile_cut_eq_nil_iff (rest stream : List α)
    (h : ¬ Within limit (cut delimiter rest stream)) :
    (cut delimiter rest stream).1.takeWhile (·.length ≤ limit) = [] ↔
      ¬ ∃ a b, stream = a ++ delimiter :: b ∧ Within limit (cut delimiter rest a) := by
  induction stream generalizing rest with
  | nil => simp
  | cons x stream ih =>
    by_cases hx : x = delimiter
    · subst hx
      rw [cut_delimiter, List.takeWhile_cons]
      by_cases hrest : rest.length ≤ limit
      · -- the delimiter ends the rest, which fits
        have hends : ∃ a b, x :: stream = a ++ x :: b ∧ Within limit (cut x rest a) :=
          ⟨[], stream, rfl, by simpa [Within] using hrest⟩
        simp only [hrest, decide_true, if_true, hends, not_true, reduceCtorEq]
      · have hnone : ¬ ∃ a b, x :: stream = a ++ x :: b ∧ Within limit (cut x rest a) := by
          rintro ⟨a, b, -, ha⟩
          exact hrest (length_le_of_within ha)
        simp only [hrest, decide_false, Bool.false_eq_true, if_false, hnone, not_false_iff]
    · rw [cut_cons_of_ne hx] at h ⊢
      rw [ih (rest ++ [x]) h, not_iff_not]
      constructor
      · rintro ⟨a, b, hab, ha⟩
        exact ⟨x :: a, b, by rw [hab]; rfl, by rwa [cut_cons_of_ne hx]⟩
      · rintro ⟨a, b, hab, ha⟩
        cases a with
        | nil => exact absurd (List.cons.inj hab).1 hx
        | cons y a =>
          obtain ⟨rfl, htail⟩ := List.cons.inj hab
          exact ⟨a, b, htail, by rwa [cut_cons_of_ne hx] at ha⟩

/-- What comes behind a stream that does not fit adds no frame within the limit. -/
theorem takeWhile_cut_append (rest s t : List α) (h : ¬ Within limit (cut delimiter rest s)) :
    (cut delimiter rest (s ++ t)).1.takeWhile (·.length ≤ limit) =
      (cut delimiter rest s).1.takeWhile (·.length ≤ limit) := by
  rw [cut_append]
  by_cases hframes : ∀ frame ∈ (cut delimiter rest s).1, frame.length ≤ limit
  · -- then what is left is too long, and so is the frame it begins
    have hlong : ∀ stream, ¬ Within limit (cut delimiter (cut delimiter rest s).2 stream) :=
      fun stream hwithin => h ⟨hframes, length_le_of_within hwithin⟩
    have hnone := (takeWhile_cut_eq_nil_iff _ t (hlong t)).mpr fun hends => by
      obtain ⟨a, b, -, ha⟩ := hends
      exact hlong a ha
    rw [List.takeWhile_append_of_pos (by simpa using hframes), hnone, List.append_nil,
      List.takeWhile_eq_self_iff.mpr (by simpa using hframes)]
  · rw [List.takeWhile_append, if_neg]
    intro hall
    have heq := List.IsPrefix.eq_of_length (List.takeWhile_prefix _) hall
    exact hframes (by simpa using List.takeWhile_eq_self_iff.mp heq)

/-- The piece with which a stream stops to fit is the only one. -/
theorem overflow_unique {before after before' after' : List (List α)} {piece piece' : List α}
    (heq : before ++ piece :: after = before' ++ piece' :: after')
    (hfits : Fits delimiter limit before.flatten)
    (hnot : ¬ Fits delimiter limit (before.flatten ++ piece))
    (hfits' : Fits delimiter limit before'.flatten)
    (hnot' : ¬ Fits delimiter limit (before'.flatten ++ piece')) :
    before = before' ∧ piece = piece' := by
  rcases List.append_eq_append_iff.mp heq with ⟨more, hbefore, hpieces⟩ | ⟨more, hbefore, hpieces⟩
  · cases more with
    | nil => exact ⟨by simpa using hbefore.symm, (List.cons.inj hpieces).1⟩
    | cons first more =>
      obtain ⟨rfl, -⟩ := List.cons.inj hpieces
      rw [hbefore, List.flatten_append, List.flatten_cons, ← List.append_assoc,
        fits_append] at hfits'
      exact absurd hfits'.1 hnot
  · cases more with
    | nil => exact ⟨by simpa using hbefore, (List.cons.inj hpieces).1.symm⟩
    | cons first more =>
      obtain ⟨rfl, -⟩ := List.cons.inj hpieces
      rw [hbefore, List.flatten_append, List.flatten_cons, ← List.append_assoc,
        fits_append] at hfits
      exact absurd hfits.1 hnot'

end Delimited
