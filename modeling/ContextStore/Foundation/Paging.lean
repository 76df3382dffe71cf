import Mathlib.Order.Lattice

/-! # Reading in pages

A caller that cannot hold a whole range asks for one page after the other, each from behind the last
key it has seen. Over an ascending list that does not change meanwhile, the pages add up to the
list, whatever their size (`readPages_eq`). -/

namespace Paging

variable {α κ : Type} [LinearOrder κ] (key : α → κ)

/-- At most `size` elements behind `after`. -/
def pageAfter (all : List α) (size : Nat) (after : Option κ) : List α :=
  (all.filter fun a => after.all (· < key a)).take size

/-- Read pages up to the first that the caller takes for the last one. -/
def readPages (page : Option κ → List α) (isLast : List α → Bool) : Nat → Option κ → List α
  | 0, _ => []
  | fuel + 1, after =>
    if isLast (page after) then page after
    else page after ++ readPages page isLast fuel ((page after).getLast?.map key)

variable {key} {all : List α} {size : Nat} {isLast : List α → Bool}

/-- Behind the last element of a part of the rest comes the other part. -/
theorem filter_behind (hall : all.Pairwise fun a b => key a < key b) {after : Option κ}
    {pre post : List α} {a : α}
    (hrest : all.filter (fun b => after.all (· < key b)) = pre ++ a :: post) :
    all.filter (fun b => (some (key a)).all (· < key b)) = post := by
  have hsorted : (pre ++ a :: post).Pairwise fun a b => key a < key b :=
    hrest ▸ hall.sublist List.filter_sublist
  obtain ⟨-, htail, hpre⟩ := List.pairwise_append.mp hsorted
  obtain ⟨hpost, -⟩ := List.pairwise_cons.mp htail
  have hbehind : ∀ b, after.all (· < key b) = true → ∀ c, key b < key c →
      after.all (· < key c) = true := by
    intro b hb c hbc
    cases after with
    | none => rfl
    | some k =>
      simp only [Option.all_some, decide_eq_true_eq] at hb ⊢
      exact lt_trans hb hbc
  have ha : after.all (· < key a) = true := by
    have : a ∈ all.filter (fun b => after.all (· < key b)) := by
      rw [hrest]
      exact List.mem_append_right _ List.mem_cons_self
    exact (List.mem_filter.mp this).2
  have htwice : all.filter (fun b => (some (key a)).all (· < key b)) =
      (all.filter (fun b => after.all (· < key b))).filter
        (fun b => (some (key a)).all (· < key b)) := by
    rw [List.filter_filter]
    refine List.filter_congr fun b _ => ?_
    by_cases hb : key a < key b
    · simp [hb, hbehind a ha b hb]
    · simp [hb]
  rw [htwice, hrest, List.filter_append, List.filter_cons]
  have hnone : pre.filter (fun b => (some (key a)).all (· < key b)) = [] :=
    List.filter_eq_nil_iff.mpr fun b hb => by
      simpa using le_of_lt (hpre b hb a List.mem_cons_self)
  have hevery : post.filter (fun b => (some (key a)).all (· < key b)) = post :=
    List.filter_eq_self.mpr fun b hb => by simpa using hpost b hb
  rw [hnone, hevery]
  simp

/-- The pages from `after` on add up to the rest of the list. -/
theorem readPages_eq_filter (hall : all.Pairwise fun a b => key a < key b) (hsize : 0 < size)
    (hlast : ∀ page, isLast page = true → page.length < size) (hnil : isLast [] = true)
    (fuel : Nat) (after : Option κ)
    (hfuel : (all.filter fun a => after.all (· < key a)).length < fuel) :
    readPages key (pageAfter key all size) isLast fuel after =
      all.filter fun a => after.all (· < key a) := by
  induction fuel generalizing after with
  | zero => exact absurd hfuel (Nat.not_lt_zero _)
  | succ fuel ih =>
    unfold readPages
    generalize hpage : pageAfter key all size after = page
    generalize hrest : all.filter (fun a => after.all (· < key a)) = rest at hfuel ⊢
    have htake : page = rest.take size := by rw [← hpage, pageAfter, hrest]
    split
    · next h =>
      have hlen := hlast page h
      rw [htake, List.length_take] at hlen
      rw [htake, List.take_of_length_le (by omega)]
    · next h =>
      have hne : page ≠ [] := by
        rintro rfl
        exact h hnil
      have hsplit : rest = page.dropLast ++ page.getLast hne :: rest.drop size := by
        calc rest = rest.take size ++ rest.drop size := (List.take_append_drop _ _).symm
          _ = page ++ rest.drop size := by rw [htake]
          _ = (page.dropLast ++ [page.getLast hne]) ++ rest.drop size := by
              rw [List.dropLast_concat_getLast hne]
          _ = page.dropLast ++ page.getLast hne :: rest.drop size := by simp
      have hbehind := filter_behind hall (hrest.trans hsplit)
      have hlen : (rest.drop size).length < fuel := by
        have hpos := List.length_pos_iff.mpr hne
        rw [htake, List.length_take] at hpos
        rw [List.length_drop]
        omega
      rw [List.getLast?_eq_some_getLast hne, Option.map_some,
        ih (some (key (page.getLast hne))) (by rw [hbehind]; exact hlen), hbehind, htake]
      exact List.take_append_drop _ _

/-- Reading from the start in pages of any size gives the whole list. -/
theorem readPages_eq (hall : all.Pairwise fun a b => key a < key b) (hsize : 0 < size)
    (hlast : ∀ page, isLast page = true → page.length < size) (hnil : isLast [] = true)
    {fuel : Nat} (hfuel : all.length < fuel) :
    readPages key (pageAfter key all size) isLast fuel none = all := by
  have hevery : all.filter (fun a => (none : Option κ).all (· < key a)) = all := by simp
  have h := readPages_eq_filter hall hsize hlast hnil fuel none (by rw [hevery]; exact hfuel)
  rwa [hevery] at h

end Paging
