import Mathlib.Tactic.Linarith

/-! # Bisection

A binary search for the greatest number below a bound that passes a test. It is right for a test
that, once it fails, fails for all greater numbers; for any other test what matters is only the
numbers that it happens to try on the way to the greatest one (`bisect_eq_iff`). -/

namespace Bisection

/-- The number found in `low ≤ k < stop`, or `best`. -/
def bisect (fits : Nat → Bool) (low stop best : Nat) : Nat :=
  if low < stop then
    if fits ((low + stop - 1) / 2) then
      bisect fits ((low + stop - 1) / 2 + 1) stop ((low + stop - 1) / 2)
    else bisect fits low ((low + stop - 1) / 2) best
  else best
termination_by stop - low

/-- The numbers tried on the way to `target`. -/
def path (target low stop : Nat) : List Nat :=
  if low < stop then
    (low + stop - 1) / 2 ::
      if (low + stop - 1) / 2 ≤ target then path target ((low + stop - 1) / 2 + 1) stop
      else path target low ((low + stop - 1) / 2)
  else []
termination_by stop - low

variable {fits : Nat → Bool} {low stop best target : Nat}

/-- What is found is the number that was best before or one that passes. -/
theorem bisect_cases (fits : Nat → Bool) (low stop best : Nat) :
    bisect fits low stop best = best ∨
      low ≤ bisect fits low stop best ∧ bisect fits low stop best < stop ∧
        fits (bisect fits low stop best) = true := by
  induction h : stop - low using Nat.strongRecOn generalizing low stop best with
  | ind n ih =>
    subst h
    rw [bisect]
    split_ifs with hlt hfits
    · rcases ih _ (by omega) ((low + stop - 1) / 2 + 1) stop ((low + stop - 1) / 2) rfl with
        heq | ⟨hle, hbelow, hpasses⟩
      · rw [heq]
        exact Or.inr ⟨by omega, by omega, hfits⟩
      · exact Or.inr ⟨by omega, hbelow, hpasses⟩
    · rcases ih _ (by omega) low ((low + stop - 1) / 2) best rfl with
        heq | ⟨hle, hbelow, hpasses⟩
      · exact Or.inl heq
      · exact Or.inr ⟨hle, by omega, hpasses⟩
    · exact Or.inl rfl

theorem bisect_eq_best (h : ∀ k, low ≤ k → k < stop → fits k = false) :
    bisect fits low stop best = best := by
  rcases bisect_cases fits low stop best with heq | ⟨hle, hlt, hfits⟩
  · exact heq
  · rw [h _ hle hlt] at hfits
    cases hfits

theorem le_of_mem_path {k : Nat} (h : k ∈ path target low stop) : low ≤ k ∧ k < stop := by
  induction hn : stop - low using Nat.strongRecOn generalizing low stop with
  | ind n ih =>
    subst hn
    rw [path] at h
    split_ifs at h with hlt hle
    · rcases List.mem_cons.mp h with rfl | h
      · omega
      · have := ih _ (by omega) h rfl
        omega
    · rcases List.mem_cons.mp h with rfl | h
      · omega
      · have := ih _ (by omega) h rfl
        omega
    · cases h

/-- The search finds the greatest number that passes if and only if every smaller number that it
    tries on the way there passes. -/
theorem bisect_eq_iff (hlow : low ≤ target) (hstop : target < stop) (htarget : fits target = true)
    (hgreatest : ∀ k, target < k → k < stop → fits k = false)
    (hbest : best < low ∨ low = 0 ∧ best = 0) :
    bisect fits low stop best = target ↔ ∀ k ∈ path target low stop, k ≤ target → fits k = true := by
  induction hn : stop - low using Nat.strongRecOn generalizing low stop best with
  | ind n ih =>
    subst hn
    have hlt : low < stop := by omega
    rw [bisect, path, if_pos hlt, if_pos hlt, List.forall_mem_cons]
    generalize hmid : (low + stop - 1) / 2 = mid
    by_cases hle : mid ≤ target
    · rw [if_pos hle]
      by_cases hfits : fits mid = true
      · rw [if_pos hfits]
        rcases Nat.lt_or_eq_of_le hle with hless | rfl
        · -- the target is above the number tried
          rw [ih _ (by omega) hless hstop hgreatest (Or.inl (Nat.lt_succ_self mid)) rfl]
          exact ⟨fun h => ⟨fun _ => hfits, h⟩, fun h => h.2⟩
        · -- the target is the number tried, and nothing above it passes
          rw [bisect_eq_best fun k hk hk' => hgreatest k hk hk']
          refine iff_of_true rfl ⟨fun _ => hfits, fun k hk hk' => ?_⟩
          have := le_of_mem_path hk
          omega
      · rw [if_neg hfits]
        refine iff_of_false (fun heq => ?_) fun h => hfits (h.1 hle)
        have hne : mid ≠ target := by
          rintro rfl
          exact hfits htarget
        rcases bisect_cases fits low mid best with hcase | ⟨-, hbelow, -⟩
        · omega
        · omega
    · rw [if_neg hle, if_neg (by rw [hgreatest mid (by omega) (by omega)]; simp)]
      rw [ih _ (by omega) hlow (by omega) (fun k hk hk' => hgreatest k hk (by omega)) hbest rfl]
      exact ⟨fun h => ⟨fun hk => absurd hk hle, h⟩, fun h => h.2⟩

end Bisection
