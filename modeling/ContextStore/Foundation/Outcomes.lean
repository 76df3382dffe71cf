import ContextStore.Foundation.Program
import Mathlib.Data.List.Forall2

/-! # Loops that may fail

What a loop over a list gives when it does not fail, and which errors it can fail with. -/

namespace Outcomes

open Concurrent (bind_ok_iff)

variable {ε α β σ : Type}

/-! ## Loops that do not fail -/

theorem exists_right {r : α → β → Prop} {xs : List α} {ys : List β} (h : List.Forall₂ r xs ys)
    {x : α} (hx : x ∈ xs) : ∃ y ∈ ys, r x y := by
  induction h with
  | nil => cases hx
  | cons hxy _ ih =>
    rcases List.mem_cons.mp hx with rfl | hx
    · exact ⟨_, List.mem_cons_self, hxy⟩
    · obtain ⟨y, hy, hr⟩ := ih hx
      exact ⟨y, List.mem_cons_of_mem _ hy, hr⟩

theorem exists_left {r : α → β → Prop} {xs : List α} {ys : List β} (h : List.Forall₂ r xs ys)
    {y : β} (hy : y ∈ ys) : ∃ x ∈ xs, r x y := exists_right h.flip hy

section MapM

variable {f : α → Except ε β} {xs : List α} {ys : List β}

theorem forall₂_of_mapM (h : xs.mapM f = .ok ys) : List.Forall₂ (fun x y => f x = .ok y) xs ys := by
  induction xs generalizing ys with
  | nil =>
    cases h
    exact .nil
  | cons x xs ih =>
    rw [List.mapM_cons] at h
    obtain ⟨y, hy, h⟩ := bind_ok_iff.mp h
    obtain ⟨rest, hrest, h⟩ := bind_ok_iff.mp h
    cases h
    exact .cons hy (ih hrest)

theorem length_of_mapM (h : xs.mapM f = .ok ys) : ys.length = xs.length :=
  (forall₂_of_mapM h).length_eq.symm

theorem exists_source (h : xs.mapM f = .ok ys) {y : β} (hy : y ∈ ys) :
    ∃ x ∈ xs, f x = .ok y := exists_left (forall₂_of_mapM h) hy

theorem exists_image (h : xs.mapM f = .ok ys) {x : α} (hx : x ∈ xs) :
    ∃ y ∈ ys, f x = .ok y := exists_right (forall₂_of_mapM h) hx

theorem exists_mapM (h : ∀ x ∈ xs, ∃ y, f x = .ok y) : ∃ ys, xs.mapM f = .ok ys := by
  induction xs with
  | nil => exact ⟨[], rfl⟩
  | cons x xs ih =>
    rw [List.forall_mem_cons] at h
    obtain ⟨⟨y, hy⟩, hrest⟩ := h
    obtain ⟨ys, hys⟩ := ih hrest
    refine ⟨y :: ys, ?_⟩
    rw [List.mapM_cons, hy, hys]
    rfl

end MapM

/-- What one round preserves, the loop does; what holds may depend on what has been gone through. -/
theorem foldlM_invariant {step : σ → α → Except ε σ} (inv : List α → σ → Prop)
    (hstep : ∀ done a s s', inv done s → step s a = .ok s' → inv (done ++ [a]) s')
    {done l : List α} {s s' : σ} (hinv : inv done s) (h : l.foldlM step s = .ok s') :
    inv (done ++ l) s' := by
  induction l generalizing done s with
  | nil =>
    cases h
    rwa [List.append_nil]
  | cons a l ih =>
    rw [List.foldlM_cons] at h
    obtain ⟨next, hnext, h⟩ := bind_ok_iff.mp h
    have hrest := ih (hstep done a s next hinv hnext) h
    rwa [List.append_assoc, List.singleton_append] at hrest

/-- Loops whose rounds have the same outcomes wherever an invariant holds. -/
theorem foldlM_eq_ok_congr {step step' : σ → α → Except ε σ} {inv : σ → Prop} {l : List α}
    (hinv : ∀ a ∈ l, ∀ s s', inv s → step' s a = .ok s' → inv s')
    (h : ∀ a ∈ l, ∀ s s', inv s → (step s a = .ok s' ↔ step' s a = .ok s')) :
    ∀ {s s' : σ}, inv s → (l.foldlM step s = .ok s' ↔ l.foldlM step' s = .ok s') := by
  induction l with
  | nil =>
    intro s s' _
    rfl
  | cons a l ih =>
    intro s s' hs
    rw [List.foldlM_cons, List.foldlM_cons, bind_ok_iff, bind_ok_iff]
    refine exists_congr fun next => ?_
    rw [h a List.mem_cons_self s next hs]
    refine and_congr_right fun hnext => ?_
    exact ih (fun b hb => hinv b (List.mem_cons_of_mem _ hb))
      (fun b hb => h b (List.mem_cons_of_mem _ hb)) (hinv a List.mem_cons_self s next hs hnext)

/-! ## Loops that fail -/

/-- Every error of the outcome is of a kind. -/
def FailsIn (p : ε → Prop) (x : Except ε α) : Prop := ∀ e, x = .error e → p e

variable {p : ε → Prop}

theorem FailsIn.ok (a : α) : FailsIn p (.ok a : Except ε α) := by
  intro e h
  cases h

theorem FailsIn.error {e : ε} (h : p e) : FailsIn p (.error e : Except ε α) := by
  intro e' h'
  cases h'
  exact h

theorem FailsIn.bind {x : Except ε α} {f : α → Except ε β} (hx : FailsIn p x)
    (hf : ∀ a, x = .ok a → FailsIn p (f a)) : FailsIn p (x >>= f) := by
  cases x with
  | error e => exact .error (hx e rfl)
  | ok a => exact hf a rfl

theorem FailsIn.ite {c : Prop} [Decidable c] {x y : Except ε α} (hx : c → FailsIn p x)
    (hy : ¬ c → FailsIn p y) : FailsIn p (if c then x else y) := by
  split
  · rename_i h
    exact hx h
  · rename_i h
    exact hy h

theorem FailsIn.mapM {f : α → Except ε β} {xs : List α} (h : ∀ x ∈ xs, FailsIn p (f x)) :
    FailsIn p (xs.mapM f) := by
  induction xs with
  | nil => exact .ok []
  | cons x xs ih =>
    rw [List.forall_mem_cons] at h
    rw [List.mapM_cons]
    exact h.1.bind fun y _ => (ih h.2).bind fun ys _ => .ok (y :: ys)

theorem FailsIn.foldlM {step : σ → α → Except ε σ} {l : List α} {s : σ}
    (h : ∀ s a, FailsIn p (step s a)) : FailsIn p (l.foldlM step s) := by
  induction l generalizing s with
  | nil => exact .ok s
  | cons a l ih =>
    rw [List.foldlM_cons]
    exact (h s a).bind fun s' _ => ih

end Outcomes
