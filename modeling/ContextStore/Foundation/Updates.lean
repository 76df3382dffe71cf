import Mathlib.Data.List.Basic

/-! # Lists of keyed updates

A batch is a list of updates, each of which acts on the value under its own key and may be refused.
Applying a batch is sequential, but what it does to one key depends only on the updates of that
key, in their order (`applyAll_eq_some_iff`). Two batches that agree key by key therefore do the
same, however their updates are interleaved. -/

namespace KeyedUpdates

variable {κ ν μ : Type}

/-- An update's key, and its effect on the value under it: `none` refuses. -/
structure Semantics (κ ν μ : Type) where
  key : μ → κ
  act : μ → Option ν → Option (Option ν)

variable (sem : Semantics κ ν μ)

/-- The effect of a list of updates of one key on its value. -/
def actAll : Option ν → List μ → Option (Option ν)
  | v, [] => some v
  | v, m :: rest => (sem.act m v).bind fun v' => actAll v' rest

@[simp] theorem actAll_nil (v : Option ν) : actAll sem v [] = some v := rfl

@[simp] theorem actAll_cons (v : Option ν) (m : μ) (rest : List μ) :
    actAll sem v (m :: rest) = (sem.act m v).bind fun v' => actAll sem v' rest := rfl

variable [DecidableEq κ]

/-- One update of a whole map. -/
def apply (d : κ → Option ν) (m : μ) : Option (κ → Option ν) :=
  (sem.act m (d (sem.key m))).map fun v => Function.update d (sem.key m) v

/-- A batch, left to right. -/
def applyAll : (κ → Option ν) → List μ → Option (κ → Option ν)
  | d, [] => some d
  | d, m :: rest => (apply sem d m).bind fun d' => applyAll d' rest

/-- The updates of a batch that concern one key. -/
def ofKey (k : κ) (l : List μ) : List μ := l.filter (sem.key · = k)

@[simp] theorem applyAll_nil (d : κ → Option ν) : applyAll sem d [] = some d := rfl

@[simp] theorem applyAll_cons (d : κ → Option ν) (m : μ) (rest : List μ) :
    applyAll sem d (m :: rest) = (apply sem d m).bind fun d' => applyAll sem d' rest := rfl

theorem applyAll_append (d : κ → Option ν) (l₁ l₂ : List μ) :
    applyAll sem d (l₁ ++ l₂) = (applyAll sem d l₁).bind fun d' => applyAll sem d' l₂ := by
  induction l₁ generalizing d with
  | nil => rfl
  | cons m rest ih =>
    simp only [List.cons_append, applyAll_cons, Option.bind_assoc]
    exact Option.bind_congr fun d' _ => ih d'

theorem ofKey_cons_self (m : μ) (rest : List μ) :
    ofKey sem (sem.key m) (m :: rest) = m :: ofKey sem (sem.key m) rest := by
  simp [ofKey]

theorem ofKey_cons_of_ne {k : κ} {m : μ} (h : sem.key m ≠ k) (rest : List μ) :
    ofKey sem k (m :: rest) = ofKey sem k rest := by
  simp [ofKey, h]

/-- A batch takes `d` to `d'` exactly when, at every key, the updates of that key take the value
    under `d` to the value under `d'`. -/
theorem applyAll_eq_some_iff (d d' : κ → Option ν) (l : List μ) :
    applyAll sem d l = some d' ↔ ∀ k, actAll sem (d k) (ofKey sem k l) = some (d' k) := by
  induction l generalizing d with
  | nil =>
    simp only [applyAll_nil, ofKey, List.filter_nil, actAll_nil, Option.some.injEq]
    exact funext_iff
  | cons m rest ih =>
    cases hact : sem.act m (d (sem.key m)) with
    | none =>
      simp only [applyAll_cons, apply, hact, Option.map_none, Option.bind_none,
        reduceCtorEq, false_iff, not_forall]
      exact ⟨sem.key m, by simp [ofKey_cons_self, hact]⟩
    | some v =>
      simp only [applyAll_cons, apply, hact, Option.map_some, Option.bind_some, ih]
      refine forall_congr' fun k => ?_
      by_cases hk : sem.key m = k
      · subst hk
        simp [ofKey_cons_self, hact]
      · simp [ofKey_cons_of_ne sem hk, Function.update_of_ne (Ne.symm hk)]

/-- Two batches with the same updates per key, in the same order per key, do the same. -/
theorem applyAll_congr {l l' : List μ} (h : ∀ k, ofKey sem k l = ofKey sem k l')
    (d : κ → Option ν) : applyAll sem d l = applyAll sem d l' := by
  refine Option.ext fun d' => ?_
  rw [applyAll_eq_some_iff, applyAll_eq_some_iff]
  simp only [h]

end KeyedUpdates
