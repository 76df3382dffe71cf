import Mathlib.Logic.Relation
import Mathlib.Order.Basic
import Mathlib.Tactic.Push

/-! # Machines that take one action at a time

A `Machine` is a partial step function with its initial states. `Reaches` is every state some run
leads to, where a run may be limited to actions that are allowed in the state they are taken in.
The second half is about relations along which a rank decreases: such a relation has no cycle, and
following it ends in an element that is related to nothing. -/

namespace Concurrent

variable {σ ι : Type}

structure Machine (σ ι : Type) where
  initial : σ → Prop
  step : σ → ι → Option σ

namespace Machine

/-- Every state that a run of allowed actions leads to. -/
inductive Reaches (m : Machine σ ι) (allowed : σ → ι → Prop) : σ → Prop
  | initial {s : σ} (h : m.initial s) : Reaches m allowed s
  | step {s t : σ} {a : ι} (hs : Reaches m allowed s) (ha : allowed s a)
      (h : m.step s a = some t) : Reaches m allowed t

variable {allowed : σ → ι → Prop} {m : Machine σ ι}

/-- What holds initially and is kept by every allowed action holds in every state reached. -/
theorem Reaches.invariant (inv : σ → Prop) (hinitial : ∀ s, m.initial s → inv s)
    (hstep : ∀ s a t, inv s → allowed s a → m.step s a = some t → inv t) {s : σ}
    (hs : m.Reaches allowed s) : inv s := by
  induction hs with
  | initial h => exact hinitial _ h
  | step _ ha h ih => exact hstep _ _ _ ih ha h

/-- The state after a list of actions, if each of them can be taken. -/
def run (m : Machine σ ι) : σ → List ι → Option σ
  | s, [] => some s
  | s, a :: rest => (m.step s a).bind fun t => m.run t rest

/-- Every action of the list is allowed where it is taken. -/
def Allowed (m : Machine σ ι) (allowed : σ → ι → Prop) : σ → List ι → Prop
  | _, [] => True
  | s, a :: rest => allowed s a ∧ ∀ t, m.step s a = some t → m.Allowed allowed t rest

theorem Reaches.run {actions : List ι} {s t : σ}
    (hs : m.Reaches allowed s) (ha : m.Allowed allowed s actions)
    (h : m.run s actions = some t) : m.Reaches allowed t := by
  induction actions generalizing s with
  | nil =>
    obtain rfl : s = t := Option.some.inj h
    exact hs
  | cons a rest ih =>
    obtain ⟨u, hu, hrest⟩ := Option.bind_eq_some_iff.mp h
    exact ih (hs.step ha.1 hu) (ha.2 u hu) hrest

/-- The state after a list of actions; the first state when they cannot all be taken. -/
def runAll (m : Machine σ ι) (s : σ) (actions : List ι) : σ := (m.run s actions).getD s

theorem Reaches.runAll {actions : List ι} {s : σ} (hs : m.Reaches allowed s)
    (ha : m.Allowed allowed s actions) (h : (m.run s actions).isSome) :
    m.Reaches allowed (m.runAll s actions) := by
  obtain ⟨t, ht⟩ := Option.isSome_iff_exists.mp h
  rw [Machine.runAll, ht]
  exact hs.run ha ht

theorem allowed_of_mem {actions : List ι} (h : ∀ a ∈ actions, ∀ s, allowed s a) (s : σ) :
    m.Allowed allowed s actions := by
  induction actions generalizing s with
  | nil => trivial
  | cons a rest ih =>
    rw [List.forall_mem_cons] at h
    exact ⟨h.1 s, fun t _ => ih h.2 t⟩

theorem allowed_of_forall (h : ∀ s a, allowed s a) (s : σ) (actions : List ι) :
    m.Allowed allowed s actions :=
  allowed_of_mem (fun a _ s => h s a) s

end Machine

/-! ## Relations with a rank -/

variable {α : Type} {r : α → α → Prop}

/-- A relation along which a rank decreases has no cycle. -/
theorem not_transGen_self_of_rank (rank : α → Nat) (h : ∀ a b, r a b → rank b < rank a) (a : α) :
    ¬ Relation.TransGen r a a := by
  have hlt : ∀ b c, Relation.TransGen r b c → rank c < rank b := by
    intro b c hbc
    induction hbc with
    | single hr => exact h _ _ hr
    | tail _ hr ih => exact Nat.lt_trans (h _ _ hr) ih
  exact fun haa => Nat.lt_irrefl _ (hlt a a haa)

/-- Following such a relation ends in an element that is related to nothing. -/
theorem exists_end_of_rank (rank : α → Nat) (h : ∀ a b, r a b → rank b < rank a) (a : α) :
    ∃ b, Relation.ReflTransGen r a b ∧ ∀ c, ¬ r b c := by
  induction hn : rank a using Nat.strongRecOn generalizing a with
  | ind n ih =>
    subst hn
    by_cases hend : ∀ c, ¬ r a c
    · exact ⟨a, .refl, hend⟩
    · push Not at hend
      obtain ⟨c, hc⟩ := hend
      obtain ⟨b, hcb, hb⟩ := ih (rank c) (h _ _ hc) c rfl
      exact ⟨b, .head hc hcb, hb⟩

end Concurrent
