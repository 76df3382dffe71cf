import Mathlib.Data.List.Forall2

/-! # Effects that may throw

A computation over a state that returns a value or throws; what it did to the state before it threw
stays done. A computation `Moves` the state along a preorder if every state it can leave behind
follows the one it started from. -/

namespace Effects

/-- The result with the state after it. -/
structure Effect (ε σ α : Type) where
  run : σ → Except ε α × σ

variable {ε σ α β γ : Type}

namespace Effect

def bind (x : Effect ε σ α) (f : α → Effect ε σ β) : Effect ε σ β where
  run s := match x.run s with
    | (.ok a, t) => (f a).run t
    | (.error e, t) => (.error e, t)

instance : Monad (Effect ε σ) where
  pure a := { run := fun s => (.ok a, s) }
  bind := bind

def throw (e : ε) : Effect ε σ α where
  run s := (.error e, s)

/-- `try { x } catch (e) { handler }` -/
def tryCatch (x : Effect ε σ α) (handler : ε → Effect ε σ α) : Effect ε σ α where
  run s := match x.run s with
    | (.ok a, t) => (.ok a, t)
    | (.error e, t) => (handler e).run t

def get : Effect ε σ σ where
  run s := (.ok s, s)

def modify (f : σ → σ) : Effect ε σ Unit where
  run s := (.ok (), f s)

def ofExcept (x : Except ε α) : Effect ε σ α where
  run s := (x, s)

/-- One after the other, for their values. -/
def mapList (f : α → Effect ε σ β) : List α → Effect ε σ (List β)
  | [] => pure []
  | a :: rest => do
    let b ← f a
    let others ← mapList f rest
    return b :: others

/-! ## How a computation ends -/

@[simp]
theorem run_pure (a : α) (s : σ) : (pure a : Effect ε σ α).run s = (.ok a, s) := rfl

@[simp]
theorem run_throw (e : ε) (s : σ) : (throw e : Effect ε σ α).run s = (.error e, s) := rfl

@[simp]
theorem run_get (s : σ) : (get : Effect ε σ σ).run s = (.ok s, s) := rfl

@[simp]
theorem run_modify (f : σ → σ) (s : σ) : (modify f : Effect ε σ Unit).run s = (.ok (), f s) := rfl

@[simp]
theorem run_ofExcept (x : Except ε α) (s : σ) : (ofExcept x : Effect ε σ α).run s = (x, s) := rfl

variable {x : Effect ε σ α} {f : α → Effect ε σ β} {handler : ε → Effect ε σ α} {s t : σ} {e : ε}

theorem bind_of_ok {a : α} (h : x.run s = (.ok a, t)) : (x >>= f).run s = (f a).run t := by
  show (bind x f).run s = (f a).run t
  simp only [bind, h]

theorem bind_of_error (h : x.run s = (.error e, t)) : (x >>= f).run s = (.error e, t) := by
  show (bind x f).run s = (.error e, t)
  simp only [bind, h]

theorem bind_eq_ok {b : β} {u : σ} :
    (x >>= f).run s = (.ok b, u) ↔ ∃ a t, x.run s = (.ok a, t) ∧ (f a).run t = (.ok b, u) := by
  constructor
  · intro h
    cases hx : x.run s with
    | mk result t =>
      cases result with
      | ok a => exact ⟨a, t, rfl, (bind_of_ok hx).symm.trans h⟩
      | error e =>
        rw [bind_of_error hx] at h
        cases h
  · intro h
    obtain ⟨a, t, hx, hf⟩ := h
    rw [bind_of_ok hx, hf]

theorem bind_eq_error {u : σ} :
    (x >>= f).run s = (.error e, u) ↔
      x.run s = (.error e, u) ∨ ∃ a t, x.run s = (.ok a, t) ∧ (f a).run t = (.error e, u) := by
  constructor
  · intro h
    cases hx : x.run s with
    | mk result t =>
      cases result with
      | ok a => exact Or.inr ⟨a, t, rfl, (bind_of_ok hx).symm.trans h⟩
      | error e' =>
        rw [bind_of_error hx] at h
        cases h
        exact Or.inl rfl
  · intro h
    rcases h with hx | ⟨a, t, hx, hf⟩
    · exact bind_of_error hx
    · rw [bind_of_ok hx, hf]

theorem bind_assoc (x : Effect ε σ α) (f : α → Effect ε σ β) (g : β → Effect ε σ γ) :
    (x >>= f) >>= g = x >>= fun a => f a >>= g := by
  have hrun : ∀ s, ((x >>= f) >>= g).run s = (x >>= fun a => f a >>= g).run s := by
    intro s
    cases hresult : x.run s with
    | mk result t =>
      cases result with
      | ok a =>
        rw [bind_of_ok hresult]
        cases hnext : (f a).run t with
        | mk next u =>
          cases next with
          | ok b => rw [bind_of_ok hnext, bind_of_ok ((bind_of_ok hresult).trans hnext)]
          | error e =>
            rw [bind_of_error hnext, bind_of_error ((bind_of_ok hresult).trans hnext)]
      | error e => rw [bind_of_error hresult, bind_of_error (bind_of_error hresult)]
  exact congrArg Effect.mk (funext hrun)
theorem tryCatch_of_ok {x : Effect ε σ α} {handler : ε → Effect ε σ α} {a : α} {s t : σ}
    (h : x.run s = (.ok a, t)) : (tryCatch x handler).run s = (.ok a, t) := by
  simp only [tryCatch, h]

theorem tryCatch_of_error (h : x.run s = (.error e, t)) :
    (tryCatch x handler).run s = (handler e).run t := by
  simp only [tryCatch, h]

theorem tryCatch_eq_error {u : σ} :
    (tryCatch x handler).run s = (.error e, u) ↔
      ∃ e' t, x.run s = (.error e', t) ∧ (handler e').run t = (.error e, u) := by
  constructor
  · intro h
    cases hx : x.run s with
    | mk result t =>
      cases result with
      | ok a =>
        rw [tryCatch_of_ok hx] at h
        cases h
      | error e' => exact ⟨e', t, rfl, (tryCatch_of_error hx).symm.trans h⟩
  · intro h
    obtain ⟨e', t, hx, hhandler⟩ := h
    rw [tryCatch_of_error hx, hhandler]

theorem exists_error (h : (x.run s).1.isOk = false) : ∃ e, x.run s = (.error e, (x.run s).2) := by
  cases hx : x.run s with
  | mk result t =>
    cases result with
    | ok a =>
      rw [hx] at h
      cases h
    | error e => exact ⟨e, rfl⟩

/-! ## Computations that only throw -/

/-- It never returns a value. -/
def Fails (x : Effect ε σ α) : Prop := ∀ s a t, x.run s ≠ (.ok a, t)

theorem fails_throw (e : ε) : Fails (throw e : Effect ε σ α) := by
  intro s a t h
  rw [run_throw] at h
  cases h

theorem fails_bind (h : ∀ a, Fails (f a)) : Fails (x >>= f) := by
  intro s b u hrun
  obtain ⟨a, t, -, hf⟩ := bind_eq_ok.mp hrun
  exact h a t b u hf

/-- A handler that throws again is not seen by what follows. -/
theorem tryCatch_eq_ok (hhandler : ∀ e, Fails (handler e)) {a : α} :
    (tryCatch x handler).run s = (.ok a, t) ↔ x.run s = (.ok a, t) := by
  constructor
  · intro h
    cases hx : x.run s with
    | mk result u =>
      cases result with
      | ok b => exact (tryCatch_of_ok hx).symm.trans h
      | error e =>
        rw [tryCatch_of_error hx] at h
        exact absurd h (hhandler e u a t)
  · exact tryCatch_of_ok

end Effect

open Effect

/-! ## What a computation may return -/

/-- Wherever it starts, a value it returns is one of `P`. -/
def Returns (P : α → Prop) (x : Effect ε σ α) : Prop := ∀ s a t, x.run s = (.ok a, t) → P a

namespace Returns

variable {P : α → Prop} {Q : β → Prop}

theorem pure {a : α} (h : P a) : Returns P (Pure.pure a : Effect ε σ α) := by
  intro s b t hrun
  rw [run_pure] at hrun
  cases hrun
  exact h

theorem throw (e : ε) : Returns P (Effect.throw e : Effect ε σ α) := by
  intro s a t hrun
  exact absurd hrun (fails_throw e s a t)

theorem any (x : Effect ε σ α) : Returns (fun _ => True) x := fun _ _ _ _ => trivial

variable {f : α → Effect ε σ β} {x : Effect ε σ α}

theorem bind (hx : Returns P x) (hf : ∀ a, P a → Returns Q (f a)) : Returns Q (x >>= f) := by
  intro s b u hrun
  obtain ⟨a, t, ha, hb⟩ := Effect.bind_eq_ok.mp hrun
  exact hf a (hx s a t ha) t b u hb

/-- What came before does not matter. -/
theorem after (hf : ∀ a, Returns Q (f a)) :
    Returns Q (x >>= f) := bind (any x) fun a _ => hf a

theorem ite {c : Prop} [Decidable c] {y : Effect ε σ α} (hx : Returns P x) (hy : Returns P y) :
    Returns P (if c then x else y) := by
  split
  · exact hx
  · exact hy

theorem mapList {r : α → β → Prop} (h : ∀ a, Returns (r a) (f a)) :
    ∀ items, Returns (List.Forall₂ r items) (Effect.mapList f items) := by
  intro items
  induction items with
  | nil => exact pure List.Forall₂.nil
  | cons a rest ih =>
    exact bind (h a) fun b hb => bind ih fun others hothers => pure (List.Forall₂.cons hb hothers)

end Returns

/-! ## Lists related item by item -/

theorem exists_of_forall₂ {r : α → β → Prop} {as : List α} {bs : List β}
    (h : List.Forall₂ r as bs) {a : α} (ha : a ∈ as) : ∃ b ∈ bs, r a b := by
  induction h with
  | nil => cases ha
  | cons hab hrest ih =>
    rcases List.mem_cons.mp ha with rfl | hlater
    · exact ⟨_, List.mem_cons_self, hab⟩
    · obtain ⟨b, hb, hab⟩ := ih hlater
      exact ⟨b, List.mem_cons_of_mem _ hb, hab⟩

/-! ## What a computation may do to the state -/

/-- Wherever it starts and however it ends, the state moves along `R`. -/
def Moves (R : σ → σ → Prop) (x : Effect ε σ α) : Prop := ∀ s, R s (x.run s).2

namespace Moves

variable {R : σ → σ → Prop} {x : Effect ε σ α}

theorem of_run (h : Moves R x) {s t : σ} {result : Except ε α} (hx : x.run s = (result, t)) :
    R s t := by
  have hmoves := h s
  rwa [hx] at hmoves

theorem mono {R' : σ → σ → Prop} (h : ∀ s t, R s t → R' s t) (hx : Moves R x) :
    Moves R' x := fun s => h _ _ (hx s)

theorem modify {f : σ → σ} (h : ∀ s, R s (f s)) :
    Moves R (Effect.modify f : Effect ε σ Unit) := h

theorem ite {c : Prop} [Decidable c] {y : Effect ε σ α} (hx : Moves R x) (hy : Moves R y) :
    Moves R (if c then x else y) := by
  split
  · exact hx
  · exact hy

section

variable [Std.Refl R]

theorem pure (a : α) : Moves R (Pure.pure a : Effect ε σ α) := fun s => Std.Refl.refl s

theorem throw (e : ε) : Moves R (Effect.throw e : Effect ε σ α) := fun s => Std.Refl.refl s

theorem get : Moves R (Effect.get : Effect ε σ σ) := fun s => Std.Refl.refl s

end

section

variable [IsTrans σ R] {f : α → Effect ε σ β} {x : Effect ε σ α}

theorem bind (hx : Moves R x) (hf : ∀ a, Moves R (f a)) : Moves R (x >>= f) := by
  intro s
  cases hresult : x.run s with
  | mk result t =>
    have hfirst := hx.of_run hresult
    cases result with
    | ok a =>
      rw [bind_of_ok hresult]
      exact IsTrans.trans _ _ _ hfirst (hf a t)
    | error e =>
      rw [bind_of_error hresult]
      exact hfirst

theorem tryCatch {handler : ε → Effect ε σ α} (hx : Moves R x)
    (hhandler : ∀ e, Moves R (handler e)) : Moves R (Effect.tryCatch x handler) := by
  intro s
  cases hresult : x.run s with
  | mk result t =>
    have hfirst := hx.of_run hresult
    cases result with
    | ok a =>
      rw [tryCatch_of_ok hresult]
      exact hfirst
    | error e =>
      rw [tryCatch_of_error hresult]
      exact IsTrans.trans _ _ _ hfirst (hhandler e t)

theorem mapList [Std.Refl R] (h : ∀ a, Moves R (f a)) (items : List α) :
    Moves R (Effect.mapList f items) := by
  induction items with
  | nil => exact pure []
  | cons a rest ih => exact bind (h a) fun _ => bind ih fun _ => pure _

/-- Every item was run on the way. -/
theorem mapList_eq_ok [Std.Refl R] (hf : ∀ a, Moves R (f a)) {items : List α} {bs : List β}
    {s t : σ} (h : (Effect.mapList f items).run s = (.ok bs, t)) :
    List.Forall₂ (fun a b => ∃ u v, R s u ∧ (f a).run u = (.ok b, v) ∧ R v t) items bs := by
  induction items generalizing s bs with
  | nil =>
    rw [Effect.mapList, run_pure] at h
    cases h
    exact List.Forall₂.nil
  | cons a rest ih =>
    obtain ⟨b, u, ha, h⟩ := Effect.bind_eq_ok.mp h
    obtain ⟨others, v, hrest, h⟩ := Effect.bind_eq_ok.mp h
    rw [run_pure] at h
    cases h
    have hlater := (mapList hf rest).of_run hrest
    refine List.Forall₂.cons ⟨s, u, Std.Refl.refl s, ha, hlater⟩ ?_
    refine (ih hrest).imp ?_
    intro a' b' hrun
    obtain ⟨u', v', hu, hrun, hv⟩ := hrun
    exact ⟨u', v', IsTrans.trans _ _ _ ((hf a).of_run ha) hu, hrun, hv⟩

end

end Moves

end Effects
