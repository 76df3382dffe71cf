import Mathlib.Control.Monad.Basic

/-! # Transactions and asynchronous programs

A `Transaction` reads and writes a private copy of the shared state and either commits the copy
with a result or throws; a throw leaves the shared state as it was. An asynchronous `Program` is
a sequence of such indivisible actions: between two of them the rest of the system may run, and
what the program keeps in local variables is the argument of its continuation. -/

namespace Concurrent

variable {σ ε α β : Type}

/-! ## Checks -/

theorem bind_ok_iff {x : Except ε α} {f : α → Except ε β} {b : β} :
    (x >>= f) = .ok b ↔ ∃ a, x = .ok a ∧ f a = .ok b := by
  cases x with
  | error e => simp [Bind.bind, Except.bind]
  | ok a => simp [Bind.bind, Except.bind]

theorem map_ok_iff {x : Except ε α} {f : α → β} {b : β} :
    x.map f = .ok b ↔ ∃ a, x = .ok a ∧ f a = b := by
  cases x with
  | error e => simp [Except.map]
  | ok a => simp [Except.map]

/-! ## Transactions -/

/-- A callback over a private copy of the state: it returns a value with the new copy, or throws. -/
def Transaction (σ ε α : Type) : Type := σ → Except ε (α × σ)

namespace Transaction

def run (x : Transaction σ ε α) (s : σ) : Except ε (α × σ) := x s

instance : Monad (Transaction σ ε) where
  pure a := fun s => .ok (a, s)
  bind x f := fun s => match x s with
    | .ok (a, t) => f a t
    | .error e => .error e

/-- Throw `e`. -/
def fail (e : ε) : Transaction σ ε α := fun _ => .error e

/-- Throw `e` unless `c` holds. -/
def require (c : Prop) [Decidable c] (e : ε) : Transaction σ ε Unit :=
  fun s => if c then .ok ((), s) else .error e

/-- A value check inside a transaction. -/
def ofExcept (r : Except ε α) : Transaction σ ε α := fun s => r.map fun a => (a, s)

/-- Call `f` on each element in order, stopping at the first throw. -/
def forEach (f : β → Transaction σ ε Unit) : List β → Transaction σ ε Unit
  | [] => pure ()
  | b :: rest => do
    f b
    forEach f rest

variable {f : β → Transaction σ ε Unit} {s : σ} {p : α × σ}

/-- A sequence commits exactly when its first half and then its second half do. -/
@[simp] theorem run_bind_eq_ok {x : Transaction σ ε α} {f : α → Transaction σ ε β} {p : β × σ} :
    (x >>= f).run s = .ok p ↔ ∃ a t, x.run s = .ok (a, t) ∧ (f a).run t = .ok p := by
  change (match x s with | .ok (a, t) => f a t | .error e => .error e) = .ok p ↔
    ∃ a t, x s = .ok (a, t) ∧ f a t = .ok p
  cases x s with
  | error e => simp
  | ok q =>
    obtain ⟨a, t⟩ := q
    constructor
    · intro h
      exact ⟨a, t, rfl, h⟩
    · rintro ⟨a', t', heq, h⟩
      obtain ⟨rfl, rfl⟩ : a = a' ∧ t = t' := by simpa using heq
      exact h

@[simp] theorem run_pure_eq_ok {a : α} : (pure a : Transaction σ ε α).run s = .ok p ↔ (a, s) = p :=
  Except.ok.injEq (a, s) p ▸ Iff.rfl

@[simp] theorem run_fail_eq_ok {e : ε} : (fail e : Transaction σ ε α).run s = .ok p ↔ False := by
  simp [fail, run]

@[simp] theorem run_require_eq_ok {c : Prop} [Decidable c] {e : ε} {p : Unit × σ} :
    (require c e : Transaction σ ε Unit).run s = .ok p ↔ c ∧ ((), s) = p := by
  unfold require run
  split
  · next h => simp [h]
  · next h => simp [h]

@[simp] theorem run_ofExcept_eq_ok {r : Except ε α} :
    (ofExcept r : Transaction σ ε α).run s = .ok p ↔ r = .ok p.1 ∧ s = p.2 := by
  obtain ⟨a, t⟩ := p
  cases r with
  | error e => simp [ofExcept, run, Except.map]
  | ok a => simp [ofExcept, run, Except.map]

@[simp] theorem run_ite {c : Prop} [Decidable c] (x y : Transaction σ ε α) (s : σ) :
    (if c then x else y).run s = if c then x.run s else y.run s := by
  split <;> rfl

/-- A loop keeps what each of its rounds keeps. -/
theorem run_forEach_ok {inv : σ → Prop} {l : List β}
    (hstep : ∀ b ∈ l, ∀ s t u, inv s → (f b).run s = .ok (u, t) → inv t) {t : σ} {u : Unit}
    (hs : inv s) (h : (forEach f l).run s = .ok (u, t)) : inv t := by
  induction l generalizing s with
  | nil =>
    obtain ⟨_, rfl⟩ : ((), s) = (u, t) ∧ s = t := by
      have h' : ((), s) = (u, t) := run_pure_eq_ok.mp h
      exact ⟨h', (Prod.mk.inj h').2⟩
    exact hs
  | cons b rest ih =>
    obtain ⟨_, r, hb, hrest⟩ := run_bind_eq_ok.mp h
    exact ih (fun b' hb' => hstep b' (List.mem_cons_of_mem _ hb'))
      (hstep b List.mem_cons_self s r _ hs hb) hrest

/-- A loop of checks commits exactly when every check passes, and writes nothing. -/
theorem run_forEach_check {holds : β → σ → Prop}
    (hcheck : ∀ b s u t, (f b).run s = .ok (u, t) ↔ holds b s ∧ s = t) {l : List β} {t : σ}
    {u : Unit} : (forEach f l).run s = .ok (u, t) ↔ (∀ b ∈ l, holds b s) ∧ s = t := by
  induction l with
  | nil =>
    simp only [forEach, run_pure_eq_ok, Prod.mk.injEq, List.not_mem_nil, false_implies,
      implies_true, true_and]
  | cons b rest ih =>
    simp only [forEach, run_bind_eq_ok, hcheck, List.forall_mem_cons]
    constructor
    · rintro ⟨_, r, ⟨hb, rfl⟩, hrest⟩
      exact ⟨⟨hb, (ih.mp hrest).1⟩, (ih.mp hrest).2⟩
    · rintro ⟨⟨hb, hrest⟩, rfl⟩
      exact ⟨(), s, ⟨hb, rfl⟩, ih.mpr ⟨hrest, rfl⟩⟩

end Transaction

/-! ## Programs -/

/-- An asynchronous call: finished, or an indivisible action on the shared state followed by a
    continuation that remembers what the action saw. -/
inductive Program (σ ε α : Type) : Type where
  | done (result : Except ε α)
  | atomic (act : σ → σ) (next : σ → Program σ ε α)

namespace Program

def bind : Program σ ε α → (α → Program σ ε β) → Program σ ε β
  | .done (.ok a), f => f a
  | .done (.error e), _ => .done (.error e)
  | .atomic act next, f => .atomic act fun s => (next s).bind f

instance : Monad (Program σ ε) where
  pure a := .done (.ok a)
  bind := bind

/-- Reject the call. -/
def fail (e : ε) : Program σ ε α := .done (.error e)

/-- A value check outside any transaction. -/
def ofExcept (r : Except ε α) : Program σ ε α := .done r

/-- Reject the call unless `c` holds. -/
def require (c : Prop) [Decidable c] (e : ε) : Program σ ε Unit :=
  if c then .done (.ok ()) else .done (.error e)

/-- A read outside any transaction: what it returns may be stale at the next action. -/
def read (f : σ → α) : Program σ ε α := .atomic id fun s => .done (.ok (f s))

/-- A write outside any transaction that cannot fail. -/
def modify (f : σ → σ) : Program σ ε Unit := .atomic f fun _ => .done (.ok ())

/-- Run a callback in one indivisible transaction; a throw rolls back. -/
def transaction (body : Transaction σ ε α) : Program σ ε α :=
  .atomic
    (fun s => match body.run s with
      | .ok (_, t) => t
      | .error _ => s)
    (fun s => match body.run s with
      | .ok (a, _) => .done (.ok a)
      | .error e => .done (.error e))

/-- Call `f` on each element in order, stopping at the first rejection. -/
def forEach (f : β → Program σ ε Unit) : List β → Program σ ε Unit
  | [] => .done (.ok ())
  | b :: rest => (f b).bind fun _ => forEach f rest

/-- Fold a program over a list, left to right. -/
def foldl (f : α → β → Program σ ε α) : α → List β → Program σ ε α
  | a, [] => .done (.ok a)
  | a, b :: rest => (f a b).bind fun a' => foldl f a' rest

/-- The call with its result mapped. -/
def mapResult (f : α → β) (p : Program σ ε α) : Program σ ε β := p.bind fun a => .done (.ok (f a))

/-- The call, with `handler` taking over when it is rejected. -/
def tryCatch (handler : ε → Program σ ε α) : Program σ ε α → Program σ ε α
  | .done (.ok a) => .done (.ok a)
  | .done (.error e) => handler e
  | .atomic act next => .atomic act fun s => (next s).tryCatch handler

/-- The call without its result. -/
def void (p : Program σ ε α) : Program σ ε Unit := p.mapResult fun _ => ()

/-- The call run to its end with nothing in between. -/
def runAlone : Program σ ε α → σ → Except ε α × σ
  | .done r, s => (r, s)
  | .atomic act next, s => (next s).runAlone (act s)

/-- The program only reads, and whatever it reads, a result that is not an error satisfies `q`. -/
def ReadsTo (q : α → Prop) : Program σ ε α → Prop
  | .done (.ok a) => q a
  | .done (.error _) => True
  | .atomic act next => ∀ u, act u = u ∧ ReadsTo q (next u)

/-- Every action of the program, from whatever state it is taken, makes a step of this kind. -/
def Always (step : σ → σ → Prop) : Program σ ε α → Prop
  | .done _ => True
  | .atomic act next => ∀ u, step u (act u) ∧ Always step (next u)

@[simp] theorem pure_eq (a : α) : (pure a : Program σ ε α) = .done (.ok a) := rfl

@[simp] theorem bind_eq (p : Program σ ε α) (f : α → Program σ ε β) : (p >>= f) = p.bind f := rfl

@[simp] theorem bind_ok (a : α) (f : α → Program σ ε β) : (done (.ok a)).bind f = f a := rfl

@[simp] theorem bind_error (e : ε) (f : α → Program σ ε β) :
    (done (.error e) : Program σ ε α).bind f = .done (.error e) := rfl

@[simp] theorem runAlone_done (r : Except ε α) (s : σ) : (done r).runAlone s = (r, s) := rfl

@[simp] theorem runAlone_read (f : σ → α) (s : σ) :
    (read f : Program σ ε α).runAlone s = (.ok (f s), s) := rfl

section Always

variable {step : σ → σ → Prop} {p : Program σ ε α}

theorem Always.imp {step' : σ → σ → Prop} (hp : Always step p) (h : ∀ s t, step s t → step' s t) :
    Always step' p := by
  induction p with
  | done r => trivial
  | atomic act next ih => exact fun u => ⟨h _ _ (hp u).1, ih u (hp u).2⟩

theorem Always.bind {f : α → Program σ ε β} (hp : Always step p) (hf : ∀ a, Always step (f a)) :
    Always step (p.bind f) := by
  induction p with
  | done r =>
    cases r with
    | error e => trivial
    | ok a => exact hf a
  | atomic act next ih =>
    intro u
    exact ⟨(hp u).1, ih u (hp u).2⟩

theorem Always.read (hrefl : ∀ u, step u u) (f : σ → α) :
    Always step (Program.read f : Program σ ε α) :=
  fun u => ⟨hrefl u, trivial⟩

theorem Always.ofExcept (r : Except ε α) : Always step (Program.ofExcept r : Program σ ε α) :=
  trivial

theorem Always.require (c : Prop) [Decidable c] (e : ε) :
    Always step (Program.require c e : Program σ ε Unit) := by
  unfold Program.require
  split <;> trivial

theorem Always.transaction (hrefl : ∀ u, step u u) {body : Transaction σ ε α}
    (h : ∀ u a t, body.run u = .ok (a, t) → step u t) :
    Always step (Program.transaction body) := by
  intro u
  cases hbody : body.run u with
  | error e => exact ⟨by simpa [hbody] using hrefl u, by simp only [hbody]; trivial⟩
  | ok p =>
    obtain ⟨a, t⟩ := p
    exact ⟨by simpa [hbody] using h u a t hbody, by simp only [hbody]; trivial⟩

theorem Always.tryCatch {handler : ε → Program σ ε α} (hp : Always step p)
    (hhandler : ∀ e, Always step (handler e)) : Always step (p.tryCatch handler) := by
  induction p with
  | done r =>
    cases r with
    | error e => exact hhandler e
    | ok a => trivial
  | atomic act next ih => exact fun u => ⟨(hp u).1, ih u (hp u).2⟩

theorem Always.mapResult (hp : Always step p) (f : α → β) : Always step (p.mapResult f) :=
  hp.bind fun _ => trivial

theorem Always.void (hp : Always step p) : Always step p.void :=
  hp.mapResult _

theorem Always.forEach {f : β → Program σ ε Unit} (h : ∀ b, Always step (f b)) (l : List β) :
    Always step (Program.forEach f l) := by
  induction l with
  | nil => trivial
  | cons b rest ih => exact (h b).bind fun _ => ih

theorem Always.foldl {f : α → β → Program σ ε α} (h : ∀ a b, Always step (f a b)) (a : α)
    (l : List β) : Always step (Program.foldl f a l) := by
  induction l generalizing a with
  | nil => trivial
  | cons b rest ih => exact (h a b).bind fun a' => ih a'

end Always

namespace ReadsTo

variable {q : α → Prop} {r : β → Prop} {f : α → Program σ ε β}

theorem bind {p : Program σ ε α} (h : p.ReadsTo q) (hf : ∀ a, q a → (f a).ReadsTo r) :
    (p.bind f).ReadsTo r := by
  induction p with
  | done result =>
    cases result with
    | error e => trivial
    | ok a => exact hf a h
  | atomic act next ih => exact fun u => ⟨(h u).1, ih u (h u).2⟩

/-- Reading on, whatever comes back. -/
theorem readBind {f : σ → α} {g : α → Program σ ε β} (h : ∀ a, (g a).ReadsTo r) :
    ((Program.read f).bind g).ReadsTo r :=
  fun u => ⟨rfl, h (f u)⟩

theorem ofExcept {x : Except ε α} (h : ∀ a, x = .ok a → q a) :
    (Program.ofExcept x : Program σ ε α).ReadsTo q := by
  cases x with
  | error e => trivial
  | ok a => exact h a rfl

theorem ofExceptBind {x : Except ε α} (h : ∀ a, x = .ok a → (f a).ReadsTo r) :
    ((Program.ofExcept x).bind f).ReadsTo r := by
  cases x with
  | error e => trivial
  | ok a => exact h a rfl

theorem requireBind {c : Prop} [Decidable c] {e : ε} {f : Unit → Program σ ε β}
    (h : c → (f ()).ReadsTo r) : ((Program.require c e).bind f).ReadsTo r := by
  unfold Program.require
  split
  · next hc => exact h hc
  · trivial

end ReadsTo

theorem runAlone_bind (p : Program σ ε α) (f : α → Program σ ε β) (s : σ) :
    (p.bind f).runAlone s = match p.runAlone s with
      | (.ok a, t) => (f a).runAlone t
      | (.error e, t) => (.error e, t) := by
  induction p generalizing s with
  | done r => cases r <;> rfl
  | atomic act next ih => exact ih s (act s)

theorem runAlone_transaction (body : Transaction σ ε α) (s : σ) :
    (transaction body).runAlone s = match body.run s with
      | .ok (a, t) => (.ok a, t)
      | .error e => (.error e, s) := by
  simp only [transaction, runAlone]
  split <;> rfl

/-- A program run alone keeps what each of its actions keeps. -/
theorem Always.runAlone_invariant {step : σ → σ → Prop} {inv : σ → Prop}
    {p : Program σ ε α} (hp : p.Always step) (hstep : ∀ u t, inv u → step u t → inv t) {s : σ}
    (hs : inv s) : inv (p.runAlone s).2 := by
  induction p generalizing s with
  | done r => exact hs
  | atomic act next ih => exact ih s (hp s).2 (hstep _ _ hs (hp s).1)

end Program

end Concurrent
