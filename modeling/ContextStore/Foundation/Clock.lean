import ContextStore.Foundation.Interleaving

/-! # Calls that read the clock

A `clockedSystem` runs calls beside a clock that only moves forward. A call reads the clock when it
starts and keeps what it read; time may pass between any two of its actions. `Timed` is the proof
rule: every action of a call that read `now` owes a guarantee that may mention `now`, and the clock
never shows less when the action is taken. -/

namespace Concurrent

variable {σ τ ε α β : Type}

/-- A shared state and the time. -/
structure Clocked (σ : Type) where
  state : σ
  now : Nat

/-- The program beside a clock, which it leaves alone. -/
def Program.clocked : Program σ ε α → Program (Clocked σ) ε α
  | .done r => .done r
  | .atomic act next =>
    .atomic (fun s => { s with state := act s.state }) fun s => (next s.state).clocked

/-- Time passes. -/
def elapse (n : Nat) : Program (Clocked σ) ε Unit :=
  .atomic (fun s => { s with now := s.now + n }) fun _ => .done (.ok ())

/-- Process `none` is the clock; process `some t` runs the calls of `t`, which depend on the time
    at their start. -/
def clockedSystem (initial : Clocked σ → Prop) (calls : τ → Nat → Program σ ε Unit → Prop) :
    System (Clocked σ) (Option τ) ε Unit where
  initial := initial
  calls
    | none, _, p => ∃ n, p = elapse n
    | some t, s, p => ∃ q, calls t s.now q ∧ p = q.clocked

/-- An invariant, what a call may assume of the actions of the others, and what each action of a
    call of process `t` that read `now` does. -/
structure Timed (σ τ : Type) where
  inv : σ → Prop
  rely : σ → σ → Prop
  guar : τ → Nat → σ → σ → Prop
  rely_refl : ∀ s, rely s s
  rely_trans : ∀ s u v, rely s u → rely u v → rely s v
  rely_of_guar : ∀ t now s u, guar t now s u → rely s u

namespace Timed

variable (d : Timed σ τ)

def SafeCall (t : τ) (now : Nat) (p : Program σ ε α) (q : α → σ → Prop) (s : σ) : Prop :=
  Safe (fun _ => True) d.inv d.rely (d.guar t now) p (OnOk q) s

/-- Every call is safe, from any state and at any time. -/
def Covers (initial : Clocked σ → Prop) (calls : τ → Nat → Program σ ε Unit → Prop) : Prop :=
  (∀ s, initial s → d.inv s.state) ∧
    ∀ t now p s, calls t now p → d.inv s → d.SafeCall t now p (fun _ _ => True) s

/-- A live program of the clock, or the rest of a safe call that read the clock earlier. -/
def Live (t : Option τ) (s : Clocked σ) (p : Program (Clocked σ) ε Unit) : Prop :=
  match t with
  | none => (∃ n, p = elapse n) ∨ p = .done (.ok ())
  | some t => ∃ now q s₀, now ≤ s.now ∧ p = q.clocked ∧ d.rely s₀ s.state ∧
      d.SafeCall t now q (fun _ _ => True) s₀

variable {d} {initial : Clocked σ → Prop} {calls : τ → Nat → Program σ ε Unit → Prop}

/-- What an action of a live call does, and that the rest of the call is live. -/
theorem Live.advance {t : τ} {s : Clocked σ} {act : Clocked σ → Clocked σ}
    {next : Clocked σ → Program (Clocked σ) ε Unit} (hinv : d.inv s.state)
    (h : d.Live (some t) s (.atomic act next)) :
    (∃ now, now ≤ s.now ∧ d.guar t now s.state (act s).state) ∧ d.inv (act s).state ∧
      (act s).now = s.now ∧ d.Live (some t) (act s) (next s) := by
  obtain ⟨now, q, s₀, hnow, heq, hrely, hsafe⟩ := h
  cases q with
  | done r => cases heq
  | atomic act' next' =>
    cases heq
    obtain ⟨hinv', hguar, hnext⟩ := hsafe s.state hrely hinv trivial
    exact ⟨⟨now, hnow, hguar⟩, hinv', rfl, now, next' s.state, act' s.state, hnow, rfl,
      d.rely_refl _, hnext⟩

theorem Live.of_rely {t : Option τ} {s u : Clocked σ} {p : Program (Clocked σ) ε Unit}
    (h : d.Live t s p) (hrely : d.rely s.state u.state) (hnow : s.now ≤ u.now) : d.Live t u p := by
  cases t with
  | none => exact h
  | some t =>
    obtain ⟨now, q, s₀, hle, heq, hr, hsafe⟩ := h
    exact ⟨now, q, s₀, Nat.le_trans hle hnow, heq, d.rely_trans _ _ _ hr hrely, hsafe⟩

/-- An action of a live program of the clock only moves the time. -/
theorem Live.tick {s : Clocked σ} {act : Clocked σ → Clocked σ}
    {next : Clocked σ → Program (Clocked σ) ε Unit} (h : d.Live none s (.atomic act next)) :
    (∃ n, act s = { s with now := s.now + n }) ∧ d.Live none (act s) (next s) := by
  rcases h with ⟨n, heq⟩ | heq
  · cases heq
    exact ⟨⟨n, rfl⟩, Or.inr rfl⟩
  · cases heq

variable [DecidableEq τ] {c : Config (Clocked σ) (Option τ) ε Unit}

/-- If every call is safe, then in every reachable configuration the invariant holds, with whatever
    else the passing of time and the guaranteed actions keep, and every live program is safe. -/
theorem sound (hd : d.Covers initial calls) (also : Clocked σ → Prop)
    (hinitial : ∀ s, initial s → also s)
    (htick : ∀ s n, also s → also { s with now := s.now + n })
    (hguar : ∀ t now s u, d.inv s.state → also s → now ≤ s.now → d.guar t now s.state u →
      also { s with state := u })
    (hc : Reachable (clockedSystem initial calls) c) :
    (d.inv c.shared.state ∧ also c.shared) ∧
      ∀ t p, c.processes t = some p → d.Live t c.shared p := by
  refine hc.invariant_of_live (fun s => d.inv s.state ∧ also s) (fun t s p => d.Live t s p)
    (fun s hs => ⟨hd.1 s hs, hinitial s hs⟩) ?_ ?_ ?_
  · intro t s p hinv hp
    cases t with
    | none =>
      obtain ⟨n, hn⟩ := hp
      exact Or.inl ⟨n, hn⟩
    | some t =>
      obtain ⟨q, hq, heq⟩ := hp
      exact ⟨s.now, q, s.state, Nat.le_refl _, heq, d.rely_refl _, hd.2 _ _ _ _ hq hinv.1⟩
  · intro t s act next hinv hlive _
    cases t with
    | none =>
      obtain ⟨⟨n, hact⟩, hnext⟩ := hlive.tick
      refine ⟨?_, hnext⟩
      rw [hact]
      exact ⟨hinv.1, htick s n hinv.2⟩
    | some t =>
      obtain ⟨⟨now, hnow, hg⟩, hinv', hclock, hnext⟩ := hlive.advance hinv.1
      have halso := hguar t now s _ hinv.1 hinv.2 hnow hg
      rw [← hclock] at halso
      exact ⟨⟨hinv', halso⟩, hnext⟩
  · intro t t' s act next p _ hinv hlive _ hp
    cases t with
    | none =>
      obtain ⟨⟨n, hact⟩, _⟩ := hlive.tick
      rw [hact]
      exact hp.of_rely (d.rely_refl _) (Nat.le_add_right _ _)
    | some t =>
      obtain ⟨⟨now, _, hg⟩, _, hclock, _⟩ := hlive.advance hinv.1
      exact hp.of_rely (d.rely_of_guar _ _ _ _ hg) (Nat.le_of_eq hclock.symm)

end Timed

end Concurrent
