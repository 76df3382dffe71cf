import ContextStore.Foundation.Program

/-! # Interleaved runs and the rely-guarantee rule

A `System` is a set of processes over one shared state. Each process runs one call at a time; a
step is one indivisible action of one of them, a new call, or a crash that drops a call and its
local variables. `Reachable` is every configuration some interleaving leads to.

The proof rule is rely-guarantee: `Safe` says that a call, run from a state, keeps the invariant
and promises its guarantee at each of its actions whatever the others did in between, as long as
they kept the invariant and the rely. `Discipline.sound` adds the calls of a whole system up. -/

namespace Concurrent

variable {σ τ ε α β : Type}

/-! ## Systems -/

/-- The calls each process may start (which may depend on the state at the start), and the
    states a run may pass through. -/
structure System (σ τ ε α : Type) where
  initial : σ → Prop
  calls : τ → σ → Program σ ε α → Prop
  allowed : σ → Prop := fun _ => True

structure Config (σ τ ε α : Type) where
  shared : σ
  processes : τ → Option (Program σ ε α)

variable [DecidableEq τ]

/-- Give process `t` a new program, or none. -/
def Config.assign (c : Config σ τ ε α) (t : τ) (p : Option (Program σ ε α)) : Config σ τ ε α :=
  { c with processes := Function.update c.processes t p }

/-- One move: a call is started, a call is dropped, or a live call performs one action. A call may
    be started over a running one: that is a crash and a restart. -/
inductive Step (sys : System σ τ ε α) : Config σ τ ε α → Config σ τ ε α → Prop
  | start {c : Config σ τ ε α} {t : τ} {p : Program σ ε α} (hp : sys.calls t c.shared p) :
      Step sys c (c.assign t (some p))
  | crash {c : Config σ τ ε α} {t : τ} : Step sys c (c.assign t none)
  | advance {c : Config σ τ ε α} {t : τ} {act : σ → σ} {next : σ → Program σ ε α}
      (hp : c.processes t = some (.atomic act next)) (hallowed : sys.allowed (act c.shared)) :
      Step sys c { (c.assign t (some (next c.shared))) with shared := act c.shared }

/-- Every configuration that some interleaving of calls, actions and crashes leads to. -/
inductive Reachable (sys : System σ τ ε α) : Config σ τ ε α → Prop
  | initial {s : σ} (h : sys.initial s) : Reachable sys ⟨s, fun _ => none⟩
  | step {c c' : Config σ τ ε α} (hc : Reachable sys c) (h : Step sys c c') : Reachable sys c'

/-! ## Calls that only make steps of one kind

When every action of every call is a step of one kind from whatever state it is taken, what such
steps preserve holds in every reachable configuration. -/

section Always

variable {sys : System σ τ ε α} {step : σ → σ → Prop} {c c' : Config σ τ ε α}

theorem Step.of_always (hcalls : ∀ t s p, sys.calls t s p → p.Always step)
    (hlive : ∀ t p, c.processes t = some p → p.Always step) (h : Step sys c c') :
    (c'.shared = c.shared ∨ (step c.shared c'.shared ∧ sys.allowed c'.shared)) ∧
      ∀ t p, c'.processes t = some p → p.Always step := by
  cases h with
  | @start t p hp =>
    refine ⟨Or.inl rfl, fun t' p' hp' => ?_⟩
    simp only [Config.assign, Function.update_apply] at hp'
    split at hp'
    · cases hp'
      exact hcalls _ _ _ hp
    · exact hlive t' p' hp'
  | @crash t =>
    refine ⟨Or.inl rfl, fun t' p' hp' => ?_⟩
    simp only [Config.assign, Function.update_apply] at hp'
    split at hp'
    · cases hp'
    · exact hlive t' p' hp'
  | @advance t act next hp ha =>
    obtain ⟨hact, hnext⟩ := hlive t _ hp c.shared
    refine ⟨Or.inr ⟨hact, ha⟩, fun t' p' hp' => ?_⟩
    simp only [Config.assign, Function.update_apply] at hp'
    split at hp'
    · cases hp'
      exact hnext
    · exact hlive t' p' hp'

theorem Reachable.live_always (hcalls : ∀ t s p, sys.calls t s p → p.Always step)
    (hc : Reachable sys c) : ∀ t p, c.processes t = some p → p.Always step := by
  induction hc with
  | initial h => exact fun t p hp => by simp at hp
  | step _ h ih => exact (h.of_always hcalls ih).2

/-- A move out of a reachable configuration leaves the shared state alone or makes a step. -/
theorem Reachable.step_of_always (hcalls : ∀ t s p, sys.calls t s p → p.Always step)
    (hc : Reachable sys c) (h : Step sys c c') :
    c'.shared = c.shared ∨ (step c.shared c'.shared ∧ sys.allowed c'.shared) :=
  (h.of_always hcalls (hc.live_always hcalls)).1

/-- What holds initially and is kept by steps holds in every reachable configuration. -/
theorem Reachable.invariant_of_always (step : σ → σ → Prop) (inv : σ → Prop)
    (hcalls : ∀ t s p, sys.calls t s p → p.Always step) (hinitial : ∀ s, sys.initial s → inv s)
    (hstep : ∀ s t, inv s → step s t → sys.allowed t → inv t) (hc : Reachable sys c) :
    inv c.shared := by
  induction hc with
  | initial h => exact hinitial _ h
  | step hc h ih =>
    rcases hc.step_of_always hcalls h with heq | ⟨hs, ha⟩
    · rw [heq]
      exact ih
    · exact hstep _ _ ih hs ha

end Always

/-! ## Safe calls -/

/-- From `s` on, whatever the others do within `rely` and `inv`, every action of the program that
    stays in `allowed` keeps `inv` and guarantees `guar`, and the result satisfies `post`. -/
def Safe (allowed inv : σ → Prop) (rely guar : σ → σ → Prop) :
    Program σ ε α → (Except ε α → σ → Prop) → σ → Prop
  | .done r, post, s => post r s
  | .atomic act next, post, s => ∀ u, rely s u → inv u → allowed (act u) →
      inv (act u) ∧ guar u (act u) ∧ Safe allowed inv rely guar (next u) post (act u)

namespace Safe

variable {allowed inv : σ → Prop} {rely guar : σ → σ → Prop}
  {post : Except ε α → σ → Prop} {p : Program σ ε α} {s : σ}

theorem weaken {post' : Except ε α → σ → Prop} (h : Safe allowed inv rely guar p post s)
    (hpost : ∀ r t, post r t → post' r t) : Safe allowed inv rely guar p post' s := by
  induction p generalizing s with
  | done r => exact hpost r s h
  | atomic act next ih =>
    intro u hr hi ha
    obtain ⟨h1, h2, h3⟩ := h u hr hi ha
    exact ⟨h1, h2, ih u h3⟩

theorem bind {f : α → Program σ ε β} {post : Except ε β → σ → Prop}
    (h : Safe allowed inv rely guar p (fun r t => match r with
      | .ok a => Safe allowed inv rely guar (f a) post t
      | .error e => post (.error e) t) s) :
    Safe allowed inv rely guar (p.bind f) post s := by
  induction p generalizing s with
  | done r => cases r <;> exact h
  | atomic act next ih =>
    intro u hr hi ha
    obtain ⟨h1, h2, h3⟩ := h u hr hi ha
    exact ⟨h1, h2, ih u h3⟩

theorem tryCatch {handler : ε → Program σ ε α}
    (h : Safe allowed inv rely guar p (fun r t => match r with
      | .ok a => post (.ok a) t
      | .error e => Safe allowed inv rely guar (handler e) post t) s) :
    Safe allowed inv rely guar (p.tryCatch handler) post s := by
  induction p generalizing s with
  | done r => cases r <;> exact h
  | atomic act next ih =>
    intro u hr hi ha
    obtain ⟨h1, h2, h3⟩ := h u hr hi ha
    exact ⟨h1, h2, ih u h3⟩

theorem read (hguar : ∀ u, guar u u) {f : σ → α} (h : ∀ u, rely s u → inv u → post (.ok (f u)) u) :
    Safe allowed inv rely guar (Program.read f) post s := by
  intro u hr hi _
  exact ⟨hi, hguar u, h u hr hi⟩

/-- A transaction is safe when its committing runs keep the invariant and the guarantee; one that
    throws leaves the state alone. -/
theorem transaction (hguar : ∀ u, guar u u) {body : Transaction σ ε α}
    (hok : ∀ u a t, rely s u → inv u → allowed t → body.run u = .ok (a, t) →
      inv t ∧ guar u t ∧ post (.ok a) t)
    (herr : ∀ u e, rely s u → inv u → body.run u = .error e → post (.error e) u) :
    Safe allowed inv rely guar (Program.transaction body) post s := by
  intro u hr hi ha
  cases hbody : body.run u with
  | error e =>
    simp only [hbody]
    exact ⟨hi, hguar u, herr u e hr hi hbody⟩
  | ok p =>
    obtain ⟨a, t⟩ := p
    simp only [hbody] at ha ⊢
    exact hok u a t hr hi ha hbody

/-- A program all of whose actions keep the invariant and the guarantee is safe, and leaves a state
    related to the first by whatever the rely and its own actions preserve. -/
theorem of_always (step track : σ → σ → Prop) (htrack : ∀ s u v, track s u → track u v → track s v)
    (hrefl : ∀ s, track s s) (hrely : ∀ s u, rely s u → track s u)
    (hstep : ∀ u t, step u t → inv u → inv t ∧ guar u t ∧ track u t) (hp : p.Always step) (s : σ) :
    Safe allowed inv rely guar p (fun _ t => track s t) s := by
  suffices h : ∀ s', track s s' → Safe allowed inv rely guar p (fun _ t => track s t) s' from
    h s (hrefl s)
  induction p with
  | done r => exact fun s' hs' => hs'
  | atomic act next ih =>
    intro s' hs' u hr hi _
    obtain ⟨hact, hnext⟩ := hp u
    obtain ⟨hinv, hguar, htr⟩ := hstep u (act u) hact hi
    exact ⟨hinv, hguar, ih u hnext _ (htrack _ _ _ (htrack _ _ _ hs' (hrely _ _ hr)) htr)⟩

/-- A safe program run alone keeps the invariant and satisfies its condition. -/
theorem runAlone (hrely : ∀ u, rely u u) (hallowed : ∀ u, allowed u) (hs : inv s)
    (h : Safe allowed inv rely guar p post s) :
    inv (p.runAlone s).2 ∧ post (p.runAlone s).1 (p.runAlone s).2 := by
  induction p generalizing s with
  | done r => exact ⟨hs, h⟩
  | atomic act next ih =>
    obtain ⟨hinv, -, hnext⟩ := h s (hrely s) hs (hallowed _)
    exact ih s hinv hnext

end Safe

/-! ### Results that are not errors -/

/-- A condition on the result of a call that is not rejected. -/
def OnOk (q : α → σ → Prop) : Except ε α → σ → Prop
  | .ok a, s => q a s
  | .error _, _ => True

namespace Safe

variable {allowed inv : σ → Prop} {rely guar : σ → σ → Prop} {q : β → σ → Prop} {s : σ}
  {f : α → Program σ ε β} {p : Program σ ε β}

theorem mono {q' : β → σ → Prop} (h : Safe allowed inv rely guar p (OnOk q) s)
    (hq : ∀ b t, q b t → q' b t) : Safe allowed inv rely guar p (OnOk q') s := by
  refine h.weaken fun r t hr => ?_
  cases r with
  | ok b => exact hq b t hr
  | error e => trivial

theorem ofExcept {r : Except ε β} (h : ∀ b, r = .ok b → q b s) :
    Safe allowed inv rely guar (Program.ofExcept r) (OnOk q) s := by
  cases r with
  | ok b => exact h b rfl
  | error e => trivial

/-- In sequence, with a condition between the two parts. -/
theorem seq (mid : α → σ → Prop) {p : Program σ ε α} (h : Safe allowed inv rely guar p (OnOk mid) s)
    (hf : ∀ a t, mid a t → Safe allowed inv rely guar (f a) (OnOk q) t) :
    Safe allowed inv rely guar (p.bind f) (OnOk q) s := by
  refine bind (h.weaken fun r t hr => ?_)
  cases r with
  | ok a => exact hf a t hr
  | error e => trivial

theorem seqOfExcept {r : Except ε α}
    (hf : ∀ a, r = .ok a → Safe allowed inv rely guar (f a) (OnOk q) s) :
    Safe allowed inv rely guar ((Program.ofExcept r).bind f) (OnOk q) s := by
  cases r with
  | ok a => exact hf a rfl
  | error e => trivial

theorem seqRequire {c : Prop} [Decidable c] {e : ε} {f : Unit → Program σ ε β}
    (hf : c → Safe allowed inv rely guar (f ()) (OnOk q) s) :
    Safe allowed inv rely guar ((Program.require c e).bind f) (OnOk q) s := by
  unfold Program.require
  split
  · next h => exact hf h
  · trivial

/-- A program that only reads is safe, and keeps what the others keep. -/
theorem of_readsTo {r : β → Prop} {φ : σ → Prop} (hguar : ∀ u, guar u u)
    (hrely : ∀ s u, φ s → rely s u → φ u) (hp : p.ReadsTo r) (hs : φ s) :
    Safe allowed inv rely guar p (OnOk fun b t => r b ∧ φ t) s := by
  induction p generalizing s with
  | done result =>
    cases result with
    | error e => trivial
    | ok b => exact ⟨hp, hs⟩
  | atomic act next ih =>
    intro u hr hi _
    obtain ⟨hact, hnext⟩ := hp u
    rw [hact]
    exact ⟨hi, hguar u, ih u hnext (hrely s u hs hr)⟩

/-- A loop over a list is safe when each round is, under a loop invariant that the round
    re-establishes for the rest of the list. -/
theorem forEach {f : α → Program σ ε Unit} {q : Unit → σ → Prop} (loop : List α → σ → Prop)
    (hdone : ∀ s, loop [] s → q () s)
    (hround : ∀ a rest s, loop (a :: rest) s →
      Safe allowed inv rely guar (f a) (OnOk fun _ t => loop rest t) s) :
    ∀ (l : List α) (s : σ), loop l s →
      Safe allowed inv rely guar (Program.forEach f l) (OnOk q) s := by
  intro l
  induction l with
  | nil => exact hdone
  | cons a rest ih => exact fun s hs => seq _ (hround a rest s hs) fun _ t ht => ih t ht

theorem foldl {f : β → α → Program σ ε β} (loop : β → List α → σ → Prop)
    (hdone : ∀ b s, loop b [] s → q b s)
    (hround : ∀ b a rest s, loop b (a :: rest) s →
      Safe allowed inv rely guar (f b a) (OnOk fun b' t => loop b' rest t) s) :
    ∀ (l : List α) (b : β) (s : σ), loop b l s →
      Safe allowed inv rely guar (Program.foldl f b l) (OnOk q) s := by
  intro l
  induction l with
  | nil => exact hdone
  | cons a rest ih => exact fun b s hs => seq _ (hround b a rest s hs) fun b' t ht => ih b' t ht

theorem mapResult {p : Program σ ε α} {f : α → β}
    (h : Safe allowed inv rely guar p (OnOk fun a t => q (f a) t) s) :
    Safe allowed inv rely guar (p.mapResult f) (OnOk q) s :=
  seq _ h fun _ _ ha => ha

end Safe

/-! ## The rule for live programs

The most general rule: what is said of each live program may mention the program itself. -/

section Live

variable {sys : System σ τ ε α} {c : Config σ τ ε α}

/-- An invariant of the state and a condition on every live program hold throughout when a call
    starts with its condition, its own actions keep both, and the actions of the others keep its
    condition. -/
theorem Reachable.invariant_of_live (inv : σ → Prop) (good : τ → σ → Program σ ε α → Prop)
    (hinitial : ∀ s, sys.initial s → inv s)
    (hstart : ∀ t s p, inv s → sys.calls t s p → good t s p)
    (hact : ∀ t s act next, inv s → good t s (.atomic act next) → sys.allowed (act s) →
      inv (act s) ∧ good t (act s) (next s))
    (hothers : ∀ t t' s act next p, t' ≠ t → inv s → good t s (.atomic act next) →
      sys.allowed (act s) → good t' s p → good t' (act s) p) (hc : Reachable sys c) :
    inv c.shared ∧ ∀ t p, c.processes t = some p → good t c.shared p := by
  induction hc with
  | initial h => exact ⟨hinitial _ h, fun t p hp => by simp at hp⟩
  | @step c c' _ h ih =>
    obtain ⟨hinv, hlive⟩ := ih
    cases h with
    | @start t p hp =>
      refine ⟨hinv, fun t' p' hp' => ?_⟩
      simp only [Config.assign, Function.update_apply] at hp'
      split at hp'
      · next heq =>
        subst heq
        cases hp'
        exact hstart _ _ _ hinv hp
      · exact hlive t' p' hp'
    | @crash t =>
      refine ⟨hinv, fun t' p' hp' => ?_⟩
      simp only [Config.assign, Function.update_apply] at hp'
      split at hp'
      · cases hp'
      · exact hlive t' p' hp'
    | @advance t act next hp ha =>
      obtain ⟨hinv', hnext⟩ := hact t _ _ _ hinv (hlive t _ hp) ha
      refine ⟨hinv', fun t' p' hp' => ?_⟩
      simp only [Config.assign, Function.update_apply] at hp'
      split at hp'
      · next heq =>
        subst heq
        cases hp'
        exact hnext
      · next hne => exact hothers t t' _ _ _ _ hne hinv (hlive t _ hp) ha (hlive t' p' hp')

end Live

/-! ## The rule for a whole system -/

/-- An invariant, what every action promises, and for each process what it may assume of the
    actions of the others. -/
structure Discipline (σ τ : Type) where
  inv : σ → Prop
  promise : σ → σ → Prop
  rely : τ → σ → σ → Prop
  promise_refl : ∀ s, promise s s
  rely_refl : ∀ t s, rely t s s
  rely_trans : ∀ t s u v, rely t s u → rely t u v → rely t s v

namespace Discipline

/-- What each action of process `t` owes: the promise, and what the others may assume. -/
def guar (d : Discipline σ τ) (t : τ) (s u : σ) : Prop :=
  d.promise s u ∧ ∀ t', t' ≠ t → d.rely t' s u

/-- The program of process `t` is safe from `s` on. -/
def SafeCall (d : Discipline σ τ) (sys : System σ τ ε α) (t : τ) (p : Program σ ε α)
    (post : Except ε α → σ → Prop) (s : σ) : Prop :=
  Safe sys.allowed d.inv (d.rely t) (d.guar t) p post s

omit [DecidableEq τ] in
theorem guar_refl (d : Discipline σ τ) (t : τ) (s : σ) : d.guar t s s :=
  ⟨d.promise_refl s, fun t' _ => d.rely_refl t' s⟩

/-- Every call that a process may start is safe, and leaves `post` when it finishes. -/
def Covers (d : Discipline σ τ) (sys : System σ τ ε α) (post : τ → Except ε α → σ → Prop) : Prop :=
  (∀ s, sys.initial s → d.inv s) ∧
    ∀ t s p, d.inv s → sys.calls t s p → d.SafeCall sys t p (post t) s

/-- Every live program is safe from some state that led to the present one by steps of the
    others. -/
def LiveSafe (d : Discipline σ τ) (sys : System σ τ ε α) (post : τ → Except ε α → σ → Prop)
    (c : Config σ τ ε α) : Prop :=
  ∀ t p, c.processes t = some p → ∃ s, d.rely t s c.shared ∧ d.SafeCall sys t p (post t) s

variable {d : Discipline σ τ} {sys : System σ τ ε α} {post : τ → Except ε α → σ → Prop}
  {c c' : Config σ τ ε α}

/-- What one move preserves, and what it promises. -/
theorem step (hd : d.Covers sys post) (hinv : d.inv c.shared) (hlive : d.LiveSafe sys post c)
    (h : Step sys c c') :
    d.inv c'.shared ∧ d.LiveSafe sys post c' ∧ d.promise c.shared c'.shared := by
  cases h with
  | @start t p hp =>
    refine ⟨hinv, fun t' p' hp' => ?_, d.promise_refl _⟩
    simp only [Config.assign, Function.update_apply] at hp'
    split at hp'
    · next heq =>
      subst heq
      cases hp'
      exact ⟨c.shared, d.rely_refl _ _, hd.2 _ _ _ hinv hp⟩
    · exact hlive t' p' hp'
  | @crash t =>
    refine ⟨hinv, fun t' p' hp' => ?_, d.promise_refl _⟩
    simp only [Config.assign, Function.update_apply] at hp'
    split at hp'
    · cases hp'
    · exact hlive t' p' hp'
  | @advance t act next hp ha =>
    obtain ⟨s, hrely, hsafe⟩ := hlive t _ hp
    obtain ⟨hinv', ⟨hpromise, hguar⟩, hnext⟩ := hsafe c.shared hrely hinv ha
    refine ⟨hinv', fun t' p' hp' => ?_, hpromise⟩
    simp only [Config.assign, Function.update_apply] at hp'
    split at hp'
    · next heq =>
      subst heq
      cases hp'
      exact ⟨act c.shared, d.rely_refl _ _, hnext⟩
    · next hne =>
      obtain ⟨s', hrely', hsafe'⟩ := hlive t' p' hp'
      exact ⟨s', d.rely_trans _ _ _ _ hrely' (hguar t' hne), hsafe'⟩

/-- If every call is safe, the invariant holds in every reachable configuration, whose live
    programs are safe. -/
theorem sound (hd : d.Covers sys post) (hc : Reachable sys c) :
    d.inv c.shared ∧ d.LiveSafe sys post c := by
  induction hc with
  | initial h => exact ⟨hd.1 _ h, fun t p hp => by simp at hp⟩
  | step _ h ih =>
    obtain ⟨hinv, hlive, _⟩ := step hd ih.1 ih.2 h
    exact ⟨hinv, hlive⟩

theorem invariant (hd : d.Covers sys post) (hc : Reachable sys c) : d.inv c.shared :=
  (sound hd hc).1

/-- Every move out of a reachable configuration keeps the promise. -/
theorem promise_of_step (hd : d.Covers sys post) (hc : Reachable sys c) (h : Step sys c c') :
    d.promise c.shared c'.shared :=
  (step hd (sound hd hc).1 (sound hd hc).2 h).2.2

/-- What a finished call left is true of a state from which only the others have moved on. -/
theorem post_of_finished (hd : d.Covers sys post) (hc : Reachable sys c) {t : τ}
    {r : Except ε α} (h : c.processes t = some (.done r)) :
    ∃ s, d.rely t s c.shared ∧ post t r s :=
  (sound hd hc).2 t _ h

end Discipline

/-! ## Executable schedules -/

/-- One step of a schedule. -/
inductive Move (σ τ ε α : Type) : Type where
  | start (t : τ) (p : Program σ ε α)
  | crash (t : τ)
  | advance (t : τ)

namespace Config

/-- Play one move; an `advance` of an idle or finished process does nothing. -/
def play (c : Config σ τ ε α) : Move σ τ ε α → Config σ τ ε α
  | .start t p => c.assign t (some p)
  | .crash t => c.assign t none
  | .advance t => match c.processes t with
    | some (.atomic act next) =>
      { (c.assign t (some (next c.shared))) with shared := act c.shared }
    | _ => c

/-- Play a whole schedule. -/
def playAll (c : Config σ τ ε α) (moves : List (Move σ τ ε α)) : Config σ τ ε α :=
  moves.foldl play c

end Config

/-- The result of a finished process. -/
def Config.result (c : Config σ τ ε α) (t : τ) : Option (Except ε α) :=
  match c.processes t with
  | some (.done r) => some r
  | _ => none

omit [DecidableEq τ] in
theorem Config.processes_of_result {c : Config σ τ ε α} {t : τ} {r : Except ε α}
    (h : c.result t = some r) : c.processes t = some (.done r) := by
  unfold Config.result at h
  split at h
  · next found hfound => rw [hfound, Option.some.inj h]
  · cases h

/-- A call and its first `n` actions. -/
def Move.call (t : τ) (p : Program σ ε α) (n : Nat) : List (Move σ τ ε α) :=
  .start t p :: List.replicate n (.advance t)

/-- A schedule the system allows, from this configuration on. -/
def Config.Playable (sys : System σ τ ε α) : Config σ τ ε α → List (Move σ τ ε α) → Prop
  | _, [] => True
  | c, .start t p :: rest => sys.calls t c.shared p ∧ (c.play (.start t p)).Playable sys rest
  | c, .crash t :: rest => (c.play (.crash t)).Playable sys rest
  | c, .advance t :: rest =>
    sys.allowed (c.play (.advance t)).shared ∧ (c.play (.advance t)).Playable sys rest

variable {sys : System σ τ ε α} {moves : List (Move σ τ ε α)}

theorem Config.playable_of_calls (hallowed : ∀ s, sys.allowed s)
    (hcalls : ∀ t p, .start t p ∈ moves → ∀ s, sys.calls t s p) (c : Config σ τ ε α) :
    c.Playable sys moves := by
  induction moves generalizing c with
  | nil => trivial
  | cons move rest ih =>
    have hrest := ih fun t p hp => hcalls t p (List.mem_cons_of_mem _ hp)
    cases move with
    | start t p => exact ⟨hcalls t p List.mem_cons_self c.shared, hrest _⟩
    | crash t => exact hrest _
    | advance t => exact ⟨hallowed _, hrest _⟩

theorem Config.playable_of_states (hcalls : ∀ t p, .start t p ∈ moves → ∀ s, sys.calls t s p)
    (c : Config σ τ ε α) (hstates : ∀ c' ∈ moves.scanl Config.play c, sys.allowed c'.shared) :
    c.Playable sys moves := by
  induction moves generalizing c with
  | nil => trivial
  | cons move rest ih =>
    rw [List.scanl_cons] at hstates
    have hlater := fun c' hc' => hstates c' (List.mem_cons_of_mem _ hc')
    have hrest := ih (fun t p hp => hcalls t p (List.mem_cons_of_mem _ hp)) (c.play move) hlater
    cases move with
    | start t p => exact ⟨hcalls t p List.mem_cons_self c.shared, hrest⟩
    | crash t => exact hrest
    | advance t =>
      refine ⟨hlater _ ?_, hrest⟩
      cases rest with
      | nil => exact List.mem_singleton_self _
      | cons _ _ =>
        rw [List.scanl_cons]
        exact List.mem_cons_self

variable {c : Config σ τ ε α}

theorem Config.Playable.call (hallowed : ∀ s, sys.allowed s) {t : τ} {p : Program σ ε α} {n : Nat}
    {rest : List (Move σ τ ε α)} (hp : sys.calls t c.shared p)
    (hrest : (c.playAll (Move.call t p n)).Playable sys rest) :
    c.Playable sys (Move.call t p n ++ rest) := by
  refine ⟨hp, ?_⟩
  rw [Move.call, Config.playAll, List.foldl_cons] at hrest
  generalize c.play (.start t p) = c' at hrest ⊢
  induction n generalizing c' with
  | zero => exact hrest
  | succ n ih => exact ⟨hallowed _, ih _ hrest⟩

/-- Playing a schedule that the system allows stays within the reachable configurations. -/
theorem Reachable.playAll (hc : Reachable sys c) (hmoves : c.Playable sys moves) :
    Reachable sys (c.playAll moves) := by
  induction moves generalizing c with
  | nil => exact hc
  | cons move rest ih =>
    cases move with
    | start t p => exact ih (.step hc (.start hmoves.1)) hmoves.2
    | crash t => exact ih (.step hc .crash) hmoves
    | advance t =>
      refine ih ?_ hmoves.2
      have hallowed := hmoves.1
      simp only [Config.play] at hallowed ⊢
      split
      · next act next hp =>
        simp only [hp] at hallowed
        exact .step hc (.advance hp hallowed)
      · exact hc

end Concurrent
