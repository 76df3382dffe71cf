import Mathlib.Data.List.Basic

/-! # Readers of a binary layout

A reader takes what it needs from the front of the bytes and hands on the rest. `Reads` says what a
reader makes of an encoding, whatever follows it, and `Local` that a reader which succeeds never
looks at what follows. A layout whose reader has both, and which is read to its end, takes no
strict beginning of an encoding for an encoding, and no extension of one. -/

/-- Reading elements of `α` with errors in `ε`. -/
abbrev Reader (ε α β : Type) : Type := List α → Except ε (β × List α)

namespace Reader

variable {ε α β γ σ : Type}

def pure (value : β) : Reader ε α β := fun rest => .ok (value, rest)

def bind (read : Reader ε α β) (next : β → Reader ε α γ) : Reader ε α γ := fun rest =>
  match read rest with
  | .error e => .error e
  | .ok (value, rest) => next value rest

/-- A check or another computation that reads nothing. -/
def lift (outcome : Except ε β) : Reader ε α β := fun rest => outcome.map (·, rest)

/-- `count` rounds of a loop whose variables are in `σ`. -/
def loop (step : σ → Reader ε α σ) : Nat → σ → Reader ε α σ
  | 0, s => pure s
  | count + 1, s => bind (step s) (loop step count)

/-- The reader takes everything, or it fails with `trailing`. -/
def complete (trailing : ε) (read : Reader ε α β) (bytes : List α) : Except ε β :=
  match read bytes with
  | .error e => .error e
  | .ok (value, []) => .ok value
  | .ok (_, _ :: _) => .error trailing

variable {next : β → Reader ε α γ} {read : Reader ε α β} {bytes : List α} {outcome : Except ε β}

theorem bind_eq_ok {outcome : γ × List α} :
    bind read next bytes = .ok outcome ↔
      ∃ value rest, read bytes = .ok (value, rest) ∧ next value rest = .ok outcome := by
  rw [bind]
  rcases read bytes with e | ⟨value, rest⟩
  · simp
  · simp

theorem lift_eq_ok {value : β} {rest : List α} :
    lift outcome bytes = .ok (value, rest) ↔ outcome = .ok value ∧ rest = bytes := by
  rcases outcome with e | v
  · simp [lift, Except.map]
  · simp [lift, Except.map, eq_comm]

theorem lift_bind_eq_ok {result : γ × List α} :
    bind (lift outcome) next bytes = .ok result ↔
      ∃ value, outcome = .ok value ∧ next value bytes = .ok result := by
  rw [bind_eq_ok]
  constructor
  · rintro ⟨value, rest, hvalue, hnext⟩
    obtain ⟨houtcome, rfl⟩ := lift_eq_ok.mp hvalue
    exact ⟨value, houtcome, hnext⟩
  · rintro ⟨value, houtcome, hnext⟩
    exact ⟨value, bytes, lift_eq_ok.mpr ⟨houtcome, rfl⟩, hnext⟩

/-- What every round keeps holds after the loop. -/
theorem loop_invariant {step : σ → Reader ε α σ} {inv : σ → Prop}
    (hstep : ∀ s bytes t rest, inv s → step s bytes = .ok (t, rest) → inv t) {count : Nat} {s t : σ}
    {rest : List α} (hs : inv s) (h : loop step count s bytes = .ok (t, rest)) : inv t := by
  induction count generalizing s bytes with
  | zero =>
    rw [loop, Reader.pure, Except.ok.injEq, Prod.mk.injEq] at h
    rwa [← h.1]
  | succ count ih =>
    obtain ⟨u, middle, hfirst, hrest⟩ := bind_eq_ok.mp h
    exact ih (hstep s bytes u middle hs hfirst) hrest

theorem complete_eq_ok {trailing : ε} {value : β} :
    complete trailing read bytes = .ok value ↔ read bytes = .ok (value, []) := by
  rw [complete]
  rcases read bytes with e | ⟨v, _ | ⟨a, rest⟩⟩
  · simp
  · simp
  · simp

/-! ## What a reader makes of an encoding -/

def Reads (read : Reader ε α β) (bytes : List α) (value : β) : Prop :=
  ∀ rest, read (bytes ++ rest) = .ok (value, rest)

theorem Reads.pure (value : β) : Reads (Reader.pure value : Reader ε α β) [] value := by
  intro rest
  rfl

theorem Reads.bind {first second : List α} {b : β} {c : γ} (hfirst : Reads read first b)
    (hsecond : Reads (next b) second c) : Reads (Reader.bind read next) (first ++ second) c := by
  intro rest
  rw [List.append_assoc]
  exact bind_eq_ok.mpr ⟨b, second ++ rest, hfirst _, hsecond rest⟩

theorem Reads.lift {value : β} (h : outcome = .ok value) :
    Reads (Reader.lift outcome : Reader ε α β) [] value := by
  intro rest
  exact lift_eq_ok.mpr ⟨h, rfl⟩

/-- A check takes no part in the encoding. -/
theorem Reads.lift_bind
    {b : β} {c : γ} (hcheck : outcome = .ok b) (hnext : Reads (next b) bytes c) :
    Reads (Reader.bind (Reader.lift outcome) next) bytes c :=
  Reads.bind (Reads.lift hcheck) hnext

/-- The last reader of a chain may read nothing. -/
theorem Reads.bind_nil {b : β} {c : γ} (hread : Reads read bytes b) (hnext : Reads (next b) [] c) :
    Reads (Reader.bind read next) bytes c := by
  have h := Reads.bind hread hnext
  rwa [List.append_nil] at h

theorem Reads.loop {step : List β → Reader ε α (List β)} {encode : β → List α} (items done : List β)
    (h : ∀ before item after, done ++ items = before ++ item :: after →
      Reads (step before) (encode item) (before ++ [item])) :
    Reads (Reader.loop step items.length done) (items.flatMap encode) (done ++ items) := by
  induction items generalizing done with
  | nil =>
    rw [List.append_nil]
    exact Reads.pure done
  | cons item items ih =>
    have hfirst := h done item items rfl
    have hrest : Reads (Reader.loop step items.length (done ++ [item]))
        (items.flatMap encode) (done ++ [item] ++ items) := by
      refine ih (done ++ [item]) fun before x after hsplit => h before x after ?_
      rw [← hsplit, List.append_assoc, List.singleton_append]
    rw [List.append_assoc, List.singleton_append] at hrest
    exact Reads.bind hfirst hrest

/-! ## Readers that do not look ahead -/

/-- What the reader makes of bytes that suffice does not change with more bytes behind them. -/
def Local (read : Reader ε α β) : Prop :=
  ∀ bytes value rest more, read bytes = .ok (value, rest) →
    read (bytes ++ more) = .ok (value, rest ++ more)

theorem Local.pure (value : β) : Local (Reader.pure value : Reader ε α β) := by
  intro bytes v rest more h
  rw [Reader.pure, Except.ok.injEq, Prod.mk.injEq] at h
  rw [Reader.pure, h.1, h.2]

theorem Local.lift (outcome : Except ε β) : Local (Reader.lift outcome : Reader ε α β) := by
  intro bytes v rest more h
  have h := lift_eq_ok.mp h
  exact lift_eq_ok.mpr ⟨h.1, by rw [h.2]⟩

theorem Local.bind (hread : Local read) (hnext : ∀ b, Local (next b)) :
    Local (Reader.bind read next) := by
  intro bytes c rest more h
  obtain ⟨b, middle, hfirst, hsecond⟩ := bind_eq_ok.mp h
  exact bind_eq_ok.mpr ⟨b, middle ++ more, hread _ _ _ more hfirst, hnext b _ _ _ more hsecond⟩

theorem Local.loop {step : σ → Reader ε α σ} (hstep : ∀ s, Local (step s)) (count : Nat) (s : σ) :
    Local (Reader.loop step count s) := by
  induction count generalizing s with
  | zero => exact Local.pure s
  | succ count ih => exact Local.bind (hstep s) ih

/-! ## Beginnings and extensions of an encoding -/

variable {read : Reader ε α β} {bytes : List α} {value : β}

theorem Reads.complete_eq (h : Reads read bytes value) (trailing : ε) :
    complete trailing read bytes = .ok value := by
  have hall := h []
  rw [List.append_nil] at hall
  exact complete_eq_ok.mpr hall

theorem Reads.complete_append_ne_ok (h : Reads read bytes value) (trailing : ε) {more : List α}
    (hmore : more ≠ []) (other : β) : complete trailing read (bytes ++ more) ≠ .ok other := by
  intro hok
  have hall := complete_eq_ok.mp hok
  rw [h more, Except.ok.injEq, Prod.mk.injEq] at hall
  exact hmore hall.2

theorem Local.complete_ne_ok (hlocal : Local read) (trailing : ε) {first more : List α}
    (h : Reads read (first ++ more) value) (hmore : more ≠ []) (other : β) :
    complete trailing read first ≠ .ok other := by
  intro hok
  have hfirst := hlocal _ _ _ more (complete_eq_ok.mp hok)
  have hall := h []
  rw [List.append_nil, hfirst, Except.ok.injEq, Prod.mk.injEq] at hall
  exact hmore hall.2

end Reader
