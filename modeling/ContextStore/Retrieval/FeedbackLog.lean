import ContextStore.Foundation.Totals
import ContextStore.Foundation.Transitions
import ContextStore.Retrieval.Feedback

/-! # The feedback log over runs

What the stored events, the locator index and the recall counters say about the log, over any
sequence of calls. An event that is evicted takes the index entries of its locators along, also
those that a newer event has written since. -/

namespace ContextStore.Feedback

open Unicode Totals

variable {Digest Score : Type} [DecidableEq Digest]

/-! ## Counter names -/

theorem counterName_ne_recallCounterName (project project' documentId : Text) (version : Nat) :
    counterName project ≠ recallCounterName project' documentId version := by
  intro h
  -- the names differ behind "relevance-feedback"
  have hunit := congrArg (fun name : Text => name[18]?) h
  simp only [counterName, recallCounterName, List.append_assoc] at hunit
  rw [List.getElem?_append_left (by decide), List.getElem?_append_left (by decide)] at hunit
  exact absurd hunit (by decide)

theorem append_separator_inj {c : UInt16} {a b x y : Text} (hx : c ∉ x) (hy : c ∉ y)
    (h : a ++ c :: x = b ++ c :: y) : a = b ∧ x = y := by
  rcases List.append_eq_append_iff.mp h with ⟨m, rfl, hm⟩ | ⟨m, rfl, hm⟩
  · cases m with
    | nil => simpa using hm
    | cons u m =>
      obtain ⟨-, rfl⟩ := List.cons.inj hm
      exact absurd (by simp) hx
  · cases m with
    | nil => simpa [eq_comm] using hm
    | cons u m =>
      obtain ⟨-, rfl⟩ := List.cons.inj hm
      exact absurd (by simp) hy

theorem colon_notMem_decimal (n : Nat) : (0x3a : UInt16) ∉ Json.decimal n := fun hmem =>
  absurd (Json.decimal_digits hmem) (by decide)

theorem recallCounterName_inj {project documentId documentId' : Text} {version version' : Nat}
    (h : recallCounterName project documentId version =
      recallCounterName project documentId' version') :
    documentId = documentId' ∧ version = version' := by
  have hcolon : text ":" = [0x3a] := by decide
  simp only [recallCounterName, hcolon, List.append_assoc, List.append_cancel_left_eq,
    List.cons_append, List.nil_append, List.cons.injEq, true_and] at h
  obtain ⟨hid, hversion⟩ :=
    append_separator_inj (colon_notMem_decimal _) (colon_notMem_decimal _) h
  refine ⟨hid, ?_⟩
  rw [← Json.digitsValue_decimal version, hversion, Json.digitsValue_decimal]

/-! ## What the loops leave -/

/-- Some entry has the fingerprint. -/
def Shows (entries : List (ShownEntry Digest Score)) (fingerprint : Digest) : Prop :=
  ∃ entry ∈ entries, entry.locatorFingerprint = fingerprint

instance (entries : List (ShownEntry Digest Score)) (fingerprint : Digest) :
    Decidable (Shows entries fingerprint) :=
  inferInstanceAs (Decidable (∃ entry ∈ entries, entry.locatorFingerprint = fingerprint))

omit [DecidableEq Digest] in
@[simp]
theorem shows_nil (fingerprint : Digest) :
    ¬ Shows ([] : List (ShownEntry Digest Score)) fingerprint := by
  simp [Shows]

omit [DecidableEq Digest] in
@[simp]
theorem shows_cons (entry : ShownEntry Digest Score) (rest : List (ShownEntry Digest Score))
    (fingerprint : Digest) : Shows (entry :: rest) fingerprint ↔
      entry.locatorFingerprint = fingerprint ∨ Shows rest fingerprint := by
  simp [Shows]

variable {project name : Text} {seq sequence : Nat} {fingerprint : Digest}
variable {feedback : FeedbackStore Digest Score}

@[simp]
theorem counter_indexShown (entries : List (ShownEntry Digest Score))
    (feedback : FeedbackStore Digest Score) :
    (indexShown project sequence entries feedback).counter name = feedback.counter name := by
  induction entries generalizing feedback with
  | nil => rfl
  | cons entry rest ih => simp [indexShown, ih]

@[simp]
theorem event_indexShown (entries : List (ShownEntry Digest Score))
    (feedback : FeedbackStore Digest Score) :
    (indexShown project sequence entries feedback).event project seq =
      feedback.event project seq := by
  induction entries generalizing feedback with
  | nil => rfl
  | cons entry rest ih => simp [indexShown, ih]

@[simp]
theorem log_indexShown (entries : List (ShownEntry Digest Score))
    (feedback : FeedbackStore Digest Score) :
    (indexShown project sequence entries feedback).log = feedback.log := by
  induction entries generalizing feedback with
  | nil => rfl
  | cons entry rest ih => simp [indexShown, ih]

theorem locator_indexShown_of_not_shows {entries : List (ShownEntry Digest Score)}
    (h : ¬ Shows entries fingerprint) (feedback : FeedbackStore Digest Score) :
    (indexShown project sequence entries feedback).locator project fingerprint =
      feedback.locator project fingerprint := by
  induction entries generalizing feedback with
  | nil => rfl
  | cons entry rest ih =>
    obtain ⟨hne, hrest⟩ := not_or.mp ((shows_cons entry rest fingerprint).not.mp h)
    rw [indexShown, ih hrest, FeedbackStore.locator_putLocator_of_ne (Ne.symm hne)]

theorem locator_indexShown {entries : List (ShownEntry Digest Score)}
    (h : Shows entries fingerprint) (feedback : FeedbackStore Digest Score) :
    ∃ entry ∈ entries, entry.locatorFingerprint = fingerprint ∧
      (indexShown project sequence entries feedback).locator project fingerprint =
        some { seq := sequence, rank := entry.rank } := by
  induction entries generalizing feedback with
  | nil => exact absurd h (shows_nil fingerprint)
  | cons entry rest ih =>
    by_cases hrest : Shows rest fingerprint
    · obtain ⟨other, hmem, heq, hlocator⟩ := ih hrest (feedback.putLocator project _ _)
      exact ⟨other, List.mem_cons_of_mem _ hmem, heq, hlocator⟩
    · -- the last entry with the fingerprint stays
      rcases (shows_cons entry rest fingerprint).mp h with rfl | h
      · refine ⟨entry, List.mem_cons_self, rfl, ?_⟩
        rw [indexShown, locator_indexShown_of_not_shows hrest,
          FeedbackStore.locator_putLocator_self]
      · exact absurd h hrest

@[simp]
theorem counter_unindexShown (entries : List (ShownEntry Digest Score))
    (feedback : FeedbackStore Digest Score) :
    (unindexShown project entries feedback).counter name = feedback.counter name := by
  induction entries generalizing feedback with
  | nil => rfl
  | cons entry rest ih => simp [unindexShown, ih]

@[simp]
theorem event_unindexShown (entries : List (ShownEntry Digest Score))
    (feedback : FeedbackStore Digest Score) :
    (unindexShown project entries feedback).event project seq = feedback.event project seq := by
  induction entries generalizing feedback with
  | nil => rfl
  | cons entry rest ih => simp [unindexShown, ih]

@[simp]
theorem log_unindexShown (entries : List (ShownEntry Digest Score))
    (feedback : FeedbackStore Digest Score) :
    (unindexShown project entries feedback).log = feedback.log := by
  induction entries generalizing feedback with
  | nil => rfl
  | cons entry rest ih => simp [unindexShown, ih]

theorem locator_unindexShown (entries : List (ShownEntry Digest Score))
    (feedback : FeedbackStore Digest Score) :
    (unindexShown project entries feedback).locator project fingerprint =
      if Shows entries fingerprint then none else feedback.locator project fingerprint := by
  induction entries generalizing feedback with
  | nil => simp [unindexShown]
  | cons entry rest ih =>
    rw [unindexShown, ih]
    by_cases heq : fingerprint = entry.locatorFingerprint
    · subst heq
      simp
    · rw [FeedbackStore.locator_removeLocator_of_ne heq]
      simp [Ne.symm heq]

/-! ## What a call leaves -/

variable {sha256 : Text → Digest} {toLocaleLowerCase : Text → Text} {maxEvents : Int}

/-- The event that logging one more search evicts. -/
def evicted (maxEvents : Int) (project : Text) (feedback : FeedbackStore Digest Score) :
    Option (Event Digest Score) :=
  let evictSeq := (feedback.counter (counterName project) + 1 : Int) - maxEvents
  if 1 ≤ evictSeq then feedback.event project evictSeq.toNat else none

@[simp]
theorem counter_evict (evictSeq : Int) (feedback : FeedbackStore Digest Score) :
    (evict project evictSeq feedback).counter name = feedback.counter name := by
  rw [evict]
  split
  · split <;> simp
  · rfl

@[simp]
theorem log_evict (evictSeq : Int) (feedback : FeedbackStore Digest Score) :
    (evict project evictSeq feedback).log = feedback.log := by
  rw [evict]
  split
  · split <;> simp
  · rfl

theorem event_evict (evictSeq : Int) (feedback : FeedbackStore Digest Score) :
    (evict project evictSeq feedback).event project seq =
      if 1 ≤ seq ∧ evictSeq = seq then none else feedback.event project seq := by
  rw [evict]
  split
  · by_cases heq : evictSeq = seq
    · obtain rfl : evictSeq.toNat = seq := by omega
      rw [if_pos ⟨by omega, heq⟩]
      split
      · exact FeedbackStore.event_removeEvent_self
      · assumption
    · rw [if_neg (by omega)]
      split
      · rw [FeedbackStore.event_removeEvent_of_ne (by omega), event_unindexShown]
      · rfl
  · rw [if_neg (by omega)]

/-- The locators of the evicted event lose their index entries, the others keep theirs. -/
theorem locator_evict (evictSeq : Int) (feedback : FeedbackStore Digest Score) :
    (evict project evictSeq feedback).locator project fingerprint =
      if 1 ≤ evictSeq ∧ (feedback.event project evictSeq.toNat).any
          (fun stale => decide (Shows stale.shown fingerprint)) then none
      else feedback.locator project fingerprint := by
  rw [evict]
  split
  · next hle =>
    cases hevent : feedback.event project evictSeq.toNat with
    | none => simp
    | some stale => simp [locator_unindexShown, hle]
  · next hlt => simp [hlt]

variable (sha256 toLocaleLowerCase) (call : ShownResults Score)

@[simp]
theorem counter_logShown_self :
    (logShown sha256 toLocaleLowerCase maxEvents project call feedback).counter
      (counterName project) = feedback.counter (counterName project) + 1 := by
  simp [logShown]

theorem counter_logShown_of_ne (h : name ≠ counterName project) :
    (logShown sha256 toLocaleLowerCase maxEvents project call feedback).counter name =
      feedback.counter name := by
  simp [logShown, FeedbackStore.counter_increment_of_ne h]

theorem log_logShown (h : feedback.counter (counterName project) = feedback.log.length) :
    (logShown sha256 toLocaleLowerCase maxEvents project call feedback).log =
      feedback.log ++ [loggedEvent sha256 toLocaleLowerCase project (feedback.log.length + 1)
        call] := by
  simp [logShown, FeedbackStore.putEvent, h]

theorem event_logShown :
    (logShown sha256 toLocaleLowerCase maxEvents project call feedback).event project seq =
      if 1 ≤ seq ∧ (feedback.counter (counterName project) + 1 : Int) - maxEvents = seq then none
      else if seq = feedback.counter (counterName project) + 1 then
        some (loggedEvent sha256 toLocaleLowerCase project seq call)
      else feedback.event project seq := by
  rw [logShown, event_evict]
  push_cast
  split
  · rfl
  · rw [event_indexShown]
    split
    · next heq => rw [heq, FeedbackStore.event_putEvent_self]
    · next hne => rw [FeedbackStore.event_putEvent_of_ne hne, FeedbackStore.event_increment]

theorem locator_logShown (hmax : 0 < maxEvents) :
    (logShown sha256 toLocaleLowerCase maxEvents project call feedback).locator project
        fingerprint =
      if (evicted maxEvents project feedback).any
          (fun stale => decide (Shows stale.shown fingerprint)) then none
      else (indexShown project (feedback.counter (counterName project) + 1)
        (shownEntries sha256 call.results)
        ((feedback.increment (counterName project)).putEvent project
          (feedback.counter (counterName project) + 1)
          (loggedEvent sha256 toLocaleLowerCase project
            (feedback.counter (counterName project) + 1) call))).locator project fingerprint := by
  rw [logShown, locator_evict, evicted]
  push_cast
  by_cases hle : 1 ≤ (feedback.counter (counterName project) + 1 : Int) - maxEvents
  · rw [event_indexShown, FeedbackStore.event_putEvent_of_ne (by omega)]
    simp [hle, loggedEvent]
  · simp [hle, loggedEvent]

theorem locator_logShown_of_evicted (hmax : 0 < maxEvents) {stale : Event Digest Score}
    (hstale : evicted maxEvents project feedback = some stale)
    (hshows : Shows stale.shown fingerprint) :
    (logShown sha256 toLocaleLowerCase maxEvents project call feedback).locator project
      fingerprint = none := by
  rw [locator_logShown _ _ call hmax, hstale]
  simp [hshows]

theorem not_any_evicted (hkept : ∀ stale, evicted maxEvents project feedback = some stale →
    ¬ Shows stale.shown fingerprint) :
    ¬ (evicted maxEvents project feedback).any
      (fun stale => decide (Shows stale.shown fingerprint)) = true := by
  cases hevicted : evicted maxEvents project feedback with
  | none => simp
  | some stale => simpa using hkept stale hevicted

theorem locator_logShown_of_shown (hmax : 0 < maxEvents)
    (hkept : ∀ stale, evicted maxEvents project feedback = some stale →
      ¬ Shows stale.shown fingerprint)
    (hshows : Shows (shownEntries sha256 call.results) fingerprint) :
    ∃ entry ∈ shownEntries sha256 call.results, entry.locatorFingerprint = fingerprint ∧
      (logShown sha256 toLocaleLowerCase maxEvents project call feedback).locator project
        fingerprint =
          some { seq := feedback.counter (counterName project) + 1, rank := entry.rank } := by
  rw [locator_logShown _ _ call hmax, if_neg (not_any_evicted hkept)]
  exact locator_indexShown hshows _

theorem locator_logShown_of_not_shown (hmax : 0 < maxEvents)
    (hkept : ∀ stale, evicted maxEvents project feedback = some stale →
      ¬ Shows stale.shown fingerprint)
    (hnot : ¬ Shows (shownEntries sha256 call.results) fingerprint) :
    (logShown sha256 toLocaleLowerCase maxEvents project call feedback).locator project
      fingerprint = feedback.locator project fingerprint := by
  rw [locator_logShown _ _ call hmax, if_neg (not_any_evicted hkept),
    locator_indexShown_of_not_shows hnot]
  simp

/-! ### A joined recall -/

variable {event : Event Digest Score} {status : Option Text}

@[simp]
theorem event_tally (feedback : FeedbackStore Digest Score) :
    (tally project event fingerprint status feedback).event project seq =
      feedback.event project seq := by
  rw [tally]
  split
  · split <;> simp
  · rfl

@[simp]
theorem locator_tally {fingerprint' : Digest} (feedback : FeedbackStore Digest Score) :
    (tally project event fingerprint status feedback).locator project fingerprint' =
      feedback.locator project fingerprint' := by
  rw [tally]
  split
  · split <;> simp
  · rfl

@[simp]
theorem log_tally (feedback : FeedbackStore Digest Score) :
    (tally project event fingerprint status feedback).log = feedback.log := by
  rw [tally]
  split
  · split <;> simp
  · rfl

@[simp]
theorem counter_tally (feedback : FeedbackStore Digest Score) :
    (tally project event fingerprint status feedback).counter (counterName project) =
      feedback.counter (counterName project) := by
  rw [tally]
  split
  · split
    · exact FeedbackStore.counter_increment_of_ne (counterName_ne_recallCounterName _ _ _ _)
    · rfl
  · rfl

/-- The recorded recall is resolved, and its locator showed the document version. -/
def Resolves (documentId : Text) (version : Nat) (event : Event Digest Score)
    (recorded : Recall Digest) : Bool :=
  recorded.status = some (text "resolved") ∧
    (event.shown.find? (·.locatorFingerprint = recorded.locatorFingerprint)).any fun entry =>
      entry.documentId = documentId ∧ entry.version = version

theorem recallCounter_tally (documentId : Text) (version : Nat) (now : Int)
    (feedback : FeedbackStore Digest Score) :
    (tally project event fingerprint status feedback).counter
        (recallCounterName project documentId version) =
      feedback.counter (recallCounterName project documentId version) +
        if Resolves documentId version event
          { locatorFingerprint := fingerprint, recalledAt := now, status } then 1 else 0 := by
  rw [tally]
  by_cases hstatus : status = some (text "resolved")
  · rw [if_pos hstatus]
    cases hfind : event.shown.find? (·.locatorFingerprint = fingerprint) with
    | none => simp [Resolves, hfind]
    | some entry =>
      by_cases hversion : entry.documentId = documentId ∧ entry.version = version
      · obtain ⟨rfl, rfl⟩ := hversion
        simp [Resolves, hfind, hstatus]
      · have hne : recallCounterName project documentId version ≠
            recallCounterName project entry.documentId entry.version := by
          intro heq
          obtain ⟨rfl, rfl⟩ := recallCounterName_inj heq
          exact hversion ⟨rfl, rfl⟩
        simp [Resolves, hfind, FeedbackStore.counter_increment_of_ne hne, hversion]
  · simp [Resolves, hstatus]

end ContextStore.Feedback
