import ContextStore.Foundation.Program
import ContextStore.Retrieval.FeedbackLog

/-! # Runs of the feedback log

`Consistent` holds after every sequence of calls. That every shown locator of a stored event has an
index entry (`Covered`) is kept by exactly the calls that evict no event with a locator that a newer
event shows as well. -/

namespace ContextStore.Feedback

open Unicode Totals Concurrent

variable {Digest Score : Type} [DecidableEq Digest]

/-! ## The invariant -/

/-- The sequence is one of the last `maxEvents` of `count`. -/
def Retained (maxEvents : Int) (count seq : Nat) : Prop :=
  1 ≤ seq ∧ seq ≤ count ∧ (count : Int) < seq + maxEvents

/-- How many locators of the event have a resolved recall of the document version. -/
def resolvedRecalls (documentId : Text) (version : Nat) (event : Event Digest Score) : Int :=
  event.recalls.countP (Resolves documentId version event)

theorem resolvedRecalls_addRecall (documentId : Text) (version : Nat)
    (event : Event Digest Score) (recorded : Recall Digest) :
    resolvedRecalls documentId version (event.addRecall recorded) =
      resolvedRecalls documentId version event +
        if Resolves documentId version event recorded then 1 else 0 := by
  have hcount : event.recalls.countP (Resolves documentId version (event.addRecall recorded)) =
      event.recalls.countP (Resolves documentId version event) := rfl
  have hlast : Resolves documentId version (event.addRecall recorded) recorded =
      Resolves documentId version event recorded := rfl
  rw [resolvedRecalls, resolvedRecalls, Event.addRecall, List.countP_append, List.countP_singleton]
  push_cast
  rw [← hlast, ← hcount, Event.addRecall]

structure Consistent (maxEvents : Int) (project : Text) (feedback : FeedbackStore Digest Score) :
    Prop where
  counted : feedback.counter (counterName project) = feedback.log.length
  seq_eq : ∀ (i : Nat) event, feedback.log[i]? = some event → event.seq = i + 1
  stored : ∀ seq event, feedback.event project seq = some event ↔
    Retained maxEvents feedback.log.length seq ∧ feedback.log[seq - 1]? = some event
  indexed : ∀ fingerprint index, feedback.locator project fingerprint = some index →
    ∃ event, feedback.event project index.seq = some event ∧ ∃ entry ∈ event.shown,
      entry.locatorFingerprint = fingerprint ∧ entry.rank = index.rank
  recalled_once : ∀ event ∈ feedback.log, (event.recalls.map (·.locatorFingerprint)).Nodup
  recalled_shown : ∀ event ∈ feedback.log, ∀ recorded ∈ event.recalls,
    Shows event.shown recorded.locatorFingerprint
  tallied : ∀ documentId version,
    (feedback.counter (recallCounterName project documentId version) : Int) =
      total (resolvedRecalls documentId version) feedback.log

/-- Every shown entry of a stored event has an index entry. -/
def Covered (project : Text) (feedback : FeedbackStore Digest Score) : Prop :=
  ∀ seq event, feedback.event project seq = some event → ∀ entry ∈ event.shown,
    (feedback.locator project entry.locatorFingerprint).isSome

/-- No locator of the event that the call evicts is shown by another stored event or by the results
that the call logs. -/
def EvictsUnshared (sha256 : Text → Digest) (maxEvents : Int) (project : Text)
    (feedback : FeedbackStore Digest Score) (call : ShownResults Score) : Prop :=
  ∀ stale, evicted maxEvents project feedback = some stale →
    ∀ fingerprint, Shows stale.shown fingerprint →
      ¬ Shows (shownEntries sha256 call.results) fingerprint ∧
      ∀ seq event, feedback.event project seq = some event → seq ≠ stale.seq →
        ¬ Shows event.shown fingerprint

variable {sha256 : Text → Digest} {toLocaleLowerCase : Text → Text} {maxEvents : Int}
variable {project : Text} {feedback : FeedbackStore Digest Score}

namespace Consistent

variable (h : Consistent maxEvents project feedback)
include h

variable {event : Event Digest Score}

theorem seq_ne_zero {seq : Nat} (hevent : feedback.event project seq = some event) : seq ≠ 0 := by
  have hretained := ((h.stored seq event).mp hevent).1
  exact Nat.one_le_iff_ne_zero.mp hretained.1

theorem event_seq {seq : Nat} (hevent : feedback.event project seq = some event) :
    event.seq = seq := by
  have hlog := h.seq_eq _ _ ((h.stored seq event).mp hevent).2
  have hne := h.seq_ne_zero hevent
  omega

/-- The evicted event is the one `maxEvents` sequences back. -/
theorem evicted_eq_some_iff {stale : Event Digest Score} :
    evicted maxEvents project feedback = some stale ↔
      feedback.event project stale.seq = some stale ∧
        (feedback.counter (counterName project) + 1 : Int) - maxEvents = stale.seq := by
  rw [evicted]
  constructor
  · intro hevicted
    split at hevicted
    · have hseq := h.event_seq hevicted
      exact ⟨hseq ▸ hevicted, by omega⟩
    · cases hevicted
  · rintro ⟨hevent, heq⟩
    have hne := h.seq_ne_zero hevent
    rw [if_pos (by omega), show (_ - maxEvents).toNat = stale.seq by omega]
    exact hevent

/-! ### Logging a search -/

variable (sha256 toLocaleLowerCase) (call : ShownResults Score)

theorem stored_logShown (hmax : 0 < maxEvents) (seq : Nat) (event : Event Digest Score) :
    (logShown sha256 toLocaleLowerCase maxEvents project call feedback).event project seq =
        some event ↔
      Retained maxEvents (feedback.log.length + 1) seq ∧
        (feedback.log ++ [loggedEvent sha256 toLocaleLowerCase project
          (feedback.log.length + 1) call])[seq - 1]? = some event := by
  rw [event_logShown, h.counted]
  by_cases hzero : seq = 0
  · subst hzero
    rw [if_neg (by omega), if_neg (by omega), h.stored]
    simp [Retained]
  by_cases hevicted : (feedback.log.length + 1 : Int) - maxEvents = seq
  · rw [if_pos ⟨by omega, hevicted⟩]
    simp only [reduceCtorEq, false_iff, not_and]
    intro hretained
    exact absurd hretained.2.2 (by omega)
  rw [if_neg (by omega)]
  by_cases hnew : seq = feedback.log.length + 1
  · subst hnew
    simp only [if_true, Nat.add_sub_cancel, List.getElem?_concat_length, Option.some.injEq,
      iff_and_self]
    intro _
    exact ⟨by omega, by omega, by omega⟩
  · rw [if_neg hnew, h.stored]
    have hiff : Retained maxEvents feedback.log.length seq ↔
        Retained maxEvents (feedback.log.length + 1) seq := by
      simp only [Retained]
      omega
    rw [hiff]
    refine and_congr_right fun hretained => ?_
    rw [List.getElem?_append_left (by have := hretained.2.1; omega)]

theorem stored_loggedEvent (hmax : 0 < maxEvents) :
    (Feedback.logShown sha256 toLocaleLowerCase maxEvents project call feedback).event project
        (feedback.counter (counterName project) + 1) =
      some (loggedEvent sha256 toLocaleLowerCase project (feedback.log.length + 1) call) := by
  rw [h.counted, h.stored_logShown sha256 toLocaleLowerCase call hmax]
  exact ⟨⟨by omega, Nat.le_refl _, by omega⟩, by simp⟩

variable {event : Event Digest Score} {fingerprint : Digest} {seq : Nat} {index : LocatorIndex}

theorem event_logShown_of_kept (hevent : feedback.event project seq = some event)
    (hkept : evicted maxEvents project feedback ≠ some event) :
    (Feedback.logShown sha256 toLocaleLowerCase maxEvents project call feedback).event project
      seq = some event := by
  have hseq := h.event_seq hevent
  have hretained := ((h.stored _ _).mp hevent).1
  rw [event_logShown, if_neg, if_neg, hevent]
  · rw [h.counted]
    have := hretained.2.1
    omega
  · rintro ⟨-, hback⟩
    exact hkept (h.evicted_eq_some_iff.mpr ⟨hseq ▸ hevent, by rw [hseq, hback]⟩)

/-- An event stored afterwards is the new one, or was stored and is not evicted. -/
theorem event_of_logShown (hmax : 0 < maxEvents)
    (hevent : (Feedback.logShown sha256 toLocaleLowerCase maxEvents project call feedback).event
      project seq = some event) :
    event = loggedEvent sha256 toLocaleLowerCase project (feedback.log.length + 1) call ∨
      (feedback.event project seq = some event ∧
        evicted maxEvents project feedback ≠ some event) := by
  by_cases hnew : seq = feedback.counter (counterName project) + 1
  · subst hnew
    rw [h.stored_loggedEvent sha256 toLocaleLowerCase call hmax] at hevent
    exact .inl (Option.some.inj hevent).symm
  · rw [event_logShown, if_neg hnew] at hevent
    split at hevent
    · cases hevent
    · next hback =>
      refine .inr ⟨hevent, fun hevicted => hback ?_⟩
      obtain ⟨-, hseq⟩ := h.evicted_eq_some_iff.mp hevicted
      rw [← h.event_seq hevent]
      exact ⟨by have := h.seq_ne_zero hevent; have := h.event_seq hevent; omega, hseq⟩

theorem indexed_logShown (hmax : 0 < maxEvents)
    (hindex : (Feedback.logShown sha256 toLocaleLowerCase maxEvents project call
      feedback).locator project fingerprint = some index) :
    ∃ event, (Feedback.logShown sha256 toLocaleLowerCase maxEvents project call feedback).event
        project index.seq = some event ∧
      ∃ entry ∈ event.shown, entry.locatorFingerprint = fingerprint ∧ entry.rank = index.rank := by
  by_cases hkept : ∀ stale, evicted maxEvents project feedback = some stale →
      ¬ Shows stale.shown fingerprint
  · by_cases hshown : Shows (shownEntries sha256 call.results) fingerprint
    · obtain ⟨entry, hmem, heq, hlocator⟩ := locator_logShown_of_shown
        sha256 toLocaleLowerCase call hmax hkept hshown
      obtain rfl := Option.some.inj (hindex.symm.trans hlocator)
      exact ⟨_, h.stored_loggedEvent sha256 toLocaleLowerCase call hmax, entry, hmem, heq, rfl⟩
    · -- an index entry that was there before, of an event that stays
      rw [locator_logShown_of_not_shown _ _ call hmax hkept hshown] at hindex
      obtain ⟨event, hevent, entry, hmem, heq, hrank⟩ := h.indexed _ _ hindex
      refine ⟨event, h.event_logShown_of_kept sha256 toLocaleLowerCase call hevent ?_, entry,
        hmem, heq, hrank⟩
      intro hevicted
      exact hkept event hevicted ⟨entry, hmem, heq⟩
  · push Not at hkept
    obtain ⟨stale, hstale, hshows⟩ := hkept
    rw [locator_logShown_of_evicted _ _ call hmax hstale hshows] at hindex
    cases hindex

theorem logShown (hmax : 0 < maxEvents) : Consistent maxEvents project
    (logShown sha256 toLocaleLowerCase maxEvents project call feedback) := by
  have hlog : (Feedback.logShown sha256 toLocaleLowerCase maxEvents project call feedback).log = _ :=
    log_logShown _ _ call h.counted
  refine ⟨?_, ?_, ?_, ?_, ?_, ?_, ?_⟩
  · rw [counter_logShown_self, hlog, h.counted, List.length_append, List.length_singleton]
  · intro i event hevent
    rw [hlog, List.getElem?_append] at hevent
    split at hevent
    · exact h.seq_eq i event hevent
    · obtain ⟨hi, rfl⟩ := List.getElem?_eq_some_iff.mp hevent
      rw [List.length_singleton] at hi
      simp only [List.getElem_singleton, loggedEvent]
      omega
  · intro seq event
    rw [h.stored_logShown sha256 toLocaleLowerCase call hmax, hlog, List.length_append,
      List.length_singleton]
  · intro fingerprint index hindex
    exact h.indexed_logShown sha256 toLocaleLowerCase call hmax hindex
  · intro event hmem
    rw [hlog] at hmem
    rcases List.mem_append.mp hmem with hmem | hmem
    · exact h.recalled_once event hmem
    · rw [List.mem_singleton.mp hmem]
      exact List.nodup_nil
  · intro event hmem
    rw [hlog] at hmem
    rcases List.mem_append.mp hmem with hmem | hmem
    · exact h.recalled_shown event hmem
    · rw [List.mem_singleton.mp hmem]
      intro recorded hrecall
      cases hrecall
  · intro documentId version
    rw [counter_logShown_of_ne _ _ _ (counterName_ne_recallCounterName _ _ _ _).symm, hlog,
      h.tallied, total_append]
    simp [resolvedRecalls, loggedEvent]

/-- Logging a search keeps the index complete exactly when it evicts no shared locator. -/
theorem covered_logShown_iff (hcovered : Covered project feedback) (hmax : 0 < maxEvents) :
    Covered project (Feedback.logShown sha256 toLocaleLowerCase maxEvents project call feedback) ↔
      EvictsUnshared sha256 maxEvents project feedback call := by
  have hlogged := h.stored_loggedEvent sha256 toLocaleLowerCase call hmax
  constructor
  · intro hafter stale hstale fingerprint hshows
    have hgone := locator_logShown_of_evicted sha256 toLocaleLowerCase call hmax hstale hshows
    refine ⟨?_, ?_⟩
    · rintro ⟨entry, hmem, rfl⟩
      have hsome := hafter _ _ hlogged entry hmem
      rw [hgone] at hsome
      cases hsome
    · rintro seq event hevent hne ⟨entry, hmem, rfl⟩
      have hkept : evicted maxEvents project feedback ≠ some event := by
        intro hevicted
        obtain rfl := Option.some.inj (hstale.symm.trans hevicted)
        exact hne (h.event_seq hevent).symm
      have hsome := hafter _ _ (h.event_logShown_of_kept sha256 toLocaleLowerCase call hevent hkept)
        entry hmem
      rw [hgone] at hsome
      cases hsome
  · intro hunshared seq event hevent entry hmem
    have hcases := h.event_of_logShown sha256 toLocaleLowerCase call hmax hevent
    have hkept : ∀ stale, evicted maxEvents project feedback = some stale →
        ¬ Shows stale.shown entry.locatorFingerprint := by
      intro stale hstale hshows
      obtain ⟨hresults, hothers⟩ := hunshared stale hstale _ hshows
      rcases hcases with rfl | ⟨hold, hne⟩
      · exact hresults ⟨entry, hmem, rfl⟩
      · refine hothers seq event hold ?_ ⟨entry, hmem, rfl⟩
        rintro rfl
        obtain ⟨hstored, -⟩ := h.evicted_eq_some_iff.mp hstale
        exact hne (hstale.trans (hstored.symm.trans hold))
    by_cases hshown : Shows (shownEntries sha256 call.results) entry.locatorFingerprint
    · obtain ⟨_, -, -, hlocator⟩ := locator_logShown_of_shown
        sha256 toLocaleLowerCase call hmax hkept hshown
      rw [hlocator]
      rfl
    · rw [locator_logShown_of_not_shown _ _ call hmax hkept hshown]
      rcases hcases with rfl | ⟨hold, -⟩
      · exact absurd ⟨entry, hmem, rfl⟩ hshown
      · exact hcovered seq event hold entry hmem

/-! ### Joining a recall -/

/-- The event with its new recall is written over itself. -/
theorem log_putEvent (hevent : feedback.event project seq = some event)
    (written : Event Digest Score) :
    (feedback.putEvent project seq written).log = feedback.log.set (seq - 1) written := by
  have hretained := ((h.stored _ _).mp hevent).1
  rw [FeedbackStore.putEvent]
  exact if_pos hretained.2.1

theorem putRecall (hevent : feedback.event project seq = some event)
    (hshows : Shows event.shown fingerprint)
    (hnew : event.recalls.any (·.locatorFingerprint = fingerprint) = false) (status : Option Text)
    (now : Int) :
    Consistent maxEvents project (tally project event fingerprint status
      (feedback.putEvent project seq (event.addRecall
        { locatorFingerprint := fingerprint, recalledAt := now, status }))) := by
  obtain ⟨hretained, hlog⟩ := (h.stored _ _).mp hevent
  have hset := h.log_putEvent hevent
  refine ⟨?_, ?_, ?_, ?_, ?_, ?_, ?_⟩
  · simp [hset, h.counted]
  · intro i other hother
    rw [log_tally, hset, List.getElem?_set] at hother
    split at hother
    · next hi =>
      split at hother
      · obtain rfl := Option.some.inj hother
        exact h.seq_eq i event (hi ▸ hlog)
      · cases hother
    · exact h.seq_eq i other hother
  · intro other stored
    rw [event_tally, log_tally, hset, List.length_set, List.getElem?_set]
    have hone := hretained.1
    by_cases heq : other = seq
    · subst heq
      rw [FeedbackStore.event_putEvent_self, if_pos rfl,
        if_pos (List.getElem?_eq_some_iff.mp hlog).1]
      exact ⟨fun hstored => ⟨hretained, hstored⟩, And.right⟩
    · rw [FeedbackStore.event_putEvent_of_ne heq, h.stored]
      refine and_congr_right fun hother => ?_
      rw [if_neg (by have := hother.1; omega)]
  · intro other index hindex
    rw [locator_tally, FeedbackStore.locator_putEvent] at hindex
    obtain ⟨indexed, hindexed, hentry⟩ := h.indexed _ _ hindex
    rw [event_tally]
    by_cases heq : index.seq = seq
    · rw [heq, FeedbackStore.event_putEvent_self]
      obtain rfl : indexed = event := Option.some.inj (hindexed.symm.trans (heq ▸ hevent))
      exact ⟨_, rfl, hentry⟩
    · rw [FeedbackStore.event_putEvent_of_ne heq]
      exact ⟨indexed, hindexed, hentry⟩
  · intro other hmem
    rw [log_tally, hset] at hmem
    rcases List.mem_or_eq_of_mem_set hmem with hmem | rfl
    · exact h.recalled_once other hmem
    · -- the fingerprint is not among those recalled before
      have honce := h.recalled_once event (List.mem_of_getElem? hlog)
      simp only [Event.addRecall, List.map_append, List.map_cons, List.map_nil]
      refine List.nodup_append.mpr ⟨honce, List.nodup_singleton _, ?_⟩
      intro a ha b hb heq
      obtain ⟨recorded, hrecall, rfl⟩ := List.mem_map.mp ha
      rw [List.mem_singleton.mp hb] at heq
      have := List.any_eq_false.mp hnew recorded hrecall
      exact this (by simp [heq])
  · intro other hmem recorded hrecall
    rw [log_tally, hset] at hmem
    rcases List.mem_or_eq_of_mem_set hmem with hmem | rfl
    · exact h.recalled_shown other hmem recorded hrecall
    · rcases List.mem_append.mp hrecall with hrecall | hrecall
      · exact h.recalled_shown event (List.mem_of_getElem? hlog) recorded hrecall
      · rw [List.mem_singleton.mp hrecall]
        exact hshows
  · intro documentId version
    rw [recallCounter_tally _ _ now, log_tally, hset, total_set hlog,
      FeedbackStore.counter_putEvent]
    push_cast
    rw [h.tallied, resolvedRecalls_addRecall]
    ring

theorem joinRecall_of_locator (hindex : feedback.locator project fingerprint = some index)
    (status : Option Text) (now : Int) :
    (joinRecall project fingerprint status now feedback).2.joined = true ∧
      ∃ event, (joinRecall project fingerprint status now feedback).1.event project index.seq =
        some event ∧ Shows event.shown fingerprint ∧
          fingerprint ∈ event.recalls.map (·.locatorFingerprint) := by
  obtain ⟨event, hevent, entry, hmem, heq, -⟩ := h.indexed _ _ hindex
  have hshows : Shows event.shown fingerprint := ⟨entry, hmem, heq⟩
  rw [joinRecall, hindex]
  dsimp only
  rw [hevent]
  dsimp only
  split
  · next hany =>
    obtain ⟨recorded, hrecall, hfingerprint⟩ := List.any_eq_true.mp hany
    exact ⟨rfl, event, hevent, hshows, List.mem_map.mpr ⟨recorded, hrecall, by simpa using
      hfingerprint⟩⟩
  · refine ⟨rfl, _, (event_tally _).trans FeedbackStore.event_putEvent_self, hshows, ?_⟩
    simp [Event.addRecall]

/-- A recall records at most one recall of an event, or changes nothing. -/
theorem joinRecall (fingerprint : Digest) (status : Option Text) (now : Int) :
    Consistent maxEvents project (joinRecall project fingerprint status now feedback).1 := by
  rw [Feedback.joinRecall]
  cases hindex : feedback.locator project fingerprint with
  | none => exact h
  | some index =>
    obtain ⟨event, hevent, entry, hmem, heq, -⟩ := h.indexed _ _ hindex
    dsimp only
    rw [hevent]
    dsimp only
    split
    · exact h
    · next hany =>
      exact h.putRecall hevent ⟨entry, hmem, heq⟩ (Bool.eq_false_iff.mpr hany) status now

theorem covered_joinRecall (hcovered : Covered project feedback) (fingerprint : Digest)
    (status : Option Text) (now : Int) :
    Covered project (Feedback.joinRecall project fingerprint status now feedback).1 := by
  rw [Feedback.joinRecall]
  cases hindex : feedback.locator project fingerprint with
  | none => exact hcovered
  | some index =>
    obtain ⟨event, hevent, -⟩ := h.indexed _ _ hindex
    dsimp only
    rw [hevent]
    dsimp only
    split
    · exact hcovered
    · intro seq stored hstored entry hmem
      rw [event_tally] at hstored
      rw [locator_tally, FeedbackStore.locator_putEvent]
      by_cases heq : seq = index.seq
      · subst heq
        rw [FeedbackStore.event_putEvent_self] at hstored
        obtain rfl := Option.some.inj hstored
        exact hcovered _ _ hevent entry hmem
      · rw [FeedbackStore.event_putEvent_of_ne heq] at hstored
        exact hcovered _ _ hstored entry hmem

end Consistent

/-! ## Runs -/

inductive Call (Score : Type) where
  | shown (call : ShownResults Score)
  | recalled (call : RecalledLocator)

/-- The state a call leaves; one that throws has written nothing. -/
def settled {α : Type} (feedback : FeedbackStore Digest Score) :
    Except String (FeedbackStore Digest Score × α) → FeedbackStore Digest Score
  | .ok result => result.1
  | .error _ => feedback

section Machine

variable (sha256 toLocaleLowerCase maxEvents project)

def handle (feedback : FeedbackStore Digest Score) :
    Call Score → FeedbackStore Digest Score
  | .shown call => settled feedback
      (recordShownResults sha256 toLocaleLowerCase maxEvents project call feedback)
  | .recalled call => settled feedback (recordRecalledLocator sha256 project call feedback)

def machine : Concurrent.Machine (FeedbackStore Digest Score) (Call Score) where
  initial feedback := feedback = { records := .empty, log := [] }
  step feedback call :=
    some (handle sha256 toLocaleLowerCase maxEvents project feedback call)

/-- A call that logs a search evicts no event with a locator that a newer event shows. -/
def Unshared (feedback : FeedbackStore Digest Score) : Call Score → Prop
  | .shown call => ∀ result,
      recordShownResults sha256 toLocaleLowerCase maxEvents project call feedback = .ok result →
        EvictsUnshared sha256 maxEvents project feedback call
  | .recalled _ => True

end Machine

theorem recordShownResults_ok {call : ShownResults Score}
    {result : FeedbackStore Digest Score × Nat × Nat}
    (h : recordShownResults sha256 toLocaleLowerCase maxEvents project call feedback =
      .ok result) :
    0 < maxEvents ∧
      result.1 = logShown sha256 toLocaleLowerCase maxEvents project call feedback := by
  rw [recordShownResults] at h
  obtain ⟨_, -, h⟩ := bind_ok_iff.mp h
  obtain ⟨_, -, h⟩ := bind_ok_iff.mp h
  split at h
  · cases h
  · next hmax =>
    obtain rfl := Except.ok.inj h
    exact ⟨not_le.mp hmax, rfl⟩

theorem recordRecalledLocator_ok {call : RecalledLocator}
    {result : FeedbackStore Digest Score × Joined}
    (h : recordRecalledLocator sha256 project call feedback = .ok result) :
    result = joinRecall project (locatorFingerprint sha256 call.locator) call.status call.now
      feedback := by
  rw [recordRecalledLocator] at h
  obtain ⟨_, -, h⟩ := bind_ok_iff.mp h
  obtain ⟨_, -, h⟩ := bind_ok_iff.mp h
  dsimp only at h
  split at h
  · next hnone =>
    obtain rfl := Except.ok.inj h
    rw [joinRecall, hnone]
  · exact (Except.ok.inj h).symm

theorem Consistent.handle (h : Consistent maxEvents project feedback) (call : Call Score) :
    Consistent maxEvents project
      (handle sha256 toLocaleLowerCase maxEvents project feedback call) := by
  cases call with
  | shown call =>
    rw [Feedback.handle]
    cases hresult : recordShownResults sha256 toLocaleLowerCase maxEvents project call
      feedback with
    | error _ => exact h
    | ok result =>
      obtain ⟨hmax, heq⟩ := recordShownResults_ok hresult
      rw [settled, heq]
      exact h.logShown sha256 toLocaleLowerCase call hmax
  | recalled call =>
    rw [Feedback.handle]
    cases hresult : recordRecalledLocator sha256 project call feedback with
    | error _ => exact h
    | ok result =>
      rw [settled, recordRecalledLocator_ok hresult]
      exact h.joinRecall _ _ _

theorem covered_handle (h : Consistent maxEvents project feedback)
    (hcovered : Covered project feedback) {call : Call Score}
    (hunshared : Unshared sha256 toLocaleLowerCase maxEvents project feedback call) :
    Covered project (handle sha256 toLocaleLowerCase maxEvents project feedback call) := by
  cases call with
  | shown call =>
    rw [Feedback.handle]
    cases hresult : recordShownResults sha256 toLocaleLowerCase maxEvents project call
      feedback with
    | error _ => exact hcovered
    | ok result =>
      obtain ⟨hmax, heq⟩ := recordShownResults_ok hresult
      rw [settled, heq]
      exact (h.covered_logShown_iff sha256 toLocaleLowerCase call hcovered hmax).mpr
        (hunshared result hresult)
  | recalled call =>
    rw [Feedback.handle]
    cases hresult : recordRecalledLocator sha256 project call feedback with
    | error _ => exact hcovered
    | ok result =>
      rw [settled, recordRecalledLocator_ok hresult]
      exact h.covered_joinRecall hcovered _ _ _

theorem consistent_initial : Consistent maxEvents project
    ({ records := .empty, log := [] } : FeedbackStore Digest Score) := by
  refine ⟨rfl, by simp, ?_, ?_, by simp, by simp, fun _ _ => rfl⟩
  · intro seq event
    simp [FeedbackStore.event]
  · intro fingerprint index hindex
    cases hindex

theorem consistent_of_reaches {allowed : FeedbackStore Digest Score → Call Score → Prop}
    (h : (machine sha256 toLocaleLowerCase maxEvents project).Reaches allowed feedback) :
    Consistent maxEvents project feedback := by
  refine h.invariant _ ?_ ?_
  · intro feedback hinitial
    obtain rfl : feedback = { records := .empty, log := [] } := hinitial
    exact consistent_initial
  · intro before call after hconsistent _ hstep
    obtain rfl := Option.some.inj hstep
    exact hconsistent.handle call

theorem covered_of_reaches
    (h : (machine sha256 toLocaleLowerCase maxEvents project).Reaches
      (Unshared sha256 toLocaleLowerCase maxEvents project) feedback) :
    Covered project feedback := by
  refine (h.invariant (fun feedback => Consistent maxEvents project feedback ∧
    Covered project feedback) ?_ ?_).2
  · intro feedback hinitial
    obtain rfl : feedback = { records := .empty, log := [] } := hinitial
    refine ⟨consistent_initial, ?_⟩
    intro seq event hevent
    cases hevent
  · intro before call after hboth hunshared hstep
    obtain rfl := Option.some.inj hstep
    exact ⟨hboth.1.handle call, covered_handle hboth.1 hboth.2 hunshared⟩

def exampleResult (locator : Text) : SearchResult Nat where
  documentId := [1]
  version := 1
  retrievalMode := []
  calibratedScore := none
  score := none
  rawScore := none
  locator := some locator

def exampleSearch (locator : Text) : ShownResults Nat where
  query := []
  mode := none
  status := none
  results := [exampleResult locator]
  sessionIds := []
  now := 0

def firstFeedback : FeedbackStore Text Nat :=
  handle id id 1 [1] { records := .empty, log := [] } (.shown (exampleSearch [1]))

def exampleRecall : RecalledLocator where
  locator := some [2]
  status := some (text "resolved")
  now := 0

/-- A search that evicts the one before it shows another locator, which is then recalled. -/
def exampleCalls : List (Call Nat) :=
  [.shown (exampleSearch [1]), .shown (exampleSearch [2]), .recalled exampleRecall]

def exampleFeedback : FeedbackStore Text Nat :=
  (machine id id 1 [1]).runAll { records := .empty, log := [] } exampleCalls

theorem evicted_firstFeedback : evicted 1 [1] firstFeedback =
    some (loggedEvent id id [1] 1 (exampleSearch [1])) := rfl

theorem exampleCalls_unshared : (machine id id 1 [1]).Allowed (Unshared id id 1 [1])
    { records := .empty, log := [] } exampleCalls := by
  refine ⟨?_, fun after hafter => ?_⟩
  · intro _ _ stale hstale
    cases hstale
  obtain rfl : firstFeedback = after := Option.some.inj hafter
  refine ⟨?_, fun after hafter => ⟨trivial, fun _ _ => trivial⟩⟩
  intro _ _ stale hstale fingerprint hshows
  obtain rfl := Option.some.inj (evicted_firstFeedback.symm.trans hstale)
  have hshown : (loggedEvent id id [1] 1 (exampleSearch [1])).shown =
      [shownEntry id 0 (exampleResult [1])] := rfl
  rw [hshown, shows_cons] at hshows
  rcases hshows with rfl | hshows
  · refine ⟨by decide, fun seq event hevent hne => ?_⟩
    -- the evicted event is the only one
    have hconsistent : Consistent 1 [1] firstFeedback := consistent_initial.handle _
    obtain ⟨hone, hle, -⟩ := ((hconsistent.stored seq event).mp hevent).1
    exact absurd (Nat.le_antisymm hle hone) hne
  · exact absurd hshows (shows_nil _)

def sharedCalls : List (Call Nat) := [.shown (exampleSearch [1]), .shown (exampleSearch [1])]

def sharedFeedback : FeedbackStore Text Nat :=
  (machine id id 1 [1]).runAll { records := .empty, log := [] } sharedCalls

end ContextStore.Feedback
