import ContextStore.Leases.Sections

/-! # Index drains and write sections of the daemon

The daemon runs one index drain at a time: `drainIndex` returns the promise of the running drain,
or starts one. A drain writes like everything else, under the lease it was started in or, outside
any, under leases of its own. Retention waves and redactions hold a shared lease and await drains
while they hold it; migrations and backend changes exclude writes.

The tasks here are the flows of the write sections, each with what it is for, the drain it awaits,
and whether it has come to its end. -/

namespace ContextStore

open Concurrent

inductive Role where
  /-- A request or timer of the daemon: a retention wave, a redaction, background indexing. -/
  | client
  | drain
  /-- `withExclusiveWrites` around migration start and verify, backend activation and claim. -/
  | maintenance
deriving DecidableEq

/-- The kind of a section that a task opens. -/
def Role.kind : Role → LeaseKind
  | .client | .drain => .shared
  | .maintenance => .exclusive

structure Task where
  role : Role
  awaiting : Option Nat
  finished : Bool
deriving DecidableEq

structure Daemon where
  sections : Sections
  task : Nat → Option Task
  drainPromise : Option Nat

namespace Daemon

def idle : Daemon where
  sections := .empty
  task := fun _ => none
  drainPromise := none

def setTask (s : Daemon) (f : Nat) (task : Task) : Daemon :=
  { s with task := Function.update s.task f (some task) }

@[simp] theorem sections_setTask (s : Daemon) (f : Nat) (task : Task) :
    (s.setTask f task).sections = s.sections := rfl

theorem task_setTask (s : Daemon) (f : Nat) (task : Task) (g : Nat) :
    (s.setTask f task).task g = if g = f then some task else s.task g :=
  Function.update_apply _ _ _ _

/-- A task that awaits no drain and has not come to its end. -/
def ready (s : Daemon) (f : Nat) : Option (Task × Flow) :=
  (s.task f).bind fun task => (s.sections.flow f).bind fun flow =>
    if task.awaiting = none ∧ task.finished = false then some (task, flow) else none

inductive Action where
  | start (f : Nat) (role : Role)
  /-- A logical write, or the section of a wave around its writes. -/
  | write (f : Nat)
  | exclusive (f : Nat)
  | resume (f : Nat)
  | settle (f : Nat)
  | settled (f : Nat)
  | close (f : Nat)
  /-- Await the running drain, or start one as the task `child` and await it. -/
  | drainIndex (f child : Nat)
  /-- The awaited drain has come to its end. -/
  | wake (f : Nat)
  | finish (f : Nat)

/-- The task that an action is a step of; a new task is nobody's step. -/
def Action.actor : Action → Option Nat
  | .start _ _ => none
  | .write f | .exclusive f | .resume f | .settle f | .settled f | .close f | .drainIndex f _
  | .wake f | .finish f => some f

/-- A step of the write sections by a ready task. -/
def within (s : Daemon) (f : Nat) (may : Task → Flow → Bool) (action : Sections.Action) :
    Option Daemon :=
  (s.ready f).bind fun (task, flow) =>
    if may task flow then (s.sections.step action).map fun sections => { s with sections }
    else none

def start (s : Daemon) (f : Nat) (role : Role) : Option Daemon :=
  if s.task f = none ∧ role ≠ .drain then
    (s.sections.step (.spawn f)).map fun sections =>
      { s with sections }.setTask f ⟨role, none, false⟩
  else none

/-- `drainIndex`, awaited by its caller. -/
def drainIndex (s : Daemon) (f child : Nat) : Option Daemon :=
  (s.ready f).bind fun (task, flow) =>
    if task.role = .client ∧ flow.phase = .running then
      match s.drainPromise with
      | some drain => some (s.setTask f { task with awaiting := some drain })
      | none =>
        if s.task child = none then
          (s.sections.step (.fork f child)).map fun sections =>
            ({ s with sections, drainPromise := some child }.setTask child
              ⟨.drain, none, false⟩).setTask f { task with awaiting := some child }
        else none
    else none

def ended (s : Daemon) (f : Nat) : Bool := (s.task f).any (·.finished)

def wake (s : Daemon) (f : Nat) : Option Daemon :=
  (s.task f).bind fun task => task.awaiting.bind fun drain =>
    if s.ended drain then some (s.setTask f { task with awaiting := none }) else none

/-- A task ends outside any section of its own; a drain settles its promise. -/
def finish (s : Daemon) (f : Nat) : Option Daemon :=
  (s.ready f).bind fun (task, flow) =>
    if flow.phase = .running ∧ flow.outer = [] ∧ flow.current.nested = 0 then
      some ({ s with drainPromise := if s.drainPromise = some f then none else s.drainPromise
        }.setTask f { task with finished := true })
    else none

/-- Maintenance writes only within its exclusive section. -/
def mayWrite (task : Task) (flow : Flow) : Bool := task.role ≠ .maintenance ∨ flow.outer ≠ []

def mayExclude (task : Task) (flow : Flow) : Bool := task.role = .maintenance ∧ flow.outer = []

def step (s : Daemon) : Action → Option Daemon
  | .start f role => s.start f role
  | .write f => s.within f mayWrite (.sharedWrite f)
  | .exclusive f => s.within f mayExclude (.exclusiveWrites f)
  | .resume f => s.within f (fun _ _ => true) (.resume f)
  | .settle f => s.within f (fun _ _ => true) (.settle f)
  | .settled f => s.within f (fun _ _ => true) (.settled f)
  | .close f => s.within f (fun _ _ => true) (.close f)
  | .drainIndex f child => s.drainIndex f child
  | .wake f => s.wake f
  | .finish f => s.finish f

def machine : Machine Daemon Action where
  initial s := s = idle
  step := step

/-- The task has an open section of its own. -/
def Holds (s : Daemon) (f : Nat) : Prop := ∃ flow, s.sections.flow f = some flow ∧ flow.outer ≠ []

/-- The task's request waits in the barrier's queue. -/
def Queued (s : Daemon) (f : Nat) : Prop := ∃ w ∈ s.sections.barrier.waiters, w.resolve = f

def Awaits (s : Daemon) (f drain : Nat) : Prop :=
  ∃ task, s.task f = some task ∧ task.awaiting = some drain

/-! ## Where the tasks stand -/

/-- The positions a task can be in. -/
inductive Stands (s : Daemon) (f : Nat) (task : Task) : Flow → Prop
  | outside : Stands s f task ⟨⟨none, 0⟩, [], .running⟩
  | acquiring {ticket : Nat} (hrequest : ⟨task.role.kind, ticket, f⟩ ∈ s.sections.barrier.requests)
      (hout : ticket ∉ s.sections.barrier.released) (hawaiting : task.awaiting = none)
      (hfinished : task.finished = false) :
      Stands s f task ⟨⟨none, 0⟩, [], .acquiring task.role.kind ticket⟩
  | inside {ticket nested : Nat} {pending : List Nat} {phase : FlowPhase}
      (hheld : ⟨task.role.kind, ticket, f⟩ ∈ s.sections.barrier.held)
      (hlease : s.sections.lease ticket = some ⟨task.role.kind, true, pending⟩)
      (hfinished : task.finished = false)
      (hphase : phase = .running ∨
        (phase = .settling ∨ phase = .closing) ∧ nested = 0 ∧ task.awaiting = none) :
      Stands s f task ⟨⟨some ticket, nested⟩, [⟨none, 0⟩], phase⟩
  /-- A drain within the section of the task that started it, which awaits it to the end. -/
  | inherits {ticket nested : Nat} (hrole : task.role = .drain)
      (hended : task.finished = true → nested = 0)
      (hstarter : task.finished = false → ∃ g flow, s.Awaits g f ∧
        s.sections.flow g = some flow ∧ flow.current.lease = some ticket ∧ flow.outer ≠ []) :
      Stands s f task ⟨⟨some ticket, nested⟩, [], .running⟩

/-- The flow that a request belongs to awaits it, or is in the section it was made for. -/
def HasRequest (flow : Flow) (w : Waiter) : Prop :=
  flow.phase = .acquiring w.kind w.ticket ∨
    (flow.current.lease = some w.ticket ∧ flow.outer ≠ [])

/-- How many operations a flow has open directly under a lease. -/
def under (flow : Option Flow) (ticket : Nat) : Nat :=
  match flow with
  | none => 0
  | some flow => if flow.current.lease = some ticket then flow.current.nested else 0

/-- The invariant of the daemon's runs. -/
structure Orderly (s : Daemon) : Prop where
  valid : s.sections.barrier.Valid
  known : ∀ f, s.sections.flow f = none ↔ s.task f = none
  stands : ∀ f task flow, s.task f = some task → s.sections.flow f = some flow →
    s.Stands f task flow
  requested : ∀ w ∈ s.sections.barrier.requests, w.ticket ∉ s.sections.barrier.released →
    ∃ flow, s.sections.flow w.resolve = some flow ∧ HasRequest flow w
  pending : ∀ ticket lease, s.sections.lease ticket = some lease → ∀ f,
    lease.pending.count f = under (s.sections.flow f) ticket
  awaiting : ∀ f task drain, s.task f = some task → task.awaiting = some drain →
    task.role = .client ∧ task.finished = false ∧
      ∃ other, s.task drain = some other ∧ other.role = .drain
  drains : ∀ f task, s.task f = some task → task.role = .drain →
    (task.finished = false ↔ s.drainPromise = some f)
  promised : ∀ f, s.drainPromise = some f → ∃ task, s.task f = some task ∧ task.role = .drain

/-- A task that holds a lease does not await a drain that waits in the queue. -/
def Clear (s : Daemon) : Prop := ∀ f drain, s.Awaits f drain → s.Holds f → ¬ s.Queued drain

/-! ## One task moves within the write sections -/

theorem ready_eq_some {s : Daemon} {f : Nat} {task : Task} {flow : Flow}
    (h : s.ready f = some (task, flow)) :
    s.task f = some task ∧ s.sections.flow f = some flow ∧ task.awaiting = none ∧
      task.finished = false := by
  obtain ⟨found, htask, h⟩ := Option.bind_eq_some_iff.mp h
  obtain ⟨other, hflow, h⟩ := Option.bind_eq_some_iff.mp h
  split at h
  · next hidle =>
    obtain ⟨rfl, rfl⟩ : found = task ∧ other = flow := by simpa using h
    exact ⟨htask, hflow, hidle.1, hidle.2⟩
  · cases h

/-- What the other tasks can rely on when `f` moves: their flows, requests and leases stay. -/
structure Frames (s t : Sections) (f : Nat) : Prop where
  flows : ∀ g, g ≠ f → t.flow g = s.flow g
  moves : ∃ added gone, s.barrier.Moves t.barrier added gone ∧ (∀ w ∈ added, w.resolve = f) ∧
    ∀ ticket ∈ gone, ∃ w ∈ s.barrier.requests, w.ticket = ticket ∧ w.resolve = f
  leases : ∀ w ∈ s.barrier.held, w.resolve ≠ f → ∀ pending,
    s.lease w.ticket = some ⟨w.kind, true, pending⟩ →
      ∃ pending', t.lease w.ticket = some ⟨w.kind, true, pending'⟩

/-- A step that leaves the barrier alone. -/
theorem frames_of_barrier {s t : Sections} {f : Nat} (hflows : ∀ g, g ≠ f → t.flow g = s.flow g)
    (hbarrier : t.barrier = s.barrier)
    (hleases : ∀ w ∈ s.barrier.held, w.resolve ≠ f → ∀ pending,
      s.lease w.ticket = some ⟨w.kind, true, pending⟩ →
        ∃ pending', t.lease w.ticket = some ⟨w.kind, true, pending'⟩) : Frames s t f :=
  ⟨hflows, ⟨[], [], ⟨by rw [hbarrier, List.append_nil], hbarrier ▸ List.prefix_rfl,
    by rw [hbarrier, List.nil_append]⟩, by simp, by simp⟩, hleases⟩

section Frame

variable {s : Daemon} {t : Sections} {f : Nat} {w : Waiter}

/-- The requests of the other tasks stay out as long as they were. -/
theorem Frames.not_released (h : Frames s.sections t f) (hs : s.Orderly)
    (hw : w ∈ s.sections.barrier.requests) (hne : w.resolve ≠ f)
    (hout : w.ticket ∉ s.sections.barrier.released) : w.ticket ∉ t.barrier.released := by
  obtain ⟨added, gone, hmoves, _, hgone⟩ := h.moves
  rw [hmoves.released, List.mem_append]
  rintro (hmem | hmem)
  · obtain ⟨w', hw', hticket, hresolve⟩ := hgone _ hmem
    exact hne (hs.valid.eq_of_ticket hw hw' hticket.symm ▸ hresolve)
  · exact hout hmem

theorem Frames.request (h : Frames s.sections t f) (hw : w ∈ s.sections.barrier.requests) :
    w ∈ t.barrier.requests := by
  obtain ⟨added, gone, hmoves, _, _⟩ := h.moves
  rw [hmoves.requests]
  exact List.mem_append_left _ hw

theorem Frames.held (h : Frames s.sections t f) (hs : s.Orderly) (hw : w ∈ s.sections.barrier.held)
    (hne : w.resolve ≠ f) : w ∈ t.barrier.held := by
  obtain ⟨added, gone, hmoves, _, hgone⟩ := h.moves
  refine hmoves.held hw fun hmem => ?_
  obtain ⟨w', hw', hticket, hresolve⟩ := hgone _ hmem
  exact hne (hs.valid.eq_of_ticket (WriteBarrier.mem_requests_of_held hw) hw' hticket.symm ▸
    hresolve)

/-- A request of another task was made before. -/
theorem Frames.request_of_ne (h : Frames s.sections t f) (hw : w ∈ t.barrier.requests)
    (hne : w.resolve ≠ f) : w ∈ s.sections.barrier.requests := by
  obtain ⟨added, gone, hmoves, hadded, _⟩ := h.moves
  rw [hmoves.requests, List.mem_append] at hw
  exact hw.resolve_right fun hmem => hne (hadded w hmem)

theorem Frames.released_of (h : Frames s.sections t f) {ticket : Nat}
    (hout : ticket ∉ t.barrier.released) : ticket ∉ s.sections.barrier.released := by
  obtain ⟨added, gone, hmoves, _, _⟩ := h.moves
  rw [hmoves.released] at hout
  exact fun hmem => hout (List.mem_append_right _ hmem)

/-- A waiter of another task was waiting before. -/
theorem Frames.waiter_of_ne (h : Frames s.sections t f) (ht : t.barrier.Valid)
    (hw : w ∈ t.barrier.waiters) (hne : w.resolve ≠ f) : w ∈ s.sections.barrier.waiters := by
  have hmem := h.request_of_ne (List.mem_append_right _ hw) hne
  obtain ⟨added, gone, hmoves, _, _⟩ := h.moves
  refine (List.mem_append.mp hmem).resolve_left fun hresolved => ?_
  exact ht.toCoherent.not_resolved hw (hmoves.resolved.subset hresolved)

variable {task : Task} {flow : Flow}

/-- The other tasks stand where they stood. -/
theorem Stands.frame (h : Frames s.sections t f) (hs : s.Orderly) {mover : Task}
    (hmover : s.task f = some mover) (hidle : mover.awaiting = none) {g : Nat} (hne : g ≠ f)
    (hstands : s.Stands g task flow) : ({ s with sections := t } : Daemon).Stands g task flow := by
  cases hstands with
  | outside => exact .outside
  | acquiring hrequest hout hawaiting hfinished =>
    exact .acquiring (h.request hrequest) (h.not_released hs hrequest hne hout) hawaiting
      hfinished
  | inside hheld hlease hfinished hphase =>
    obtain ⟨pending', hlease'⟩ := h.leases _ hheld hne _ hlease
    exact .inside (h.held hs hheld hne) hlease' hfinished hphase
  | inherits hrole hended hstarter =>
    refine .inherits hrole hended fun hfinished => ?_
    obtain ⟨starter, flow, hawaits, hflow, hcontext, houter⟩ := hstarter hfinished
    have hother : starter ≠ f := by
      rintro rfl
      obtain ⟨found, hfound, hdrain⟩ := hawaits
      rw [hmover, Option.some.injEq] at hfound
      rw [← hfound, hidle] at hdrain
      cases hdrain
    exact ⟨starter, flow, hawaits, (h.flows starter hother).trans hflow, hcontext, houter⟩

/-- What is to be shown of the task that moves. -/
structure MovesTo (s : Daemon) (t : Sections) (f : Nat) (task : Task) (flow : Flow) : Prop where
  frames : Frames s.sections t f
  valid : t.barrier.Valid
  moved : t.flow f = some flow
  stands : ({ s with sections := t } : Daemon).Stands f task flow
  requested : ∀ w ∈ t.barrier.requests, w.resolve = f → w.ticket ∉ t.barrier.released →
    HasRequest flow w
  pending : ∀ ticket lease, t.lease ticket = some lease → ∀ g,
    lease.pending.count g = under (t.flow g) ticket

theorem MovesTo.orderly (h : MovesTo s t f task flow) (hs : s.Orderly)
    (htask : s.task f = some task) (hidle : task.awaiting = none) :
    ({ s with sections := t } : Daemon).Orderly := by
  refine ⟨h.valid, fun g => ?_, fun g other found hother hfound => ?_, fun w hw hout => ?_,
    h.pending, hs.awaiting, hs.drains, hs.promised⟩
  · by_cases hg : g = f
    · subst hg
      simp [h.moved, htask]
    · rw [show ({ s with sections := t } : Daemon).sections.flow g = s.sections.flow g from
        h.frames.flows g hg]
      exact hs.known g
  · by_cases hg : g = f
    · subst hg
      obtain rfl : task = other := Option.some.inj (htask.symm.trans hother)
      obtain rfl : flow = found := Option.some.inj (h.moved.symm.trans hfound)
      exact h.stands
    · exact (hs.stands g other found hother ((h.frames.flows g hg).symm.trans hfound)).frame
        h.frames hs htask hidle hg
  · by_cases hg : w.resolve = f
    · exact ⟨flow, hg ▸ h.moved, h.requested w hw hg hout⟩
    · obtain ⟨found, hfound, hrequest⟩ := hs.requested w (h.frames.request_of_ne hw hg)
        (h.frames.released_of hout)
      exact ⟨found, (h.frames.flows _ hg).trans hfound, hrequest⟩

/-- Nobody who holds a lease comes to await a queued drain, if the mover is not one. -/
theorem MovesTo.clear (h : MovesTo s t f task flow) (hclear : s.Clear)
    (htask : s.task f = some task) (hidle : task.awaiting = none)
    (hmover : ∀ g, s.Awaits g f → s.Holds g → ¬ ∃ w ∈ t.barrier.waiters, w.resolve = f) :
    ({ s with sections := t } : Daemon).Clear := by
  rintro g drain hawaits ⟨found, hfound, houter⟩ ⟨w, hw, hresolve⟩
  have hg : g ≠ f := by
    rintro rfl
    obtain ⟨other, hother, hdrain⟩ := hawaits
    rw [show ({ s with sections := t } : Daemon).task g = s.task g from rfl, htask,
      Option.some.injEq] at hother
    rw [← hother, hidle] at hdrain
    cases hdrain
  have hholds : s.Holds g := ⟨found, (h.frames.flows g hg).symm.trans hfound, houter⟩
  by_cases hd : drain = f
  · subst hd
    exact hmover g hawaits hholds ⟨w, hw, hresolve⟩
  · refine hclear g drain hawaits hholds ⟨w, ?_, hresolve⟩
    exact h.frames.waiter_of_ne h.valid hw (hresolve ▸ hd)

end Frame

/-! ## The moves -/

section Moves

variable {s : Daemon} {f : Nat} {task : Task} {flow : Flow} {ticket : Nat} {lease : WriteLease}

theorem under_of_lease_ne (h : flow.current.lease ≠ some ticket) :
    under (some flow) ticket = 0 := by
  simp [under, h]

/-- Only the flow that moves needs to be counted again. -/
theorem count_setFlow {t : Sections} {pending : List Nat}
    (hself : pending.count f = under (some flow) ticket)
    (hothers : ∀ g, g ≠ f → pending.count g = under (t.flow g) ticket) (g : Nat) :
    pending.count g = under ((t.setFlow f flow).flow g) ticket := by
  by_cases hg : g = f
  · rw [hg, Sections.flow_setFlow_self, hself]
  · rw [Sections.flow_setFlow_of_ne _ hg, hothers g hg]

theorem Orderly.resolve_of_held (hs : s.Orderly) {w w' : Waiter}
    (hw : w ∈ s.sections.barrier.requests) (hw' : w' ∈ s.sections.barrier.requests)
    (h : w.ticket = w'.ticket) : w.resolve = w'.resolve :=
  congrArg Waiter.resolve (hs.valid.eq_of_ticket hw hw' h)

/-- An operation of the flow's innermost level starts or settles. -/
theorem movesTo_pending (hs : s.Orderly) (htask : s.task f = some task)
    (hflow : s.sections.flow f = some flow) (hfinished : task.finished = false)
    (hrunning : flow.phase = .running) (hcontext : flow.current.lease = some ticket)
    (hlease : s.sections.lease ticket = some lease) {pending : List Nat} {nested : Nat}
    (hself : pending.count f = nested)
    (hothers : ∀ g, g ≠ f → pending.count g = lease.pending.count g) :
    MovesTo s ((s.sections.setLease ticket { lease with pending }).setFlow f
        { flow with current := { flow.current with nested } }) f task
      { flow with current := { flow.current with nested } } := by
  have hstands := hs.stands f task flow htask hflow
  have hget : ∀ other found, s.sections.lease other = some found → ∃ pending',
      Function.update s.sections.lease ticket (some { lease with pending }) other =
        some { found with pending := pending' } := by
    intro other found hfound
    by_cases heq : other = ticket
    · subst heq
      rw [hlease, Option.some.injEq] at hfound
      subst hfound
      exact ⟨pending, Function.update_self _ _ _⟩
    · exact ⟨found.pending, (Function.update_of_ne heq _ _).trans hfound⟩
  refine ⟨frames_of_barrier (fun g hg => Function.update_of_ne hg _ _) rfl
    fun w _ _ pending' hw => hget w.ticket _ hw, hs.valid, Function.update_self _ _ _, ?_, ?_, ?_⟩
  · cases hstands with
    | outside => cases hcontext
    | acquiring => cases hcontext
    | inside hheld hlease' _ hphase =>
      obtain ⟨pending', hget'⟩ := hget _ _ hlease'
      exact .inside hheld hget' hfinished (.inl hrunning)
    | inherits hrole _ hstarter =>
      refine .inherits hrole (fun h => by rw [hfinished] at h; cases h) fun _ => ?_
      obtain ⟨starter, other, hawaits, hother, hown, houter⟩ := hstarter hfinished
      by_cases heq : starter = f
      · subst heq
        obtain rfl := Option.some.inj (hflow.symm.trans hother)
        exact absurd rfl houter
      · exact ⟨starter, other, hawaits, (Function.update_of_ne heq _ _).trans hother, hown, houter⟩
  · intro w hw hresolve hout
    obtain ⟨found, hfound, hrequest⟩ := hs.requested w hw hout
    rw [hresolve, hflow, Option.some.injEq] at hfound
    subst hfound
    exact hrequest
  · intro other found hfound
    by_cases hticket : other = ticket
    · subst hticket
      rw [Sections.lease_setFlow, Sections.lease_setLease_self, Option.some.injEq] at hfound
      subst hfound
      refine count_setFlow (by simp [under, hcontext, hself]) fun g hg => ?_
      exact (hothers g hg).trans (hs.pending other lease hlease g)
    · rw [Sections.lease_setFlow, Sections.lease_setLease_of_ne _ hticket] at hfound
      have hne : flow.current.lease ≠ some other := by
        rw [hcontext]
        exact fun h => hticket (Option.some.inj h).symm
      refine count_setFlow ?_ fun g _ => hs.pending other found hfound g
      rw [hs.pending other found hfound f, hflow, under_of_lease_ne hne]
      simp [under, hne]

theorem movesTo_phase (hs : s.Orderly) (htask : s.task f = some task)
    (hflow : s.sections.flow f = some flow) (hidle : task.awaiting = none)
    (hnested : flow.current.nested = 0) (houter : flow.outer ≠ []) {phase : FlowPhase}
    (hphase : phase = .settling ∨ phase = .closing) :
    MovesTo s (s.sections.setFlow f { flow with phase }) f task { flow with phase } := by
  have hstands := hs.stands f task flow htask hflow
  refine ⟨frames_of_barrier (fun g hg => Function.update_of_ne hg _ _) rfl
    fun w _ _ pending hw => ⟨pending, hw⟩, hs.valid, Function.update_self _ _ _, ?_, ?_, ?_⟩
  · cases hstands with
    | outside => exact absurd rfl houter
    | acquiring => exact absurd rfl houter
    | inside hheld hlease hfinished _ =>
      exact .inside hheld hlease hfinished (.inr ⟨hphase, hnested, hidle⟩)
    | inherits => exact absurd rfl houter
  · intro w hw hresolve hout
    obtain ⟨found, hfound, hrequest⟩ := hs.requested w hw hout
    rw [hresolve, hflow, Option.some.injEq] at hfound
    subst hfound
    refine hrequest.elim (fun hacquiring => ?_) .inr
    cases hstands with
    | acquiring => exact absurd rfl houter
    | outside => cases hacquiring
    | inside _ _ _ hphase =>
      rcases hphase with hp | ⟨hp | hp, _⟩ <;> cases hp.symm.trans hacquiring
    | inherits => cases hacquiring
  · intro ticket lease hlease
    refine count_setFlow ?_ fun g _ => hs.pending ticket lease hlease g
    rw [hs.pending ticket lease hlease f, hflow]
    rfl

theorem no_request_outside (hs : s.Orderly) (hflow : s.sections.flow f = some flow)
    (hrunning : flow.phase = .running) (houter : flow.outer = []) {w : Waiter}
    (hw : w ∈ s.sections.barrier.requests) (hresolve : w.resolve = f) :
    w.ticket ∈ s.sections.barrier.released := by
  by_contra hout
  obtain ⟨found, hfound, hrequest⟩ := hs.requested w hw hout
  rw [hresolve, hflow, Option.some.injEq] at hfound
  subst hfound
  rcases hrequest with h | ⟨_, h⟩
  · cases hrunning.symm.trans h
  · exact h houter

theorem movesTo_await (hs : s.Orderly)
    (hflow : s.sections.flow f = some ⟨⟨none, 0⟩, [], .running⟩) (hidle : task.awaiting = none)
    (hfinished : task.finished = false) :
    MovesTo s (s.sections.await f ⟨⟨none, 0⟩, [], .running⟩ task.role.kind
        (s.sections.barrier.acquire task.role.kind f)) f task
      ⟨⟨none, 0⟩, [], .acquiring task.role.kind s.sections.barrier.issued⟩ := by
  have hmoves := s.sections.barrier.acquire_moves task.role.kind f
  have hvalid := hs.valid.acquire task.role.kind f
  have hframes : Frames s.sections (s.sections.await f ⟨⟨none, 0⟩, [], .running⟩ task.role.kind
      (s.sections.barrier.acquire task.role.kind f)) f :=
    ⟨fun g hg => Function.update_of_ne hg _ _, ⟨_, _, hmoves, by simp, by simp⟩,
      fun _ _ _ pending hw => ⟨pending, hw⟩⟩
  refine ⟨hframes, hvalid, Function.update_self _ _ _, .acquiring ?_ ?_ hidle hfinished, ?_, ?_⟩
  · show _ ∈ (s.sections.barrier.acquire task.role.kind f).requests
    rw [hmoves.requests]
    exact List.mem_append_right _ List.mem_cons_self
  · show _ ∉ (s.sections.barrier.acquire task.role.kind f).released
    rw [hmoves.released]
    exact hs.valid.issued_not_released
  · intro w hw hresolve hout
    have hw' : w ∈ (s.sections.barrier.acquire task.role.kind f).requests := hw
    rw [hmoves.requests, List.mem_append, List.mem_singleton] at hw'
    rcases hw' with hold | rfl
    · exact absurd (no_request_outside hs hflow rfl rfl hold hresolve) (hframes.released_of hout)
    · exact .inl rfl
  · intro ticket lease hlease
    refine count_setFlow ?_ fun g _ => hs.pending ticket lease hlease g
    rw [hs.pending ticket lease hlease f, hflow]
    rfl

/-- A record under a ticket is one of the task the ticket belongs to, or has nothing pending. -/
theorem under_of_request (hs : s.Orderly) (htask : s.task f = some task)
    (hidle : task.awaiting = none) {w : Waiter} (hresolve : w.resolve = f)
    (hticket : ∀ w' ∈ s.sections.barrier.requests, w'.ticket = w.ticket → w'.resolve = f)
    {g : Nat} (hg : g ≠ f) : under (s.sections.flow g) w.ticket = 0 := by
  cases hflow : s.sections.flow g with
  | none => rfl
  | some other =>
    cases hother : s.task g with
    | none =>
      rw [(hs.known g).mpr hother] at hflow
      cases hflow
    | some found =>
      by_contra hne
      have hcontext : other.current.lease = some w.ticket := by
        by_contra hcontext
        exact hne (under_of_lease_ne hcontext)
      cases hs.stands g found other hother hflow with
      | outside => cases hcontext
      | acquiring => cases hcontext
      | inside hheld _ _ _ =>
        exact hg (hticket _ (WriteBarrier.mem_requests_of_held hheld) (Option.some.inj hcontext))
      | inherits hrole hended hstarter =>
        cases hfinished : found.finished with
        | true =>
          refine hne ?_
          simp [under, hended hfinished]
        | false =>
          -- the task that started it is in this section, and awaits it
          obtain ⟨starter, own, ⟨started, hstarted, hawaits⟩, hown, hlease, houter⟩ :=
            hstarter hfinished
          have hsame : starter = f := by
            cases hs.stands starter started own hstarted hown with
            | outside => exact absurd rfl houter
            | acquiring => exact absurd rfl houter
            | inside hheld _ _ _ =>
              exact hticket _ (WriteBarrier.mem_requests_of_held hheld)
                ((Option.some.inj hlease).trans (Option.some.inj hcontext))
            | inherits => exact absurd rfl houter
          subst hsame
          obtain rfl : task = started := Option.some.inj (htask.symm.trans hstarted)
          rw [hidle] at hawaits
          cases hawaits

/-- A task enters its section with a granted lease, whether it was granted before or at once. -/
theorem movesTo_enter (hs : s.Orderly) (htask : s.task f = some task)
    (hflow : s.sections.flow f = some flow) (hidle : task.awaiting = none)
    (hfinished : task.finished = false) (hcontext : flow.current = ⟨none, 0⟩)
    (houter : flow.outer = []) {barrier : WriteBarrier} {added : List Waiter}
    (hmoves : s.sections.barrier.Moves barrier added []) (hadded : ∀ w ∈ added, w.resolve = f)
    (hvalid : barrier.Valid)
    (hgranted : (⟨task.role.kind, ticket, f⟩ : Waiter) ∈ barrier.resolved)
    (hout : ticket ∉ s.sections.barrier.released)
    (honly : ∀ w ∈ barrier.requests, w.resolve = f → w.ticket ∉ barrier.released →
      w.ticket = ticket) :
    MovesTo s ({ s.sections with barrier }.enter f flow task.role.kind ticket) f task
      ⟨⟨some ticket, 0⟩, [⟨none, 0⟩], .running⟩ := by
  have hrequests : ∀ w ∈ s.sections.barrier.requests, w.ticket = ticket → w.resolve = f := by
    intro w hw hticket
    have hmem : w ∈ barrier.requests := by
      rw [hmoves.requests]
      exact List.mem_append_left _ hw
    exact congrArg Waiter.resolve
      (hvalid.eq_of_ticket hmem (List.mem_append_left _ hgranted) hticket)
  have hreleased : barrier.released = s.sections.barrier.released := hmoves.released
  have hmoved : (⟨⟨some ticket, 0⟩, flow.current :: flow.outer, .running⟩ : Flow) =
      ⟨⟨some ticket, 0⟩, [⟨none, 0⟩], .running⟩ := by rw [hcontext, houter]
  refine ⟨⟨fun g hg => Function.update_of_ne hg _ _, ⟨_, _, hmoves, hadded, by simp⟩, ?_⟩, hvalid,
    ?_, ?_, ?_, ?_⟩
  · intro w hw hne pending hlease
    have hother : w.ticket ≠ ticket := fun heq =>
      hne (hrequests w (WriteBarrier.mem_requests_of_held hw) heq)
    exact ⟨pending, (Function.update_of_ne hother _ _).trans hlease⟩
  · rw [← hmoved]
    exact Function.update_self _ _ _
  · exact .inside (WriteBarrier.mem_held.mpr ⟨hgranted, hreleased ▸ hout⟩)
      (Function.update_self _ _ _) hfinished (.inl rfl)
  · intro w hw hresolve hlive
    exact .inr ⟨congrArg some (honly w hw hresolve hlive).symm, List.cons_ne_nil _ _⟩
  · intro other lease hlease
    have hlease' : Function.update s.sections.lease ticket _ other = some lease := hlease
    by_cases hticket : other = ticket
    · subst hticket
      rw [Function.update_self, Option.some.injEq] at hlease'
      subst hlease'
      refine count_setFlow (by simp [under]) fun g hg => ?_
      exact (under_of_request hs htask hidle (w := ⟨task.role.kind, other, f⟩) rfl hrequests
        hg).symm
    · rw [Function.update_of_ne hticket] at hlease'
      refine count_setFlow ?_ fun g _ => hs.pending other lease hlease' g
      have hne : other ≠ ticket := hticket
      rw [hs.pending other lease hlease' f, hflow]
      simp [under, hcontext, Ne.symm hne]

theorem movesTo_close (hs : s.Orderly) (htask : s.task f = some task)
    (hflow : s.sections.flow f = some flow) (hclosing : flow.phase = .closing) {frame : Frame}
    {outer : List Frame} (houter : flow.outer = frame :: outer)
    (hcontext : flow.current.lease = some ticket) (hlease : s.sections.lease ticket = some lease) :
    MovesTo s (s.sections.close f frame outer ticket lease) f task ⟨⟨none, 0⟩, [], .running⟩ := by
  cases hs.stands f task flow htask hflow with
  | outside => cases hclosing
  | acquiring => cases hclosing
  | inherits => cases hclosing
  | @inside own nested pending phase hheld hget hfinished hphase =>
    obtain rfl : own = ticket := Option.some.inj hcontext
    obtain ⟨rfl, rfl⟩ : (⟨none, 0⟩ : Frame) = frame ∧ [] = outer := by simpa using houter
    obtain rfl := Option.some.inj (hget.symm.trans hlease)
    have hout := (WriteBarrier.mem_held.mp hheld).2
    have hmoves : s.sections.barrier.Moves
        (s.sections.barrier.release ⟨task.role.kind, own, f⟩) [] [own] :=
      WriteBarrier.release_moves hout
    have hnested : nested = 0 := by
      rcases hphase with hp | ⟨_, hn, _⟩
      · cases hp.symm.trans hclosing
      · exact hn
    refine ⟨⟨fun g hg => Function.update_of_ne hg _ _, ⟨_, _, hmoves, by simp, ?_⟩, ?_⟩,
      hs.valid.release (WriteBarrier.mem_held.mp hheld).1, Function.update_self _ _ _, .outside,
      ?_, ?_⟩
    · intro gone hgone
      rw [List.mem_singleton] at hgone
      exact ⟨_, WriteBarrier.mem_requests_of_held hheld, hgone.symm, rfl⟩
    · intro w hw hne pending' hw'
      have hother : w.ticket ≠ own := fun heq => hne
        (hs.resolve_of_held (WriteBarrier.mem_requests_of_held hw)
          (WriteBarrier.mem_requests_of_held hheld) heq)
      exact ⟨pending', (Function.update_of_ne hother _ _).trans hw'⟩
    · intro w hw hresolve hlive
      have hw' : w ∈ (s.sections.barrier.release ⟨task.role.kind, own, f⟩).requests := hw
      have hlive' : w.ticket ∉
        (s.sections.barrier.release ⟨task.role.kind, own, f⟩).released := hlive
      rw [hmoves.requests, List.append_nil] at hw'
      rw [hmoves.released, List.mem_append, not_or, List.mem_singleton] at hlive'
      obtain ⟨found, hfound, hrequest⟩ := hs.requested w hw' hlive'.2
      rw [hresolve, hflow, Option.some.injEq] at hfound
      subst hfound
      rcases hrequest with h | ⟨h, _⟩
      · cases hclosing.symm.trans h
      · exact absurd (Option.some.inj h).symm hlive'.1
    · intro other found hfound
      have hfound' : Function.update s.sections.lease own _ other = some found := hfound
      -- nothing of the mover is pending, before and after
      have hself : ∀ lease', s.sections.lease other = some lease' → lease'.pending.count f = 0 := by
        intro lease' hlease'
        rw [hs.pending other lease' hlease' f, hflow]
        simp [under, hnested]
      by_cases hticket : other = own
      · subst hticket
        rw [Function.update_self, Option.some.injEq] at hfound'
        subst hfound'
        have hcount := hself _ hget
        have hrest := hs.pending other _ hget
        exact count_setFlow hcount fun g _ => hrest g
      · rw [Function.update_of_ne hticket] at hfound'
        exact count_setFlow (hself _ hfound') fun g _ => hs.pending other found hfound' g

/-- Code within an active section joins it. -/
theorem joinable_of_lease (hcontext : flow.current.lease = some ticket)
    (hlease : s.sections.lease ticket = some lease) (hactive : lease.active = true)
    (howns : lease.kind = .exclusive → s.sections.barrier.exclusive = some ticket) :
    s.sections.joinable flow = some (ticket, lease) := by
  unfold Sections.joinable
  simp only [hcontext, hlease]
  rw [if_pos ⟨hactive, fun hkind => by simp [WriteBarrier.owns, howns hkind]⟩]

/-- A task within a section, its own or the one it was started in, writes as a part of it. -/
theorem joinable_of_stands (hs : s.Orderly) (hstands : s.Stands f task flow)
    (hfinished : task.finished = false) (hcontext : flow.current.lease = some ticket) :
    ∃ lease, s.sections.joinable flow = some (ticket, lease) := by
  cases hstands with
  | outside => cases hcontext
  | acquiring => cases hcontext
  | @inside own nested pending phase hheld hlease _ _ =>
    obtain rfl : own = ticket := Option.some.inj hcontext
    refine ⟨_, joinable_of_lease rfl hlease rfl fun hkind => ?_⟩
    exact (hs.valid.alone _ hheld hkind).2
  | @inherits own nested hrole _ hstarter =>
    obtain rfl : own = ticket := Option.some.inj hcontext
    obtain ⟨starter, other, ⟨started, hstarted, hawaits⟩, hother, hlease, houter⟩ :=
      hstarter hfinished
    obtain ⟨hclient, _, _⟩ := hs.awaiting starter started f hstarted hawaits
    cases hs.stands starter started other hstarted hother with
    | outside => exact absurd rfl houter
    | acquiring => exact absurd rfl houter
    | inherits => exact absurd rfl houter
    | @inside found nested pending phase hheld hget _ _ =>
      obtain rfl : found = own := Option.some.inj hlease
      refine ⟨_, joinable_of_lease rfl hget rfl fun hkind => ?_⟩
      rw [hclient] at hkind
      cases hkind

theorem joinable_outside (hcontext : flow.current.lease = none) :
    s.sections.joinable flow = none := by
  unfold Sections.joinable
  rw [hcontext]

theorem movesTo_join (hs : s.Orderly) (htask : s.task f = some task)
    (hflow : s.sections.flow f = some flow) (hfinished : task.finished = false)
    (hrunning : flow.phase = .running) (hjoin : s.sections.joinable flow = some (ticket, lease)) :
    MovesTo s (s.sections.join f flow ticket lease) f task
      { flow with current := { flow.current with nested := flow.current.nested + 1 } } := by
  obtain ⟨hcontext, hlease, _, _⟩ := Sections.mem_barrier_of_joinable hjoin
  refine movesTo_pending hs htask hflow hfinished hrunning hcontext hlease ?_ fun g hg => ?_
  · rw [List.count_cons_self, hs.pending ticket lease hlease f, hflow]
    simp [under, hcontext]
  · rw [List.count_cons_of_ne (Ne.symm hg)]

/-- A flow that does not await a request has none in the queue. -/
theorem MovesTo.not_queued {t : Sections} (h : MovesTo s t f task flow)
    (hphase : ∀ kind ticket, flow.phase ≠ .acquiring kind ticket) :
    ¬ ∃ w ∈ t.barrier.waiters, w.resolve = f := by
  rintro ⟨w, hw, hresolve⟩
  have hout := h.valid.waiter_not_released hw
  rcases h.requested w (List.mem_append_right _ hw) hresolve hout with hrequest | ⟨hcontext, houter⟩
  · exact hphase _ _ hrequest
  · cases h.stands with
    | outside => exact absurd rfl houter
    | acquiring => exact absurd rfl houter
    | inherits => exact absurd rfl houter
    | inside hheld _ _ _ =>
      have hresolved := (WriteBarrier.mem_held.mp hheld).1
      have hsame := h.valid.eq_of_ticket (List.mem_append_left _ hresolved)
        (List.mem_append_right _ hw) (Option.some.inj hcontext)
      exact h.valid.toCoherent.not_resolved hw (hsame ▸ hresolved)

end Moves

/-! ## Every step keeps the invariant -/

section Within

variable {s : Daemon} {f : Nat} {task : Task} {flow : Flow} {t : Sections}

/-- The condition on a run: a task that holds a lease does not join a drain that waits in the queue
    of the barrier, and a drain that such a task awaits does not ask the barrier while a request
    waits in the queue. -/
def Allowed (s : Daemon) : Action → Prop
  | .drainIndex f _ => s.Holds f → ∀ drain, s.drainPromise = some drain → ¬ s.Queued drain
  | .write drain => (∃ f, s.Awaits f drain ∧ s.Holds f) →
      (∃ flow, s.sections.flow drain = some flow ∧ flow.current.lease = none) →
      s.sections.barrier.waiters = []
  | _ => True

variable {u : Daemon}

theorem within_eq_some {may : Task → Flow → Bool} {action : Sections.Action}
    (h : s.within f may action = some u) : ∃ task flow t, (s.task f = some task ∧
      s.sections.flow f = some flow ∧ task.awaiting = none ∧ task.finished = false) ∧
      may task flow = true ∧ s.sections.step action = some t ∧ u = { s with sections := t } := by
  obtain ⟨⟨task, flow⟩, hready, h⟩ := Option.bind_eq_some_iff.mp h
  dsimp only at h
  split at h
  · next hmay =>
    obtain ⟨t, ht, rfl⟩ := Option.map_eq_some_iff.mp h
    exact ⟨task, flow, t, ready_eq_some hready, hmay, ht, rfl⟩
  · cases h

/-- A move that does not end in the queue. -/
theorem MovesTo.keeps (h : MovesTo s t f task flow) (hs : s.Orderly) (hclear : s.Clear)
    (htask : s.task f = some task) (hidle : task.awaiting = none)
    (hphase : ∀ kind ticket, flow.phase ≠ .acquiring kind ticket) :
    ({ s with sections := t } : Daemon).Orderly ∧ ({ s with sections := t } : Daemon).Clear :=
  ⟨h.orderly hs htask hidle, h.clear hclear htask hidle fun _ _ _ => h.not_queued hphase⟩

/-- A task that awaits a drain within its section holds a shared lease. -/
theorem exclusive_eq_none_of_awaits (hs : s.Orderly) {g drain : Nat} (hawaits : s.Awaits g drain)
    (hholds : s.Holds g) : s.sections.barrier.exclusive = none := by
  obtain ⟨found, hfound, hdrain⟩ := hawaits
  obtain ⟨own, hown, houter⟩ := hholds
  obtain ⟨hclient, _, _⟩ := hs.awaiting g found drain hfound hdrain
  cases hs.stands g found own hfound hown with
  | outside => exact absurd rfl houter
  | acquiring => exact absurd rfl houter
  | inherits => exact absurd rfl houter
  | inside hheld _ _ _ => exact hs.valid.exclusive_eq_none hheld (by rw [hclient]; rfl)

theorem keeps_write (hs : s.Orderly) (hclear : s.Clear) (hallowed : s.Allowed (.write f))
    (h : s.within f mayWrite (.sharedWrite f) = some u) : u.Orderly ∧ u.Clear := by
  obtain ⟨task, flow, t, ⟨htask, hflow, hidle, hfinished⟩, hmay, ht, rfl⟩ := within_eq_some h
  obtain ⟨found, hfound, rfl⟩ := Option.map_eq_some_iff.mp ht
  obtain ⟨hfound, hrunning⟩ := Sections.runningFlow_eq_some.mp hfound
  obtain rfl : flow = found := Option.some.inj (hflow.symm.trans hfound)
  have hstands := hs.stands f task flow htask hflow
  cases hcontext : flow.current.lease with
  | some ticket =>
    obtain ⟨lease, hjoin⟩ := joinable_of_stands hs hstands hfinished hcontext
    unfold Sections.withSharedWrite
    simp only [hjoin]
    refine (movesTo_join hs htask hflow hfinished hrunning hjoin).keeps hs hclear htask hidle ?_
    intro kind other
    rw [show ({ flow with current := _ } : Flow).phase = flow.phase from rfl, hrunning]
    exact fun h => by cases h
  | none =>
    have hkind : task.role.kind = .shared := by
      cases hstands with
      | outside =>
        cases hrole : task.role with
        | client => rfl
        | drain => rfl
        | maintenance => simp [mayWrite, hrole] at hmay
      | acquiring => cases hrunning
      | inside => cases hcontext
      | inherits => cases hcontext
    have hshape : flow = ⟨⟨none, 0⟩, [], .running⟩ := by
      cases hstands with
      | outside => rfl
      | acquiring => cases hrunning
      | inside => cases hcontext
      | inherits => cases hcontext
    subst hshape
    unfold Sections.withSharedWrite
    simp only [joinable_outside (s := s) hcontext]
    split
    · next barrier htry =>
      obtain ⟨hmoves, hgranted⟩ := WriteBarrier.tryAcquireShared_moves htry
      have hmove := movesTo_enter hs htask hflow hidle hfinished rfl rfl hmoves
        (by simp) (hs.valid.tryAcquireShared htry) (by rw [hkind]; exact hgranted)
        hs.valid.issued_not_released ?_
      · rw [hkind] at hmove
        exact hmove.keeps hs hclear htask hidle fun _ _ h => by cases h
      · intro w hw hresolve hlive
        rw [hmoves.requests, List.mem_append, List.mem_singleton] at hw
        rcases hw with hold | rfl
        · rw [hmoves.released] at hlive
          exact absurd (no_request_outside hs hflow rfl rfl hold hresolve) hlive
        · rfl
    · next htry =>
      have hmove := movesTo_await hs hflow hidle hfinished
      rw [hkind] at hmove
      refine ⟨hmove.orderly hs htask hidle, hmove.clear hclear htask hidle ?_⟩
      intro g hawaits hholds _
      -- with an empty queue and a shared lease out, the request would have been granted
      have hempty := hallowed ⟨g, hawaits, hholds⟩ ⟨_, hflow, rfl⟩
      have hexclusive := exclusive_eq_none_of_awaits hs hawaits hholds
      simp [WriteBarrier.tryAcquireShared, hempty, hexclusive] at htry

theorem keeps_exclusive (hs : s.Orderly) (hclear : s.Clear)
    (h : s.within f mayExclude (.exclusiveWrites f) = some u) : u.Orderly ∧ u.Clear := by
  obtain ⟨task, flow, t, ⟨htask, hflow, hidle, hfinished⟩, hmay, ht, rfl⟩ := within_eq_some h
  obtain ⟨found, hfound, rfl⟩ := Option.map_eq_some_iff.mp ht
  obtain ⟨hfound, hrunning⟩ := Sections.runningFlow_eq_some.mp hfound
  obtain rfl : flow = found := Option.some.inj (hflow.symm.trans hfound)
  obtain ⟨hrole, houter⟩ : task.role = .maintenance ∧ flow.outer = [] := by simpa [mayExclude] using hmay
  have hshape : flow = ⟨⟨none, 0⟩, [], .running⟩ := by
    cases hs.stands f task flow htask hflow with
    | outside => rfl
    | acquiring => cases hrunning
    | inside => cases houter
    | inherits hdrain => rw [hrole] at hdrain; cases hdrain
  subst hshape
  have hmove := movesTo_await hs hflow hidle hfinished
  rw [hrole] at hmove
  unfold Sections.withExclusiveWrites
  have houtside : s.sections.joinable ⟨⟨none, 0⟩, [], .running⟩ = none := joinable_outside rfl
  simp only [houtside]
  refine ⟨hmove.orderly hs htask hidle, hmove.clear hclear htask hidle ?_⟩
  rintro g ⟨found, hfound, hdrain⟩ _ _
  obtain ⟨_, _, other, hother, hotherRole⟩ := hs.awaiting g found f hfound hdrain
  rw [htask, Option.some.injEq] at hother
  rw [← hother, hrole] at hotherRole
  cases hotherRole

theorem keeps_resume (hs : s.Orderly) (hclear : s.Clear)
    (h : s.within f (fun _ _ => true) (.resume f) = some u) : u.Orderly ∧ u.Clear := by
  obtain ⟨task, flow, t, ⟨htask, hflow, hidle, hfinished⟩, _, ht, rfl⟩ := within_eq_some h
  obtain ⟨found, hfound, ht⟩ := Option.bind_eq_some_iff.mp ht
  obtain rfl : flow = found := Option.some.inj (hflow.symm.trans hfound)
  have hstands := hs.stands f task flow htask hflow
  split at ht
  · next kind ticket hphase =>
    split at ht
    · next hgranted =>
      cases ht
      cases hstands with
      | outside => cases hphase
      | inherits => cases hphase
      | inside _ _ _ hrest =>
        rcases hrest with hp | ⟨hp | hp, _⟩ <;> cases hp.symm.trans hphase
      | acquiring _ hout _ _ =>
        cases hphase
        have hsame : s.sections.barrier.Moves s.sections.barrier [] [] :=
          ⟨(List.append_nil _).symm, List.prefix_rfl, rfl⟩
        refine (movesTo_enter hs htask hflow hidle hfinished rfl rfl hsame (by simp) hs.valid
          hgranted hout ?_).keeps hs hclear htask hidle fun _ _ h => by cases h
        intro w hw hresolve hlive
        obtain ⟨other, hother, hrequest⟩ := hs.requested w hw hlive
        rw [hresolve, hflow, Option.some.injEq] at hother
        subst hother
        rcases hrequest with hp | ⟨_, houter⟩
        · exact (FlowPhase.acquiring.inj hp).2.symm
        · exact absurd rfl houter
    · cases ht
  · cases ht

theorem keeps_settle (hs : s.Orderly) (hclear : s.Clear)
    (h : s.within f (fun _ _ => true) (.settle f) = some u) : u.Orderly ∧ u.Clear := by
  obtain ⟨task, flow, t, ⟨htask, hflow, hidle, hfinished⟩, _, ht, rfl⟩ := within_eq_some h
  obtain ⟨found, hfound, ht⟩ := Option.bind_eq_some_iff.mp ht
  obtain ⟨hfound, hrunning⟩ := Sections.runningFlow_eq_some.mp hfound
  obtain rfl : flow = found := Option.some.inj (hflow.symm.trans hfound)
  unfold Sections.settleInnermost at ht
  split at ht
  · next hnested =>
    split at ht
    · cases ht
    · next houter =>
      cases ht
      exact (movesTo_phase hs htask hflow hidle hnested houter (.inl rfl)).keeps hs hclear htask
        hidle fun _ _ h => by cases h
  · next hnested =>
    obtain ⟨⟨ticket, lease⟩, hlease, rfl⟩ := Option.map_eq_some_iff.mp ht
    obtain ⟨hcontext, hlease⟩ := Sections.currentLease_eq_some hlease
    have hcount : lease.pending.count f = flow.current.nested := by
      rw [hs.pending ticket lease hlease f, hflow]
      simp [under, hcontext]
    refine (movesTo_pending hs htask hflow hfinished hrunning hcontext hlease ?_ fun g hg => ?_).keeps
      hs hclear htask hidle ?_
    · rw [List.count_erase_self, hcount]
    · exact List.count_erase_of_ne hg
    · intro kind other
      rw [show ({ flow with current := _ } : Flow).phase = flow.phase from rfl, hrunning]
      exact fun h => by cases h

theorem keeps_settled (hs : s.Orderly) (hclear : s.Clear)
    (h : s.within f (fun _ _ => true) (.settled f) = some u) : u.Orderly ∧ u.Clear := by
  obtain ⟨task, flow, t, ⟨htask, hflow, hidle, _⟩, _, ht, rfl⟩ := within_eq_some h
  obtain ⟨found, hfound, ht⟩ := Option.bind_eq_some_iff.mp ht
  obtain rfl : flow = found := Option.some.inj (hflow.symm.trans hfound)
  obtain ⟨⟨ticket, lease⟩, hlease, ht⟩ := Option.bind_eq_some_iff.mp ht
  dsimp only at ht
  split at ht
  · next hphase =>
    cases ht
    have hstands := hs.stands f task flow htask hflow
    obtain ⟨hnested, houter⟩ : flow.current.nested = 0 ∧ flow.outer ≠ [] := by
      cases hstands with
      | outside => cases hphase.1
      | acquiring => cases hphase.1
      | inherits => cases hphase.1
      | inside _ _ _ hrest =>
        rcases hrest with hp | ⟨_, hn, _⟩
        · cases hp.symm.trans hphase.1
        · exact ⟨hn, List.cons_ne_nil _ _⟩
    exact (movesTo_phase hs htask hflow hidle hnested houter (.inr rfl)).keeps hs hclear htask hidle
      fun _ _ h => by cases h
  · cases ht

theorem keeps_close (hs : s.Orderly) (hclear : s.Clear)
    (h : s.within f (fun _ _ => true) (.close f) = some u) : u.Orderly ∧ u.Clear := by
  obtain ⟨task, flow, t, ⟨htask, hflow, hidle, _⟩, _, ht, rfl⟩ := within_eq_some h
  obtain ⟨found, hfound, ht⟩ := Option.bind_eq_some_iff.mp ht
  obtain rfl : flow = found := Option.some.inj (hflow.symm.trans hfound)
  obtain ⟨⟨ticket, lease⟩, hlease, ht⟩ := Option.bind_eq_some_iff.mp ht
  obtain ⟨hcontext, hlease⟩ := Sections.currentLease_eq_some hlease
  dsimp only at ht
  split at ht
  · next frame outer hphase houter =>
    cases ht
    exact (movesTo_close hs htask hflow hphase houter hcontext hlease).keeps hs hclear htask hidle
      fun _ _ h => by cases h
  · cases ht

variable {task' : Task} {sections : Sections}

theorem Stands.transfer (hstands : s.Stands f task flow)
    (hbarrier : u.sections.barrier = s.sections.barrier)
    (hlease : u.sections.lease = s.sections.lease) (hrole : task'.role = task.role)
    (hawaiting : flow.phase ≠ .running → task'.awaiting = task.awaiting)
    (hfinished : task'.finished = true → task.finished = true ∨
      (flow.outer = [] ∧ flow.phase = .running ∧ flow.current.nested = 0))
    (hstarter : task'.finished = false → task.finished = false ∧ ∀ g found, s.Awaits g f →
      s.sections.flow g = some found → u.Awaits g f ∧ u.sections.flow g = some found) :
    u.Stands f task' flow := by
  have hlive : flow.outer ≠ [] ∨ flow.phase ≠ .running → task.finished = false →
      task'.finished = false := by
    intro hbusy hfalse
    by_contra htrue
    rcases hfinished (by simpa using htrue) with h | ⟨houter, hphase, _⟩
    · rw [hfalse] at h
      cases h
    · exact hbusy.elim (fun h => h houter) fun h => h hphase
  cases hstands with
  | outside => exact .outside
  | acquiring hrequest hout hnone hfalse =>
    have hfalse' := hlive (.inr (by simp)) hfalse
    rw [← hrole] at hrequest ⊢
    exact .acquiring (hbarrier ▸ hrequest) (hbarrier ▸ hout)
      ((hawaiting (by simp)).trans hnone) hfalse'
  | inside hheld hget hfalse hphase =>
    rw [← hrole] at hheld hget
    refine .inside (hbarrier ▸ hheld) (hlease ▸ hget)
      (hlive (.inl (List.cons_ne_nil _ _)) hfalse) ?_
    rcases hphase with h | ⟨h, hn, hnone⟩
    · exact .inl h
    · refine .inr ⟨h, hn, (hawaiting ?_).trans hnone⟩
      rcases h with rfl | rfl <;> simp
  | inherits hdrain hended hstarted =>
    refine .inherits (hrole.trans hdrain) (fun htrue => ?_) fun hfalse => ?_
    · exact (hfinished htrue).elim hended fun h => h.2.2
    · obtain ⟨hlive, hkeep⟩ := hstarter hfalse
      obtain ⟨g, found, hawaits, hfound, hcontext, houter⟩ := hstarted hlive
      obtain ⟨hawaits', hfound'⟩ := hkeep g found hawaits hfound
      exact ⟨g, found, hawaits', hfound', hcontext, houter⟩

/-- A step that adds flows or changes tasks, and leaves the barrier and the leases alone. -/
theorem orderly_of_tasks (hs : s.Orderly) (hbarrier : u.sections.barrier = s.sections.barrier)
    (hlease : u.sections.lease = s.sections.lease)
    (hflows : ∀ g found, s.sections.flow g = some found → u.sections.flow g = some found)
    (hnew : ∀ g found, u.sections.flow g = some found → s.sections.flow g = none →
      found.current.nested = 0)
    (hknown : ∀ g, u.sections.flow g = none ↔ u.task g = none)
    (hstands : ∀ g task flow, u.task g = some task → u.sections.flow g = some flow →
      u.Stands g task flow)
    (hawaiting : ∀ g task drain, u.task g = some task → task.awaiting = some drain →
      task.role = .client ∧ task.finished = false ∧
        ∃ other, u.task drain = some other ∧ other.role = .drain)
    (hdrains : ∀ g task, u.task g = some task → task.role = .drain →
      (task.finished = false ↔ u.drainPromise = some g))
    (hpromised : ∀ g, u.drainPromise = some g → ∃ task, u.task g = some task ∧ task.role = .drain) :
    u.Orderly := by
  refine ⟨hbarrier ▸ hs.valid, hknown, hstands, fun w hw hout => ?_, fun ticket lease hget g => ?_,
    hawaiting, hdrains, hpromised⟩
  · obtain ⟨found, hfound, hrequest⟩ := hs.requested w (hbarrier ▸ hw) (hbarrier ▸ hout)
    exact ⟨found, hflows _ _ hfound, hrequest⟩
  · rw [hs.pending ticket lease (hlease ▸ hget) g]
    cases hfound : s.sections.flow g with
    | some found => rw [hflows g found hfound]
    | none =>
      cases hother : u.sections.flow g with
      | none => rfl
      | some other => simp [under, hnew g other hother hfound]

/-- The tasks that stood somewhere before a task was added or changed its drain. -/
theorem Stands.of_awaits (hstands : s.Stands f task flow)
    (hbarrier : u.sections.barrier = s.sections.barrier)
    (hlease : u.sections.lease = s.sections.lease)
    (hflows : ∀ g found, s.sections.flow g = some found → u.sections.flow g = some found)
    (hawaits : task.finished = false → ∀ g, s.Awaits g f → u.Awaits g f) : u.Stands f task flow :=
  hstands.transfer hbarrier hlease rfl (fun _ => rfl) .inl fun hfalse =>
    ⟨hfalse, fun g found hg hfound => ⟨hawaits hfalse g hg, hflows g found hfound⟩⟩

theorem flow_spawn (hnew : sections.flow f = none) {g : Nat} {found : Flow}
    (hfound : sections.flow g = some found) : (sections.setFlow f flow).flow g = some found := by
  rw [Sections.flow_setFlow_of_ne _ (fun h => by rw [h, hnew] at hfound; cases hfound), hfound]

theorem flow_spawn_cases {g : Nat} {found : Flow}
    (hfound : (sections.setFlow f flow).flow g = some found) :
    (g = f ∧ flow = found) ∨ (g ≠ f ∧ sections.flow g = some found) := by
  by_cases heq : g = f
  · rw [heq, Sections.flow_setFlow_self, Option.some.injEq] at hfound
    exact .inl ⟨heq, hfound⟩
  · rw [Sections.flow_setFlow_of_ne _ heq] at hfound
    exact .inr ⟨heq, hfound⟩

theorem task_setTask_cases {g : Nat} {found : Task} (hfound : (s.setTask f task).task g = some found) :
    (g = f ∧ task = found) ∨ (g ≠ f ∧ s.task g = some found) := by
  rw [task_setTask] at hfound
  split at hfound
  · next heq => exact .inl ⟨heq, Option.some.inj hfound⟩
  · next hne => exact .inr ⟨hne, hfound⟩

theorem keeps_start (hs : s.Orderly) (hclear : s.Clear) {role : Role}
    (h : s.start f role = some u) : u.Orderly ∧ u.Clear := by
  unfold start at h
  split at h
  · next hfresh =>
    obtain ⟨hnew, hrole⟩ := hfresh
    have hflow : s.sections.flow f = none := (hs.known f).mpr hnew
    obtain ⟨sections, hsections, rfl⟩ := Option.map_eq_some_iff.mp h
    simp only [Sections.step, hflow, if_pos, Option.some.injEq] at hsections
    subst hsections
    have hkeep : ∀ g found, s.task g = some found →
        (Daemon.setTask { s with sections := s.sections.setFlow f ⟨⟨none, 0⟩, [], .running⟩ } f
          ⟨role, none, false⟩).task g = some found := by
      intro g found hg
      rw [task_setTask, if_neg (fun h => by rw [h, hnew] at hg; cases hg), ← hg]
    refine ⟨orderly_of_tasks hs rfl rfl (fun g found => flow_spawn hflow) ?_ ?_ ?_ ?_ ?_ ?_, ?_⟩
    · intro g found hg hnone
      obtain ⟨_, rfl⟩ | ⟨_, hg⟩ := flow_spawn_cases hg
      · rfl
      · rw [hnone] at hg
        cases hg
    · intro g
      rw [task_setTask, sections_setTask]
      split
      · next heq => simp [heq]
      · next hne =>
        rw [Sections.flow_setFlow_of_ne _ hne]
        exact hs.known g
    · intro g found flow hg hflow'
      obtain ⟨rfl, rfl⟩ | ⟨_, hfound⟩ := flow_spawn_cases hflow'
      · exact .outside
      · obtain ⟨rfl, rfl⟩ | ⟨_, hg⟩ := task_setTask_cases hg
        · contradiction
        · refine (hs.stands g found flow hg hfound).of_awaits rfl rfl
            (fun g found => flow_spawn hflow) ?_
          rintro _ starter ⟨started, hstarted, hdrain⟩
          exact ⟨started, hkeep _ _ hstarted, hdrain⟩
    · intro g found drain hg hdrain
      obtain ⟨rfl, rfl⟩ | ⟨_, hg⟩ := task_setTask_cases hg
      · cases hdrain
      · obtain ⟨hclient, hfinished, other, hother, hotherRole⟩ :=
          hs.awaiting g found drain hg hdrain
        exact ⟨hclient, hfinished, other, hkeep _ _ hother, hotherRole⟩
    · intro g found hg hdrain
      obtain ⟨rfl, rfl⟩ | ⟨_, hg⟩ := task_setTask_cases hg
      · exact absurd hdrain hrole
      · exact hs.drains g found hg hdrain
    · intro g hg
      obtain ⟨found, hfound, hdrain⟩ := hs.promised g hg
      exact ⟨found, hkeep _ _ hfound, hdrain⟩
    · rintro g drain ⟨found, hfound, hdrain⟩ ⟨flow, hg, houter⟩ hqueued
      obtain ⟨rfl, rfl⟩ | ⟨_, hfound⟩ := task_setTask_cases hfound
      · cases hdrain
      · obtain ⟨_, rfl⟩ | ⟨_, hg⟩ := flow_spawn_cases hg
        · exact absurd rfl houter
        · exact hclear g drain ⟨found, hfound, hdrain⟩ ⟨flow, hg, houter⟩ hqueued
  · cases h

/-- One task changes its drain or comes to its end; what it is for stays. -/
theorem orderly_setTask (drainPromise : Option Nat) (hs : s.Orderly)
    (htask : s.task f = some task) (hrole : task'.role = task.role)
    (hstands : ∀ flow, s.sections.flow f = some flow →
      ({ s with drainPromise }.setTask f task').Stands f task' flow)
    (hawaited : ∀ g found, s.task g = some found → s.Awaits f g → found.finished = false →
      task'.awaiting = some g)
    (hawaiting : ∀ drain, task'.awaiting = some drain → task'.role = .client ∧
      task'.finished = false ∧ drain ≠ f ∧ ∃ other, s.task drain = some other ∧ other.role = .drain)
    (hdrains : ∀ g found, (g = f ∧ found = task') ∨ (g ≠ f ∧ s.task g = some found) →
      found.role = .drain → (found.finished = false ↔ drainPromise = some g))
    (hpromised : drainPromise = none ∨ drainPromise = s.drainPromise) :
    ({ s with drainPromise }.setTask f task').Orderly := by
  have hkeep : ∀ g found, s.task g = some found → ∃ other,
      ({ s with drainPromise }.setTask f task').task g = some other ∧ other.role = found.role := by
    intro g found hg
    rw [task_setTask]
    split
    · next heq =>
      rw [heq, htask, Option.some.injEq] at hg
      exact ⟨task', rfl, hg ▸ hrole⟩
    · exact ⟨found, hg, rfl⟩
  refine orderly_of_tasks hs rfl rfl (fun _ _ h => h) (fun g found hg hnone => ?_) ?_ ?_ ?_ ?_ ?_
  · cases hnone.symm.trans hg
  · intro g
    rw [task_setTask]
    split
    · next heq => simp [heq, hs.known f, htask]
    · exact hs.known g
  · intro g found flow hg hflow
    obtain ⟨rfl, rfl⟩ | ⟨_, hold⟩ := task_setTask_cases hg
    · exact hstands flow hflow
    · refine (hs.stands g found flow hold hflow).of_awaits rfl rfl (fun _ _ h => h) ?_
      rintro hfalse starter ⟨started, hstarted, hdrain⟩
      by_cases heq : starter = f
      · subst heq
        have hsame := hawaited g found hold ⟨started, hstarted, hdrain⟩ hfalse
        exact ⟨task', by rw [task_setTask, if_pos rfl], hsame⟩
      · exact ⟨started, by rw [task_setTask, if_neg heq]; exact hstarted, hdrain⟩
  · intro g found drain hg hdrain
    obtain ⟨rfl, rfl⟩ | ⟨_, hg⟩ := task_setTask_cases hg
    · obtain ⟨hclient, hfinished, _, other, hother, hotherRole⟩ := hawaiting drain hdrain
      obtain ⟨other', hother', hsame⟩ := hkeep drain other hother
      exact ⟨hclient, hfinished, other', hother', hsame.trans hotherRole⟩
    · obtain ⟨hclient, hfinished, other, hother, hotherRole⟩ :=
        hs.awaiting g found drain hg hdrain
      obtain ⟨other', hother', hsame⟩ := hkeep drain other hother
      exact ⟨hclient, hfinished, other', hother', hsame.trans hotherRole⟩
  · intro g found hg hdrain
    obtain ⟨rfl, rfl⟩ | ⟨hne, hg⟩ := task_setTask_cases hg
    · exact hdrains g task' (.inl ⟨rfl, rfl⟩) hdrain
    · exact hdrains g found (.inr ⟨hne, hg⟩) hdrain
  · intro g hg
    have hg' : drainPromise = some g := hg
    rcases hpromised with h | h
    · rw [h] at hg'
      cases hg'
    · obtain ⟨found, hfound, hdrain⟩ := hs.promised g (h ▸ hg')
      obtain ⟨other, hother, hsame⟩ := hkeep g found hfound
      exact ⟨other, hother, hsame.trans hdrain⟩

/-- Changing the awaited drain or ending does not move a task between sections. -/
theorem clear_setTask (drainPromise : Option Nat) (hclear : s.Clear)
    (hself : ∀ drain, task'.awaiting = some drain → s.Holds f → ¬ s.Queued drain) :
    ({ s with drainPromise }.setTask f task').Clear := by
  rintro g drain ⟨found, hfound, hdrain⟩ hholds hqueued
  obtain ⟨rfl, rfl⟩ | ⟨_, hfound⟩ := task_setTask_cases hfound
  · exact hself drain hdrain hholds hqueued
  · exact hclear g drain ⟨found, hfound, hdrain⟩ hholds hqueued

theorem keeps_wake (hs : s.Orderly) (hclear : s.Clear) (h : s.wake f = some u) :
    u.Orderly ∧ u.Clear := by
  obtain ⟨task, htask, h⟩ := Option.bind_eq_some_iff.mp h
  obtain ⟨drain, hdrain, h⟩ := Option.bind_eq_some_iff.mp h
  split at h
  · next hended =>
    cases h
    obtain ⟨hclient, hfinished, _⟩ := hs.awaiting f task drain htask hdrain
    obtain ⟨other, hother, htrue⟩ : ∃ other, s.task drain = some other ∧ other.finished := by
      unfold ended at hended
      cases hother : s.task drain with
      | none => simp [hother] at hended
      | some other => exact ⟨other, rfl, by simpa [hother] using hended⟩
    refine ⟨orderly_setTask s.drainPromise hs htask rfl (fun flow hflow => ?_)
      (fun g found hg hawaits hfalse => ?_) (fun _ h => by cases h) ?_ (.inr rfl),
      clear_setTask s.drainPromise hclear fun _ h => by cases h⟩
    · refine (hs.stands f task flow htask hflow).transfer rfl rfl rfl (fun hphase => ?_) .inl
        fun hfalse => ⟨hfalse, fun starter own hawaits hown => ⟨?_, hown⟩⟩
      · cases hs.stands f task flow htask hflow with
        | outside => exact absurd rfl hphase
        | inherits => exact absurd rfl hphase
        | acquiring _ _ hnone _ => rw [hdrain] at hnone; cases hnone
        | inside _ _ _ hrest =>
          rcases hrest with h | ⟨_, _, hnone⟩
          · exact absurd h hphase
          · rw [hdrain] at hnone
            cases hnone
      · obtain ⟨started, hstarted, hsame⟩ := hawaits
        have hdrains := (hs.awaiting starter started f hstarted hsame).2.2
        obtain ⟨found, hfound, hrole⟩ := hdrains
        rw [htask, Option.some.injEq] at hfound
        rw [← hfound, hclient] at hrole
        cases hrole
    · obtain ⟨found', hfound', hsame⟩ := hawaits
      rw [htask, Option.some.injEq] at hfound'
      rw [← hfound', hdrain, Option.some.injEq] at hsame
      rw [← hsame, hother, Option.some.injEq] at hg
      rw [← hg, htrue] at hfalse
      cases hfalse
    · rintro g found (⟨rfl, rfl⟩ | ⟨_, hg⟩) hrole
      · rw [hclient] at hrole
        cases hrole
      · exact hs.drains g found hg hrole
  · cases h

theorem keeps_finish (hs : s.Orderly) (hclear : s.Clear) (h : s.finish f = some u) :
    u.Orderly ∧ u.Clear := by
  obtain ⟨⟨task, flow⟩, hready, h⟩ := Option.bind_eq_some_iff.mp h
  obtain ⟨htask, hflow, hidle, hfinished⟩ := ready_eq_some hready
  dsimp only at h
  split at h
  · next hend =>
    cases h
    have hself : ∀ drain, ({ task with finished := true } : Task).awaiting ≠ some drain := by
      intro drain hdrain
      cases hidle.symm.trans hdrain
    refine ⟨orderly_setTask _ hs htask rfl (fun found hfound => ?_) (fun g found hg hawaits _ => ?_)
      (fun drain hdrain => absurd hdrain (hself drain)) ?_ ?_, clear_setTask _ hclear
        fun drain hdrain => absurd hdrain (hself drain)⟩
    · obtain rfl : flow = found := Option.some.inj (hflow.symm.trans hfound)
      exact (hs.stands f task flow htask hflow).transfer rfl rfl rfl (fun _ => rfl)
        (fun _ => .inr ⟨hend.2.1, hend.1, hend.2.2⟩) fun h => by cases h
    · obtain ⟨found', hfound', hsame⟩ := hawaits
      rw [htask, Option.some.injEq] at hfound'
      rw [← hfound', hidle] at hsame
      cases hsame
    · rintro g found (⟨rfl, rfl⟩ | ⟨hne, hg⟩) hrole
      · have hpromise := (hs.drains g task htask hrole).mp hfinished
        simp [hpromise]
      · rw [hs.drains g found hg hrole]
        split
        · next heq => simp [heq, Ne.symm hne]
        · rfl
    · split
      · exact .inl rfl
      · exact .inr rfl
  · cases h

/-- A task that awaits nothing is the starter of no running drain. -/
theorem awaits_of_setTask {g drain : Nat} (htask : s.task f = some task)
    (hidle : task.awaiting = none) (hawaits : s.Awaits g drain) :
    (s.setTask f task').Awaits g drain := by
  obtain ⟨found, hfound, hdrain⟩ := hawaits
  refine ⟨found, ?_, hdrain⟩
  rw [task_setTask, if_neg (fun h => ?_), hfound]
  rw [h, htask, Option.some.injEq] at hfound
  rw [← hfound, hidle] at hdrain
  cases hdrain

theorem keeps_joinDrain (hs : s.Orderly) (hclear : s.Clear) (hallowed : s.Allowed (.drainIndex f 0))
    (htask : s.task f = some task) (hflow : s.sections.flow f = some flow)
    (hidle : task.awaiting = none) (hfinished : task.finished = false)
    (hclient : task.role = .client) (hrunning : flow.phase = .running) {drain : Nat}
    (hpromise : s.drainPromise = some drain) :
    (s.setTask f { task with awaiting := some drain }).Orderly ∧
      (s.setTask f { task with awaiting := some drain }).Clear := by
  obtain ⟨other, hother, hdrain⟩ := hs.promised drain hpromise
  have hne : drain ≠ f := by
    rintro rfl
    rw [htask, Option.some.injEq] at hother
    rw [← hother, hclient] at hdrain
    cases hdrain
  refine ⟨orderly_setTask s.drainPromise hs htask rfl (fun found hfound => ?_)
    (fun g found hg hawaits _ => ?_) (fun found hfound => ?_) ?_ (.inr rfl),
    clear_setTask s.drainPromise hclear fun found hfound hholds => ?_⟩
  · obtain rfl : flow = found := Option.some.inj (hflow.symm.trans hfound)
    exact (hs.stands f task flow htask hflow).transfer rfl rfl rfl
      (fun hphase => absurd hrunning hphase) .inl fun hfalse => ⟨hfalse, fun starter own hawaits
        hown => ⟨awaits_of_setTask htask hidle hawaits, hown⟩⟩
  · obtain ⟨found', hfound', hsame⟩ := hawaits
    rw [htask, Option.some.injEq] at hfound'
    rw [← hfound', hidle] at hsame
    cases hsame
  · obtain rfl : drain = found := Option.some.inj hfound
    exact ⟨hclient, hfinished, hne, other, hother, hdrain⟩
  · rintro g found (⟨rfl, rfl⟩ | ⟨_, hg⟩) hrole
    · cases hclient.symm.trans hrole
    · exact hs.drains g found hg hrole
  · obtain rfl : drain = found := Option.some.inj hfound
    exact hallowed hholds drain hpromise

theorem keeps_startDrain (hs : s.Orderly) (hclear : s.Clear) (htask : s.task f = some task)
    (hflow : s.sections.flow f = some flow) (hidle : task.awaiting = none)
    (hfinished : task.finished = false) (hclient : task.role = .client)
    (hrunning : flow.phase = .running) (hpromise : s.drainPromise = none) {child : Nat}
    (hchild : s.task child = none)
    (hu : u = Daemon.setTask (Daemon.setTask
      { s with
        sections := s.sections.setFlow child ⟨⟨flow.current.lease, 0⟩, [], .running⟩
        drainPromise := some child } child ⟨.drain, none, false⟩) f
      { task with awaiting := some child }) : u.Orderly ∧ u.Clear := by
  have hfresh : s.sections.flow child = none := (hs.known child).mpr hchild
  have hne : child ≠ f := fun h => by rw [h, htask] at hchild; cases hchild
  have hflows : ∀ g found, s.sections.flow g = some found → u.sections.flow g = some found := by
    intro g found hg
    rw [hu]
    exact flow_spawn hfresh hg
  -- the tasks afterwards: the caller, the new drain, and those that were there
  have hcases : ∀ g found, u.task g = some found →
      (g = f ∧ { task with awaiting := some child } = found) ∨
      (g = child ∧ ⟨.drain, none, false⟩ = found) ∨
      (g ≠ f ∧ g ≠ child ∧ s.task g = some found) := by
    intro g found hg
    rw [hu] at hg
    obtain h | ⟨hf, hg⟩ := task_setTask_cases hg
    · exact .inl h
    · obtain h | ⟨hc, hg⟩ := task_setTask_cases hg
      · exact .inr (.inl h)
      · exact .inr (.inr ⟨hf, hc, hg⟩)
  have hself : u.task f = some { task with awaiting := some child } := by
    rw [hu, task_setTask, if_pos rfl]
  have hdrain : u.task child = some ⟨.drain, none, false⟩ := by
    rw [hu, task_setTask, if_neg hne, task_setTask, if_pos rfl]
  have hold : ∀ g found, g ≠ f → s.task g = some found → u.task g = some found := by
    intro g found hg hfound
    have hc : g ≠ child := fun h => by rw [h, hchild] at hfound; cases hfound
    rw [hu, task_setTask, if_neg hg, task_setTask, if_neg hc, ← hfound]
  have hawaits : ∀ g drain, s.Awaits g drain → u.Awaits g drain := by
    rintro g drain ⟨found, hfound, hsame⟩
    have hg : g ≠ f := by
      rintro rfl
      rw [htask, Option.some.injEq] at hfound
      rw [← hfound, hidle] at hsame
      cases hsame
    exact ⟨found, hold g found hg hfound, hsame⟩
  have hbarrier : u.sections.barrier = s.sections.barrier := by rw [hu]; rfl
  have hlease : u.sections.lease = s.sections.lease := by rw [hu]; rfl
  refine ⟨orderly_of_tasks hs hbarrier hlease hflows ?_ ?_ ?_ ?_ ?_ ?_, ?_⟩
  · intro g found hg hnone
    rw [hu] at hg
    obtain ⟨_, rfl⟩ | ⟨_, hg⟩ := flow_spawn_cases hg
    · rfl
    · cases hnone.symm.trans hg
  · intro g
    by_cases hf : g = f
    · rw [hf, hself, hflows f flow hflow]
      simp
    · by_cases hc : g = child
      · rw [hc, hdrain, hu]
        simp
      · rw [hu, task_setTask, if_neg hf, task_setTask, if_neg hc]
        rw [sections_setTask, sections_setTask, Sections.flow_setFlow_of_ne _ hc]
        exact hs.known g
  · intro g found own hg hown
    rcases hcases g found hg with ⟨rfl, rfl⟩ | ⟨rfl, rfl⟩ | ⟨hf, hc, hg⟩
    · obtain rfl := Option.some.inj ((hflows _ flow hflow).symm.trans hown)
      exact (hs.stands g task flow htask hflow).transfer hbarrier hlease rfl
        (fun hphase => absurd hrunning hphase) .inl fun hfalse => ⟨hfalse, fun starter own hg
          hown => ⟨hawaits starter g hg, hflows starter own hown⟩⟩
    · rw [hu, sections_setTask, sections_setTask, Sections.flow_setFlow_self,
        Option.some.injEq] at hown
      subst hown
      cases hcontext : flow.current.lease with
      | none => exact .outside
      | some ticket =>
        refine .inherits rfl (fun h => by cases h) fun _ => ?_
        refine ⟨f, flow, ⟨_, hself, rfl⟩, hflows f flow hflow, hcontext, ?_⟩
        cases hs.stands f task flow htask hflow with
        | outside => cases hcontext
        | acquiring => cases hcontext
        | inside => exact List.cons_ne_nil _ _
        | inherits hrole => cases hclient.symm.trans hrole
    · rw [hu, sections_setTask, sections_setTask, Sections.flow_setFlow_of_ne _ hc] at hown
      exact (hs.stands g found own hg hown).of_awaits hbarrier hlease hflows
        fun _ starter => hawaits starter g
  · intro g found drain hg hsame
    rcases hcases g found hg with ⟨rfl, rfl⟩ | ⟨rfl, rfl⟩ | ⟨hf, hc, hg⟩
    · obtain rfl : child = drain := Option.some.inj hsame
      exact ⟨hclient, hfinished, _, hdrain, rfl⟩
    · cases hsame
    · obtain ⟨hrole, hlive, other, hother, hotherRole⟩ := hs.awaiting g found drain hg hsame
      have hdf : drain ≠ f := by
        rintro rfl
        rw [htask, Option.some.injEq] at hother
        rw [← hother, hclient] at hotherRole
        cases hotherRole
      exact ⟨hrole, hlive, other, hold drain other hdf hother, hotherRole⟩
  · intro g found hg hrole
    rw [show u.drainPromise = some child by rw [hu]; rfl]
    rcases hcases g found hg with ⟨rfl, rfl⟩ | ⟨rfl, rfl⟩ | ⟨hf, hc, hg⟩
    · cases hclient.symm.trans hrole
    · simp
    · rw [hs.drains g found hg hrole, hpromise]
      simp [Ne.symm hc]
  · intro g hg
    rw [show u.drainPromise = some child by rw [hu]; rfl, Option.some.injEq] at hg
    exact ⟨_, hg ▸ hdrain, rfl⟩
  · rintro g drain ⟨found, hfound, hsame⟩ ⟨own, hown, houter⟩ ⟨w, hw, hresolve⟩
    rw [hbarrier] at hw
    rcases hcases g found hfound with ⟨rfl, rfl⟩ | ⟨rfl, rfl⟩ | ⟨hf, hc, hg⟩
    · -- the new drain has made no request
      obtain rfl : child = drain := Option.some.inj hsame
      obtain ⟨other, hother, _⟩ := hs.requested w (List.mem_append_right _ hw)
        (hs.valid.waiter_not_released hw)
      rw [hresolve, hfresh] at hother
      cases hother
    · cases hsame
    · rw [hu, sections_setTask, sections_setTask, Sections.flow_setFlow_of_ne _ hc] at hown
      exact hclear g drain ⟨found, hg, hsame⟩ ⟨own, hown, houter⟩ ⟨w, hw, hresolve⟩

theorem keeps_drainIndex (hs : s.Orderly) (hclear : s.Clear) {child : Nat}
    (hallowed : s.Allowed (.drainIndex f child)) (h : s.drainIndex f child = some u) :
    u.Orderly ∧ u.Clear := by
  obtain ⟨⟨task, flow⟩, hready, h⟩ := Option.bind_eq_some_iff.mp h
  obtain ⟨htask, hflow, hidle, hfinished⟩ := ready_eq_some hready
  dsimp only at h
  split at h
  · next hmay =>
    split at h
    · next drain hpromise =>
      cases h
      exact keeps_joinDrain hs hclear hallowed htask hflow hidle hfinished hmay.1 hmay.2 hpromise
    · next hpromise =>
      split at h
      · next hchild =>
        obtain ⟨sections, hsections, rfl⟩ := Option.map_eq_some_iff.mp h
        obtain ⟨found, hfound, hsections⟩ := Option.bind_eq_some_iff.mp hsections
        obtain ⟨hfound, _⟩ := Sections.runningFlow_eq_some.mp hfound
        obtain rfl : flow = found := Option.some.inj (hflow.symm.trans hfound)
        rw [if_pos ((hs.known child).mpr hchild), Option.some.injEq] at hsections
        subst hsections
        exact keeps_startDrain hs hclear htask hflow hidle hfinished hmay.1 hmay.2 hpromise
          hchild rfl
      · cases h
  · cases h

theorem keeps_step {a : Action} (hs : s.Orderly ∧ s.Clear) (hallowed : s.Allowed a)
    (h : s.step a = some u) : u.Orderly ∧ u.Clear := by
  obtain ⟨hs, hclear⟩ := hs
  cases a with
  | start f role => exact keeps_start hs hclear h
  | write f => exact keeps_write hs hclear hallowed h
  | exclusive f => exact keeps_exclusive hs hclear h
  | resume f => exact keeps_resume hs hclear h
  | settle f => exact keeps_settle hs hclear h
  | settled f => exact keeps_settled hs hclear h
  | close f => exact keeps_close hs hclear h
  | drainIndex f child => exact keeps_drainIndex hs hclear hallowed h
  | wake f => exact keeps_wake hs hclear h
  | finish f => exact keeps_finish hs hclear h

end Within

theorem orderly_idle : idle.Orderly := by
  refine ⟨WriteBarrier.valid_empty, fun f => ⟨fun _ => rfl, fun _ => rfl⟩, ?_, ?_, ?_, ?_, ?_, ?_⟩
  · intro f task flow htask
    cases htask
  · intro w hw
    cases hw
  · intro ticket lease hlease
    cases hlease
  · intro f task drain htask
    cases htask
  · intro f task htask
    cases htask
  · intro f hpromise
    cases hpromise

theorem orderly_of_reaches {s : Daemon} (hs : machine.Reaches Allowed s) : s.Orderly ∧ s.Clear := by
  refine hs.invariant (fun s => s.Orderly ∧ s.Clear) ?_ fun s a u hinv ha h => keeps_step hinv ha h
  rintro s rfl
  refine ⟨orderly_idle, ?_⟩
  rintro f drain ⟨task, htask, _⟩
  cases htask

end Daemon

end ContextStore
