import ContextStore.Foundation.Transitions
import ContextStore.Leases.Barrier

/-! # Write sections

`withSharedWrite` and `withExclusiveWrites` run a callback under a lease of the write barrier. The
lease is carried to everything the callback starts, so a write within a section joins it as a
descendant instead of asking the barrier again, and the section is released only when its
descendants have settled.

A flow is a sequential piece of asynchronous code; what the code starts concurrently is a flow of
its own that inherits the lease in force. Every point where a flow awaits something is a step
boundary, so the steps of all flows interleave. -/

namespace ContextStore

open Concurrent

/-- A lease record: it is made when its request is granted and the flow resumes. -/
structure WriteLease where
  kind : LeaseKind
  active : Bool
  /-- The flows with an operation that has not settled, once for each operation. -/
  pending : List Nat

/-- What a flow awaits, if anything. -/
inductive FlowPhase where
  | running
  /-- The grant of a request. -/
  | acquiring (kind : LeaseKind) (ticket : Nat)
  /-- The callback of the own section has settled; its descendants may not have. -/
  | settling
  /-- The descendants have settled too; the lease is about to be released. -/
  | closing
deriving DecidableEq

/-- A level of a flow: the lease that its code runs under, and how many operations the flow has open
    as a descendant of it. -/
structure Frame where
  lease : Option Nat
  nested : Nat

/-- A flow: its innermost level, and the levels around it out to the one it started with. All but
    the outermost are write sections of its own. -/
structure Flow where
  current : Frame
  outer : List Frame
  phase : FlowPhase

structure Sections where
  barrier : WriteBarrier
  lease : Nat → Option WriteLease
  flow : Nat → Option Flow

namespace Sections

def empty : Sections where
  barrier := .empty
  lease := fun _ => none
  flow := fun _ => none

def setFlow (s : Sections) (f : Nat) (flow : Flow) : Sections :=
  { s with flow := Function.update s.flow f (some flow) }

def setLease (s : Sections) (ticket : Nat) (lease : WriteLease) : Sections :=
  { s with lease := Function.update s.lease ticket (some lease) }

section Accessors

variable (s : Sections)

@[simp] theorem flow_setFlow_self (f : Nat) (flow : Flow) : (s.setFlow f flow).flow f = some flow :=
  Function.update_self _ _ _

theorem flow_setFlow_of_ne {f g : Nat} (h : g ≠ f) (flow : Flow) :
    (s.setFlow f flow).flow g = s.flow g :=
  Function.update_of_ne h _ _

@[simp] theorem lease_setFlow (f : Nat) (flow : Flow) : (s.setFlow f flow).lease = s.lease := rfl

@[simp] theorem lease_setLease_self (ticket : Nat) (lease : WriteLease) :
    (s.setLease ticket lease).lease ticket = some lease :=
  Function.update_self _ _ _

theorem lease_setLease_of_ne {ticket other : Nat} (h : other ≠ ticket) (lease : WriteLease) :
    (s.setLease ticket lease).lease other = s.lease other :=
  Function.update_of_ne h _ _

end Accessors

/-- The flow waits for a request of its own. -/
def await (s : Sections) (f : Nat) (flow : Flow) (kind : LeaseKind) (barrier : WriteBarrier) :
    Sections :=
  { s with barrier }.setFlow f { flow with phase := .acquiring kind s.barrier.issued }

/-- The flow runs its callback under a lease of its own. -/
def enter (s : Sections) (f : Nat) (flow : Flow) (kind : LeaseKind) (ticket : Nat) : Sections :=
  (s.setLease ticket { kind, active := true, pending := [] }).setFlow f {
    current := ⟨some ticket, 0⟩
    outer := flow.current :: flow.outer
    phase := .running }

/-- `registerWriteDescendant`: the callback runs at once, as a pending operation of the lease. -/
def join (s : Sections) (f : Nat) (flow : Flow) (ticket : Nat) (lease : WriteLease) : Sections :=
  (s.setLease ticket { lease with pending := f :: lease.pending }).setFlow f
    { flow with current := { flow.current with nested := flow.current.nested + 1 } }

/-- The lease that code of this flow runs under, when it is still active. An exclusive one must
    also own the barrier. -/
def joinable (s : Sections) (flow : Flow) : Option (Nat × WriteLease) :=
  match flow.current.lease with
  | none => none
  | some ticket => match s.lease ticket with
    | none => none
    | some lease =>
      if lease.active ∧ (lease.kind = .exclusive → s.barrier.owns ticket) then
        some (ticket, lease)
      else none

/-- `withSharedWrite`, called by a running flow, up to its first wait. -/
def withSharedWrite (s : Sections) (f : Nat) (flow : Flow) : Sections :=
  match s.joinable flow with
  | some (ticket, lease) => s.join f flow ticket lease
  | none => match s.barrier.tryAcquireShared f with
    | some barrier => { s with barrier }.enter f flow .shared s.barrier.issued
    | none => s.await f flow .shared (s.barrier.acquireShared f)

/-- `withExclusiveWrites`, up to its first wait. Within a shared section it throws, which leaves
    everything as it is. -/
def withExclusiveWrites (s : Sections) (f : Nat) (flow : Flow) : Sections :=
  match s.joinable flow with
  | some (ticket, lease) =>
    if lease.kind = .exclusive then s.join f flow ticket lease else s
  | none => s.await f flow .exclusive (s.barrier.acquireExclusive f)

def settleDescendant (s : Sections) (f : Nat) (flow : Flow) (ticket : Nat) (lease : WriteLease) :
    Sections :=
  (s.setLease ticket { lease with pending := lease.pending.erase f }).setFlow f
    { flow with current := { flow.current with nested := flow.current.nested - 1 } }

/-- The lease of the flow's innermost level with its record. -/
def currentLease (s : Sections) (flow : Flow) : Option (Nat × WriteLease) :=
  flow.current.lease.bind fun ticket => (s.lease ticket).map fun lease => (ticket, lease)

/-- The innermost operation of the flow settles: a descendant, or the callback of its section. -/
def settleInnermost (s : Sections) (f : Nat) (flow : Flow) : Option Sections :=
  if flow.current.nested = 0 then
    if flow.outer = [] then none else some (s.setFlow f { flow with phase := .settling })
  else (s.currentLease flow).map fun (ticket, lease) => s.settleDescendant f flow ticket lease

/-- The section ends: its lease becomes inactive and is released. -/
def close (s : Sections) (f : Nat) (frame : Frame) (outer : List Frame) (ticket : Nat)
    (lease : WriteLease) : Sections :=
  ({ s with barrier := s.barrier.release ⟨lease.kind, ticket, f⟩ }.setLease ticket
    { lease with active := false }).setFlow f ⟨frame, outer, .running⟩

inductive Action where
  /-- A flow outside any section, such as a request handler or a timer. -/
  | spawn (f : Nat)
  /-- A running flow starts another one, which inherits the lease in force. -/
  | fork (f child : Nat)
  | sharedWrite (f : Nat)
  | exclusiveWrites (f : Nat)
  /-- The awaited request has been granted. -/
  | resume (f : Nat)
  | settle (f : Nat)
  /-- The pending operations of the lease have settled. -/
  | settled (f : Nat)
  | close (f : Nat)
  /-- The release closure of a granted lease is called, for the first time or again. -/
  | release (lease : Waiter)

/-- The flow `f`, when it is running. -/
def runningFlow (s : Sections) (f : Nat) : Option Flow :=
  (s.flow f).filter fun flow => flow.phase = .running

def resume (s : Sections) (f : Nat) : Option Sections :=
  (s.flow f).bind fun flow => match flow.phase with
    | .acquiring kind ticket =>
      if (⟨kind, ticket, f⟩ : Waiter) ∈ s.barrier.resolved then
        some (s.enter f flow kind ticket)
      else none
    | _ => none

def settled (s : Sections) (f : Nat) : Option Sections :=
  (s.flow f).bind fun flow => (s.currentLease flow).bind fun (_, lease) =>
    if flow.phase = .settling ∧ lease.pending = [] then
      some (s.setFlow f { flow with phase := .closing })
    else none

def closed (s : Sections) (f : Nat) : Option Sections :=
  (s.flow f).bind fun flow => (s.currentLease flow).bind fun (ticket, lease) =>
    match flow.phase, flow.outer with
    | .closing, frame :: outer => some (s.close f frame outer ticket lease)
    | _, _ => none

def step (s : Sections) : Action → Option Sections
  | .spawn f =>
    if s.flow f = none then some (s.setFlow f ⟨⟨none, 0⟩, [], .running⟩) else none
  | .fork f child => (s.runningFlow f).bind fun flow =>
    if s.flow child = none then
      some (s.setFlow child ⟨⟨flow.current.lease, 0⟩, [], .running⟩)
    else none
  | .sharedWrite f => (s.runningFlow f).map (s.withSharedWrite f)
  | .exclusiveWrites f => (s.runningFlow f).map (s.withExclusiveWrites f)
  | .resume f => s.resume f
  | .settle f => (s.runningFlow f).bind (s.settleInnermost f)
  | .settled f => s.settled f
  | .close f => s.closed f
  | .release lease =>
    if lease ∈ s.barrier.resolved then some { s with barrier := s.barrier.release lease }
    else none

def machine : Machine Sections Action where
  initial s := s = empty
  step := step

/-! ## What a step does to the barrier -/

/-- A step of the barrier: none, or one of its operations. -/
inductive BarrierStep (b : WriteBarrier) : WriteBarrier → Prop
  | same : BarrierStep b b
  | tried {b' : WriteBarrier} {flow : Nat} (h : b.tryAcquireShared flow = some b') :
      BarrierStep b b'
  | asked (kind : LeaseKind) (flow : Nat) : BarrierStep b (b.acquire kind flow)
  | released {lease : Waiter} (h : lease ∈ b.resolved) : BarrierStep b (b.release lease)

variable {b b' : WriteBarrier}

theorem BarrierStep.valid (h : BarrierStep b b') (hb : b.Valid) : b'.Valid := by
  cases h with
  | same => exact hb
  | tried h => exact hb.tryAcquireShared h
  | asked kind flow => exact hb.acquire kind flow
  | released h => exact hb.release h

/-- Grants are only added. -/
theorem BarrierStep.resolved_extends (h : BarrierStep b b') : b.resolved <+: b'.resolved := by
  cases h with
  | same => exact List.prefix_rfl
  | tried h =>
    unfold WriteBarrier.tryAcquireShared at h
    split at h
    · cases h
    · cases h
      exact List.prefix_append _ _
  | asked kind flow => exact b.resolved_extends_acquire kind flow
  | released h => exact b.resolved_extends_release _

/-- The sections of a flow carry granted leases of this flow. -/
def OwnsFrames (s : Sections) (f : Nat) (frames : List Frame) : Prop :=
  ∀ frame ∈ frames.dropLast, ∃ ticket lease, frame.lease = some ticket ∧
    s.lease ticket = some lease ∧ (⟨lease.kind, ticket, f⟩ : Waiter) ∈ s.barrier.resolved

structure Linked (s : Sections) : Prop where
  valid : s.barrier.Valid
  owns : ∀ f flow, s.flow f = some flow → s.OwnsFrames f (flow.current :: flow.outer)

/-- What a step of the flow `f` may change: grants are added, lease records are made or keep their
    kind, and `f` gets a new state. -/
structure Extends (s t : Sections) : Prop where
  resolved : s.barrier.resolved ⊆ t.barrier.resolved
  lease : ∀ ticket lease, s.lease ticket = some lease →
    ∃ lease', t.lease ticket = some lease' ∧ lease'.kind = lease.kind

variable {s : Sections} {flow : Flow} {f : Nat} {lease : WriteLease} {ticket : Nat} {s t : Sections}

theorem OwnsFrames.extend {frames : List Frame} (h : s.OwnsFrames f frames) (hext : Extends s t) :
    t.OwnsFrames f frames := by
  intro frame hframe
  obtain ⟨ticket, lease, hlease, hget, hmem⟩ := h frame hframe
  obtain ⟨lease', hget', hkind⟩ := hext.lease ticket lease hget
  exact ⟨ticket, lease', hlease, hget', hkind ▸ hext.resolved hmem⟩

/-- Only the flow that takes the step needs to be looked at. -/
theorem Linked.step_flow (h : s.Linked) (hvalid : t.barrier.Valid) (hext : Extends s t)
    (hflow : t.flow = Function.update s.flow f (some flow))
    (howns : t.OwnsFrames f (flow.current :: flow.outer)) : t.Linked := by
  refine ⟨hvalid, fun g other hg => ?_⟩
  rw [hflow, Function.update_apply] at hg
  split at hg
  · next heq =>
    cases hg
    rw [heq]
    exact howns
  · exact (h.owns g other hg).extend hext

/-- Changing one lease record without its kind. -/
theorem extends_setLease (lease' : WriteLease) (hget : s.lease ticket = some lease)
    (hkind : lease'.kind = lease.kind) (f : Nat) (flow : Flow) :
    Extends s ((s.setLease ticket lease').setFlow f flow) := by
  refine ⟨fun _ h => h, fun other found hfound => ?_⟩
  by_cases heq : other = ticket
  · subst heq
    rw [hget, Option.some.injEq] at hfound
    exact ⟨lease', Function.update_self _ _ _, hfound ▸ hkind⟩
  · exact ⟨found, (Function.update_of_ne heq _ _).trans hfound, rfl⟩

theorem extends_refl (s : Sections) (f : Nat) (flow : Flow) : Extends s (s.setFlow f flow) :=
  ⟨fun _ h => h, fun _ found hfound => ⟨found, hfound, rfl⟩⟩

/-! ## What each step keeps -/

/-- A step makes one step of the barrier and keeps flows linked to their leases. -/
structure StepKeeps (s t : Sections) : Prop where
  barrier : BarrierStep s.barrier t.barrier
  linked : s.Linked → t.Linked

/-- A flow changes what it awaits or does, within its sections. -/
theorem stepKeeps_setFlow (howns : s.Linked → s.OwnsFrames f (flow.current :: flow.outer)) :
    StepKeeps s (s.setFlow f flow) :=
  ⟨.same, fun h => h.step_flow h.valid (extends_refl s f flow) rfl
    ((howns h).extend (extends_refl s f flow))⟩

/-- The number of nested operations of a level does not matter to its lease. -/
theorem OwnsFrames.nested {frame : Frame} {outer : List Frame} (h : s.OwnsFrames f (frame :: outer))
    (nested : Nat) : s.OwnsFrames f ({ frame with nested } :: outer) := by
  intro frame' hframe'
  cases outer with
  | nil => cases hframe'
  | cons next rest =>
    rw [List.dropLast_cons_cons, List.mem_cons] at hframe'
    rcases hframe' with rfl | hframe'
    · exact h frame List.mem_cons_self
    · exact h frame' (List.mem_cons_of_mem _ hframe')

theorem OwnsFrames.tail {frame next : Frame} {outer : List Frame}
    (h : s.OwnsFrames f (frame :: next :: outer)) : s.OwnsFrames f (next :: outer) :=
  fun frame' hframe' => h frame' (List.mem_cons_of_mem _ hframe')

/-- An operation of the flow's innermost level starts or settles. -/
theorem stepKeeps_pending {pending : List Nat} (hget : s.lease ticket = some lease)
    (hflow : s.flow f = some flow) (nested : Nat) :
    StepKeeps s ((s.setLease ticket { lease with pending }).setFlow f
      { flow with current := { flow.current with nested } }) := by
  have hext := extends_setLease { lease with pending } hget rfl f
    { flow with current := { flow.current with nested } }
  exact ⟨.same, fun h => h.step_flow h.valid hext rfl
    (((h.owns f flow hflow).nested nested).extend hext)⟩

theorem mem_barrier_of_joinable (h : s.joinable flow = some (ticket, lease)) :
    flow.current.lease = some ticket ∧ s.lease ticket = some lease ∧ lease.active = true ∧
      (lease.kind = .exclusive → s.barrier.exclusive = some ticket) := by
  unfold joinable at h
  split at h
  · cases h
  · next found hcontext =>
    split at h
    · cases h
    · next record hrecord =>
      split at h
      · next hactive =>
        obtain ⟨rfl, rfl⟩ : found = ticket ∧ record = lease := by simpa using h
        exact ⟨hcontext, hrecord, hactive.1, by simpa [WriteBarrier.owns] using hactive.2⟩
      · cases h

/-- Asking the barrier: the flow waits with the levels it has. -/
theorem stepKeeps_await (hflow : s.flow f = some flow) (kind : LeaseKind) :
    StepKeeps s (s.await f flow kind (s.barrier.acquire kind f)) := by
  refine ⟨.asked kind f, fun h => ?_⟩
  have hext : Extends s (s.await f flow kind (s.barrier.acquire kind f)) :=
    ⟨(s.barrier.resolved_extends_acquire kind f).subset, fun _ found hfound =>
      ⟨found, hfound, rfl⟩⟩
  exact h.step_flow (h.valid.acquire kind f) hext rfl ((h.owns f flow hflow).extend hext)

theorem linked_enter {kind : LeaseKind} (h : s.Linked) (hflow : s.flow f = some flow)
    (hvalid : t.barrier.Valid) (hresolved : s.barrier.resolved ⊆ t.barrier.resolved)
    (hlease : t.lease = s.lease) (hflows : t.flow = s.flow)
    (hgranted : (⟨kind, ticket, f⟩ : Waiter) ∈ t.barrier.resolved) :
    (t.enter f flow kind ticket).Linked := by
  -- a record under this ticket could only be one of this very lease
  have hother : ∀ g frames, t.OwnsFrames g frames →
      (t.enter f flow kind ticket).OwnsFrames g frames := by
    intro g frames howns frame hframe
    obtain ⟨other, lease, hcontext, hget, hmem⟩ := howns frame hframe
    by_cases heq : other = ticket
    · subst heq
      have hsame := hvalid.eq_of_ticket (List.mem_append_left _ hmem)
        (List.mem_append_left _ hgranted) rfl
      have hkind : lease.kind = kind := congrArg Waiter.kind hsame
      exact ⟨other, _, hcontext, Function.update_self _ _ _, hkind ▸ hmem⟩
    · exact ⟨other, lease, hcontext, (Function.update_of_ne heq _ _).trans hget, hmem⟩
  have hlift : ∀ g other, s.flow g = some other →
      t.OwnsFrames g (other.current :: other.outer) := fun g other hg =>
    (h.owns g other hg).extend ⟨hresolved, fun _ found hfound => ⟨found, hlease ▸ hfound, rfl⟩⟩
  refine ⟨hvalid, fun g other hg => ?_⟩
  have hg' : Function.update t.flow f (some _) g = some other := hg
  rw [Function.update_apply] at hg'
  split at hg'
  · next heq =>
    cases hg'
    subst heq
    intro frame hframe
    rw [List.dropLast_cons_cons, List.mem_cons] at hframe
    rcases hframe with rfl | hframe
    · exact ⟨ticket, _, rfl, Function.update_self _ _ _, hgranted⟩
    · exact hother g _ (hlift g flow hflow) frame hframe
  · exact hother g _ (hlift g other (hflows ▸ hg'))

theorem stepKeeps_withSharedWrite (hflow : s.flow f = some flow) :
    StepKeeps s (s.withSharedWrite f flow) := by
  unfold withSharedWrite
  split
  · next ticket lease hjoin =>
    exact stepKeeps_pending (mem_barrier_of_joinable hjoin).2.1 hflow _
  · split
    · next barrier htry =>
      refine ⟨.tried htry, fun h => ?_⟩
      have hvalid := h.valid.tryAcquireShared htry
      unfold WriteBarrier.tryAcquireShared at htry
      split at htry
      · cases htry
      · cases htry
        exact linked_enter h hflow hvalid (List.subset_append_left _ _) rfl rfl (by simp)
    · exact stepKeeps_await hflow .shared

theorem stepKeeps_withExclusiveWrites (hflow : s.flow f = some flow) :
    StepKeeps s (s.withExclusiveWrites f flow) := by
  unfold withExclusiveWrites
  split
  · next ticket lease hjoin =>
    split
    · exact stepKeeps_pending (mem_barrier_of_joinable hjoin).2.1 hflow _
    · exact ⟨.same, id⟩
  · exact stepKeeps_await hflow .exclusive

theorem currentLease_eq_some (h : s.currentLease flow = some (ticket, lease)) :
    flow.current.lease = some ticket ∧ s.lease ticket = some lease := by
  simp only [currentLease, Option.bind_eq_some_iff, Option.map_eq_some_iff, Prod.mk.injEq] at h
  obtain ⟨found, hcontext, record, hrecord, rfl, rfl⟩ := h
  exact ⟨hcontext, hrecord⟩

theorem stepKeeps_settleInnermost (hflow : s.flow f = some flow)
    (h : s.settleInnermost f flow = some t) : StepKeeps s t := by
  unfold settleInnermost at h
  split at h
  · split at h
    · cases h
    · cases h
      exact stepKeeps_setFlow fun hs => hs.owns f flow hflow
  · rw [Option.map_eq_some_iff] at h
    obtain ⟨⟨ticket, lease⟩, hlease, rfl⟩ := h
    exact stepKeeps_pending (currentLease_eq_some hlease).2 hflow _

theorem stepKeeps_resume (h : s.resume f = some t) : StepKeeps s t := by
  unfold resume at h
  obtain ⟨flow, hflow, h⟩ := Option.bind_eq_some_iff.mp h
  split at h
  · next kind ticket hphase =>
    split at h
    · next hgranted =>
      cases h
      exact ⟨.same, fun hs =>
        linked_enter hs hflow hs.valid (fun _ h => h) rfl rfl hgranted⟩
    · cases h
  · cases h

theorem stepKeeps_settled (h : s.settled f = some t) : StepKeeps s t := by
  unfold settled at h
  obtain ⟨flow, hflow, h⟩ := Option.bind_eq_some_iff.mp h
  obtain ⟨⟨ticket, lease⟩, _, h⟩ := Option.bind_eq_some_iff.mp h
  dsimp only at h
  split at h
  · cases h
    exact stepKeeps_setFlow fun hs => hs.owns f flow hflow
  · cases h

/-- Closing a section releases the lease the flow was granted for it. -/
theorem stepKeeps_closed (hs : s.Linked) (h : s.closed f = some t) : StepKeeps s t := by
  unfold closed at h
  obtain ⟨flow, hflow, h⟩ := Option.bind_eq_some_iff.mp h
  obtain ⟨⟨ticket, lease⟩, hlease, h⟩ := Option.bind_eq_some_iff.mp h
  dsimp only at h
  split at h
  · next frame outer _ houter =>
    cases h
    have howns := hs.owns f flow hflow
    rw [houter] at howns
    obtain ⟨hcontext, hget⟩ := currentLease_eq_some hlease
    have hmem : (⟨lease.kind, ticket, f⟩ : Waiter) ∈ s.barrier.resolved := by
      obtain ⟨found, record, hfound, hrecord, hgranted⟩ :=
        howns flow.current List.mem_cons_self
      obtain rfl : ticket = found := Option.some.inj (hcontext.symm.trans hfound)
      obtain rfl : lease = record := Option.some.inj (hget.symm.trans hrecord)
      exact hgranted
    have hstep : BarrierStep s.barrier (s.barrier.release ⟨lease.kind, ticket, f⟩) :=
      .released hmem
    refine ⟨hstep, fun _ => ?_⟩
    have hext : Extends s (s.close f frame outer ticket lease) := by
      refine ⟨hstep.resolved_extends.subset, fun other found hfound => ?_⟩
      exact (extends_setLease { lease with active := false } hget rfl f
        ⟨frame, outer, .running⟩).lease other found hfound
    exact hs.step_flow (hstep.valid hs.valid) hext rfl (howns.tail.extend hext)
  · cases h

theorem runningFlow_eq_some :
    s.runningFlow f = some flow ↔ s.flow f = some flow ∧ flow.phase = .running := by
  simp [runningFlow, Option.filter_eq_some_iff]

theorem step_keeps {a : Action} (hs : s.Linked) (h : s.step a = some t) : StepKeeps s t := by
  cases a with
  | spawn f =>
    simp only [step] at h
    split at h
    · cases h
      exact stepKeeps_setFlow fun _ _ hframe => by cases hframe
    · cases h
  | fork f child =>
    obtain ⟨flow, _, h⟩ := Option.bind_eq_some_iff.mp h
    split at h
    · cases h
      exact stepKeeps_setFlow fun _ _ hframe => by cases hframe
    · cases h
  | sharedWrite f =>
    obtain ⟨flow, hflow, rfl⟩ := Option.map_eq_some_iff.mp h
    exact stepKeeps_withSharedWrite (runningFlow_eq_some.mp hflow).1
  | exclusiveWrites f =>
    obtain ⟨flow, hflow, rfl⟩ := Option.map_eq_some_iff.mp h
    exact stepKeeps_withExclusiveWrites (runningFlow_eq_some.mp hflow).1
  | resume f => exact stepKeeps_resume h
  | settle f =>
    obtain ⟨flow, hflow, h⟩ := Option.bind_eq_some_iff.mp h
    exact stepKeeps_settleInnermost (runningFlow_eq_some.mp hflow).1 h
  | settled f => exact stepKeeps_settled h
  | close f => exact stepKeeps_closed hs h
  | release lease =>
    simp only [step] at h
    split at h
    · next hmem =>
      cases h
      refine ⟨.released hmem, fun h => ⟨h.valid.release hmem, fun g other hg => ?_⟩⟩
      exact (h.owns g other hg).extend
        ⟨(BarrierStep.released hmem).resolved_extends.subset, fun _ found hfound =>
          ⟨found, hfound, rfl⟩⟩
    · cases h

/-! ## All runs -/

theorem linked_empty : empty.Linked :=
  ⟨WriteBarrier.valid_empty, fun _ _ h => by cases h⟩

theorem linked_of_reaches {allowed : Sections → Action → Prop} (hs : machine.Reaches allowed s) :
    s.Linked := by
  refine hs.invariant Linked ?_ ?_
  · rintro s rfl
    exact linked_empty
  · intro s a t hs _ h
    exact (step_keeps hs h).linked hs

/-- A flow within an active section joins it, whatever kind of section it asks for, unless it asks
    for an exclusive one within a shared one. The barrier is not asked. -/
theorem barrier_of_joinable (h : s.joinable flow = some (ticket, lease)) :
    (s.withSharedWrite f flow).barrier = s.barrier ∧
      (s.withExclusiveWrites f flow).barrier = s.barrier := by
  constructor
  · unfold withSharedWrite
    rw [h]
    rfl
  · unfold withExclusiveWrites
    rw [h]
    dsimp only
    split <;> rfl

/-- In every run of write sections and releases: an exclusive lease is out alone; requests are
    granted in the order in which they were made; no waiter at the head of the queue could be
    granted; the barrier's counters are those of the leases that were granted and not released, so
    that a repeated release changes nothing and a step only adds grants; and a write within an
    active section does not ask the barrier. -/
theorem write_barrier_is_fair {s : Sections} (hs : machine.Reaches (fun _ _ => True) s) :
    (∀ w ∈ s.barrier.held, w.kind = .exclusive → s.barrier.held = [w]) ∧
    (s.barrier.resolved ++ s.barrier.waiters).map (·.ticket) = List.range s.barrier.issued ∧
    (∀ waiter rest, s.barrier.waiters = waiter :: rest → ¬ s.barrier.Grantable waiter) ∧
    (s.barrier.shared = (s.barrier.held.filter (·.kind = .shared)).length ∧
      ∀ token, s.barrier.exclusive = some token ↔
        ∃ w ∈ s.barrier.held, w.kind = .exclusive ∧ w.ticket = token) ∧
    (∀ lease ∈ s.barrier.resolved, lease.ticket ∈ s.barrier.released →
      s.step (.release lease) = some s) ∧
    (∀ a t, s.step a = some t → s.barrier.resolved <+: t.barrier.resolved) ∧
    ∀ f flow ticket lease, s.joinable flow = some (ticket, lease) →
      (s.withSharedWrite f flow).barrier = s.barrier ∧
        (s.withExclusiveWrites f flow).barrier = s.barrier := by
  have hlinked := linked_of_reaches hs
  have hvalid := hlinked.valid
  refine ⟨fun w hw hkind => (hvalid.alone w hw hkind).1, hvalid.fifo, hvalid.settled,
    ⟨hvalid.counted, fun token => ⟨hvalid.owned token, ?_⟩⟩, ?_, ?_, ?_⟩
  · rintro ⟨w, hw, hkind, rfl⟩
    exact (hvalid.alone w hw hkind).2
  · intro lease hmem hreleased
    simp only [step, if_pos hmem, WriteBarrier.release_released hreleased]
  · intro a t h
    exact (step_keeps hlinked h).barrier.resolved_extends
  · intro f flow ticket lease h
    exact barrier_of_joinable h

/-! ## One run -/

/-- A shared section, with a nested write, in front of an exclusive one and another shared one; the
    first lease's release is called twice. -/
def sampleSectionActions : List Action :=
  [.spawn 0, .sharedWrite 0, .spawn 1, .exclusiveWrites 1, .spawn 2, .sharedWrite 2,
    .sharedWrite 0, .settle 0, .settle 0, .settled 0, .close 0, .resume 1,
    .release ⟨.shared, 0, 0⟩, .sharedWrite 1, .settle 1]

def sampleSections : Sections := machine.runAll empty sampleSectionActions

theorem sampleSections_reaches : machine.Reaches (fun _ _ => True) sampleSections :=
  .runAll (.initial rfl) (Machine.allowed_of_forall (fun _ _ => trivial) _ _) (by decide)

/-- In the run above the exclusive lease is out alone and the second writer still waits. -/
theorem write_barrier_is_fair_sampleSections :
    sampleSections.barrier.held = [⟨.exclusive, 1, 1⟩] ∧
    sampleSections.barrier.waiters = [⟨.shared, 2, 2⟩] ∧
    ¬ sampleSections.barrier.Grantable ⟨.shared, 2, 2⟩ ∧
    sampleSections.step (.release ⟨.shared, 0, 0⟩) = some sampleSections := by
  have h := write_barrier_is_fair sampleSections_reaches
  exact ⟨by decide, by decide, h.2.2.1 _ [] (by decide), h.2.2.2.2.1 _ (by decide) (by decide)⟩

end Sections

end ContextStore
