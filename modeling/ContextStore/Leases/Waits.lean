import ContextStore.Leases.Drains

/-! # Who waits for whom

A task waits for a lease behind the leases that are out and the requests ahead of its own, and for
a drain until the drain has come to its end. A cycle of waits is a deadlock. The daemon can reach
one: a wave that holds its lease joins a drain that runs outside, an exclusive request queues, and
the drain's next write queues behind it. In the runs that keep clear of this no cycle of waits is
reached, because a rank decreases along every wait. -/

namespace ContextStore

open Concurrent

namespace Daemon

/-- One task waits for another. -/
inductive Waits (s : Daemon) : Nat → Nat → Prop
  /-- The lease that is out excludes the requested one. -/
  | lease {w held : Waiter} (hw : w ∈ s.sections.barrier.waiters)
      (hheld : held ∈ s.sections.barrier.held)
      (hexcludes : w.kind = .exclusive ∨ held.kind = .exclusive) : Waits s w.resolve held.resolve
  /-- The other request is ahead in the queue. -/
  | queue {w ahead : Waiter} (hw : w ∈ s.sections.barrier.waiters)
      (hahead : ahead ∈ s.sections.barrier.waiters) (hlt : ahead.ticket < w.ticket) :
      Waits s w.resolve ahead.resolve
  | drain {f drain : Nat} {other : Task} (hawaits : s.Awaits f drain)
      (hother : s.task drain = some other) (hrunning : other.finished = false) : Waits s f drain

/-- The task waits for a lease or for a drain. -/
def Waiting (s : Daemon) (f : Nat) : Prop :=
  s.Queued f ∨ ∃ drain other, s.Awaits f drain ∧ s.task drain = some other ∧ other.finished = false

/-- The task can take a step. -/
def Enabled (s : Daemon) (f : Nat) : Prop := ∃ a : Action, a.actor = some f ∧ (s.step a).isSome

/-- A task that exists and has not come to its end. -/
def Live (s : Daemon) (f : Nat) : Prop := ∃ task, s.task f = some task ∧ task.finished = false

/-- How far a task is from one that waits for nothing. -/
def rank (s : Daemon) (f : Nat) : Nat :=
  match s.sections.barrier.waiters.find? (·.resolve = f) with
  | some w => w.ticket + 2
  | none =>
    if (s.task f).any (·.awaiting.isSome) then
      if (s.sections.flow f).any (·.outer ≠ []) then 1 else s.sections.barrier.issued + 2
    else 0

variable {s : Daemon}

theorem Orderly.acquiring_of_queued (hs : s.Orderly) {w : Waiter}
    (hw : w ∈ s.sections.barrier.waiters) : ∃ task, s.task w.resolve = some task ∧
      task.awaiting = none ∧ task.finished = false ∧
      s.sections.flow w.resolve = some ⟨⟨none, 0⟩, [], .acquiring w.kind w.ticket⟩ := by
  obtain ⟨flow, hflow, hrequest⟩ := hs.requested w (List.mem_append_right _ hw)
    (hs.valid.waiter_not_released hw)
  cases htask : s.task w.resolve with
  | none =>
    rw [(hs.known _).mpr htask] at hflow
    cases hflow
  | some task =>
    cases hs.stands _ task flow htask hflow with
    | outside =>
      rcases hrequest with h | ⟨_, h⟩
      · cases h
      · exact absurd rfl h
    | inherits =>
      rcases hrequest with h | ⟨_, h⟩
      · cases h
      · exact absurd rfl h
    | acquiring _ _ hnone hfalse =>
      rcases hrequest with h | ⟨h, _⟩
      · exact ⟨task, rfl, hnone, hfalse, by rw [hflow]; exact congrArg some (congrArg _ h)⟩
      · cases h
    | inside hheld _ _ hphase =>
      exfalso
      rcases hrequest with h | ⟨h, _⟩
      · rcases hphase with hp | ⟨hp | hp, _⟩ <;> cases hp.symm.trans h
      · have hresolved := (WriteBarrier.mem_held.mp hheld).1
        have hsame := hs.valid.eq_of_ticket (List.mem_append_left _ hresolved)
          (List.mem_append_right _ hw) (Option.some.inj h)
        exact hs.valid.toCoherent.not_resolved hw (hsame ▸ hresolved)

theorem Orderly.find_of_queued (hs : s.Orderly) {w : Waiter} (hw : w ∈ s.sections.barrier.waiters) :
    s.sections.barrier.waiters.find? (·.resolve = w.resolve) = some w := by
  cases hfind : s.sections.barrier.waiters.find? (·.resolve = w.resolve) with
  | none =>
    have := List.find?_eq_none.mp hfind w hw
    simp at this
  | some found =>
    have hmem := List.mem_of_find?_eq_some hfind
    have hresolve : found.resolve = w.resolve := by
      simpa using List.find?_some hfind
    obtain ⟨_, _, _, _, hflow⟩ := hs.acquiring_of_queued hw
    obtain ⟨_, _, _, _, hfound⟩ := hs.acquiring_of_queued hmem
    rw [hresolve, hflow, Option.some.injEq, Flow.mk.injEq] at hfound
    have hticket := (FlowPhase.acquiring.inj hfound.2.2).2
    rw [hs.valid.eq_of_ticket (List.mem_append_right _ hmem) (List.mem_append_right _ hw)
      hticket.symm]

theorem rank_of_queued (hs : s.Orderly) {w : Waiter} (hw : w ∈ s.sections.barrier.waiters) :
    s.rank w.resolve = w.ticket + 2 := by
  unfold rank
  rw [hs.find_of_queued hw]

variable {f : Nat} {task : Task} {flow : Flow}

theorem find_eq_none (h : ¬ s.Queued f) :
    s.sections.barrier.waiters.find? (·.resolve = f) = none := by
  rw [List.find?_eq_none]
  intro w hw hresolve
  exact h ⟨w, hw, by simpa using hresolve⟩

theorem rank_of_awaits {drain : Nat} (hqueued : ¬ s.Queued f) (hawaits : s.Awaits f drain) :
    (s.Holds f → s.rank f = 1) ∧ (¬ s.Holds f → s.rank f = s.sections.barrier.issued + 2) := by
  obtain ⟨task, htask, hdrain⟩ := hawaits
  unfold rank
  rw [find_eq_none hqueued]
  dsimp only
  rw [if_pos (by simp [htask, hdrain])]
  constructor
  · rintro ⟨flow, hflow, houter⟩
    rw [if_pos (by simp [hflow, houter])]
  · intro hholds
    rw [if_neg]
    intro hany
    cases hflow : s.sections.flow f with
    | none => simp [hflow] at hany
    | some flow => exact hholds ⟨flow, hflow, by simpa [hflow] using hany⟩

theorem rank_of_idle (hqueued : ¬ s.Queued f) (htask : s.task f = some task)
    (hidle : task.awaiting = none) : s.rank f = 0 := by
  unfold rank
  rw [find_eq_none hqueued]
  simp [htask, hidle]

/-- A lease that is out belongs to a live task that is not queued; if it awaits a drain, it holds
    the lease meanwhile. -/
theorem Orderly.holder (hs : s.Orderly) {w : Waiter} (hw : w ∈ s.sections.barrier.held) :
    ¬ s.Queued w.resolve ∧ ∃ task, s.task w.resolve = some task ∧ task.finished = false ∧
      (task.awaiting = none ∨ s.Holds w.resolve) := by
  obtain ⟨hresolved, hout⟩ := WriteBarrier.mem_held.mp hw
  have hqueued : ¬ s.Queued w.resolve := by
    rintro ⟨w', hw', hresolve⟩
    obtain ⟨_, _, _, _, hflow⟩ := hs.acquiring_of_queued hw'
    obtain ⟨found, hfound, hrequest⟩ := hs.requested w (List.mem_append_left _ hresolved) hout
    rw [hresolve, hfound, Option.some.injEq] at hflow
    subst hflow
    rcases hrequest with h | ⟨_, h⟩
    · have hsame := hs.valid.eq_of_ticket (List.mem_append_left _ hresolved)
        (List.mem_append_right _ hw') (FlowPhase.acquiring.inj h).2.symm
      exact hs.valid.toCoherent.not_resolved hw' (hsame ▸ hresolved)
    · exact h rfl
  refine ⟨hqueued, ?_⟩
  obtain ⟨flow, hflow, hrequest⟩ := hs.requested w (List.mem_append_left _ hresolved) hout
  cases htask : s.task w.resolve with
  | none =>
    rw [(hs.known _).mpr htask] at hflow
    cases hflow
  | some task =>
    refine ⟨task, rfl, ?_⟩
    cases hs.stands _ task flow htask hflow with
    | outside =>
      rcases hrequest with h | ⟨_, h⟩
      · cases h
      · exact absurd rfl h
    | inherits =>
      rcases hrequest with h | ⟨_, h⟩
      · cases h
      · exact absurd rfl h
    | acquiring _ _ hnone hfalse => exact ⟨hfalse, .inl hnone⟩
    | inside _ _ hfalse _ => exact ⟨hfalse, .inr ⟨_, hflow, List.cons_ne_nil _ _⟩⟩

theorem Orderly.awaited (hs : s.Orderly) {drain : Nat} (hawaits : s.Awaits f drain) :
    ¬ s.Queued f ∧ ∃ other, s.task drain = some other ∧ other.awaiting = none := by
  obtain ⟨task, htask, hdrain⟩ := hawaits
  obtain ⟨_, _, other, hother, hrole⟩ := hs.awaiting f task drain htask hdrain
  constructor
  · rintro ⟨w, hw, hresolve⟩
    obtain ⟨found, hfound, hnone, _, _⟩ := hs.acquiring_of_queued hw
    rw [hresolve, htask, Option.some.injEq] at hfound
    rw [← hfound, hdrain] at hnone
    cases hnone
  · refine ⟨other, hother, ?_⟩
    cases hnone : other.awaiting with
    | none => rfl
    | some next =>
      obtain ⟨hclient, _⟩ := hs.awaiting drain other next hother hnone
      rw [hrole] at hclient
      cases hclient

/-- Every wait leads to a task of a smaller rank. -/
theorem rank_lt_of_waits (hs : s.Orderly) (hclear : s.Clear) (f g : Nat) (h : s.Waits f g) :
    s.rank g < s.rank f := by
  cases h with
  | @lease w held hw hheld hexcludes =>
    rw [rank_of_queued hs hw]
    obtain ⟨hqueued, task, htask, _, hor⟩ := hs.holder hheld
    cases hawaiting : task.awaiting with
    | none =>
      rw [rank_of_idle hqueued htask hawaiting]
      omega
    | some drain =>
      have hholds := hor.resolve_left (by rw [hawaiting]; simp)
      rw [(rank_of_awaits hqueued ⟨task, htask, hawaiting⟩).1 hholds]
      omega
  | @queue w ahead hw hahead hlt =>
    rw [rank_of_queued hs hw, rank_of_queued hs hahead]
    omega
  | drain hawaits _ _ =>
    obtain ⟨hqueued, found, hfound, hidle⟩ := hs.awaited hawaits
    by_cases hholds : s.Holds f
    · rw [(rank_of_awaits hqueued hawaits).1 hholds,
        rank_of_idle (hclear f g hawaits hholds) hfound hidle]
      omega
    · rw [(rank_of_awaits hqueued hawaits).2 hholds]
      by_cases hdrain : s.Queued g
      · obtain ⟨w, hw, rfl⟩ := hdrain
        rw [rank_of_queued hs hw]
        have := hs.valid.ticket_lt (List.mem_append_right _ hw)
        omega
      · rw [rank_of_idle hdrain hfound hidle]
        omega

/-! ## Progress -/

/-- A waiting task waits for some task. -/
theorem waits_of_waiting (hs : s.Orderly) (h : s.Waiting f) : ∃ g, s.Waits f g := by
  rcases h with ⟨w, hw, rfl⟩ | ⟨drain, other, hawaits, hother, hrunning⟩
  · obtain ⟨first, rest, hqueue⟩ := List.exists_cons_of_ne_nil (List.ne_nil_of_mem hw)
    rw [hqueue, List.mem_cons] at hw
    rcases hw with rfl | hw
    · -- at the head of the queue: some lease that is out is in the way
      have hmem : w ∈ s.sections.barrier.waiters := by rw [hqueue]; exact List.mem_cons_self
      have hnot := hs.valid.settled w rest hqueue
      unfold WriteBarrier.Grantable at hnot
      cases hexclusive : s.sections.barrier.exclusive with
      | some token =>
        obtain ⟨held, hheld, hkind, _⟩ := hs.valid.owned token hexclusive
        exact ⟨_, .lease hmem hheld (.inr hkind)⟩
      | none =>
        have hshared : w.kind = .exclusive ∧ s.sections.barrier.shared ≠ 0 := by
          simpa [hexclusive] using hnot
        obtain ⟨hkind, hne⟩ := hshared
        have hpos : 0 < (s.sections.barrier.held.filter (·.kind = .shared)).length := by
          have hcount := hs.valid.counted
          omega
        obtain ⟨held, hheld⟩ := List.exists_mem_of_length_pos hpos
        exact ⟨_, .lease hmem (List.mem_filter.mp hheld).1 (.inl hkind)⟩
    · refine ⟨_, .queue (by rw [hqueue]; exact List.mem_cons_of_mem _ hw)
        (by rw [hqueue]; exact List.mem_cons_self) ?_⟩
      have hsorted : ((s.sections.barrier.resolved ++ s.sections.barrier.waiters).map
          (·.ticket)).Pairwise (· < ·) := by
        rw [hs.valid.fifo]
        exact List.pairwise_lt_range
      rw [hqueue, List.map_append, List.pairwise_append, List.map_cons, List.pairwise_cons]
        at hsorted
      exact hsorted.2.1.1 _ (List.mem_map_of_mem hw)
  · exact ⟨drain, .drain hawaits hother hrunning⟩

theorem live_of_waits (hs : s.Orderly) {g : Nat} (h : s.Waits f g) : s.Live g := by
  cases h with
  | lease _ hheld _ =>
    obtain ⟨_, task, htask, hfalse, _⟩ := hs.holder hheld
    exact ⟨task, htask, hfalse⟩
  | queue _ hahead _ =>
    obtain ⟨task, htask, _, hfalse, _⟩ := hs.acquiring_of_queued hahead
    exact ⟨task, htask, hfalse⟩
  | drain _ hother hrunning => exact ⟨_, hother, hrunning⟩

theorem live_of_waiting (hs : s.Orderly) (h : s.Waiting f) : s.Live f := by
  rcases h with ⟨w, hw, rfl⟩ | ⟨drain, other, ⟨task, htask, hdrain⟩, _⟩
  · obtain ⟨task, htask, _, hfalse, _⟩ := hs.acquiring_of_queued hw
    exact ⟨task, htask, hfalse⟩
  · exact ⟨task, htask, (hs.awaiting f task drain htask hdrain).2.1⟩

theorem ready_of_idle (htask : s.task f = some task) (hflow : s.sections.flow f = some flow)
    (hidle : task.awaiting = none) (hfinished : task.finished = false) :
    s.ready f = some (task, flow) := by
  simp [ready, htask, hflow, hidle, hfinished]

theorem enabled_of_within (hready : s.ready f = some (task, flow)) {action : Sections.Action}
    {a : Action} (hactor : a.actor = some f) (ha : s.step a = s.within f (fun _ _ => true) action)
    (hstep : (s.sections.step action).isSome) : s.Enabled f := by
  refine ⟨a, hactor, ?_⟩
  rw [ha]
  simpa [within, hready] using hstep

theorem enabled_finish (hready : s.ready f = some (task, flow)) (hrunning : flow.phase = .running)
    (houter : flow.outer = []) (hnested : flow.current.nested = 0) : s.Enabled f :=
  ⟨.finish f, rfl, by simp [step, finish, hready, hrunning, houter, hnested]⟩

theorem runningFlow_of (hflow : s.sections.flow f = some flow) (hrunning : flow.phase = .running) :
    s.sections.runningFlow f = some flow :=
  Sections.runningFlow_eq_some.mpr ⟨hflow, hrunning⟩

theorem pending_eq_nil (hs : s.Orderly) {ticket : Nat} (htask : s.task f = some task)
    (hidle : task.awaiting = none) {lease : WriteLease}
    (hlease : s.sections.lease ticket = some lease)
    (hheld : (⟨task.role.kind, ticket, f⟩ : Waiter) ∈ s.sections.barrier.held)
    (hself : under (s.sections.flow f) ticket = 0) : lease.pending = [] := by
  rw [List.eq_nil_iff_forall_not_mem]
  intro g hg
  have hcount := hs.pending ticket lease hlease g
  have hpos := List.count_pos_iff.mpr hg
  by_cases heq : g = f
  · subst heq
    omega
  · have hothers := under_of_request hs htask hidle (w := ⟨task.role.kind, ticket, f⟩) rfl
      (fun w hw hticket =>
        hs.resolve_of_held hw (WriteBarrier.mem_requests_of_held hheld) hticket) heq
    have hnone : under (s.sections.flow g) ticket = 0 := hothers
    omega

/-- A live task that waits for nothing can take a step. -/
theorem enabled_of_live (hs : s.Orderly) (hlive : s.Live f) (hwaiting : ¬ s.Waiting f) :
    s.Enabled f := by
  obtain ⟨task, htask, hfinished⟩ := hlive
  cases hflow : s.sections.flow f with
  | none => rw [(hs.known f).mp hflow] at htask; cases htask
  | some flow =>
    have hstands := hs.stands f task flow htask hflow
    cases hawaiting : task.awaiting with
    | some drain =>
      -- the drain has ended
      have hawaits : s.Awaits f drain := ⟨task, htask, hawaiting⟩
      obtain ⟨_, other, hother, _⟩ := hs.awaited hawaits
      have hended : other.finished = true := by
        by_contra hfalse
        exact hwaiting (.inr ⟨drain, other, hawaits, hother, by simpa using hfalse⟩)
      exact ⟨.wake f, rfl, by simp [step, wake, htask, hawaiting, ended, hother, hended]⟩
    | none =>
      have hready := ready_of_idle htask hflow hawaiting hfinished
      cases hstands with
      | outside => exact enabled_finish hready rfl rfl rfl
      | @acquiring ticket hrequest _ _ _ =>
        have hgranted : (⟨task.role.kind, ticket, f⟩ : Waiter) ∈
            s.sections.barrier.resolved := by
          refine (List.mem_append.mp hrequest).resolve_right fun hw => ?_
          exact hwaiting (.inl ⟨_, hw, rfl⟩)
        refine enabled_of_within hready (a := .resume f) rfl rfl ?_
        simp [Sections.step, Sections.resume, hflow, hgranted]
      | @inside ticket nested pending phase hheld hlease _ hphase =>
        rcases hphase with rfl | ⟨rfl | rfl, rfl, _⟩
        · refine enabled_of_within hready (a := .settle f) rfl rfl ?_
          have hrun := runningFlow_of hflow rfl
          simp only [Sections.step, hrun, Option.bind_some, Sections.settleInnermost]
          split
          · simp
          · simp [Sections.currentLease, hlease]
        · have hnil := pending_eq_nil hs htask hawaiting hlease hheld
            (by simp [hflow, under])
          refine enabled_of_within hready (a := .settled f) rfl rfl ?_
          have hpending : pending = [] := hnil
          simp [Sections.step, Sections.settled, hflow, Sections.currentLease, hlease, hpending]
        · refine enabled_of_within hready (a := .close f) rfl rfl ?_
          simp [Sections.step, Sections.closed, hflow, Sections.currentLease, hlease]
      | @inherits ticket nested _ _ hstarter =>
        by_cases hnested : nested = 0
        · exact enabled_finish hready rfl rfl hnested
        · obtain ⟨lease, hjoin⟩ := joinable_of_stands hs
            (hs.stands f task _ htask hflow) hfinished rfl
          obtain ⟨_, hlease, _⟩ := Sections.mem_barrier_of_joinable hjoin
          refine enabled_of_within hready (a := .settle f) rfl rfl ?_
          have hrun := runningFlow_of hflow rfl
          simp [Sections.step, hrun, Sections.settleInnermost, hnested,
            Sections.currentLease, hlease]

/-- In every run in which no lease holder joins a queued drain, and no drain that a lease holder
    awaits asks the barrier while requests are queued, no state has a cycle of waits: whoever waits
    is waiting, directly or through others, for a task that can take a step. -/
theorem waits_never_cycle {s : Daemon} (hs : machine.Reaches Allowed s) :
    (∀ f, ¬ Relation.TransGen s.Waits f f) ∧
    ∀ f, s.Waiting f → ∃ g, Relation.ReflTransGen s.Waits f g ∧ s.Enabled g := by
  obtain ⟨hs, hclear⟩ := orderly_of_reaches hs
  refine ⟨not_transGen_self_of_rank s.rank (rank_lt_of_waits hs hclear), fun f hwaiting => ?_⟩
  obtain ⟨g, hpath, hend⟩ := exists_end_of_rank s.rank (rank_lt_of_waits hs hclear) f
  refine ⟨g, hpath, enabled_of_live hs ?_ fun h => ?_⟩
  · rcases Relation.ReflTransGen.cases_tail hpath with rfl | ⟨b, _, hlast⟩
    · exact live_of_waiting hs hwaiting
    · exact live_of_waits hs hlast
  · obtain ⟨c, hc⟩ := waits_of_waiting hs h
    exact hend c hc

/-! ## One run -/

/-- A wave joins a drain that is not queued, and an exclusive request queues afterwards. -/
def sampleDrainActions : List Action :=
  [.start 0 .client, .drainIndex 0 1, .start 2 .client, .write 2, .drainIndex 2 4,
    .start 3 .maintenance, .exclusive 3]

def sampleDrains : Daemon := machine.runAll idle sampleDrainActions

theorem sampleDrains_reaches : machine.Reaches Allowed sampleDrains := by
  refine .runAll (.initial rfl) ⟨trivial, ?_⟩ (by decide)
  rintro _ ⟨⟩
  refine ⟨fun _ _ h => (by cases h), ?_⟩
  rintro _ ⟨⟩
  refine ⟨trivial, ?_⟩
  rintro _ ⟨⟩
  refine ⟨fun _ _ => rfl, ?_⟩
  rintro _ ⟨⟩
  refine ⟨fun _ _ _ hqueued => ?_, ?_⟩
  · obtain ⟨_, hw, _⟩ := hqueued
    cases hw
  · rintro _ ⟨⟩
    refine ⟨trivial, ?_⟩
    rintro _ ⟨⟩
    exact ⟨trivial, fun _ _ => trivial⟩

/-- In the run above the wave waits for the drain, which can go on. -/
theorem waits_never_cycle_sampleDrains : ¬ Relation.TransGen sampleDrains.Waits 2 2 ∧
    ∃ g, Relation.ReflTransGen sampleDrains.Waits 2 g ∧ sampleDrains.Enabled g := by
  have h := waits_never_cycle sampleDrains_reaches
  have htask : sampleDrains.task 1 = some ⟨.drain, none, false⟩ := by decide
  exact ⟨h.1 2, h.2 2 (.inr ⟨1, _, ⟨⟨.client, some 1, false⟩, by decide, rfl⟩, htask, rfl⟩)⟩

/-! ## The cycle -/

/-- Background indexing starts a drain outside any section; a wave enters its section; a migration
    asks to exclude writes; the drain writes; the wave joins the drain. -/
def deadlockActions : List Action :=
  [.start 0 .client, .drainIndex 0 1, .start 2 .client, .write 2, .start 3 .maintenance,
    .exclusive 3, .write 1, .drainIndex 2 4]

def deadlock : Daemon := machine.runAll idle deadlockActions

theorem deadlock_reaches : machine.Reaches (fun _ _ => True) deadlock :=
  .runAll (.initial rfl) (Machine.allowed_of_forall (fun _ _ => trivial) _ _) (by decide)

/-- A task that is not ready, and whose drain has not ended, can take no step. -/
theorem not_enabled_of_not_ready (hready : s.ready f = none) (hwake : s.wake f = none) :
    ¬ s.Enabled f := by
  rintro ⟨a, hactor, hstep⟩
  cases a with
  | start g role => cases hactor
  | wake g =>
    obtain rfl : g = f := Option.some.inj hactor
    simp [step, hwake] at hstep
  | drainIndex g child =>
    obtain rfl : g = f := Option.some.inj hactor
    simp [step, drainIndex, hready] at hstep
  | finish g =>
    obtain rfl : g = f := Option.some.inj hactor
    simp [step, finish, hready] at hstep
  | write g | exclusive g | resume g | settle g | settled g | close g =>
    obtain rfl : g = f := Option.some.inj hactor
    simp [step, within, hready] at hstep

/-- A task whose request waits can take no step. -/
theorem not_enabled_of_acquiring (kind : LeaseKind) (ticket : Nat)
    (hready : s.ready f = some (task, flow)) (hphase : flow.phase = .acquiring kind ticket)
    (hwaits : (⟨kind, ticket, f⟩ : Waiter) ∉ s.sections.barrier.resolved) : ¬ s.Enabled f := by
  obtain ⟨htask, hflow, hidle, _⟩ := ready_eq_some hready
  have hrun : s.sections.runningFlow f = none := by
    simp [Sections.runningFlow, hflow, Option.filter, hphase]
  rintro ⟨a, hactor, hstep⟩
  cases a with
  | start g role => cases hactor
  | wake g =>
    obtain rfl : g = f := Option.some.inj hactor
    simp [step, wake, htask, hidle] at hstep
  | drainIndex g child =>
    obtain rfl : g = f := Option.some.inj hactor
    simp [step, drainIndex, hready, hphase] at hstep
  | finish g =>
    obtain rfl : g = f := Option.some.inj hactor
    simp [step, finish, hready, hphase] at hstep
  | write g | exclusive g | settle g =>
    obtain rfl : g = f := Option.some.inj hactor
    simp [step, within, hready, Sections.step, hrun] at hstep
  | resume g =>
    obtain rfl : g = f := Option.some.inj hactor
    simp [step, within, hready, Sections.step, Sections.resume, hflow, hphase, hwaits] at hstep
  | settled g =>
    obtain rfl : g = f := Option.some.inj hactor
    simp [step, within, hready, Sections.step, Sections.settled, hflow, hphase] at hstep
  | close g =>
    obtain rfl : g = f := Option.some.inj hactor
    simp [step, within, hready, Sections.step, Sections.closed, hflow, hphase] at hstep

/-- The wave awaits the drain, the drain's write waits behind the exclusive request, and this one
    waits for the wave's lease: no task can take a step. -/
theorem waits_cycle_deadlock : machine.Reaches (fun _ _ => True) deadlock ∧
    Relation.TransGen deadlock.Waits 2 2 ∧ deadlock.Waiting 2 ∧ ∀ f, ¬ deadlock.Enabled f := by
  have hawaits : deadlock.Awaits 2 1 := ⟨⟨.client, some 1, false⟩, by decide, rfl⟩
  have htask : deadlock.task 1 = some ⟨.drain, none, false⟩ := by decide
  have hdrain : deadlock.Waits 2 1 := .drain hawaits htask rfl
  have hwrite : (⟨.shared, 2, 1⟩ : Waiter) ∈ deadlock.sections.barrier.waiters := by decide
  have hexclude : (⟨.exclusive, 1, 3⟩ : Waiter) ∈ deadlock.sections.barrier.waiters := by decide
  have hwave : (⟨.shared, 0, 2⟩ : Waiter) ∈ deadlock.sections.barrier.held := by decide
  have hqueue : deadlock.Waits 1 3 := Waits.queue hwrite hexclude (by decide)
  have hlease : deadlock.Waits 3 2 := Waits.lease hexclude hwave (.inl rfl)
  refine ⟨deadlock_reaches, .head hdrain (.head hqueue (.single hlease)),
    .inr ⟨1, _, hawaits, htask, rfl⟩, fun f => ?_⟩
  match f with
  | 0 => exact not_enabled_of_not_ready rfl rfl
  | 1 => exact not_enabled_of_acquiring .shared 2 rfl rfl (by decide)
  | 2 => exact not_enabled_of_not_ready rfl rfl
  | 3 => exact not_enabled_of_acquiring .exclusive 1 rfl rfl (by decide)
  | n + 4 => exact not_enabled_of_not_ready rfl rfl

end Daemon

end ContextStore
