import Mathlib.Data.List.Range
import Mathlib.Data.List.Nodup
import Mathlib.Data.List.Count
import Mathlib.Algebra.Order.Ring.Int

/-! # The write barrier

Logical writes share the store and maintenance excludes them. The barrier hands out shared and
exclusive leases in the order in which they were asked for: a request that cannot be granted at
once waits in a queue, and whatever can be granted from the head of the queue is granted by
`drain`, which runs after every request and every release.

A request is a promise of its own, identified by its `ticket`, and `resolve` names the flow that
awaits it. A granted request comes with a closure that releases it; `resolved` keeps the granted
requests in the order of their grants, and `released` the closures that have run. -/

namespace ContextStore

inductive LeaseKind where
  | shared
  | exclusive
deriving DecidableEq

structure Waiter where
  kind : LeaseKind
  ticket : Nat
  resolve : Nat
deriving DecidableEq

structure WriteBarrier where
  shared : Int
  exclusive : Option Nat
  waiters : List Waiter
  issued : Nat
  resolved : List Waiter
  released : List Nat

namespace WriteBarrier

def empty : WriteBarrier where
  shared := 0
  exclusive := none
  waiters := []
  issued := 0
  resolved := []
  released := []

/-- The loop of `drain` over the shared waiters at the head of the queue. -/
def grantShared : List Waiter → WriteBarrier → WriteBarrier
  | [], b => b
  | waiter :: rest, b =>
    if waiter.kind = .shared ∧ b.exclusive = none then
      grantShared rest { b with
        waiters := rest
        shared := b.shared + 1
        resolved := b.resolved ++ [waiter] }
    else b

/-- Grant what can be granted from the head of the queue. -/
def drain (b : WriteBarrier) : WriteBarrier :=
  if b.exclusive ≠ none then b
  else match b.waiters with
    | [] => b
    | first :: rest =>
      if first.kind = .exclusive then
        if b.shared ≠ 0 then b
        else { b with
          waiters := rest
          exclusive := some first.ticket
          resolved := b.resolved ++ [first] }
      else grantShared b.waiters b

/-- Queue a request, and grant it if nothing stands in its way. -/
def acquire (b : WriteBarrier) (kind : LeaseKind) (flow : Nat) : WriteBarrier :=
  drain { b with
    waiters := b.waiters ++ [⟨kind, b.issued, flow⟩]
    issued := b.issued + 1 }

def acquireShared (b : WriteBarrier) (flow : Nat) : WriteBarrier := b.acquire .shared flow

def acquireExclusive (b : WriteBarrier) (flow : Nat) : WriteBarrier := b.acquire .exclusive flow

/-- A shared lease without queueing, when nobody holds or awaits the barrier. -/
def tryAcquireShared (b : WriteBarrier) (flow : Nat) : Option WriteBarrier :=
  if b.exclusive ≠ none ∨ b.waiters ≠ [] then none
  else some { b with
    shared := b.shared + 1
    issued := b.issued + 1
    resolved := b.resolved ++ [⟨.shared, b.issued, flow⟩] }

/-- Whether an exclusive lease's token is the one in force. -/
def owns (b : WriteBarrier) (token : Nat) : Bool := b.exclusive = some token

/-- Call the closure that releases a granted lease. -/
def release (b : WriteBarrier) (lease : Waiter) : WriteBarrier :=
  if lease.ticket ∈ b.released then b
  else match lease.kind with
    | .shared =>
      drain { b with released := lease.ticket :: b.released, shared := b.shared - 1 }
    | .exclusive =>
      drain { b with released := lease.ticket :: b.released, exclusive := none }

/-! ## What the barrier keeps -/

/-- The granted leases that have not been released, in the order of their grants. -/
def held (b : WriteBarrier) : List Waiter := b.resolved.filter fun w => w.ticket ∉ b.released

/-- Nothing stands in the way of granting this waiter, were it at the head of the queue. -/
def Grantable (b : WriteBarrier) (waiter : Waiter) : Prop :=
  b.exclusive = none ∧ (waiter.kind = .exclusive → b.shared = 0)

/-- The fields agree with the leases that are out, and requests are granted in their order. -/
structure Coherent (b : WriteBarrier) : Prop where
  fifo : (b.resolved ++ b.waiters).map (·.ticket) = List.range b.issued
  released : ∀ ticket ∈ b.released, ticket ∈ b.resolved.map (·.ticket)
  counted : b.shared = (b.held.filter (·.kind = .shared)).length
  owned : ∀ token, b.exclusive = some token → ∃ w ∈ b.held, w.kind = .exclusive ∧ w.ticket = token
  alone : ∀ w ∈ b.held, w.kind = .exclusive → b.held = [w] ∧ b.exclusive = some w.ticket

/-- No waiter at the head of the queue could be granted. -/
def Settled (b : WriteBarrier) : Prop :=
  ∀ waiter rest, b.waiters = waiter :: rest → ¬ b.Grantable waiter

/-- Between the barrier's steps. -/
structure Valid (b : WriteBarrier) : Prop extends Coherent b where
  settled : Settled b

theorem mem_held {b : WriteBarrier} {w : Waiter} :
    w ∈ b.held ↔ w ∈ b.resolved ∧ w.ticket ∉ b.released := by
  simp [held]

namespace Coherent

variable {b : WriteBarrier}

theorem shared_nonneg (h : b.Coherent) : 0 ≤ b.shared := by
  rw [h.counted]
  exact Int.natCast_nonneg _

theorem tickets_nodup (h : b.Coherent) : ((b.resolved ++ b.waiters).map (·.ticket)).Nodup := by
  rw [h.fifo]
  exact List.nodup_range

variable {w : Waiter}

theorem ticket_lt (h : b.Coherent) (hw : w ∈ b.resolved ++ b.waiters) : w.ticket < b.issued := by
  have hmem := List.mem_map_of_mem (f := fun w : Waiter => w.ticket) hw
  rw [h.fifo] at hmem
  exact List.mem_range.mp hmem

/-- A request is known by its ticket. -/
theorem eq_of_ticket (h : b.Coherent) {w' : Waiter} (hw : w ∈ b.resolved ++ b.waiters)
    (hw' : w' ∈ b.resolved ++ b.waiters) (heq : w.ticket = w'.ticket) : w = w' :=
  List.inj_on_of_nodup_map h.tickets_nodup hw hw' heq

theorem waiter_not_released (h : b.Coherent) (hw : w ∈ b.waiters) : w.ticket ∉ b.released := by
  intro hreleased
  have hdisjoint := h.tickets_nodup
  rw [List.map_append] at hdisjoint
  exact (List.disjoint_of_nodup_append hdisjoint) (h.released _ hreleased) (List.mem_map_of_mem hw)

theorem issued_not_released (h : b.Coherent) : b.issued ∉ b.released := by
  intro hreleased
  have hmem : b.issued ∈ (b.resolved ++ b.waiters).map (·.ticket) := by
    rw [List.map_append]
    exact List.mem_append_left _ (h.released _ hreleased)
  rw [h.fifo] at hmem
  exact lt_irrefl _ (List.mem_range.mp hmem)

theorem exclusive_eq_none (h : b.Coherent) (hw : w ∈ b.held) (hkind : w.kind = .shared) :
    b.exclusive = none := by
  cases hex : b.exclusive with
  | none => rfl
  | some token =>
    obtain ⟨w', hw', hkind', _⟩ := h.owned token hex
    rw [(h.alone w' hw' hkind').1, List.mem_singleton] at hw
    rw [hw, hkind'] at hkind
    cases hkind

theorem shared_pos (h : b.Coherent) (hw : w ∈ b.held) (hkind : w.kind = .shared) :
    0 < b.shared := by
  have hmem : w ∈ b.held.filter (·.kind = .shared) := by
    simp [hw, hkind]
  have hlength := List.length_pos_of_mem hmem
  rw [h.counted]
  exact_mod_cast hlength

/-- With no shared lease out and no exclusive one in force, no lease is out. -/
theorem held_eq_nil (h : b.Coherent) (hshared : b.shared = 0) (hexclusive : b.exclusive = none) :
    b.held = [] := by
  rw [List.eq_nil_iff_forall_not_mem]
  intro w hw
  cases hkind : w.kind with
  | shared => exact absurd (h.shared_pos hw hkind) (by omega)
  | exclusive =>
    have hforce := (h.alone w hw hkind).2
    rw [hexclusive] at hforce
    cases hforce

end Coherent

/-! ## Draining -/

variable {b : WriteBarrier} {lease : Waiter} {b b' : WriteBarrier} {w : Waiter}

theorem held_grant (hw : w.ticket ∉ b.released) (shared : Int) (exclusive : Option Nat)
    (waiters : List Waiter) (issued : Nat) :
    held ⟨shared, exclusive, waiters, issued, b.resolved ++ [w], b.released⟩ = b.held ++ [w] := by
  simp [held, List.filter_append, hw]

theorem coherent_grantHead {waiter : Waiter} {rest : List Waiter} (h : b.Coherent)
    (hwaiters : b.waiters = waiter :: rest) (hkind : waiter.kind = .shared)
    (hexclusive : b.exclusive = none) :
    Coherent { b with
      waiters := rest
      shared := b.shared + 1
      resolved := b.resolved ++ [waiter] } := by
  have hfresh : waiter.ticket ∉ b.released := h.waiter_not_released (by simp [hwaiters])
  have hheld := held_grant hfresh (b.shared + 1) b.exclusive rest b.issued
  refine ⟨?_, ?_, ?_, ?_, ?_⟩
  · have hfifo := h.fifo
    simpa [hwaiters] using hfifo
  · intro ticket hticket
    rw [List.map_append]
    exact List.mem_append_left _ (h.released ticket hticket)
  · rw [hheld]
    simp [List.filter_append, hkind, h.counted]
  · intro token htoken
    rw [hexclusive] at htoken
    cases htoken
  · rw [hheld]
    intro w hw hexcl
    rcases List.mem_append.mp hw with hw | hw
    · have hforce := (h.alone w hw hexcl).2
      rw [hexclusive] at hforce
      cases hforce
    · rw [List.mem_singleton] at hw
      rw [hw, hkind] at hexcl
      cases hexcl

/-- The loop stops at the end of the queue, or at an exclusive waiter behind a shared lease. -/
theorem valid_grantShared (waiters : List Waiter) (h : b.Coherent)
    (hwaiters : b.waiters = waiters) (hexclusive : b.exclusive = none)
    (hhead : ∀ waiter rest, waiters = waiter :: rest → waiter.kind = .exclusive →
      b.shared ≠ 0) : Valid (grantShared waiters b) := by
  induction waiters generalizing b with
  | nil =>
    refine ⟨h, fun waiter rest heq => ?_⟩
    rw [grantShared, hwaiters] at heq
    cases heq
  | cons waiter rest ih =>
    unfold grantShared
    split
    · next hgrant =>
      refine ih (coherent_grantHead h hwaiters hgrant.1 hexclusive) rfl hexclusive ?_
      intro _ _ _ _
      have := h.shared_nonneg
      show b.shared + 1 ≠ 0
      omega
    · next hstop =>
      refine ⟨h, fun first others heq hgrantable => ?_⟩
      rw [hwaiters, List.cons.injEq] at heq
      obtain ⟨rfl, -⟩ := heq
      cases hkind : waiter.kind with
      | shared => exact hstop ⟨hkind, hexclusive⟩
      | exclusive => exact hhead waiter rest rfl hkind (hgrantable.2 hkind)

/-- `drain` leaves nothing at the head of the queue that could be granted. -/
theorem Coherent.drain (h : b.Coherent) : Valid b.drain := by
  unfold WriteBarrier.drain
  split
  · next hexclusive => exact ⟨h, fun _ _ _ hgrantable => hexclusive hgrantable.1⟩
  · next hexclusive =>
    have hexclusive : b.exclusive = none := not_not.mp hexclusive
    split
    · next hwaiters =>
      exact ⟨h, fun _ _ heq => by rw [hwaiters] at heq; cases heq⟩
    · next first rest hwaiters =>
      split
      · next hkind =>
        split
        · next hshared =>
          refine ⟨h, fun waiter others heq hgrantable => hshared ?_⟩
          rw [hwaiters, List.cons.injEq] at heq
          exact hgrantable.2 (heq.1 ▸ hkind)
        · next hshared =>
          -- the exclusive waiter is granted: nothing else is out
          have hnone := h.held_eq_nil (not_not.mp hshared) hexclusive
          have hfresh : first.ticket ∉ b.released := h.waiter_not_released (by simp [hwaiters])
          have hheld := held_grant hfresh b.shared (some first.ticket) rest b.issued
          rw [hnone, List.nil_append] at hheld
          refine ⟨⟨?_, ?_, ?_, ?_, ?_⟩, fun _ _ _ hgrantable => ?_⟩
          · have hfifo := h.fifo
            simpa [hwaiters] using hfifo
          · intro ticket hticket
            rw [List.map_append]
            exact List.mem_append_left _ (h.released ticket hticket)
          · rw [hheld]
            simp [hkind, not_not.mp hshared]
          · intro token htoken
            rw [hheld]
            exact ⟨first, by simp, hkind, Option.some.inj htoken⟩
          · rw [hheld]
            intro w hw _
            rw [List.mem_singleton] at hw
            rw [hw]
            exact ⟨rfl, rfl⟩
          · cases hgrantable.1
      · next hkind =>
        refine valid_grantShared b.waiters h rfl hexclusive ?_
        intro waiter others heq hexcl
        rw [hwaiters, List.cons.injEq] at heq
        rw [← heq.1] at hexcl
        exact absurd hexcl hkind

theorem resolved_extends_grantShared (waiters : List Waiter) (b : WriteBarrier) :
    b.resolved <+: (grantShared waiters b).resolved := by
  induction waiters generalizing b with
  | nil => exact List.prefix_rfl
  | cons waiter rest ih =>
    unfold grantShared
    split
    · refine List.IsPrefix.trans ?_ (ih _)
      exact List.prefix_append _ _
    · exact List.prefix_rfl

theorem resolved_extends_drain (h : b'.resolved = b.resolved) :
    b.resolved <+: b'.drain.resolved := by
  rw [← h]
  unfold drain
  split
  · exact List.prefix_rfl
  · split
    · exact List.prefix_rfl
    · split
      · split
        · exact List.prefix_rfl
        · exact List.prefix_append _ _
      · exact resolved_extends_grantShared _ _

theorem resolved_extends_acquire (b : WriteBarrier) (kind : LeaseKind) (flow : Nat) :
    b.resolved <+: (b.acquire kind flow).resolved := by
  unfold acquire
  exact resolved_extends_drain rfl

theorem resolved_extends_release (b : WriteBarrier) (lease : Waiter) :
    b.resolved <+: (b.release lease).resolved := by
  unfold release
  split
  · exact List.prefix_rfl
  · cases lease.kind with
    | shared => exact resolved_extends_drain rfl
    | exclusive => exact resolved_extends_drain rfl

/-! ## The steps of the barrier -/

theorem Coherent.enqueue (h : b.Coherent) (kind : LeaseKind) (flow : Nat) : Coherent { b with
      waiters := b.waiters ++ [⟨kind, b.issued, flow⟩]
      issued := b.issued + 1 } := by
  refine ⟨?_, h.released, h.counted, h.owned, h.alone⟩
  have hfifo := h.fifo
  rw [← List.append_assoc, List.map_append, hfifo, List.range_succ]
  rfl

theorem Valid.acquire (h : b.Valid) (kind : LeaseKind) (flow : Nat) : Valid (b.acquire kind flow) :=
  (h.toCoherent.enqueue kind flow).drain

theorem Valid.tryAcquireShared {flow : Nat} (h : b.Valid) (hb : b.tryAcquireShared flow = some b') :
    Valid b' := by
  unfold WriteBarrier.tryAcquireShared at hb
  split at hb
  · cases hb
  · next hfree =>
    push Not at hfree
    obtain ⟨hexclusive, hwaiters⟩ := hfree
    cases hb
    -- the same as queueing the request and granting it from the head
    have hqueued := h.toCoherent.enqueue .shared flow
    rw [hwaiters] at hqueued
    have hgranted := coherent_grantHead hqueued rfl rfl hexclusive
    refine ⟨?_, fun waiter rest heq => ?_⟩
    · show Coherent ⟨b.shared + 1, b.exclusive, b.waiters, b.issued + 1, _, b.released⟩
      rw [hwaiters]
      exact hgranted
    · rw [hwaiters] at heq
      cases heq

theorem held_release (b : WriteBarrier) (shared : Int) (exclusive : Option Nat) (ticket : Nat) :
    held { b with shared, exclusive, released := ticket :: b.released } =
      b.held.filter (·.ticket ≠ ticket) := by
  simp only [held, List.filter_filter]
  congr 1
  funext w
  simp [List.mem_cons, not_or]

/-- A release that has run already does nothing. -/
theorem release_released (h : lease.ticket ∈ b.released) : b.release lease = b := by
  simp [release, h]

theorem Coherent.held_nodup (h : b.Coherent) : b.held.Nodup := by
  have htickets := h.tickets_nodup
  rw [List.map_append] at htickets
  exact (List.Nodup.of_map _ (List.nodup_append.mp htickets).1).filter _

/-- Leaving one lease out removes exactly this lease. -/
theorem Coherent.filter_ticket_ne (h : b.Coherent) (hlease : lease ∈ b.held) :
    b.held.filter (·.ticket ≠ lease.ticket) = b.held.erase lease := by
  rw [h.held_nodup.erase_eq_filter]
  refine List.filter_congr fun w hw => ?_
  have hiff : w.ticket = lease.ticket ↔ w = lease :=
    ⟨fun heq => h.eq_of_ticket (List.mem_append_left _ (mem_held.mp hw).1)
      (List.mem_append_left _ (mem_held.mp hlease).1) heq, fun heq => heq ▸ rfl⟩
  by_cases heq : w = lease <;> simp [heq, hiff]

theorem Coherent.releaseShared (h : b.Coherent) (hlease : lease ∈ b.held)
    (hkind : lease.kind = .shared) :
    Coherent { b with released := lease.ticket :: b.released, shared := b.shared - 1 } := by
  have hheld := held_release b (b.shared - 1) b.exclusive lease.ticket
  rw [h.filter_ticket_ne hlease] at hheld
  have hnone := h.exclusive_eq_none hlease hkind
  refine ⟨h.fifo, ?_, ?_, ?_, ?_⟩
  · intro ticket hticket
    rcases List.mem_cons.mp hticket with rfl | hticket
    · exact List.mem_map_of_mem (mem_held.mp hlease).1
    · exact h.released ticket hticket
  · rw [hheld]
    have hmem : lease ∈ b.held.filter (·.kind = .shared) := by simp [hlease, hkind]
    have hcount := h.counted
    have hlength := List.length_erase_of_mem hmem
    rw [List.erase_filter] at hlength
    have hpos := List.length_pos_of_mem hmem
    show b.shared - 1 = _
    rw [hlength]
    omega
  · intro token htoken
    rw [hnone] at htoken
    cases htoken
  · rw [hheld]
    intro w hw hexcl
    have hforce := (h.alone w (List.mem_of_mem_erase hw) hexcl).2
    rw [hnone] at hforce
    cases hforce

theorem Coherent.releaseExclusive (h : b.Coherent) (hlease : lease ∈ b.held)
    (hkind : lease.kind = .exclusive) :
    Coherent { b with released := lease.ticket :: b.released, exclusive := none } := by
  have hheld := held_release b b.shared none lease.ticket
  obtain ⟨hsingle, -⟩ := h.alone lease hlease hkind
  have hempty : b.held.filter (·.ticket ≠ lease.ticket) = [] := by
    rw [hsingle]
    simp
  rw [hempty] at hheld
  refine ⟨h.fifo, ?_, ?_, ?_, ?_⟩
  · intro ticket hticket
    rcases List.mem_cons.mp hticket with rfl | hticket
    · exact List.mem_map_of_mem (mem_held.mp hlease).1
    · exact h.released ticket hticket
  · have hcount := h.counted
    rw [hsingle] at hcount
    rw [hheld]
    simpa [hkind] using hcount
  · intro token htoken
    cases htoken
  · rw [hheld]
    simp

/-- Releasing any granted lease, however often. -/
theorem Valid.release (h : b.Valid) (hlease : lease ∈ b.resolved) : Valid (b.release lease) := by
  unfold WriteBarrier.release
  split
  · exact h
  · next hout =>
    have hheld : lease ∈ b.held := mem_held.mpr ⟨hlease, hout⟩
    cases hkind : lease.kind with
    | shared => exact (h.toCoherent.releaseShared hheld hkind).drain
    | exclusive => exact (h.toCoherent.releaseExclusive hheld hkind).drain

theorem valid_empty : Valid empty := by
  refine ⟨⟨rfl, ?_, rfl, ?_, ?_⟩, ?_⟩
  · intro ticket hticket
    cases hticket
  · intro token htoken
    cases htoken
  · intro w hw
    cases hw
  · intro waiter rest heq
    cases heq

/-! ## How a step changes the requests -/

/-- Every request made so far, in order. -/
def requests (b : WriteBarrier) : List Waiter := b.resolved ++ b.waiters

/-- A step adds these requests, grants some, and has these tickets released. -/
structure Moves (b b' : WriteBarrier) (added : List Waiter) (gone : List Nat) : Prop where
  requests : b'.requests = b.requests ++ added
  resolved : b.resolved <+: b'.resolved
  released : b'.released = gone ++ b.released

theorem grantShared_moves (waiters : List Waiter) (b : WriteBarrier) (hwaiters : b.waiters = waiters) :
    (grantShared waiters b).requests = b.requests ∧
      (grantShared waiters b).released = b.released := by
  induction waiters generalizing b with
  | nil => exact ⟨rfl, rfl⟩
  | cons waiter rest ih =>
    unfold grantShared
    split
    · obtain ⟨hrequests, hreleased⟩ := ih { b with
        waiters := rest
        shared := b.shared + 1
        resolved := b.resolved ++ [waiter] } rfl
      refine ⟨hrequests.trans ?_, hreleased⟩
      simp [requests, hwaiters]
    · exact ⟨rfl, rfl⟩

theorem drain_moves (b : WriteBarrier) :
    b.drain.requests = b.requests ∧ b.drain.released = b.released := by
  unfold drain
  split
  · exact ⟨rfl, rfl⟩
  · split
    · exact ⟨rfl, rfl⟩
    · next first rest hwaiters =>
      split
      · split
        · exact ⟨rfl, rfl⟩
        · refine ⟨?_, rfl⟩
          simp [requests, hwaiters]
      · exact grantShared_moves _ _ rfl

theorem acquire_moves (b : WriteBarrier) (kind : LeaseKind) (flow : Nat) :
    Moves b (b.acquire kind flow) [⟨kind, b.issued, flow⟩] [] := by
  obtain ⟨hrequests, hreleased⟩ := drain_moves { b with
    waiters := b.waiters ++ [⟨kind, b.issued, flow⟩]
    issued := b.issued + 1 }
  exact ⟨hrequests.trans (List.append_assoc _ _ _).symm, b.resolved_extends_acquire kind flow,
    hreleased⟩

theorem tryAcquireShared_moves {flow : Nat} (h : b.tryAcquireShared flow = some b') :
    Moves b b' [⟨.shared, b.issued, flow⟩] [] ∧
      (⟨.shared, b.issued, flow⟩ : Waiter) ∈ b'.resolved := by
  unfold tryAcquireShared at h
  split at h
  · cases h
  · next hfree =>
    push Not at hfree
    cases h
    refine ⟨⟨?_, List.prefix_append _ _, rfl⟩, by simp⟩
    simp [requests, hfree.2]

theorem release_moves (h : lease.ticket ∉ b.released) :
    Moves b (b.release lease) [] [lease.ticket] := by
  refine ⟨?_, b.resolved_extends_release lease, ?_⟩
  · unfold release
    rw [if_neg h, List.append_nil]
    cases lease.kind <;> exact (drain_moves _).1
  · unfold release
    rw [if_neg h]
    cases lease.kind <;> exact (drain_moves _).2

theorem Moves.held {added : List Waiter} {gone : List Nat} (h : Moves b b' added gone)
    (hw : w ∈ b.held) (hgone : w.ticket ∉ gone) : w ∈ b'.held := by
  obtain ⟨hmem, hout⟩ := mem_held.mp hw
  refine mem_held.mpr ⟨h.resolved.subset hmem, ?_⟩
  rw [h.released, List.mem_append]
  exact fun hor => hor.elim hgone hout

theorem mem_requests_of_held (h : w ∈ b.held) : w ∈ b.requests :=
  List.mem_append_left _ (mem_held.mp h).1

/-- A request is granted or waits, not both. -/
theorem Coherent.not_resolved (h : b.Coherent) (hw : w ∈ b.waiters) : w ∉ b.resolved := by
  intro hresolved
  have hnodup := h.tickets_nodup
  rw [List.map_append] at hnodup
  exact List.disjoint_of_nodup_append hnodup (List.mem_map_of_mem hresolved)
    (List.mem_map_of_mem hw)

end WriteBarrier

end ContextStore
