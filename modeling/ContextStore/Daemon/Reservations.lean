import ContextStore.Daemon.Output

/-! # Every reservation is released once

The buffered output is what the unreleased reservations hold, on each connection and in all
(`Booked`). Each of these has somebody who will give it back: the task that holds it, or the frame
in flight that was written under it (`Kept`). And nobody waits who would fit (`Blocked`). -/

namespace ContextStore.Output

open Totals

def outstanding (reservation : Reservation) : Int :=
  if reservation.released then 0 else reservation.bytes

def outstandingOn (socket : Nat) (reservation : Reservation) : Int :=
  if reservation.released ∨ reservation.socket ≠ socket then 0 else reservation.bytes

namespace Daemon

variable {limits : Limits} {daemon : Daemon}

/-! ## The books -/

structure Booked (limits : Limits) (daemon : Daemon) : Prop where
  not_thrown : daemon.thrown = false
  nodup : daemon.outputReservations.Nodup
  registered : ∀ id, id ∈ daemon.outputReservations ↔
    ∃ reservation, daemon.reservations[id]? = some reservation ∧ reservation.released = false
  total_eq : daemon.bufferedOutputBytes = total outstanding daemon.reservations
  socket_eq : ∀ socket, daemon.outputBytes socket = total (outstandingOn socket) daemon.reservations
  within : daemon.bufferedOutputBytes ≤ limits.maxBufferedOutputBytes
  within_socket : ∀ socket, daemon.outputBytes socket ≤ limits.maxConnectionBufferedOutputBytes
  positive : ∀ reservation ∈ daemon.reservations, 0 < reservation.bytes
  once : ∀ reservation ∈ daemon.reservations,
    reservation.releases = if reservation.released then 1 else 0

/-- The books are about the reservations and the two counters only. -/
theorem Booked.congr (h : Booked limits daemon) {after : Daemon}
    (hthrown : after.thrown = daemon.thrown)
    (hreservations : after.reservations = daemon.reservations)
    (hregistered : after.outputReservations = daemon.outputReservations)
    (htotal : after.bufferedOutputBytes = daemon.bufferedOutputBytes)
    (hsockets : ∀ socket, after.outputBytes socket = daemon.outputBytes socket) :
    Booked limits after where
  not_thrown := hthrown.trans h.not_thrown
  nodup := hregistered ▸ h.nodup
  registered := by rw [hregistered, hreservations]; exact h.registered
  total_eq := by rw [htotal, hreservations]; exact h.total_eq
  socket_eq socket := by rw [hsockets, hreservations]; exact h.socket_eq socket
  within := htotal ▸ h.within
  within_socket socket := hsockets socket ▸ h.within_socket socket
  positive := hreservations ▸ h.positive
  once := hreservations ▸ h.once

theorem outputBytes_setOutputBytes (socket : Nat) (bytes : Option Int) (other : Nat) :
    (daemon.setOutputBytes socket bytes).outputBytes other =
      if other = socket then bytes.getD 0 else daemon.outputBytes other := by
  rw [outputBytes, setOutputBytes]
  by_cases h : other = socket
  · subst h
    simp
  · simp [h, outputBytes]

theorem Booked.outstandingOn_nonneg (h : Booked limits daemon) (socket : Nat) :
    ∀ reservation ∈ daemon.reservations, 0 ≤ outstandingOn socket reservation := by
  intro reservation hmem
  have := h.positive reservation hmem
  rw [outstandingOn]
  split <;> omega

theorem Booked.outstanding_nonneg (h : Booked limits daemon) :
    ∀ reservation ∈ daemon.reservations, 0 ≤ outstanding reservation := by
  intro reservation hmem
  have := h.positive reservation hmem
  rw [outstanding]
  split <;> omega

variable {reservation : Reservation} {id : Nat}

theorem Booked.tryReserve (h : Booked limits daemon) {socket : Nat} {bytes : Int}
    {retainOnClose : Bool} (hbytes : 0 < bytes) {reserved : Daemon}
    (hreserve : tryReserveOutputBytes limits daemon socket bytes retainOnClose =
      some (reserved, id)) : Booked limits reserved := by
  rw [tryReserveOutputBytes] at hreserve
  split at hreserve
  · next hfits =>
    obtain ⟨rfl, rfl⟩ := Prod.mk.inj (Option.some.inj hreserve)
    have hnew : ∀ reservation ∈ daemon.reservations ++
        [{ socket, bytes, retainOnClose : Reservation }],
        reservation ∈ daemon.reservations ∨
          reservation = { socket, bytes, retainOnClose } := by
      intro reservation hmem
      simpa using hmem
    have houtput : ∀ other, Daemon.outputBytes
        { daemon.setOutputBytes socket (some (daemon.outputBytes socket + bytes)) with
          reservations := daemon.reservations ++ [{ socket, bytes, retainOnClose }]
          outputReservations := daemon.outputReservations ++ [daemon.reservations.length]
          bufferedOutputBytes := daemon.bufferedOutputBytes + bytes } other =
        if other = socket then daemon.outputBytes socket + bytes
        else daemon.outputBytes other :=
      outputBytes_setOutputBytes socket _
    refine ⟨h.not_thrown, ?_, ?_, ?_, ?_, ?_, ?_, ?_, ?_⟩
    · rw [List.nodup_append]
      refine ⟨h.nodup, by simp, ?_⟩
      intro old hold new hnew
      obtain ⟨reservation, hlookup, -⟩ := (h.registered old).mp hold
      obtain ⟨hlt, -⟩ := List.getElem?_eq_some_iff.mp hlookup
      obtain rfl := List.mem_singleton.mp hnew
      omega
    · intro id
      rw [List.mem_append, h.registered, List.mem_singleton]
      by_cases hid : id < daemon.reservations.length
      · rw [List.getElem?_append_left hid]
        simp [Nat.ne_of_lt hid]
      · by_cases heq : id = daemon.reservations.length
        · subst heq
          simp
        · have hnone : daemon.reservations[id]? = none := List.getElem?_eq_none_iff.mpr (by omega)
          have hnone' : (daemon.reservations ++
              [{ socket, bytes, retainOnClose : Reservation }])[id]? = none :=
            List.getElem?_eq_none_iff.mpr (by simp; omega)
          rw [hnone, hnone']
          simp [heq]
    · simp [h.total_eq, outstanding]
    · intro other
      rw [houtput, total_append, total_cons, total_nil, ← h.socket_eq other]
      by_cases hother : other = socket
      · subst hother
        simp [outstandingOn]
      · simp [outstandingOn, hother, Ne.symm hother]
    · have := hfits.2.2
      show daemon.bufferedOutputBytes + bytes ≤ _
      omega
    · intro other
      rw [houtput]
      split
      · have := hfits.2.1
        omega
      · exact h.within_socket other
    · intro reservation hmem
      rcases hnew reservation hmem with hmem | rfl
      · exact h.positive reservation hmem
      · exact hbytes
    · intro reservation hmem
      rcases hnew reservation hmem with hmem | rfl
      · exact h.once reservation hmem
      · rfl
  · cases hreserve

/-- Replacing an unreleased reservation moves both counters by what it has less. -/
theorem Booked.replace (h : Booked limits daemon) {before : Reservation} (after : Reservation)
    (hbefore : daemon.reservations[id]? = some before) (hopen : before.released = false)
    (hsocket : after.socket = before.socket) (hbytes : 0 < after.bytes)
    (hless : outstanding after ≤ outstanding before)
    (honce : after.releases = if after.released then 1 else 0) {changed : Daemon}
    (hthrown : changed.thrown = daemon.thrown)
    (hreservations : changed.reservations = daemon.reservations.set id after)
    (hregistered : changed.outputReservations =
      if after.released then daemon.outputReservations.erase id else daemon.outputReservations)
    (htotal : changed.bufferedOutputBytes =
      daemon.bufferedOutputBytes - outstanding before + outstanding after)
    (houtput : ∀ socket, changed.outputBytes socket = if socket = before.socket then
      daemon.outputBytes socket - outstanding before + outstanding after
      else daemon.outputBytes socket) :
    Booked limits changed := by
  obtain ⟨hlt, -⟩ := List.getElem?_eq_some_iff.mp hbefore
  have hmem : ∀ reservation ∈ changed.reservations,
      reservation ∈ daemon.reservations ∨ reservation = after := by
    intro reservation hmem
    rw [hreservations] at hmem
    exact List.mem_or_eq_of_mem_set hmem
  have hon : ∀ socket, outstandingOn socket before =
      if socket = before.socket then outstanding before else 0 := by
    intro socket
    by_cases hs : socket = before.socket
    · simp [outstandingOn, outstanding, hs, hopen]
    · simp [outstandingOn, hs, Ne.symm hs]
  have hon' : ∀ socket, outstandingOn socket after =
      if socket = before.socket then outstanding after else 0 := by
    intro socket
    by_cases hs : socket = before.socket
    · simp [outstandingOn, outstanding, hs, hsocket]
    · simp [outstandingOn, hs, hsocket, Ne.symm hs]
  refine ⟨hthrown.trans h.not_thrown, ?_, ?_, ?_, ?_, ?_, ?_, ?_, ?_⟩
  · rw [hregistered]
    split
    · exact h.nodup.erase id
    · exact h.nodup
  · intro other
    rw [hregistered, hreservations]
    by_cases hother : other = id
    · subst hother
      rw [List.getElem?_set_self hlt]
      split
      · next hreleased =>
        rw [h.nodup.mem_erase_iff]
        simp [hreleased]
      · next hkept =>
        rw [h.registered]
        simp [hbefore, hopen, hkept]
    · rw [List.getElem?_set_ne (Ne.symm hother), ← h.registered]
      split
      · rw [h.nodup.mem_erase_iff]
        simp [hother]
      · rfl
  · rw [htotal, hreservations, total_set hbefore, h.total_eq]
  · intro socket
    rw [houtput, hreservations, total_set hbefore, ← h.socket_eq, hon, hon']
    split
    · rfl
    · omega
  · rw [htotal]
    have := h.within
    omega
  · intro socket
    rw [houtput]
    have := h.within_socket socket
    split <;> omega
  · intro reservation hin
    rcases hmem reservation hin with hin | rfl
    · exact h.positive reservation hin
    · exact hbytes
  · intro reservation hin
    rcases hmem reservation hin with hin | rfl
    · exact h.once reservation hin
    · exact honce

theorem Booked.outstanding_le (h : Booked limits daemon)
    (hlookup : daemon.reservations[id]? = some reservation) (hopen : reservation.released = false) :
    reservation.bytes ≤ daemon.bufferedOutputBytes ∧
      reservation.bytes ≤ daemon.outputBytes reservation.socket := by
  have hmem := List.mem_of_getElem? hlookup
  have htotal := le_total h.outstanding_nonneg hmem
  have hsocket := le_total (h.outstandingOn_nonneg reservation.socket) hmem
  rw [← h.total_eq] at htotal
  rw [← h.socket_eq] at hsocket
  simp only [outstanding, outstandingOn, hopen] at htotal hsocket
  exact ⟨by simpa using htotal, by simpa using hsocket⟩

theorem Booked.giveBack (h : Booked limits daemon)
    (hlookup : daemon.reservations[id]? = some reservation) (hopen : reservation.released = false) :
    Booked limits (daemon.giveBack id reservation) ∧
      0 ≤ (daemon.giveBack id reservation).bufferedOutputBytes := by
  have hpositive := h.positive reservation (List.mem_of_getElem? hlookup)
  obtain ⟨hle, hleSocket⟩ := h.outstanding_le hlookup hopen
  have honce := h.once reservation (List.mem_of_getElem? hlookup)
  have hbefore : outstanding reservation = reservation.bytes := by simp [outstanding, hopen]
  generalize hafter : { reservation with
    released := true, releases := reservation.releases + 1 : Reservation } = after
  have hzero : outstanding after = 0 := by simp [outstanding, ← hafter]
  have hreservations : (daemon.giveBack id reservation).reservations =
      daemon.reservations.set id after := by rw [← hafter]; rfl
  constructor
  · refine h.replace after hlookup hopen (by rw [← hafter]) (by rw [← hafter]; exact hpositive)
      (by omega) ?_ rfl hreservations (by rw [← hafter]; rfl) ?_ ?_
    · rw [← hafter]
      simp [honce, hopen]
    · rw [hbefore, hzero, Int.add_zero]
      rfl
    · intro socket
      show (daemon.setOutputBytes _ _).outputBytes socket = _
      rw [outputBytes_setOutputBytes]
      by_cases hsocket : socket = reservation.socket
      · rw [if_pos hsocket, if_pos hsocket, hbefore, hzero, hsocket, entry]
        split
        · simp
        · rw [Option.getD_none]
          omega
      · rw [if_neg hsocket, if_neg hsocket]
  · show 0 ≤ daemon.bufferedOutputBytes - reservation.bytes
    omega

theorem Booked.shrink (h : Booked limits daemon)
    (hlookup : daemon.reservations[id]? = some reservation) (hopen : reservation.released = false)
    {bytes : Int} (hbytes : 0 < bytes) (hless : bytes ≤ reservation.bytes) :
    Booked limits (daemon.shrink id reservation bytes) := by
  have honce := h.once reservation (List.mem_of_getElem? hlookup)
  have hbefore : outstanding reservation = reservation.bytes := by simp [outstanding, hopen]
  have hafter : outstanding { reservation with bytes } = bytes := by simp [outstanding, hopen]
  refine h.replace { reservation with bytes } hlookup hopen rfl hbytes (by omega) honce rfl rfl ?_ ?_ ?_
  · simp [hopen]
    rfl
  · rw [hbefore, hafter]
    show daemon.bufferedOutputBytes - (reservation.bytes - bytes) = _
    omega
  · intro socket
    show (daemon.setOutputBytes _ _).outputBytes socket = _
    rw [outputBytes_setOutputBytes]
    by_cases hsocket : socket = reservation.socket
    · rw [if_pos hsocket, if_pos hsocket, hbefore, hafter, hsocket, Option.getD_some]
      omega
    · rw [if_neg hsocket, if_neg hsocket]

/-- Whether a reservation goes with its socket is not in the books. -/
theorem Booked.setRetain (h : Booked limits daemon)
    (hlookup : daemon.reservations[id]? = some reservation) (hopen : reservation.released = false)
    (retainOnClose : Bool) :
    Booked limits { daemon with
      reservations := daemon.reservations.set id { reservation with retainOnClose } } := by
  have honce := h.once reservation (List.mem_of_getElem? hlookup)
  have hpositive := h.positive reservation (List.mem_of_getElem? hlookup)
  have hsame : outstanding { reservation with retainOnClose } = outstanding reservation := rfl
  refine h.replace { reservation with retainOnClose } hlookup hopen rfl hpositive (by omega)
    honce rfl rfl ?_ ?_ ?_
  · simp [hopen]
  · rw [hsame]
    show daemon.bufferedOutputBytes = _
    omega
  · intro socket
    rw [hsame]
    show daemon.outputBytes socket = _
    split <;> omega

/-! ## Who gives a reservation back -/

/-- The task that holds the reservation, or the frame in flight that was written under it. -/
def Holder (daemon : Daemon) (id : Nat) (reservation : Reservation) : Prop :=
  (∃ task running, daemon.tasks task = some running ∧ running.stage = .holding id ∧
    running.socket = reservation.socket ∧ running.request = reservation.retainOnClose) ∨
  (reservation.retainOnClose = false ∧ ∃ write ∈ daemon.writes, write.reservation = id ∧
    write.socket = reservation.socket ∧ write.pending = true)

/-- Every unreleased reservation but the exempt ones has a holder and is not left over from a
closed socket; the tasks in the queue wait. -/
structure Kept (exempt : Nat → Prop) (queue : List Waiter) (daemon : Daemon) : Prop where
  held : ∀ id reservation, daemon.reservations[id]? = some reservation →
    reservation.released = false → ¬ exempt id → Holder daemon id reservation ∧
      ((daemon.sockets reservation.socket).closed = true → reservation.retainOnClose = true)
  holding : ∀ task running id, daemon.tasks task = some running → running.stage = .holding id →
    ∃ reservation, daemon.reservations[id]? = some reservation ∧ reservation.socket = running.socket
  waiting : ∀ waiter ∈ queue, daemon.tasks waiter.task =
    some { socket := waiter.socket, request := waiter.retainOnClose, stage := .waiting }
  nodup : (queue.map Waiter.task).Nodup
  fresh : ∀ task, daemon.started ≤ task → daemon.tasks task = none
  closed_destroyed : ∀ socket, (daemon.sockets socket).closed = true →
    (daemon.sockets socket).destroyed = true

/-- No waiter fits. -/
def Blocked (limits : Limits) (daemon : Daemon) : Prop :=
  ∀ waiter ∈ daemon.outputWaiters, ¬ Fits limits daemon waiter.socket limits.maxEncodedFrameBytes

variable {exempt : Nat → Prop} {queue : List Waiter}

theorem Kept.perm (h : Kept exempt queue daemon) {queue' : List Waiter}
    (hperm : queue.Perm queue') : Kept exempt queue' daemon where
  held := h.held
  holding := h.holding
  waiting waiter hmem := h.waiting waiter (hperm.mem_iff.mpr hmem)
  nodup := (hperm.map _).nodup_iff.mp h.nodup
  fresh := h.fresh
  closed_destroyed := h.closed_destroyed

variable {reservation : Reservation} {id : Nat} {exempt' : Nat → Prop}

theorem Kept.narrow (h : Kept exempt queue daemon)
    (hexempt : ∀ id reservation, daemon.reservations[id]? = some reservation →
      reservation.released = false → exempt id → exempt' id) : Kept exempt' queue daemon where
  held := by
    intro id reservation hlookup hopen hnot
    exact h.held id reservation hlookup hopen fun hid =>
      hnot (hexempt id reservation hlookup hopen hid)
  holding := h.holding
  waiting := h.waiting
  nodup := h.nodup
  fresh := h.fresh
  closed_destroyed := h.closed_destroyed

theorem Kept.cover (h : Kept (fun other => exempt other ∨ other = id) queue daemon)
    (hid : ∀ reservation, daemon.reservations[id]? = some reservation →
      reservation.released = false → Holder daemon id reservation ∧
        ((daemon.sockets reservation.socket).closed = true → reservation.retainOnClose = true)) :
    Kept exempt queue daemon where
  held := by
    intro other reservation hlookup hopen hnot
    by_cases heq : other = id
    · subst heq
      exact hid reservation hlookup hopen
    · exact h.held other reservation hlookup hopen (by simp [hnot, heq])
  holding := h.holding
  waiting := h.waiting
  nodup := h.nodup
  fresh := h.fresh
  closed_destroyed := h.closed_destroyed

/-- The first waiter's promise is settled; it held nothing while it waited. -/
theorem Kept.resolve {waiter : Waiter} (h : Kept exempt (waiter :: queue) daemon) (stage : Stage)
    (hstage : ∀ id, stage = .holding id → ∃ reservation,
      daemon.reservations[id]? = some reservation ∧ reservation.socket = waiter.socket) :
    Kept exempt queue (daemon.resolve waiter.task stage) := by
  have htask := h.waiting waiter List.mem_cons_self
  have hnodup : waiter.task ∉ queue.map Waiter.task ∧ (queue.map Waiter.task).Nodup :=
    List.nodup_cons.mp h.nodup
  have hother : ∀ task, task ≠ waiter.task →
      (daemon.resolve waiter.task stage).tasks task = daemon.tasks task :=
    fun task hne => Function.update_of_ne hne _ _
  have hself : (daemon.resolve waiter.task stage).tasks waiter.task =
      some { socket := waiter.socket, request := waiter.retainOnClose, stage } := by
    rw [Daemon.resolve, htask]
    simp
  refine ⟨?_, ?_, ?_, hnodup.2, ?_, h.closed_destroyed⟩
  · intro id reservation hlookup hopen hnot
    obtain ⟨hholder, hclosed⟩ := h.held id reservation hlookup hopen hnot
    refine ⟨?_, hclosed⟩
    rcases hholder with ⟨task, running, hrunning, hholding, hsame⟩ | hwrite
    · refine .inl ⟨task, running, ?_, hholding, hsame⟩
      rw [hother, hrunning]
      rintro rfl
      obtain rfl := Option.some.inj (htask.symm.trans hrunning)
      cases hholding
    · exact .inr hwrite
  · intro task running id hrunning hholding
    by_cases heq : task = waiter.task
    · subst heq
      obtain rfl := Option.some.inj (hself.symm.trans hrunning)
      exact hstage id hholding
    · rw [hother task heq] at hrunning
      exact h.holding task running id hrunning hholding
  · intro other hmem
    rw [hother]
    · exact h.waiting other (List.mem_cons_of_mem _ hmem)
    · intro heq
      exact hnodup.1 (heq ▸ List.mem_map_of_mem hmem)
  · intro task hle
    by_cases heq : task = waiter.task
    · subst heq
      have := h.fresh waiter.task hle
      rw [htask] at this
      cases this
    · rw [hother task heq]
      exact h.fresh task hle

theorem grant_eq_none_iff {waiter : Waiter} :
    grant limits daemon waiter = none ↔
      ¬ Fits limits daemon waiter.socket limits.maxEncodedFrameBytes := by
  rw [grant, tryReserveOutputBytes]
  split
  · next h => simp [h]
  · next h => simp [h]

/-- What later steps leave alone: the reservations there are, the sockets but for their bytes, and
the frames in flight. -/
structure Later (before after : Daemon) : Prop where
  reservations : ∀ (id : Nat) reservation, before.reservations[id]? = some reservation →
    after.reservations[id]? = some reservation
  live : ∀ socket, (after.sockets socket).live = (before.sockets socket).live
  writes : after.writes = before.writes

theorem Later.refl : Later daemon daemon := ⟨fun _ _ h => h, fun _ => rfl, rfl⟩

theorem Later.trans {first second third : Daemon} (h : Later first second)
    (h' : Later second third) : Later first third where
  reservations id reservation hlookup :=
    h'.reservations id reservation (h.reservations id reservation hlookup)
  live socket := (h'.live socket).trans (h.live socket)
  writes := h'.writes.trans h.writes

theorem setOutputBytes_sockets (daemon : Daemon) (socket : Nat) (bytes : Option Int) (other : Nat) :
    ((daemon.setOutputBytes socket bytes).sockets other).live = (daemon.sockets other).live ∧
      ((daemon.setOutputBytes socket bytes).sockets other).closed =
        (daemon.sockets other).closed ∧
      ((daemon.setOutputBytes socket bytes).sockets other).destroyed =
        (daemon.sockets other).destroyed := by
  rw [setOutputBytes]
  by_cases h : other = socket
  · subst h
    simp [Socket.live]
  · simp [h]

/-- A waiter that fits gets its reservation and becomes its holder. -/
theorem grant_spec {waiter : Waiter} {granted : Daemon} (hbooked : Booked limits daemon)
    (hkept : Kept exempt (waiter :: queue) daemon)
    (hgrant : grant limits daemon waiter = some granted) :
    Booked limits granted ∧ Kept exempt queue granted ∧ Later daemon granted ∧
      granted.outputWaiters = daemon.outputWaiters ∧
      ∀ socket, Fits limits granted socket limits.maxEncodedFrameBytes →
        Fits limits daemon socket limits.maxEncodedFrameBytes := by
  obtain ⟨⟨reserved, id⟩, hreserve, rfl⟩ := Option.map_eq_some_iff.mp hgrant
  have hbytes : (0 : Int) < limits.maxEncodedFrameBytes := by
    simp only [Limits.maxEncodedFrameBytes]
    omega
  have hreserved := hbooked.tryReserve hbytes hreserve
  rw [tryReserveOutputBytes] at hreserve
  split at hreserve
  · next hfits =>
    obtain ⟨hdaemon, hid⟩ := Prod.mk.inj (Option.some.inj hreserve)
    have hsockets := setOutputBytes_sockets daemon waiter.socket
      (some (daemon.outputBytes waiter.socket + limits.maxEncodedFrameBytes))
    have hflags : ∀ other, (reserved.sockets other).live = (daemon.sockets other).live ∧
        (reserved.sockets other).closed = (daemon.sockets other).closed ∧
        (reserved.sockets other).destroyed = (daemon.sockets other).destroyed := by
      rw [← hdaemon]
      exact hsockets
    have hreservations : reserved.reservations = daemon.reservations ++ [{
        socket := waiter.socket
        bytes := limits.maxEncodedFrameBytes
        retainOnClose := waiter.retainOnClose }] := by rw [← hdaemon]
    have hold : ∀ (other : Nat) reservation, daemon.reservations[other]? = some reservation →
        reserved.reservations[other]? = some reservation := by
      intro other reservation hlookup
      obtain ⟨hlt, -⟩ := List.getElem?_eq_some_iff.mp hlookup
      rw [hreservations, List.getElem?_append_left hlt]
      exact hlookup
    have hnew : ∀ (other : Nat) reservation, reserved.reservations[other]? = some reservation →
        other ≠ id → daemon.reservations[other]? = some reservation := by
      intro other reservation hlookup hne
      rw [hreservations] at hlookup
      obtain ⟨hlt, -⟩ := List.getElem?_eq_some_iff.mp hlookup
      rw [List.length_append, List.length_singleton] at hlt
      rwa [List.getElem?_append_left (by omega)] at hlookup
    have hself : reserved.reservations[id]? = some {
        socket := waiter.socket
        bytes := limits.maxEncodedFrameBytes
        retainOnClose := waiter.retainOnClose } := by
      rw [hreservations, ← hid]
      simp
    have htasks : reserved.tasks = daemon.tasks := by rw [← hdaemon]; rfl
    have hstarted : reserved.started = daemon.started := by rw [← hdaemon]; rfl
    have hwrites : reserved.writes = daemon.writes := by rw [← hdaemon]; rfl
    -- the new reservation has no holder until its task hears of it
    have hwaiting : Kept (fun other => exempt other ∨ other = id) (waiter :: queue) reserved := by
      refine ⟨?_, ?_, ?_, hkept.nodup, ?_, ?_⟩
      · intro other reservation hlookup hopen hnot
        rw [not_or] at hnot
        have hbefore := hkept.held other reservation (hnew other reservation hlookup hnot.2)
          hopen hnot.1
        rw [Holder, htasks, hwrites, (hflags reservation.socket).2.1]
        exact hbefore
      · intro task running other hrunning hholding
        rw [htasks] at hrunning
        obtain ⟨reservation, hlookup, hsocket⟩ :=
          hkept.holding task running other hrunning hholding
        exact ⟨reservation, hold other reservation hlookup, hsocket⟩
      · rw [htasks]
        exact hkept.waiting
      · rw [htasks, hstarted]
        exact hkept.fresh
      · intro other hclosed
        rw [(hflags other).2.2]
        exact hkept.closed_destroyed other ((hflags other).2.1 ▸ hclosed)
    have hresolved := hwaiting.resolve (.holding id) fun other hholding =>
      ⟨_, Stage.holding.inj hholding ▸ hself, rfl⟩
    have htask : (reserved.resolve waiter.task (.holding id)).tasks waiter.task = some {
        socket := waiter.socket, request := waiter.retainOnClose, stage := .holding id } := by
      rw [Daemon.resolve, htasks, hkept.waiting waiter List.mem_cons_self]
      simp
    have hopen : ¬ (reserved.sockets waiter.socket).closed = true := by
      intro hclosed
      have hlive := hfits.1
      rw [Socket.live, hkept.closed_destroyed _ ((hflags _).2.1 ▸ hclosed)] at hlive
      cases hlive
    refine ⟨hreserved.congr rfl rfl rfl rfl fun _ => rfl, hresolved.cover ?_, ⟨hold, ?_, hwrites⟩,
      ?_, ?_⟩
    · intro reservation hlookup _
      obtain rfl := Option.some.inj (hself.symm.trans hlookup)
      exact ⟨.inl ⟨_, _, htask, rfl, rfl, rfl⟩, fun hclosed => absurd hclosed hopen⟩
    · exact fun socket => (hflags socket).1
    · rw [← hdaemon]
      rfl
    · intro socket hfit
      have hmore : daemon.outputBytes socket ≤ reserved.outputBytes socket := by
        rw [← hdaemon]
        show _ ≤ (daemon.setOutputBytes _ _).outputBytes socket
        rw [outputBytes_setOutputBytes]
        split
        · next heq =>
          rw [heq, Option.getD_some]
          omega
        · exact Int.le_refl _
      have htotal : reserved.bufferedOutputBytes =
          daemon.bufferedOutputBytes + limits.maxEncodedFrameBytes := by rw [← hdaemon]
      obtain ⟨hlive, hconnection, hall⟩ := hfit
      refine ⟨(hflags socket).1 ▸ hlive, ?_, ?_⟩
      · change _ ≤ _ - reserved.outputBytes socket at hconnection
        omega
      · change _ ≤ _ - reserved.bufferedOutputBytes at hall
        omega
  · cases hreserve

/-! ## The queue -/

structure Steady (limits : Limits) (exempt : Nat → Prop) (daemon : Daemon) : Prop where
  booked : Booked limits daemon
  kept : Kept exempt daemon.outputWaiters daemon

/-- The loop goes on with the queue `rest` behind the waiters it has kept. -/
theorem wakeFrom_spec (rest : List Waiter) (daemon : Daemon) (hbooked : Booked limits daemon)
    (hkept : Kept exempt (daemon.outputWaiters ++ rest) daemon) (hblocked : Blocked limits daemon) :
    Steady limits exempt (wakeFrom limits rest daemon) ∧
      Blocked limits (wakeFrom limits rest daemon) ∧ Later daemon (wakeFrom limits rest daemon) := by
  induction rest generalizing daemon with
  | nil => exact ⟨⟨hbooked, by simpa [wakeFrom] using hkept⟩, hblocked, .refl⟩
  | cons waiter rest ih =>
    have hfirst : Kept exempt (waiter :: (daemon.outputWaiters ++ rest)) daemon :=
      hkept.perm List.perm_middle
    rw [wakeFrom]
    split
    · split
      · next granted hgrant =>
        obtain ⟨hbooked', hkept', hlater, hqueue, hfits⟩ := grant_spec hbooked hfirst hgrant
        have hblocked' : Blocked limits granted := by
          intro other hmem hfit
          rw [hqueue] at hmem
          exact hblocked other hmem (hfits other.socket hfit)
        obtain ⟨hsteady, hnext, hlater'⟩ := ih granted hbooked' (hqueue ▸ hkept') hblocked'
        exact ⟨hsteady, hnext, hlater.trans hlater'⟩
      · next hnone =>
        rw [grant_eq_none_iff] at hnone
        have hblocked' : Blocked limits
            { daemon with outputWaiters := daemon.outputWaiters ++ [waiter] } := by
          intro other hmem
          rcases List.mem_append.mp hmem with hmem | hmem
          · exact hblocked other hmem
          · obtain rfl := List.mem_singleton.mp hmem
            exact hnone
        have hkept' : Kept exempt ((daemon.outputWaiters ++ [waiter]) ++ rest)
            { daemon with outputWaiters := daemon.outputWaiters ++ [waiter] } :=
          { held := hkept.held
            holding := hkept.holding
            waiting := by simpa using hkept.waiting
            nodup := by simpa using hkept.nodup
            fresh := hkept.fresh
            closed_destroyed := hkept.closed_destroyed }
        have hbooked' : Booked limits
            { daemon with outputWaiters := daemon.outputWaiters ++ [waiter] } :=
          hbooked.congr rfl rfl rfl rfl fun _ => rfl
        obtain ⟨hsteady, hnext, hlater⟩ := ih _ hbooked' hkept' hblocked'
        exact ⟨hsteady, hnext, ⟨hlater.reservations, hlater.live, hlater.writes⟩⟩
    · have hkept' := hfirst.resolve .done fun id hholding => by cases hholding
      have hbooked' : Booked limits (daemon.resolve waiter.task .done) :=
        hbooked.congr rfl rfl rfl rfl fun _ => rfl
      obtain ⟨hsteady, hnext, hlater⟩ := ih _ hbooked' hkept' hblocked
      exact ⟨hsteady, hnext, ⟨hlater.reservations, hlater.live, hlater.writes⟩⟩

/-- After the loop nobody waits who would fit. -/
theorem Steady.wake (h : Steady limits exempt daemon) :
    Steady limits exempt (wakeOutputWaiters limits daemon) ∧
      Blocked limits (wakeOutputWaiters limits daemon) ∧
      Later daemon (wakeOutputWaiters limits daemon) := by
  have hkept : Kept exempt ([] ++ daemon.outputWaiters) { daemon with outputWaiters := [] } :=
    { held := h.kept.held
      holding := h.kept.holding
      waiting := h.kept.waiting
      nodup := h.kept.nodup
      fresh := h.kept.fresh
      closed_destroyed := h.kept.closed_destroyed }
  have hblocked : Blocked limits { daemon with outputWaiters := [] } := by
    intro waiter hmem
    cases hmem
  obtain ⟨hsteady, hnext, hlater⟩ := wakeFrom_spec daemon.outputWaiters
    { daemon with outputWaiters := [] } (h.booked.congr rfl rfl rfl rfl fun _ => rfl) hkept hblocked
  exact ⟨hsteady, hnext, ⟨hlater.reservations, hlater.live, hlater.writes⟩⟩

/-! ## Releases -/

/-- A changed reservation keeps its socket; the others keep their holders. -/
theorem Kept.setReservation {before : Reservation} (after : Reservation)
    (h : Kept (fun other => exempt other ∨ other = id) queue daemon)
    (hbefore : daemon.reservations[id]? = some before) (hsocket : after.socket = before.socket)
    {changed : Daemon} (hreservations : changed.reservations = daemon.reservations.set id after)
    (hsockets : ∀ socket, (changed.sockets socket).closed = (daemon.sockets socket).closed ∧
      (changed.sockets socket).destroyed = (daemon.sockets socket).destroyed)
    (htasks : changed.tasks = daemon.tasks) (hstarted : changed.started = daemon.started)
    (hwrites : changed.writes = daemon.writes) :
    Kept (fun other => exempt other ∨ other = id) queue changed := by
  obtain ⟨hlt, -⟩ := List.getElem?_eq_some_iff.mp hbefore
  refine ⟨?_, ?_, ?_, h.nodup, ?_, ?_⟩
  · intro other reservation hlookup hopen hnot
    have hne : other ≠ id := fun heq => hnot (.inr heq)
    rw [hreservations, List.getElem?_set_ne hne.symm] at hlookup
    have hheld := h.held other reservation hlookup hopen hnot
    rw [Holder, htasks, hwrites, (hsockets _).1]
    exact hheld
  · intro task running other hrunning hholding
    rw [htasks] at hrunning
    obtain ⟨reservation, hlookup, hsame⟩ := h.holding task running other hrunning hholding
    rw [hreservations]
    by_cases heq : other = id
    · subst heq
      obtain rfl := Option.some.inj (hbefore.symm.trans hlookup)
      exact ⟨after, List.getElem?_set_self hlt, hsocket.trans hsame⟩
    · exact ⟨reservation, by rwa [List.getElem?_set_ne (Ne.symm heq)], hsame⟩
  · rw [htasks]
    exact h.waiting
  · rw [htasks, hstarted]
    exact h.fresh
  · intro socket hclosed
    rw [(hsockets socket).2]
    exact h.closed_destroyed socket ((hsockets socket).1 ▸ hclosed)

theorem giveBack_steady (h : Steady limits (fun other => exempt other ∨ other = id) daemon)
    (hlookup : daemon.reservations[id]? = some reservation) (hopen : reservation.released = false) :
    Steady limits exempt (daemon.giveBack id reservation) := by
  obtain ⟨hlt, -⟩ := List.getElem?_eq_some_iff.mp hlookup
  have hsockets := setOutputBytes_sockets daemon reservation.socket
    (entry (daemon.outputBytes reservation.socket - reservation.bytes))
  have hset : Kept (fun other => exempt other ∨ other = id) daemon.outputWaiters
      (daemon.giveBack id reservation) :=
    h.kept.setReservation { reservation with
      released := true, releases := reservation.releases + 1 } hlookup rfl rfl
      (fun socket => (hsockets socket).2) rfl rfl rfl
  refine ⟨(h.booked.giveBack hlookup hopen).1, hset.cover fun after hafter hreleased => ?_⟩
  rw [show (daemon.giveBack id reservation).reservations[id]? = _ from
    List.getElem?_set_self hlt] at hafter
  obtain rfl := Option.some.inj hafter
  cases hreleased

/-- A release needs no holder any more for what it gives back. -/
theorem Steady.releaseQuietly (h : Steady limits (fun other => exempt other ∨ other = id) daemon) :
    Steady limits exempt (releaseOutputReservation limits daemon id false) := by
  rw [releaseOutputReservation]
  split
  · next hnone =>
    refine ⟨h.booked, h.kept.narrow fun other reservation hlookup _ hexempt => ?_⟩
    rcases hexempt with hexempt | rfl
    · exact hexempt
    · rw [hnone] at hlookup
      cases hlookup
  · next reservation hlookup =>
    split
    · next hreleased =>
      refine ⟨h.booked, h.kept.narrow fun other found hfound hopen hexempt => ?_⟩
      rcases hexempt with hexempt | rfl
      · exact hexempt
      · obtain rfl := Option.some.inj (hlookup.symm.trans hfound)
        rw [hreleased] at hopen
        cases hopen
    · next hopen =>
      rw [Bool.not_eq_true] at hopen
      have hnonneg := (h.booked.giveBack hlookup hopen).2
      rw [if_neg (by omega)]
      exact giveBack_steady h hlookup hopen

/-- The invariant between events. -/
structure Sound (limits : Limits) (exempt : Nat → Prop) (daemon : Daemon) : Prop
    extends Steady limits exempt daemon where
  blocked : Blocked limits daemon

theorem Steady.sound_wake (h : Steady limits exempt daemon) :
    Sound limits exempt (wakeOutputWaiters limits daemon) :=
  ⟨h.wake.1, h.wake.2.1⟩

theorem Sound.release (h : Sound limits (fun other => exempt other ∨ other = id) daemon) :
    Sound limits exempt (releaseOutputReservation limits daemon id true) := by
  have hquiet := h.toSteady.releaseQuietly
  rw [releaseOutputReservation] at hquiet ⊢
  split
  · next hnone =>
    simp only [hnone] at hquiet
    exact ⟨hquiet, h.blocked⟩
  · next reservation hlookup =>
    simp only [hlookup] at hquiet
    split
    · next hreleased =>
      rw [if_pos hreleased] at hquiet
      exact ⟨hquiet, h.blocked⟩
    · next hopen =>
      rw [Bool.not_eq_true] at hopen
      have hnonneg := (h.booked.giveBack hlookup hopen).2
      rw [if_neg (by omega)]
      exact (giveBack_steady h.toSteady hlookup hopen).sound_wake

/-! ## A frame is written -/

theorem Sound.congr (h : Sound limits exempt daemon) {after : Daemon}
    (hbooked : Booked limits after) (hkept : Kept exempt' daemon.outputWaiters after)
    (hqueue : after.outputWaiters = daemon.outputWaiters)
    (hfits : ∀ socket, Fits limits after socket limits.maxEncodedFrameBytes →
      Fits limits daemon socket limits.maxEncodedFrameBytes) : Sound limits exempt' after where
  booked := hbooked
  kept := hqueue ▸ hkept
  blocked := by
    intro waiter hmem hfit
    rw [hqueue] at hmem
    exact h.blocked waiter hmem (hfits waiter.socket hfit)

/-- A new task gets its reservation, waits for it, or is done without one. -/
theorem Sound.start (h : Sound limits exempt daemon) (socket : Nat) (request : Bool) :
    Sound limits exempt (start limits daemon socket request) := by
  generalize hbegun : { daemon with
    tasks := Function.update daemon.tasks daemon.started
      (some { socket, request, stage := .waiting })
    started := daemon.started + 1 : Daemon } = begun
  have htasks : ∀ task, task ≠ daemon.started → begun.tasks task = daemon.tasks task := by
    rw [← hbegun]
    exact fun task hne => Function.update_of_ne hne _ _
  have hself : begun.tasks daemon.started = some { socket, request, stage := .waiting } := by
    simp [← hbegun]
  have hnone : daemon.tasks daemon.started = none := h.kept.fresh _ (Nat.le_refl _)
  have hbooked : Booked limits begun := by
    rw [← hbegun]
    exact h.booked.congr rfl rfl rfl rfl fun _ => rfl
  have hqueue : begun.outputWaiters = daemon.outputWaiters := by rw [← hbegun]
  have hblocked : Blocked limits begun := by
    rw [← hbegun]
    exact h.blocked
  have hne : ∀ task running, daemon.tasks task = some running → task ≠ daemon.started := by
    rintro task running hrunning rfl
    rw [hnone] at hrunning
    cases hrunning
  have hkept : Kept exempt ({ socket, task := daemon.started, retainOnClose := request } ::
      begun.outputWaiters) begun := by
    refine ⟨?_, ?_, ?_, ?_, ?_, ?_⟩
    · intro id reservation hlookup hopen hnot
      rw [← hbegun] at hlookup
      obtain ⟨hholder, hclosed⟩ := h.kept.held id reservation hlookup hopen hnot
      refine ⟨?_, by rw [← hbegun]; exact hclosed⟩
      rcases hholder with ⟨task, running, hrunning, hrest⟩ | hwrite
      · exact .inl ⟨task, running, (htasks task (hne task running hrunning)).trans hrunning, hrest⟩
      · rw [← hbegun]
        exact .inr hwrite
    · intro task running id hrunning hholding
      by_cases heq : task = daemon.started
      · rw [heq, hself] at hrunning
        obtain rfl := Option.some.inj hrunning
        cases hholding
      · rw [htasks task heq] at hrunning
        rw [← hbegun]
        exact h.kept.holding task running id hrunning hholding
    · intro waiter hmem
      rcases List.mem_cons.mp hmem with rfl | hmem
      · exact hself
      · rw [hqueue] at hmem
        have hwaiting := h.kept.waiting waiter hmem
        rw [htasks _ (hne _ _ hwaiting)]
        exact hwaiting
    · rw [List.map_cons, List.nodup_cons, hqueue]
      refine ⟨?_, h.kept.nodup⟩
      intro hmem
      obtain ⟨waiter, hwaiter, heq⟩ := List.mem_map.mp hmem
      exact hne _ _ (h.kept.waiting waiter hwaiter) heq
    · intro task hle
      have hlt : daemon.started < task := by
        rw [← hbegun] at hle
        exact hle
      rw [htasks task (Nat.ne_of_gt hlt)]
      exact h.kept.fresh task (Nat.le_of_lt hlt)
    · rw [← hbegun]
      exact h.kept.closed_destroyed
  rw [Daemon.start, hbegun, acquireOutputReservation]
  split
  · next granted hgrant =>
    obtain ⟨hbooked', hkept', -, hqueue', hfits⟩ := grant_spec hbooked hkept hgrant
    refine ⟨⟨hbooked', hqueue' ▸ hkept'⟩, ?_⟩
    intro waiter hmem hfit
    rw [hqueue'] at hmem
    exact hblocked waiter hmem (hfits waiter.socket hfit)
  · next hfull =>
    rw [grant_eq_none_iff] at hfull
    split
    · have hkept' := hkept.perm (List.perm_append_singleton _ _).symm
      refine ⟨⟨hbooked.congr rfl rfl rfl rfl fun _ => rfl, ?_⟩, ?_⟩
      · exact {
          held := hkept'.held
          holding := hkept'.holding
          waiting := hkept'.waiting
          nodup := hkept'.nodup
          fresh := hkept'.fresh
          closed_destroyed := hkept'.closed_destroyed }
      · intro waiter hmem
        rcases List.mem_append.mp hmem with hmem | hmem
        · exact hblocked waiter hmem
        · obtain rfl := List.mem_singleton.mp hmem
          exact hfull
    · have hkept' := hkept.resolve .done fun id hholding => by cases hholding
      exact ⟨⟨hbooked.congr rfl rfl rfl rfl fun _ => rfl, hkept'⟩, hblocked⟩

theorem Sound.writeFailed (h : Sound limits (fun other => exempt other ∨ other = id) daemon)
    (task : Task) : Sound limits exempt (writeFailed limits daemon task id) := by
  rw [Daemon.writeFailed]
  split
  · exact h.release.start task.socket false
  · exact h.release

/-- What a resize leaves: the reservation is smaller, and nobody waits for the difference. -/
theorem Sound.resize (h : Sound limits (fun other => exempt other ∨ other = id) daemon)
    (hlookup : daemon.reservations[id]? = some reservation) (hopen : reservation.released = false)
    {bytes : Int} {resized : Daemon}
    (hresize : resizeOutputReservation limits daemon id reservation bytes = some resized) :
    Sound limits (fun other => exempt other ∨ other = id) resized ∧
      (∃ kept, resized.reservations[id]? = some kept ∧ kept.socket = reservation.socket ∧
        kept.retainOnClose = reservation.retainOnClose ∧ kept.released = false) ∧
      (∀ socket, (resized.sockets socket).live = (daemon.sockets socket).live) := by
  obtain ⟨hlt, -⟩ := List.getElem?_eq_some_iff.mp hlookup
  rw [resizeOutputReservation, if_neg (by simp [hopen])] at hresize
  split at hresize
  · cases hresize
  · next hbytes =>
    rw [not_or] at hbytes
    split at hresize
    · obtain rfl := Option.some.inj hresize
      exact ⟨h, ⟨reservation, hlookup, rfl, rfl, hopen⟩, fun _ => rfl⟩
    · obtain rfl := Option.some.inj hresize
      have hsockets := setOutputBytes_sockets daemon reservation.socket
        (some (daemon.outputBytes reservation.socket - (reservation.bytes - bytes)))
      have hshrunk : Steady limits (fun other => exempt other ∨ other = id)
          (daemon.shrink id reservation bytes) :=
        ⟨h.booked.shrink hlookup hopen (by omega) (by omega),
          h.kept.setReservation { reservation with bytes } hlookup rfl rfl
            (fun socket => (hsockets socket).2) rfl rfl rfl⟩
      refine ⟨hshrunk.sound_wake, ⟨{ reservation with bytes }, ?_, rfl, rfl, hopen⟩, ?_⟩
      · exact hshrunk.wake.2.2.reservations id _ (List.getElem?_set_self hlt)
      · exact fun socket => (hshrunk.wake.2.2.live socket).trans (hsockets socket).1

/-- A frame handed to an open socket will give its reservation back. -/
theorem Sound.handOver (h : Sound limits (fun other => exempt other ∨ other = id) daemon)
    (hlookup : daemon.reservations[id]? = some reservation)
    (hretain : reservation.retainOnClose = false)
    (hlive : (daemon.sockets reservation.socket).live = true) (listening : Bool) :
    Sound limits exempt
      (daemon.handOver { reservation := id, socket := reservation.socket, listening }) := by
  have hopen : ¬ (daemon.sockets reservation.socket).closed = true := by
    intro hclosed
    rw [Socket.live, h.kept.closed_destroyed _ hclosed] at hlive
    cases hlive
  have hmore : Kept (fun other => exempt other ∨ other = id) daemon.outputWaiters
      (daemon.handOver { reservation := id, socket := reservation.socket, listening }) :=
    { held := by
        intro other found hfound hreleased hnot
        obtain ⟨hholder, hclosed⟩ := h.kept.held other found hfound hreleased hnot
        refine ⟨hholder.imp (fun htask => htask) ?_, hclosed⟩
        rintro ⟨hgoes, write, hwrite, hrest⟩
        exact ⟨hgoes, write, List.mem_append_left _ hwrite, hrest⟩
      holding := h.kept.holding
      waiting := h.kept.waiting
      nodup := h.kept.nodup
      fresh := h.kept.fresh
      closed_destroyed := h.kept.closed_destroyed }
  refine h.congr (h.booked.congr rfl rfl rfl rfl fun _ => rfl) (hmore.cover ?_) rfl
    fun _ hfit => hfit
  intro found hfound _
  obtain rfl := Option.some.inj (hlookup.symm.trans hfound)
  exact ⟨.inr ⟨hretain, _, List.mem_append_right _ (List.mem_singleton_self _), rfl, rfl, rfl⟩,
    fun hclosed => absurd hclosed hopen⟩

theorem Sound.writeBytes (h : Sound limits (fun other => exempt other ∨ other = id) daemon)
    (hlookup : daemon.reservations[id]? = some reservation)
    (hretain : reservation.retainOnClose = false) (result : WriteResult) :
    Sound limits exempt (writeBytes limits daemon reservation.socket id result) := by
  by_cases hlive : (daemon.sockets reservation.socket).live = true
  · cases result with
    | immediate =>
      rw [Daemon.writeBytes, if_pos hlive]
      exact h.handOver hlookup hretain hlive false
    | queued =>
      rw [Daemon.writeBytes, if_pos hlive]
      exact h.handOver hlookup hretain hlive true
    | throws =>
      rw [Daemon.writeBytes, if_pos hlive]
      exact h.release
  · have hdead : Daemon.writeBytes limits daemon reservation.socket id result =
        releaseOutputReservation limits daemon id true := by
      cases result <;> rw [Daemon.writeBytes, if_neg hlive]
    rw [hdead]
    exact h.release

/-- From the reservation on: it is released, or it is the frame's in flight. -/
theorem Sound.writeFrame {task : Task}
    (h : Sound limits (fun other => exempt other ∨ other = id) daemon)
    (hlookup : daemon.reservations[id]? = some reservation)
    (hsocket : reservation.socket = task.socket) (encoded : Option Nat) (result : WriteResult) :
    Sound limits exempt (writeFrame limits daemon task id reservation encoded result) := by
  rw [Daemon.writeFrame]
  split
  · next hgone =>
    have hreleased : reservation.released = true := hgone.resolve_right fun hne => hne hsocket
    refine h.congr h.booked (h.kept.narrow fun other found hfound hopen hexempt => ?_) rfl
      fun _ hfit => hfit
    rcases hexempt with hexempt | rfl
    · exact hexempt
    · obtain rfl := Option.some.inj (hlookup.symm.trans hfound)
      rw [hreleased] at hopen
      cases hopen
  · next hheld =>
    simp only [not_or, Bool.not_eq_true] at hheld
    obtain ⟨hlt, -⟩ := List.getElem?_eq_some_iff.mp hlookup
    generalize hkeptDef : { reservation with retainOnClose := false } = kept
    have hkeptSocket : kept.socket = task.socket := by rw [← hkeptDef]; exact hsocket
    have hkeptOpen : kept.released = false := by rw [← hkeptDef]; exact hheld.1
    have hkeptRetain : kept.retainOnClose = false := by rw [← hkeptDef]
    generalize hchanged : { daemon with
      reservations := daemon.reservations.set id kept : Daemon } = changed
    have hset : Sound limits (fun other => exempt other ∨ other = id) changed := by
      rw [← hchanged]
      refine h.congr ?_ (h.kept.setReservation kept hlookup (by rw [← hkeptDef]) rfl
        (fun _ => ⟨rfl, rfl⟩) rfl rfl rfl) rfl fun _ hfit => hfit
      rw [← hkeptDef]
      exact h.booked.setRetain hlookup hheld.1 false
    have hchangedLookup : changed.reservations[id]? = some kept := by
      rw [← hchanged]
      exact List.getElem?_set_self hlt
    simp only [hchanged]
    split
    · cases encoded with
      | none => exact hset.writeFailed task
      | some bytes =>
        dsimp only
        split
        · exact hset.writeFailed task
        · split
          · exact hset.writeFailed task
          · next resized hresize =>
            obtain ⟨hresized, ⟨small, hsmall, hsmallSocket, hsmallRetain, -⟩, -⟩ :=
              hset.resize hchangedLookup hkeptOpen hresize
            rw [← hkeptSocket, ← hsmallSocket]
            exact hresized.writeBytes hsmall (hsmallRetain.trans hkeptRetain) result
    · exact hset.release

/-- A task that ends holds its reservation no more; no other one loses its holder. -/
theorem Sound.finish (h : Sound limits exempt daemon) {task : Nat} {running : Task}
    (hrunning : daemon.tasks task = some running) (hholding : running.stage = .holding id) :
    Sound limits (fun other => exempt other ∨ other = id) (daemon.resolve task .done) := by
  have hother : ∀ other, other ≠ task →
      (daemon.resolve task .done).tasks other = daemon.tasks other :=
    fun other hne => Function.update_of_ne hne _ _
  have hself : (daemon.resolve task .done).tasks task = some { running with stage := .done } := by
    rw [resolve, hrunning]
    simp
  refine h.congr (h.booked.congr rfl rfl rfl rfl fun _ => rfl)
    ⟨?_, ?_, ?_, h.kept.nodup, ?_, h.kept.closed_destroyed⟩ rfl fun _ hfit => hfit
  · intro other reservation hlookup hopen hnot
    rw [not_or] at hnot
    obtain ⟨hholder, hclosed⟩ := h.kept.held other reservation hlookup hopen hnot.1
    refine ⟨?_, hclosed⟩
    rcases hholder with ⟨holder, found, hfound, hstage, hrest⟩ | hwrite
    · refine .inl ⟨holder, found, ?_, hstage, hrest⟩
      rw [hother, hfound]
      rintro rfl
      obtain rfl := Option.some.inj (hrunning.symm.trans hfound)
      exact hnot.2 (Stage.holding.inj (hstage.symm.trans hholding))
    · exact .inr hwrite
  · intro other found reservation hfound hstage
    by_cases heq : other = task
    · subst heq
      obtain rfl := Option.some.inj (hself.symm.trans hfound)
      cases hstage
    · rw [hother other heq] at hfound
      exact h.kept.holding other found reservation hfound hstage
  · intro waiter hmem
    have hwaiting := h.kept.waiting waiter hmem
    rw [hother, hwaiting]
    intro heq
    rw [heq, hrunning] at hwaiting
    obtain rfl := Option.some.inj hwaiting
    cases hholding
  · intro other hle
    have hnone := h.kept.fresh other hle
    rw [hother, hnone]
    rintro rfl
    rw [hrunning] at hnone
    cases hnone

theorem Sound.writeTask (h : Sound limits (fun _ => False) daemon) {task : Nat}
    {encoded : Option Nat} {result : WriteResult} {after : Daemon}
    (hwrite : writeTask limits daemon task encoded result = some after) :
    Sound limits (fun _ => False) after := by
  obtain ⟨running, hrunning, hwrite⟩ := Option.bind_eq_some_iff.mp hwrite
  split at hwrite
  · next id hholding =>
    obtain ⟨reservation, hlookup, hafter⟩ := Option.bind_eq_some_iff.mp hwrite
    obtain rfl := Option.some.inj hafter
    obtain ⟨found, hfound, hsocket⟩ := h.kept.holding task running id hrunning hholding
    obtain rfl := Option.some.inj (hlookup.symm.trans hfound)
    exact (h.finish hrunning hholding).writeFrame hlookup hsocket encoded result
  · cases hwrite

/-! ## What comes back from the socket -/

theorem mem_set_of_ne {α : Type} {l : List α} {a b : α} {i : Nat} (ha : a ∈ l)
    (hne : l[i]? ≠ some a) : a ∈ l.set i b := by
  obtain ⟨j, hj, rfl⟩ := List.mem_iff_getElem.mp ha
  have hij : i ≠ j := by
    rintro rfl
    exact hne (List.getElem?_eq_getElem hj)
  exact List.mem_iff_getElem.mpr ⟨j, by rwa [List.length_set], List.getElem_set_ne hij _⟩

/-- The writes change, and only holders of exempt reservations are lost. -/
theorem Sound.setWrites (h : Sound limits exempt daemon)
    {writes : List Write} (hexempt : ∀ id, exempt id → exempt' id)
    (hwrites : ∀ write ∈ daemon.writes, write.pending = true → ¬ exempt' write.reservation →
      write ∈ writes) : Sound limits exempt' { daemon with writes } := by
  refine h.congr (h.booked.congr rfl rfl rfl rfl fun _ => rfl)
    ⟨?_, h.kept.holding, h.kept.waiting, h.kept.nodup, h.kept.fresh, h.kept.closed_destroyed⟩ rfl
    fun _ hfit => hfit
  intro id reservation hlookup hopen hnot
  obtain ⟨hholder, hclosed⟩ := h.kept.held id reservation hlookup hopen fun hid =>
    hnot (hexempt id hid)
  refine ⟨hholder.imp (fun htask => htask) ?_, hclosed⟩
  rintro ⟨hretain, write, hwrite, rfl, hsocket, hpending⟩
  exact ⟨hretain, write, hwrites write hwrite hpending hnot, rfl, hsocket, hpending⟩

theorem Sound.flush (h : Sound limits (fun _ => False) daemon) {index : Nat} {write : Write}
    (hlookup : daemon.writes[index]? = some write) (failed : Bool) :
    Sound limits (fun _ => False) (flush limits daemon index write failed) := by
  refine Sound.release (h.setWrites (fun _ hid => hid.elim) ?_)
  intro other hmem _ hne
  refine mem_set_of_ne hmem fun hsame => hne (.inr ?_)
  obtain rfl := Option.some.inj (hlookup.symm.trans hsame)
  rfl

theorem Sound.releaseAll (ids : List Nat) (daemon : Daemon)
    (h : Sound limits (fun id => exempt id ∨ id ∈ ids) daemon) :
    Sound limits exempt
      (ids.foldl (fun daemon id => releaseOutputReservation limits daemon id true) daemon) := by
  induction ids generalizing daemon with
  | nil =>
    refine h.congr h.booked (h.kept.narrow fun id _ _ _ hexempt => ?_) rfl fun _ hfit => hfit
    simpa using hexempt
  | cons id ids ih =>
    refine ih _ (Sound.release (h.congr h.booked (h.kept.narrow ?_) rfl fun _ hfit => hfit))
    intro other _ _ _ hexempt
    simp only [List.mem_cons] at hexempt
    tauto

theorem Sound.settle (h : Sound limits (fun _ => False) daemon) (socket : Nat) :
    Sound limits (fun _ => False) (settle limits daemon socket) := by
  refine Sound.releaseAll _ _ (h.setWrites (fun _ hid => hid.elim) ?_)
  intro write hmem _ hnot
  rw [not_or] at hnot
  refine List.mem_map.mpr ⟨write, hmem, ?_⟩
  rw [Write.settled, if_neg]
  intro hlistening
  refine hnot.2 (List.mem_map.mpr ⟨write, List.mem_filter.mpr ⟨hmem, ?_⟩, rfl⟩)
  simp [hlistening.1, hlistening.2]

/-- A socket ends: its flags only go one way. -/
theorem Sound.setSocket (h : Sound limits (fun _ => False) daemon) (socket : Nat)
    (f : Socket → Socket) (hbytes : ∀ s, (f s).outputBytes = s.outputBytes)
    (hlive : ∀ s, (f s).live = true → s.live = true)
    (hdestroyed : ∀ s, (s.closed = true → s.destroyed = true) →
      (f s).closed = true → (f s).destroyed = true) :
    Sound limits
      (fun id => (f (daemon.sockets socket)).closed = true ∧ daemon.goesWith socket id = true)
      (daemon.setSocket socket f) := by
  have hother : ∀ other, other ≠ socket →
      (daemon.setSocket socket f).sockets other = daemon.sockets other :=
    fun other hne => Function.update_of_ne hne _ _
  have hself : (daemon.setSocket socket f).sockets socket = f (daemon.sockets socket) := by
    simp [Daemon.setSocket]
  have houtput : ∀ other,
      (daemon.setSocket socket f).outputBytes other = daemon.outputBytes other := by
    intro other
    by_cases heq : other = socket
    · subst heq
      rw [outputBytes, hself, hbytes]
      rfl
    · rw [outputBytes, hother other heq]
      rfl
  refine h.congr (h.booked.congr rfl rfl rfl rfl houtput)
    ⟨?_, h.kept.holding, h.kept.waiting, h.kept.nodup, h.kept.fresh, ?_⟩ rfl ?_
  · intro id reservation hlookup hopen hnot
    obtain ⟨hholder, hclosed⟩ := h.kept.held id reservation hlookup hopen fun hid => hid
    refine ⟨hholder, fun hnow => ?_⟩
    by_cases heq : reservation.socket = socket
    · rw [heq, hself] at hnow
      by_contra hretain
      rw [Bool.not_eq_true] at hretain
      have hbefore : daemon.reservations[id]? = some reservation := hlookup
      refine hnot ⟨hnow, ?_⟩
      rw [goesWith, hbefore]
      simp [heq, hretain]
    · rw [hother _ heq] at hnow
      exact hclosed hnow
  · intro other hclosed
    by_cases heq : other = socket
    · subst heq
      rw [hself] at hclosed ⊢
      exact hdestroyed _ (h.kept.closed_destroyed _) hclosed
    · rw [hother other heq] at hclosed ⊢
      exact h.kept.closed_destroyed other hclosed
  · intro other hfit
    obtain ⟨hnow, hconnection, hall⟩ := hfit
    refine ⟨?_, houtput other ▸ hconnection, hall⟩
    by_cases heq : other = socket
    · subst heq
      rw [hself] at hnow
      exact hlive _ hnow
    · rwa [hother other heq] at hnow

theorem Steady.releaseAll (ids : List Nat) (daemon : Daemon)
    (h : Steady limits (fun id => exempt id ∨ id ∈ ids) daemon) :
    Steady limits exempt
      (ids.foldl (fun daemon id => releaseOutputReservation limits daemon id false) daemon) := by
  induction ids generalizing daemon with
  | nil => exact ⟨h.booked, h.kept.narrow fun id _ _ _ hexempt => by simpa using hexempt⟩
  | cons id ids ih =>
    refine ih _ (Steady.releaseQuietly ⟨h.booked, h.kept.narrow ?_⟩)
    intro other _ _ _ hexempt
    simp only [List.mem_cons] at hexempt
    tauto

/-- The waiters of a closed socket are told that they get nothing. -/
theorem Steady.dropWaiters (h : Steady limits exempt daemon) (socket : Nat) :
    Steady limits exempt (daemon.dropWaiters socket) := by
  have hdrop : ∀ (dropped : List Waiter) (daemon : Daemon), Booked limits daemon →
      Kept exempt (dropped ++ daemon.outputWaiters) daemon → Steady limits exempt
        (dropped.foldl (fun daemon waiter => daemon.resolve waiter.task .done) daemon) := by
    intro dropped
    induction dropped with
    | nil => exact fun daemon hbooked hkept => ⟨hbooked, hkept⟩
    | cons waiter dropped ih =>
      intro daemon hbooked hkept
      refine ih _ (hbooked.congr rfl rfl rfl rfl fun _ => rfl) ?_
      exact hkept.resolve .done fun id hholding => by cases hholding
  refine hdrop _ _ (h.booked.congr rfl rfl rfl rfl fun _ => rfl) ?_
  have hperm : daemon.outputWaiters.Perm
      (daemon.outputWaiters.filter (·.socket = socket) ++
        daemon.outputWaiters.filter (·.socket ≠ socket)) := by
    have := List.filter_append_perm (fun waiter : Waiter => decide (waiter.socket = socket))
      daemon.outputWaiters
    simpa using this.symm
  have hkept := h.kept.perm hperm
  exact {
    held := hkept.held
    holding := hkept.holding
    waiting := hkept.waiting
    nodup := hkept.nodup
    fresh := hkept.fresh
    closed_destroyed := hkept.closed_destroyed }

theorem Sound.close (h : Sound limits (fun _ => False) daemon) (socket : Nat) :
    Sound limits (fun _ => False) (close limits daemon socket) := by
  have hclosed := h.setSocket socket (fun s => { s with destroyed := true, closed := true })
    (fun _ => rfl) (fun s hlive => by simp [Socket.live] at hlive) (fun _ _ _ => rfl)
  generalize hchanged : daemon.setSocket socket
    (fun s => { s with destroyed := true, closed := true }) = changed at hclosed
  have hreservations : changed.reservations = daemon.reservations := by rw [← hchanged]; rfl
  have hgoing : Kept (fun id => False ∨
      id ∈ changed.outputReservations.filter (changed.goesWith socket)) changed.outputWaiters
      changed := by
    refine hclosed.kept.narrow fun id reservation hlookup hopen hexempt => .inr ?_
    have hmem := (hclosed.booked.registered id).mpr ⟨reservation, hlookup, hopen⟩
    refine List.mem_filter.mpr ⟨hmem, ?_⟩
    rw [goesWith, hreservations]
    exact hexempt.2
  have hreleased := Steady.releaseAll _ changed ⟨hclosed.booked, hgoing⟩
  rw [Daemon.close, hchanged]
  exact Sound.settle (Steady.sound_wake (hreleased.dropWaiters socket)) socket

/-! ## Whole runs -/

theorem Sound.handle (h : Sound limits (fun _ => False) daemon) {event : Event} {after : Daemon}
    (hhandle : daemon.handle limits event = some after) : Sound limits (fun _ => False) after := by
  -- a socket that is not closed by the event exempts nothing
  have hflag : ∀ (socket : Nat) (f : Socket → Socket),
      (∀ s, (f s).outputBytes = s.outputBytes) → (∀ s, (f s).live = true → s.live = true) →
      (∀ s, (f s).closed = s.closed) → (∀ s, s.destroyed = true → (f s).destroyed = true) →
      Sound limits (fun _ => False) (daemon.setSocket socket f) := by
    intro socket f hbytes hlive hclosed hdestroyed
    have hset := h.setSocket socket f hbytes hlive fun s hbefore hnow =>
      hdestroyed s (hbefore (hclosed s ▸ hnow))
    refine hset.congr hset.booked (hset.kept.narrow ?_) rfl fun _ hfit => hfit
    intro id reservation hlookup hopen hexempt
    obtain ⟨hnow, hgoes⟩ := hexempt
    have hbefore : daemon.reservations[id]? = some reservation := hlookup
    rw [hclosed] at hnow
    simp only [goesWith, hbefore, Option.any_some, Bool.and_eq_true, decide_eq_true_eq,
      Bool.not_eq_true'] at hgoes
    obtain ⟨hsame, hretain⟩ := hgoes
    have hkept := (h.kept.held id reservation hbefore hopen fun hid => hid).2 (by rwa [hsame])
    rw [hretain] at hkept
    cases hkept
  cases event with
  | start socket request =>
    obtain rfl := Option.some.inj hhandle
    exact h.start socket request
  | write task encoded result => exact h.writeTask hhandle
  | flush index failed =>
    obtain ⟨write, hwrite, rfl⟩ := Option.map_eq_some_iff.mp hhandle
    exact h.flush hwrite failed
  | drain socket =>
    obtain rfl := Option.some.inj hhandle
    exact h.settle socket
  | error socket =>
    obtain rfl := Option.some.inj hhandle
    exact h.settle socket
  | destroy socket =>
    obtain rfl := Option.some.inj hhandle
    refine hflag socket _ (fun _ => rfl) ?_ (fun _ => rfl) fun _ _ => rfl
    intro s hlive
    simp [Socket.live] at hlive
  | finish socket =>
    obtain rfl := Option.some.inj hhandle
    refine hflag socket _ (fun _ => rfl) ?_ (fun _ => rfl) fun _ hdestroyed => hdestroyed
    intro s hlive
    simp [Socket.live] at hlive
  | close socket =>
    rw [Daemon.handle] at hhandle
    split at hhandle
    · cases hhandle
    · obtain rfl := Option.some.inj hhandle
      exact h.close socket

theorem Sound.of_reaches (h : (machine limits).Reaches (fun _ _ => True) daemon) :
    Sound limits (fun _ => False) daemon := by
  refine h.invariant _ ?_ ?_
  · intro daemon hinitial
    obtain rfl : daemon = {} := hinitial
    refine ⟨⟨⟨rfl, by simp, by simp, rfl, fun _ => rfl, Int.natCast_nonneg _,
      fun _ => Int.natCast_nonneg _, by simp, by simp⟩, ?_⟩, ?_⟩
    · refine ⟨by simp, ?_, by simp, by simp, fun _ _ => rfl, ?_⟩
      · intro task running id hrunning
        cases hrunning
      · intro socket hclosed
        cases hclosed
    · intro waiter hmem
      cases hmem
  · intro before event after hsound _ hstep
    have hhandle : before.handle limits event = some after := by
      change (if before.thrown then none else before.handle limits event) = some after at hstep
      rwa [if_neg (by simp [hsound.booked.not_thrown])] at hstep
    exact hsound.handle hhandle

end Daemon

open Daemon

/-- In every state the daemon gets to, whatever the order of the events: the counters are what the
unreleased reservations hold and within the limits; no reservation has been released twice, and
one that no task holds and no frame in flight was written under has been released; after a close
only a request that is still executed keeps its own; and nobody waits who fits. -/
theorem output_reservations_accounted {limits : Limits} {daemon : Daemon}
    (h : (machine limits).Reaches (fun _ _ => True) daemon) :
    daemon.thrown = false ∧ daemon.bufferedOutputBytes = total outstanding daemon.reservations ∧
      0 ≤ daemon.bufferedOutputBytes ∧
      daemon.bufferedOutputBytes ≤ limits.maxBufferedOutputBytes ∧
      (∀ socket, daemon.outputBytes socket = total (outstandingOn socket) daemon.reservations ∧
        0 ≤ daemon.outputBytes socket ∧
        daemon.outputBytes socket ≤ limits.maxConnectionBufferedOutputBytes) ∧
      (∀ reservation ∈ daemon.reservations, reservation.releases ≤ 1 ∧
        (reservation.releases = 1 ↔ reservation.released = true)) ∧
      (∀ (id : Nat) reservation, daemon.reservations[id]? = some reservation →
        ¬ Holder daemon id reservation → reservation.releases = 1) ∧
      (∀ (id : Nat) reservation, daemon.reservations[id]? = some reservation →
        (daemon.sockets reservation.socket).closed = true → reservation.retainOnClose = false →
        reservation.releases = 1) ∧
      ∀ waiter ∈ daemon.outputWaiters,
        ¬ Fits limits daemon waiter.socket limits.maxEncodedFrameBytes := by
  have hsound := Sound.of_reaches h
  have hbooked := hsound.booked
  have hreleases : ∀ (id : Nat) reservation, daemon.reservations[id]? = some reservation →
      ¬ reservation.released = false → reservation.releases = 1 := by
    intro id reservation hlookup hreleased
    rw [hbooked.once reservation (List.mem_of_getElem? hlookup), if_pos (by simpa using hreleased)]
  refine ⟨hbooked.not_thrown, hbooked.total_eq, ?_, hbooked.within, fun socket => ⟨
    hbooked.socket_eq socket, ?_, hbooked.within_socket socket⟩, ?_, ?_, ?_, hsound.blocked⟩
  · rw [hbooked.total_eq]
    exact total_nonneg hbooked.outstanding_nonneg
  · rw [hbooked.socket_eq]
    exact total_nonneg (hbooked.outstandingOn_nonneg socket)
  · intro reservation hmem
    rw [hbooked.once reservation hmem]
    split
    · next hreleased => simp [hreleased]
    · next hopen => simp [hopen]
  · intro id reservation hlookup hnone
    refine hreleases id reservation hlookup fun hopen => hnone ?_
    exact (hsound.kept.held id reservation hlookup hopen fun hid => hid).1
  · intro id reservation hlookup hclosed hretain
    refine hreleases id reservation hlookup fun hopen => ?_
    have hkept := (hsound.kept.held id reservation hlookup hopen fun hid => hid).2 hclosed
    rw [hretain] at hkept
    cases hkept

def exampleLimits : Limits where
  maxFrameBytes := 3
  maxConnectionBufferedOutputBytes := 4
  maxBufferedOutputBytes := 4

/-- Two requests compete for room for one frame; the second waits for the first frame's flush. -/
def exampleEvents : List Daemon.Event :=
  [.start 0 true, .start 1 true, .write 0 (some 2) .immediate, .flush 0 false]

def exampleDaemon : Daemon := (machine exampleLimits).runAll {} exampleEvents

theorem output_reservations_example :
    exampleDaemon.reservations.map Reservation.releases = [1, 0] ∧
      exampleDaemon.bufferedOutputBytes = total outstanding exampleDaemon.reservations :=
  ⟨by decide, (output_reservations_accounted (.runAll (.initial rfl)
    (Concurrent.Machine.allowed_of_forall (fun _ _ => trivial) _ _) (by decide))).2.1⟩

end ContextStore.Output
