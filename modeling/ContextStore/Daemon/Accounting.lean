import ContextStore.Daemon.Intake

/-! # The bytes of the intake are accounted for

A desk is balanced when every counter of its connection is what it stands for and the daemon's
counter exceeds the connection's total by what the other connections hold. Every handler keeps the
balance, and so never gives back more than was taken. -/

namespace ContextStore.Intake

open Framing Delimited Totals

/-- The line being handled. -/
def ConnectionState.activeLine (state : ConnectionState) : Option Buffer :=
  if state.processing then state.dispatched.getLast? else none

/-- The frames of what the connection has received. -/
def ConnectionState.arrived (state : ConnectionState) : List Buffer :=
  (frames NEWLINE state.received).map Buffer.ofBytes

/-- What holds of the line being handled, also while the input is being discarded. -/
structure Working (state : ConnectionState) : Prop where
  active_eq : state.activeFrameBytes = lineBytes state.activeLine.toList
  one_at_a_time : state.dispatched.length = state.completed + (if state.processing then 1 else 0)
  in_order : state.dispatched <+: state.arrived

/-- Every counter of the connection is what it stands for. -/
structure Accounted (limits : Limits) (state : ConnectionState) : Prop extends Working state where
  buffered_eq : state.bufferedFrameBytes =
    state.pendingFrameBytes + state.activeFrameBytes + state.partialFrameBytes
  pending_eq : state.pendingFrameBytes = lineBytes state.pendingLines
  queued_eq : state.queuedBytes = queuedLineBytes state.pendingLines
  partial_eq : state.partialFrameBytes = state.framer.bufferedBytes
  within : state.bufferedFrameBytes ≤ limits.maxConnectionBufferedFrameBytes
  holds : state.closing = false → state.framer.Holds (tail NEWLINE state.received)
  queue_eq : state.closing = false → state.dispatched ++ state.pendingLines = state.arrived
  discarded : state.closing = true → state.pendingLines = [] ∧ state.framer.bufferedBytes = 0
  closed_closing : state.closed = true → state.closing = true

theorem lineBytes_nonneg (lines : List Buffer) : 0 ≤ lineBytes lines :=
  total_nonneg fun line _ => Int.natCast_nonneg line.length

theorem lineBytes_append (lines more : List Buffer) :
    lineBytes (lines ++ more) = lineBytes lines + lineBytes more := by
  simp [lineBytes]

theorem queuedLineBytes_append (lines more : List Buffer) :
    queuedLineBytes (lines ++ more) = queuedLineBytes lines + queuedLineBytes more := by
  simp [queuedLineBytes]

namespace Accounted

variable {limits : Limits} {state : ConnectionState}

theorem active_nonneg (h : Working state) : 0 ≤ state.activeFrameBytes := by
  rw [h.active_eq]
  exact lineBytes_nonneg _

theorem active_le (h : Accounted limits state) :
    state.activeFrameBytes ≤ state.bufferedFrameBytes := by
  have hpending := lineBytes_nonneg state.pendingLines
  rw [h.buffered_eq, h.pending_eq, h.partial_eq]
  omega

theorem buffered_nonneg (h : Accounted limits state) : 0 ≤ state.bufferedFrameBytes :=
  (active_nonneg h.toWorking).trans h.active_le

/-- Without a line being handled there is nothing left of a closing connection. -/
theorem buffered_eq_zero (h : Accounted limits state) (hclosing : state.closing = true)
    (hidle : state.processing = false) : state.bufferedFrameBytes = 0 := by
  obtain ⟨hpending, hframer⟩ := h.discarded hclosing
  rw [h.buffered_eq, h.pending_eq, h.active_eq, h.partial_eq, hpending, hframer,
    ConnectionState.activeLine, hidle]
  rfl

end Accounted

/-! ## Giving back what is held -/

section

variable {limits : Limits} {isHandshake : Buffer → Bool} {elsewhere : Int} {desk : Desk}

theorem releaseBufferedFrameBytes_eq {bytes : Int} (hbytes : 0 ≤ bytes)
    (hstate : bytes ≤ desk.state.bufferedFrameBytes) (helsewhere : 0 ≤ elsewhere)
    (htotal : desk.bufferedFrameBytes = elsewhere + desk.state.bufferedFrameBytes) :
    releaseBufferedFrameBytes desk bytes = .ok {
      state := { desk.state with bufferedFrameBytes := desk.state.bufferedFrameBytes - bytes }
      bufferedFrameBytes := elsewhere + (desk.state.bufferedFrameBytes - bytes) } := by
  rw [releaseBufferedFrameBytes]
  split
  · next hzero =>
    subst hzero
    rw [Int.sub_zero, ← htotal]
  · rw [if_neg (by omega), htotal]
    congr 2
    omega

/-- What is left of the input of a connection is the line being handled. -/
theorem discardBufferedInput_eq (hactive : 0 ≤ desk.state.activeFrameBytes)
    (hheld : desk.state.activeFrameBytes ≤ desk.state.bufferedFrameBytes)
    (helsewhere : 0 ≤ elsewhere)
    (htotal : desk.bufferedFrameBytes = elsewhere + desk.state.bufferedFrameBytes) :
    discardBufferedInput desk = .ok {
      state := { desk.state.withoutInput with
        bufferedFrameBytes := desk.state.activeFrameBytes }
      bufferedFrameBytes := elsewhere + desk.state.activeFrameBytes } := by
  have hbytes : (if desk.state.bufferedFrameBytes - desk.state.activeFrameBytes > 0 then
      desk.state.bufferedFrameBytes - desk.state.activeFrameBytes else 0) =
      desk.state.bufferedFrameBytes - desk.state.activeFrameBytes := by
    split <;> omega
  rw [discardBufferedInput, hbytes,
    releaseBufferedFrameBytes_eq (by omega) (by omega) helsewhere htotal]
  simp only [bind, Except.bind, pure, Except.pure, Int.sub_sub_self]
  rfl

/-- The desk of a balanced connection, while the others hold `elsewhere`. -/
structure Balanced (limits : Limits) (elsewhere : Int) (desk : Desk) : Prop where
  accounted : Accounted limits desk.state
  total_eq : desk.bufferedFrameBytes = elsewhere + desk.state.bufferedFrameBytes
  elsewhere_nonneg : 0 ≤ elsewhere
  within : desk.bufferedFrameBytes ≤ limits.maxBufferedFrameBytes

/-- What is enough for shutting a connection: the counters may not add up yet. -/
structure Covered (limits : Limits) (elsewhere : Int) (desk : Desk) : Prop where
  working : Working desk.state
  active_le : desk.state.activeFrameBytes ≤ desk.state.bufferedFrameBytes
  within_connection : desk.state.bufferedFrameBytes ≤ limits.maxConnectionBufferedFrameBytes
  total_eq : desk.bufferedFrameBytes = elsewhere + desk.state.bufferedFrameBytes
  elsewhere_nonneg : 0 ≤ elsewhere
  within : desk.bufferedFrameBytes ≤ limits.maxBufferedFrameBytes

theorem Balanced.covered (h : Balanced limits elsewhere desk) :
    Covered limits elsewhere desk where
  working := h.accounted.toWorking
  active_le := h.accounted.active_le
  within_connection := h.accounted.within
  total_eq := h.total_eq
  elsewhere_nonneg := h.elsewhere_nonneg
  within := h.within

/-- Discarding leaves the line being handled, which is all there is of a closing connection. -/
theorem Covered.discard (h : Covered limits elsewhere desk) :
    ∃ after, discardBufferedInput desk = .ok after ∧ Covered limits elsewhere after ∧
      after.state.closing = desk.state.closing ∧
      (desk.state.closing = true → Balanced limits elsewhere after) := by
  have hle := h.active_le
  have hconnection := h.within_connection
  have hwithin := h.within
  have htotal := h.total_eq
  refine ⟨_, discardBufferedInput_eq (Accounted.active_nonneg h.working) hle h.elsewhere_nonneg
    htotal, ?_, rfl, fun hclosing => ⟨?_, rfl, h.elsewhere_nonneg, ?_⟩⟩
  · exact {
      working := {
        active_eq := h.working.active_eq
        one_at_a_time := h.working.one_at_a_time
        in_order := h.working.in_order }
      active_le := Int.le_refl _
      within_connection := hle.trans hconnection
      total_eq := rfl
      elsewhere_nonneg := h.elsewhere_nonneg
      within := by
        show elsewhere + desk.state.activeFrameBytes ≤ _
        omega }
  · have hopen : ¬ desk.state.closing = false := by simp [hclosing]
    exact {
      active_eq := h.working.active_eq
      one_at_a_time := h.working.one_at_a_time
      in_order := h.working.in_order
      buffered_eq := by simp [ConnectionState.withoutInput]
      pending_eq := rfl
      queued_eq := rfl
      partial_eq := rfl
      within := hle.trans hconnection
      holds := fun h => absurd h hopen
      queue_eq := fun h => absurd h hopen
      discarded := fun _ => ⟨rfl, rfl⟩
      closed_closing := fun _ => hclosing }
  · show elsewhere + desk.state.activeFrameBytes ≤ _
    omega

/-! ## The flags of a connection count nothing -/

variable {handshaken pausedForQueue paused destroyed : Bool} {terminal : Option Rejection}
  {desk : Desk} {state : ConnectionState} {chunk : List UInt8}

theorem Accounted.flags (h : Accounted limits state) :
    Accounted limits { state with handshaken, pausedForQueue, paused, destroyed, terminal } :=
  { active_eq := h.active_eq
    one_at_a_time := h.one_at_a_time
    in_order := h.in_order
    buffered_eq := h.buffered_eq
    pending_eq := h.pending_eq
    queued_eq := h.queued_eq
    partial_eq := h.partial_eq
    within := h.within
    holds := h.holds
    queue_eq := h.queue_eq
    discarded := h.discarded
    closed_closing := h.closed_closing }

theorem Balanced.flags (h : Balanced limits elsewhere desk) :
    Balanced limits elsewhere { desk with state := { desk.state with
      handshaken, pausedForQueue, paused, destroyed, terminal } } :=
  { accounted := h.accounted.flags
    total_eq := h.total_eq
    elsewhere_nonneg := h.elsewhere_nonneg
    within := h.within }

/-- Of a connection that is shut its flags may change as well, and whether it is closing. -/
theorem Covered.flags (h : Covered limits elsewhere desk) {closing closed : Bool} :
    Covered limits elsewhere { desk with state := { desk.state with
      handshaken, pausedForQueue, paused, destroyed, terminal, closing, closed } } :=
  { working := {
      active_eq := h.working.active_eq
      one_at_a_time := h.working.one_at_a_time
      in_order := h.working.in_order }
    active_le := h.active_le
    within_connection := h.within_connection
    total_eq := h.total_eq
    elsewhere_nonneg := h.elsewhere_nonneg
    within := h.within }

/-! ## Every handler keeps the balance -/

theorem Covered.shut (h : Covered limits elsewhere desk) :
    ∃ after, shut desk = .ok after ∧ Balanced limits elsewhere after ∧
      after.state.closing = true := by
  have hshut : Covered limits elsewhere
      { desk with state := { desk.state with closing := true } } := h.flags
  obtain ⟨after, hdiscard, -, hclosing, hbalanced⟩ := hshut.discard
  refine ⟨{ after with state := { after.state with paused := true } }, ?_, (hbalanced rfl).flags,
    hclosing⟩
  rw [Intake.shut, hdiscard]
  rfl

theorem Covered.terminate (h : Covered limits elsewhere desk) (hopen : desk.state.closing = false)
    (frame : Rejection) :
    ∃ after, terminateConnection desk frame = .ok after ∧ Balanced limits elsewhere after ∧
      after.state.closing = true := by
  rw [terminateConnection, if_neg (by simp [hopen])]
  exact Covered.shut h.flags

theorem Balanced.close (h : Balanced limits elsewhere desk) :
    ∃ after, close desk = .ok after ∧ Balanced limits elsewhere after := by
  have hclosed : Covered limits elsewhere { desk with
      state := { desk.state with closing := true, closed := true, destroyed := true } } :=
    h.covered.flags
  obtain ⟨after, hdiscard, -, -, hbalanced⟩ := hclosed.discard
  exact ⟨after, hdiscard, hbalanced rfl⟩

theorem Balanced.handshakeTimer (h : Balanced limits elsewhere desk) :
    ∃ after, handshakeTimer desk = .ok after ∧ Balanced limits elsewhere after := by
  rw [Intake.handshakeTimer]
  split
  · exact ⟨desk, rfl, h⟩
  · next hopen =>
    obtain ⟨after, hterminate, hafter, -⟩ := h.covered.terminate (by simp at hopen; exact hopen.2)
      (.handshakeRejected handshakeTimedOut)
    exact ⟨after, hterminate, hafter⟩

theorem Balanced.handleLine (h : Balanced limits elsewhere desk) (line : Buffer) :
    ∃ after, handleLine isHandshake desk line = .ok after ∧ Balanced limits elsewhere after := by
  rw [Intake.handleLine]
  split
  · exact ⟨desk, rfl, h⟩
  · split
    · exact ⟨_, rfl, h.flags⟩
    · obtain ⟨after, hshut, hafter, -⟩ := h.covered.shut
      exact ⟨after, hshut, hafter⟩

/-- The first pending line moves from the queue to the place of the active one. -/
theorem Accounted.dispatch (h : Accounted limits state) (hidle : state.processing = false)
    (hopen : state.closing = false) {line : Buffer} {rest : List Buffer}
    (hpending : state.pendingLines = line :: rest) :
    Accounted limits (state.dispatch line rest) := by
  have hactive : state.activeFrameBytes = 0 := by
    rw [h.active_eq, ConnectionState.activeLine, hidle]
    rfl
  have hqueue := h.queue_eq hopen
  have hbytes := h.pending_eq
  have hqueued := h.queued_eq
  rw [hpending] at hqueue hbytes hqueued
  have hclosed : ¬ state.closing = true := by simp [hopen]
  exact {
    active_eq := by simp [ConnectionState.dispatch, ConnectionState.activeLine, lineBytes]
    one_at_a_time := by
      have := h.one_at_a_time
      rw [hidle] at this
      simpa [ConnectionState.dispatch] using this
    in_order := by
      show state.dispatched ++ [line] <+: state.arrived
      exact ⟨rest, by simpa using hqueue⟩
    buffered_eq := by
      have := h.buffered_eq
      simp only [ConnectionState.dispatch]
      omega
    pending_eq := by
      simp only [ConnectionState.dispatch, hbytes, lineBytes, List.map_cons, List.sum_cons]
      omega
    queued_eq := by
      simp only [ConnectionState.dispatch, hqueued, queuedLineBytes, List.map_cons, List.sum_cons]
      omega
    partial_eq := h.partial_eq
    within := h.within
    holds := h.holds
    queue_eq := by
      intro _
      show (state.dispatched ++ [line]) ++ rest = state.arrived
      simpa using hqueue
    discarded := fun hclosing => absurd hclosing hclosed
    closed_closing := h.closed_closing }

theorem Balanced.startNextLine (h : Balanced limits elsewhere desk) (draining : Bool) :
    ∃ after, startNextLine isHandshake draining desk = .ok after ∧
      Balanced limits elsewhere after := by
  rw [Intake.startNextLine]
  split
  · exact ⟨desk, rfl, h⟩
  · next hready =>
    simp only [not_or, Bool.not_eq_true] at hready
    split
    · exact ⟨desk, rfl, h⟩
    · next line rest hpending =>
      have hdispatch : Balanced limits elsewhere
          { desk with state := desk.state.dispatch line rest } :=
        { accounted := h.accounted.dispatch hready.1 hready.2.1 hpending
          total_eq := h.total_eq
          elsewhere_nonneg := h.elsewhere_nonneg
          within := h.within }
      exact hdispatch.handleLine line

/-- The active line gives back its bytes when it is done with. -/
theorem Accounted.completed (h : Accounted limits state) (hactive : state.processing = true) :
    Accounted limits { state with
      bufferedFrameBytes := state.bufferedFrameBytes - state.activeFrameBytes
      activeFrameBytes := 0
      processing := false
      completed := state.completed + 1 } :=
  { active_eq := by simp [ConnectionState.activeLine, lineBytes]
    one_at_a_time := by
      have := h.one_at_a_time
      rw [hactive] at this
      simpa using this
    in_order := h.in_order
    buffered_eq := by
      have := h.buffered_eq
      dsimp only
      omega
    pending_eq := h.pending_eq
    queued_eq := h.queued_eq
    partial_eq := h.partial_eq
    within := by
      have hwithin := h.within
      have hnonneg := active_nonneg h.toWorking
      dsimp only
      omega
    holds := h.holds
    queue_eq := h.queue_eq
    discarded := h.discarded
    closed_closing := h.closed_closing }

theorem Balanced.resumed (h : Balanced limits elsewhere desk) (draining : Bool) :
    Balanced limits elsewhere { desk with state := desk.state.resumed limits draining } := by
  rw [ConnectionState.resumed]
  split
  · exact h.flags
  · exact h

theorem Balanced.complete (h : Balanced limits elsewhere desk)
    (hactive : desk.state.processing = true) (draining : Bool) :
    ∃ after, complete limits isHandshake draining desk = .ok after ∧
      Balanced limits elsewhere after := by
  have hnonneg := Accounted.active_nonneg h.accounted.toWorking
  have hle := h.accounted.active_le
  have hwithin := h.within
  have htotal := h.total_eq
  have hrelease := releaseBufferedFrameBytes_eq hnonneg hle h.elsewhere_nonneg htotal
  rw [Intake.complete, hrelease]
  have hdone : Balanced limits elsewhere
      { state := { desk.state with
          bufferedFrameBytes := desk.state.bufferedFrameBytes - desk.state.activeFrameBytes
          activeFrameBytes := 0
          processing := false
          completed := desk.state.completed + 1 }
        bufferedFrameBytes :=
          elsewhere + (desk.state.bufferedFrameBytes - desk.state.activeFrameBytes) } :=
    { accounted := h.accounted.completed hactive
      total_eq := rfl
      elsewhere_nonneg := h.elsewhere_nonneg
      within := by
        dsimp only
        omega }
  exact (hdone.resumed draining).startNextLine draining

/-! ## Data -/

theorem queuedLineBytes_map (lines : List (List UInt8)) :
    lineBytes (lines.map Buffer.ofBytes) = ((lines.map List.length).sum : Nat) := by
  induction lines with
  | nil => rfl
  | cons line lines ih =>
    simp only [lineBytes, List.map_cons, List.sum_cons] at ih ⊢
    rw [ih]
    simp [Buffer.ofBytes]

theorem arrived_append {received : List UInt8} (chunk : List UInt8) :
    (frames NEWLINE (received ++ chunk)).map Buffer.ofBytes =
      (frames NEWLINE received).map Buffer.ofBytes ++
        (cut NEWLINE (tail NEWLINE received) chunk).1.map Buffer.ofBytes := by
  rw [frames_append, List.map_append]

/-- The chunk has been counted, and the framer has it. -/
def Desk.withChunk (desk : Desk) (framer : LineFramer) (chunk : List UInt8) : Desk where
  state := { desk.state with
    bufferedFrameBytes := desk.state.bufferedFrameBytes + chunk.length
    framer
    received := desk.state.received ++ chunk }
  bufferedFrameBytes := desk.bufferedFrameBytes + chunk.length

theorem Balanced.withChunk (h : Balanced limits elsewhere desk) (framer : LineFramer)
    (hconnection : desk.state.bufferedFrameBytes + chunk.length ≤
      limits.maxConnectionBufferedFrameBytes)
    (htotal : desk.bufferedFrameBytes + chunk.length ≤ limits.maxBufferedFrameBytes) :
    Covered limits elsewhere (desk.withChunk framer chunk) where
  working := {
    active_eq := h.accounted.active_eq
    one_at_a_time := h.accounted.one_at_a_time
    in_order := by
      show desk.state.dispatched <+: (frames NEWLINE (desk.state.received ++ chunk)).map _
      rw [arrived_append]
      exact h.accounted.in_order.trans (List.prefix_append _ _) }
  active_le := by
    have := h.accounted.active_le
    simp only [Desk.withChunk]
    omega
  within_connection := hconnection
  total_eq := by
    have := h.total_eq
    simp only [Desk.withChunk]
    omega
  elsewhere_nonneg := h.elsewhere_nonneg
  within := htotal

variable {framer : LineFramer}

/-- The chunk's bytes are in its lines, in the newlines given back, and in the new rest. -/
theorem Accounted.enqueue (h : Accounted limits state) (hopen : state.closing = false)
    (hframer : framer.Holds (cut NEWLINE (tail NEWLINE state.received) chunk).2)
    (hconnection : state.bufferedFrameBytes + chunk.length ≤
      limits.maxConnectionBufferedFrameBytes) :
    Accounted limits (ConnectionState.enqueue { state with
      bufferedFrameBytes := state.bufferedFrameBytes + chunk.length -
        ((cut NEWLINE (tail NEWLINE state.received) chunk).1.map Buffer.ofBytes).length
      framer
      received := state.received ++ chunk }
      ((cut NEWLINE (tail NEWLINE state.received) chunk).1.map Buffer.ofBytes)) := by
  have hclosed : ¬ state.closing = true := by simp [hopen]
  have hbytes := sum_length_cut NEWLINE (tail NEWLINE state.received) chunk
  have hrest := (h.holds hopen).bufferedBytes_eq
  exact {
    active_eq := h.active_eq
    one_at_a_time := h.one_at_a_time
    in_order := by
      show state.dispatched <+: (frames NEWLINE (state.received ++ chunk)).map _
      rw [arrived_append]
      exact h.in_order.trans (List.prefix_append _ _)
    buffered_eq := by
      have hbuffered := h.buffered_eq
      rw [h.partial_eq, hrest] at hbuffered
      simp only [ConnectionState.enqueue, queuedLineBytes_map, hframer.bufferedBytes_eq,
        List.length_map]
      omega
    pending_eq := by
      simp only [ConnectionState.enqueue, lineBytes_append, h.pending_eq]
    queued_eq := by
      simp only [ConnectionState.enqueue, queuedLineBytes_append, h.queued_eq]
    partial_eq := rfl
    within := by
      simp only [ConnectionState.enqueue]
      omega
    holds := by
      intro _
      show framer.Holds (tail NEWLINE (state.received ++ chunk))
      rwa [tail_append]
    queue_eq := by
      intro _
      show state.dispatched ++ (state.pendingLines ++ _) =
        (frames NEWLINE (state.received ++ chunk)).map _
      rw [arrived_append, ← List.append_assoc, h.queue_eq hopen]
      rfl
    discarded := fun hclosing => absurd hclosing hclosed
    closed_closing := h.closed_closing }

theorem Balanced.takeLines (h : Balanced limits elsewhere desk) (hopen : desk.state.closing = false)
    (hframer : framer.Holds (cut NEWLINE (tail NEWLINE desk.state.received) chunk).2)
    (hconnection : desk.state.bufferedFrameBytes + chunk.length ≤
      limits.maxConnectionBufferedFrameBytes)
    (htotal : desk.bufferedFrameBytes + chunk.length ≤ limits.maxBufferedFrameBytes)
    (draining : Bool) :
    ∃ after, takeLines limits isHandshake draining (desk.withChunk framer chunk)
        ((cut NEWLINE (tail NEWLINE desk.state.received) chunk).1.map Buffer.ofBytes) =
          .ok after ∧ Balanced limits elsewhere after := by
  have hbytes := sum_length_cut NEWLINE (tail NEWLINE desk.state.received) chunk
  have hrest := (h.accounted.holds hopen).bufferedBytes_eq
  have hheld := h.accounted.buffered_eq
  rw [h.accounted.partial_eq, hrest, h.accounted.pending_eq] at hheld
  have hpending := lineBytes_nonneg desk.state.pendingLines
  have hactive := Accounted.active_nonneg h.accounted.toWorking
  have hcovered := h.withChunk framer hconnection htotal
  have hqueued := h.accounted.enqueue hopen hframer hconnection
  generalize hlines :
    (cut NEWLINE (tail NEWLINE desk.state.received) chunk).1.map Buffer.ofBytes = lines at hqueued ⊢
  have hcount : lines.length = (cut NEWLINE (tail NEWLINE desk.state.received) chunk).1.length := by
    rw [← hlines, List.length_map]
  have henough : (lines.length : Int) ≤ (desk.withChunk framer chunk).state.bufferedFrameBytes := by
    simp only [Desk.withChunk]
    omega
  have hrelease :=
    releaseBufferedFrameBytes_eq (by omega) henough h.elsewhere_nonneg hcovered.total_eq
  have hbalanced : Balanced limits elsewhere
      { state := ConnectionState.enqueue { (desk.withChunk framer chunk).state with
          bufferedFrameBytes :=
            (desk.withChunk framer chunk).state.bufferedFrameBytes - lines.length } lines
        bufferedFrameBytes :=
          elsewhere + ((desk.withChunk framer chunk).state.bufferedFrameBytes - lines.length) } :=
    { accounted := hqueued
      total_eq := rfl
      elsewhere_nonneg := h.elsewhere_nonneg
      within := by
        have := hcovered.within
        have := hcovered.total_eq
        dsimp only
        omega }
  rw [Intake.takeLines, hrelease]
  simp only [bind, Except.bind]
  split
  · obtain ⟨after, hterminate, hafter, -⟩ :=
      hbalanced.covered.terminate hopen (.errorResponse queueLimitReached)
    exact ⟨after, hterminate, hafter⟩
  · have hnext : ∃ after, Intake.startNextLine isHandshake draining _ = .ok after ∧ _ :=
      hbalanced.startNextLine draining
    obtain ⟨after, hstart, hafter⟩ := hnext
    refine ⟨{ after with state := after.state.pausedWhenFull limits }, ?_, ?_⟩
    · rw [hstart]
      rfl
    · rw [ConnectionState.pausedWhenFull]
      split
      · exact hafter.flags
      · exact hafter

theorem Balanced.pushChunk (h : Balanced limits elsewhere desk) (hopen : desk.state.closing = false)
    (hconnection : desk.state.bufferedFrameBytes + chunk.length ≤
      limits.maxConnectionBufferedFrameBytes)
    (htotal : desk.bufferedFrameBytes + chunk.length ≤ limits.maxBufferedFrameBytes)
    (draining : Bool) :
    ∃ after, pushChunk limits isHandshake draining
        { state := { desk.state with
            bufferedFrameBytes := desk.state.bufferedFrameBytes + chunk.length }
          bufferedFrameBytes := desk.bufferedFrameBytes + chunk.length } chunk = .ok after ∧
      Balanced limits elsewhere after := by
  have hholds := h.accounted.holds hopen
  by_cases hfit : Within desk.state.framer.maxFrameBytes
      (cut NEWLINE (tail NEWLINE desk.state.received) chunk)
  · obtain ⟨framer, hpush, hframer, -⟩ := LineFramer.push_of_within hholds hfit
    simp only [Intake.pushChunk, hpush]
    exact h.takeLines hopen hframer hconnection htotal draining
  · simp only [Intake.pushChunk, LineFramer.push_of_not_within hholds hfit]
    have hcovered := h.withChunk desk.state.framer.reset hconnection htotal
    obtain ⟨discarded, hdiscard, hkept, hclosing, -⟩ := hcovered.discard
    rw [Desk.withChunk] at hdiscard
    rw [hdiscard]
    obtain ⟨after, hterminate, hafter, -⟩ := hkept.terminate (hclosing.trans hopen)
      (rejection desk.state (codedContractError desk.state.framer.tooLarge))
    exact ⟨after, hterminate, hafter⟩

theorem Balanced.data (h : Balanced limits elsewhere desk) (chunk : List UInt8) (draining : Bool) :
    ∃ after, data limits isHandshake draining desk chunk = .ok after ∧
      Balanced limits elsewhere after := by
  rw [Intake.data]
  split
  · exact ⟨desk, rfl, h⟩
  · next hready =>
    simp only [not_or, Bool.not_eq_true] at hready
    rw [reserveBufferedFrameBytes]
    by_cases hover : limits.maxConnectionBufferedFrameBytes - desk.state.bufferedFrameBytes <
        chunk.length ∨ limits.maxBufferedFrameBytes - desk.bufferedFrameBytes < chunk.length
    · rw [if_pos hover]
      obtain ⟨after, hterminate, hafter, -⟩ :=
        h.covered.terminate hready.2 (rejection desk.state bufferLimitReached)
      exact ⟨after, hterminate, hafter⟩
    · rw [if_neg hover]
      rw [not_or] at hover
      exact h.pushChunk hready.2 (by omega) (by omega) draining

/-- A chunk that is more than a limit leaves room for gets its connection rejected. -/
theorem Balanced.data_over_limit (h : Balanced limits elsewhere desk)
    (hopen : desk.state.closing = false)
    (hover : limits.maxConnectionBufferedFrameBytes <
        desk.state.bufferedFrameBytes + chunk.length ∨
      limits.maxBufferedFrameBytes < desk.bufferedFrameBytes + chunk.length) :
    ∃ after, Intake.data limits isHandshake false desk chunk = .ok after ∧
      after.state.closing = true := by
  rw [Intake.data, if_neg (by simp [hopen]), reserveBufferedFrameBytes, if_pos (by omega)]
  obtain ⟨after, hterminate, -, hclosing⟩ :=
    h.covered.terminate hopen (rejection desk.state bufferLimitReached)
  exact ⟨after, hterminate, hclosing⟩

end

/-! ## The daemon over a whole run -/

/-- Every counter is what it stands for, and the daemon's is the sum over the connections. -/
structure Server.Accounted (limits : Limits) (server : Server) : Prop where
  connections : ∀ state ∈ server.connections, Intake.Accounted limits state
  total_eq : server.bufferedFrameBytes =
    total ConnectionState.bufferedFrameBytes server.connections
  within : server.bufferedFrameBytes ≤ limits.maxBufferedFrameBytes

/-- What every handler of an open connection is to do with a balanced desk. -/
def Keeps (limits : Limits) (handler : Desk → Option (Except RangeError Desk)) : Prop :=
  ∀ elsewhere desk outcome, Balanced limits elsewhere desk → handler desk = some outcome →
    ∃ after, outcome = .ok after ∧ Balanced limits elsewhere after

namespace Server.Accounted

variable {limits : Limits} {isHandshake : Buffer → Bool} {server : Server}

theorem balanced (h : server.Accounted limits) {connection : Nat} {state : ConnectionState}
    (hstate : server.connections[connection]? = some state) :
    Balanced limits (server.bufferedFrameBytes - state.bufferedFrameBytes)
      { state, bufferedFrameBytes := server.bufferedFrameBytes } where
  accounted := h.connections state (List.mem_of_getElem? hstate)
  total_eq := by
    dsimp only
    omega
  elsewhere_nonneg := by
    have hle := le_total (fun other hother => (h.connections other hother).buffered_nonneg)
      (List.mem_of_getElem? hstate)
    rw [← h.total_eq] at hle
    omega
  within := h.within

variable {outcome : Except RangeError Server}

theorem at_connection (h : server.Accounted limits)
    {handler : Desk → Option (Except RangeError Desk)} (hkeeps : Keeps limits handler)
    {connection : Nat} (hat : server.at connection handler = some outcome) :
    ∃ after, outcome = .ok after ∧ after.Accounted limits := by
  obtain ⟨state, hstate, hat⟩ := Option.bind_eq_some_iff.mp hat
  obtain ⟨result, hresult, houtcome⟩ := Option.bind_eq_some_iff.mp hat
  obtain ⟨desk, rfl, hdesk⟩ := hkeeps _ _ _ (h.balanced hstate) hresult
  obtain rfl := Option.some.inj houtcome
  refine ⟨_, rfl, ?_, ?_, hdesk.within⟩
  · intro other hother
    rcases List.mem_or_eq_of_mem_set hother with hother | rfl
    · exact h.connections other hother
    · exact hdesk.accounted
  · have htotal := hdesk.total_eq
    simp only [total_set hstate, ← h.total_eq]
    omega

theorem accept (h : server.Accounted limits) : Accounted limits { server with
      connections := server.connections ++ [accepted limits] } where
  connections := by
    intro state hstate
    rcases List.mem_append.mp hstate with hstate | hstate
    · exact h.connections state hstate
    · obtain rfl := List.mem_singleton.mp hstate
      exact {
        active_eq := rfl
        one_at_a_time := rfl
        in_order := List.nil_prefix
        buffered_eq := rfl
        pending_eq := rfl
        queued_eq := rfl
        partial_eq := rfl
        within := Int.natCast_nonneg _
        holds := fun _ => LineFramer.holds_reset { maxFrameBytes := limits.maxFrameBytes }
        queue_eq := fun _ => rfl
        discarded := by
          intro hclosing
          cases hclosing
        closed_closing := by
          intro hclosed
          cases hclosed }
  total_eq := by
    simp [total_append, h.total_eq, accepted]
  within := h.within

theorem shutdown (h : server.Accounted limits) : Accounted limits { server with
      draining := true
      connections := server.connections.map fun state => { state with paused := true } } where
  connections := by
    intro state hstate
    obtain ⟨before, hbefore, rfl⟩ := List.mem_map.mp hstate
    exact (h.connections before hbefore).flags
  total_eq := by
    rw [h.total_eq]
    simp [total, Function.comp_def]
  within := h.within

theorem handle (h : server.Accounted limits) {event : Event}
    (hhandle : handle limits isHandshake server event = some outcome) :
    ∃ after, outcome = .ok after ∧ after.Accounted limits := by
  cases event with
  | accept =>
    obtain rfl := Option.some.inj hhandle
    exact ⟨_, rfl, h.accept⟩
  | shutdown =>
    obtain rfl := Option.some.inj hhandle
    exact ⟨_, rfl, h.shutdown⟩
  | data connection chunk =>
    rw [Intake.handle] at hhandle
    refine h.at_connection (fun elsewhere desk outcome hdesk hevent => ?_) hhandle
    obtain rfl := Option.some.inj hevent
    exact hdesk.data chunk server.draining
  | handshakeTimer connection =>
    rw [Intake.handle] at hhandle
    refine h.at_connection (fun elsewhere desk outcome hdesk hevent => ?_) hhandle
    obtain rfl := Option.some.inj hevent
    exact hdesk.handshakeTimer
  | handshakeFailed connection =>
    rw [Intake.handle] at hhandle
    refine h.at_connection (fun elsewhere desk outcome hdesk hevent => ?_) hhandle
    split at hevent
    · obtain rfl := Option.some.inj hevent
      obtain ⟨after, hshut, hafter, -⟩ := hdesk.covered.shut
      exact ⟨after, hshut, hafter⟩
    · cases hevent
  | complete connection =>
    rw [Intake.handle] at hhandle
    refine h.at_connection (fun elsewhere desk outcome hdesk hevent => ?_) hhandle
    split at hevent
    · next hactive =>
      obtain rfl := Option.some.inj hevent
      exact hdesk.complete hactive server.draining
    · cases hevent
  | error connection =>
    rw [Intake.handle] at hhandle
    refine h.at_connection (fun elsewhere desk outcome hdesk hevent => ?_) hhandle
    obtain rfl := Option.some.inj hevent
    exact ⟨_, rfl, hdesk.flags⟩
  | close connection =>
    rw [Intake.handle] at hhandle
    refine h.at_connection (fun elsewhere desk outcome hdesk hevent => ?_) hhandle
    split at hevent
    · cases hevent
    · obtain rfl := Option.some.inj hevent
      exact hdesk.close

theorem of_reaches (h : (machine limits isHandshake).Reaches (fun _ _ => True) server) :
    server.Accounted limits := by
  refine h.invariant _ ?_ ?_
  · intro server hinitial
    obtain rfl : server = {} := hinitial
    refine ⟨?_, rfl, Int.natCast_nonneg _⟩
    intro state hstate
    cases hstate
  · intro server event after haccounted _ hstep
    obtain ⟨outcome, hhandle, hok⟩ := Option.bind_eq_some_iff.mp hstep
    obtain ⟨next, rfl, hnext⟩ := haccounted.handle hhandle
    obtain rfl := Option.some.inj hok
    exact hnext

end Server.Accounted

/-- What the counters of a connection say about it. The requests are its lines: each is dispatched
when the ones before are done with, in the order in which they arrived. -/
structure ConnectionAccount (limits : Limits) (state : ConnectionState) : Prop where
  bufferedFrameBytes_eq : state.bufferedFrameBytes =
    lineBytes state.pendingLines + lineBytes state.activeLine.toList + state.framer.bufferedBytes
  nonneg : 0 ≤ state.bufferedFrameBytes
  within : state.bufferedFrameBytes ≤ limits.maxConnectionBufferedFrameBytes
  returned : state.closed = true → state.processing = false → state.bufferedFrameBytes = 0
  one_at_a_time : state.dispatched.length = state.completed + (if state.processing then 1 else 0)
  in_order : state.dispatched <+: (frames NEWLINE state.received).map Buffer.ofBytes

theorem Accounted.account {limits : Limits} {state : ConnectionState}
    (h : Accounted limits state) : ConnectionAccount limits state where
  bufferedFrameBytes_eq := by
    rw [h.buffered_eq, h.pending_eq, h.active_eq, h.partial_eq]
  nonneg := h.buffered_nonneg
  within := h.within
  returned hclosed := h.buffered_eq_zero (h.closed_closing hclosed)
  one_at_a_time := h.one_at_a_time
  in_order := h.in_order

/-- A connection is rejected on the chunk that would exceed a limit. -/
def RejectsOverLimit (limits : Limits) (isHandshake : Buffer → Bool) (server : Server) : Prop :=
  ∀ connection state (chunk : List UInt8), server.connections[connection]? = some state →
    state.closing = false → server.draining = false →
    ((limits.maxConnectionBufferedFrameBytes : Int) < state.bufferedFrameBytes + chunk.length ∨
      limits.maxBufferedFrameBytes < server.bufferedFrameBytes + chunk.length) →
    ∃ after rejected, handle limits isHandshake server (.data connection chunk) = some (.ok after) ∧
      after.connections[connection]? = some rejected ∧ rejected.closing = true

theorem Server.Accounted.rejectsOverLimit {limits : Limits} {isHandshake : Buffer → Bool}
    {server : Server} (h : server.Accounted limits) :
    RejectsOverLimit limits isHandshake server := by
  intro connection state chunk hstate hopen hdraining hover
  have hpush : ∃ after, data limits isHandshake false _ chunk = .ok after ∧ _ :=
    (h.balanced hstate).data_over_limit hopen hover
  obtain ⟨desk, hdata, hclosing⟩ := hpush
  refine ⟨{ server with
    connections := server.connections.set connection desk.state
    bufferedFrameBytes := desk.bufferedFrameBytes }, desk.state, ?_, ?_, hclosing⟩
  · rw [Intake.handle, Server.at, hstate, hdraining]
    simp only [Option.bind_eq_bind, Option.bind_some, hdata]
    rfl
  · obtain ⟨hlt, -⟩ := List.getElem?_eq_some_iff.mp hstate
    simp [hlt]

/-- In every state the daemon gets to, whatever the order of the events: the bytes of each
connection and of all of them are accounted for, and no event gives back bytes twice. -/
theorem buffered_frame_bytes_accounted {limits : Limits} {isHandshake : Buffer → Bool}
    {server : Server} (h : (machine limits isHandshake).Reaches (fun _ _ => True) server) :
    (∀ state ∈ server.connections, ConnectionAccount limits state) ∧
      server.bufferedFrameBytes = total ConnectionState.bufferedFrameBytes server.connections ∧
      0 ≤ server.bufferedFrameBytes ∧ server.bufferedFrameBytes ≤ limits.maxBufferedFrameBytes ∧
      RejectsOverLimit limits isHandshake server ∧
      ∀ event outcome, handle limits isHandshake server event = some outcome →
        ∃ after, outcome = .ok after := by
  have haccounted := Server.Accounted.of_reaches h
  refine ⟨fun state hstate => (haccounted.connections state hstate).account, haccounted.total_eq,
    ?_, haccounted.within, haccounted.rejectsOverLimit, ?_⟩
  · rw [haccounted.total_eq]
    exact total_nonneg fun state hstate => (haccounted.connections state hstate).buffered_nonneg
  · intro event outcome hhandle
    obtain ⟨after, hok, -⟩ := haccounted.handle hhandle
    exact ⟨after, hok⟩

def exampleLimits : Limits where
  maxFrameBytes := 8
  maxConnectionBufferedFrameBytes := 16
  maxBufferedFrameBytes := 24
  maxQueuedInputBytes := 8

/-- Two lines and the beginning of a third, the first of them done with. -/
def exampleEvents : List Event :=
  [.accept, .data 0 [0x78, 0x0a, 0x79, 0x79, 0x0a, 0x7a], .complete 0]

def exampleServer : Server := (machine exampleLimits fun _ => true).runAll {} exampleEvents

theorem buffered_frame_bytes_example : exampleServer.bufferedFrameBytes = 3 ∧
    exampleServer.bufferedFrameBytes =
      total ConnectionState.bufferedFrameBytes exampleServer.connections :=
  ⟨by decide, (buffered_frame_bytes_accounted (.runAll (.initial rfl)
    (Concurrent.Machine.allowed_of_forall (fun _ _ => trivial) _ _) (by decide))).2.1⟩

end ContextStore.Intake
