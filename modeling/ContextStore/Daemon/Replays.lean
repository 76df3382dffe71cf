import ContextStore.Daemon.Replay

/-! # A request is dispatched once while its entry is retained

The counters are sums over the map, an entry leaves the map only when its promise has settled, and
a project and request id has been dispatched once more than evicted exactly while it has an
entry. -/

namespace ContextStore.Replay

open Unicode Totals

variable {Response : Type} {limits : Limits} {readRequest : List UInt8 → Request}
  {sha256 : List UInt8 → List UInt8}

def byteLengthOf (item : Text × Entry) : Int := item.2.byteLength

def activeOf (item : Text × Entry) : Int := if item.2.settled then 0 else 1

def activeBytesOf (item : Text × Entry) : Int :=
  if item.2.settled then 0 else item.2.line.length + 1

def pairOf (item : Text × Entry) : Text × Text := item.2.pair

structure Keyed (readRequest : List UInt8 → Request) (sha256 : List UInt8 → List UInt8)
    (item : Text × Entry) : Prop where
  key_eq : item.1 = Daemon.replayKey item.2.project item.2.requestId
  requestId_eq : item.2.requestId = (readRequest item.2.line).requestId
  operation_eq : item.2.operation = (readRequest item.2.line).operation
  fingerprint_eq : item.2.fingerprint = sha256 item.2.line

/-- The entry and its promise agree on whether it has settled. -/
structure Promised (outcomes : List (Outcome Response)) (item : Text × Entry) : Prop where
  outcome : ∃ outcome, outcomes[item.2.promise]? = some outcome ∧
    outcome.response.isSome = item.2.settled ∧ outcome.requestBytes = item.2.line.length + 1
  byteLength_nonneg : 0 ≤ item.2.byteLength
  unsettled : item.2.settled = false → item.2.byteLength = 0

structure Accounted (limits : Limits) (readRequest : List UInt8 → Request)
    (sha256 : List UInt8 → List UInt8) (daemon : Daemon Response) : Prop where
  keys_nodup : (daemon.requestOutcomes.map Prod.fst).Nodup
  promises_nodup : (daemon.requestOutcomes.map fun item => item.2.promise).Nodup
  keyed : ∀ item ∈ daemon.requestOutcomes, Keyed readRequest sha256 item
  promised : ∀ item ∈ daemon.requestOutcomes, Promised daemon.outcomes item
  size : daemon.requestOutcomes.length ≤ limits.maxReplayOutcomes
  bytes_eq : daemon.replayOutcomeBytes = total byteLengthOf daemon.requestOutcomes
  active_eq : daemon.activeRequests = total activeOf daemon.requestOutcomes
  activeBytes_eq : daemon.activeRequestBytes = total activeBytesOf daemon.requestOutcomes
  inFlight : ∀ (promise : Nat) outcome, daemon.outcomes[promise]? = some outcome →
    outcome.response = none → ∃ item ∈ daemon.requestOutcomes, item.2.promise = promise
  counted : ∀ pair, daemon.dispatched.count pair =
    daemon.evicted.count pair + (daemon.requestOutcomes.map pairOf).count pair

/-! ## Eviction -/

/-- What a loop over the map leaves: the unsettled entries all stay, and what goes is counted. -/
structure Trimmed (before after : List (Text × Entry)) (bytes bytes' : Int)
    (gone : List (Text × Text)) : Prop where
  sublist : after.Sublist before
  unsettled : ∀ item ∈ before, item.2.settled = false → item ∈ after
  active_eq : total activeOf after = total activeOf before
  activeBytes_eq : total activeBytesOf after = total activeBytesOf before
  bytes_eq : bytes' - total byteLengthOf after = bytes - total byteLengthOf before
  counted : ∀ pair, (before.map pairOf).count pair =
    gone.count pair + (after.map pairOf).count pair

theorem Trimmed.refl (items : List (Text × Entry)) (bytes : Int) :
    Trimmed items items bytes bytes [] :=
  ⟨.refl _, fun _ hmem _ => hmem, rfl, rfl, rfl, fun _ => by simp⟩

theorem Trimmed.evict {kept rest after : List (Text × Entry)} {key : Text} {entry : Entry}
    {bytes bytes' : Int} {gone : List (Text × Text)} (hsettled : entry.settled = true)
    (h : Trimmed (kept ++ rest) after (bytes - entry.byteLength) bytes' gone) :
    Trimmed (kept ++ (key, entry) :: rest) after bytes bytes' (entry.pair :: gone) := by
  refine ⟨?_, ?_, ?_, ?_, ?_, ?_⟩
  · exact h.sublist.trans (List.Sublist.append_left (List.sublist_cons_self _ _) _)
  · intro item hmem hopen
    refine h.unsettled item ?_ hopen
    rcases List.mem_append.mp hmem with hmem | hmem
    · exact List.mem_append_left _ hmem
    · rcases List.mem_cons.mp hmem with rfl | hmem
      · rw [hsettled] at hopen
        cases hopen
      · exact List.mem_append_right _ hmem
  · rw [h.active_eq]
    simp [activeOf, hsettled]
  · rw [h.activeBytes_eq]
    simp [activeBytesOf, hsettled]
  · have := h.bytes_eq
    simp only [total_append, total_cons, byteLengthOf] at this ⊢
    omega
  · intro pair
    have hrest := h.counted pair
    rw [List.map_append, List.count_append] at hrest
    rw [List.map_append, List.map_cons, show pairOf (key, entry) = entry.pair from rfl,
      List.count_append, List.count_cons, List.count_cons]
    omega

variable (limits) in
theorem trimLoop_spec (targetEntries : Nat) (rest kept : List (Text × Entry)) (bytes : Int) :
    Trimmed (kept ++ rest) (Daemon.trimLoop limits targetEntries kept rest bytes).1 bytes
      (Daemon.trimLoop limits targetEntries kept rest bytes).2.1
      (Daemon.trimLoop limits targetEntries kept rest bytes).2.2 := by
  induction rest generalizing kept bytes with
  | nil =>
    simp only [Daemon.trimLoop, List.append_nil]
    exact .refl kept bytes
  | cons item rest ih =>
    obtain ⟨key, entry⟩ := item
    rw [Daemon.trimLoop]
    split
    · have h := ih (kept ++ [(key, entry)]) bytes
      rwa [List.append_assoc] at h
    · next hsettled =>
      rw [Bool.not_eq_false] at hsettled
      split
      · exact .evict hsettled (.refl _ _)
      · exact .evict hsettled (ih kept (bytes - entry.byteLength))

variable {daemon : Daemon Response} {outcomes : List (Outcome Response)} {item : Text × Entry}

theorem total_byteLength_nonneg {items : List (Text × Entry)}
    (h : ∀ item ∈ items, Promised outcomes item) : 0 ≤ total byteLengthOf items :=
  total_nonneg fun item hmem => (h item hmem).byteLength_nonneg

/-- Eviction keeps the accounts, and no promise changes. -/
theorem Accounted.trim (h : Accounted limits readRequest sha256 daemon) (reserveEntries : Nat) :
    Accounted limits readRequest sha256 (Daemon.trimRequestOutcomes limits daemon reserveEntries) ∧
      (Daemon.trimRequestOutcomes limits daemon reserveEntries).outcomes = daemon.outcomes ∧
      (Daemon.trimRequestOutcomes limits daemon reserveEntries).requestOutcomes.Sublist
        daemon.requestOutcomes ∧
      (Daemon.trimRequestOutcomes limits daemon reserveEntries).dispatched = daemon.dispatched := by
  rw [Daemon.trimRequestOutcomes]
  dsimp only
  split
  · exact ⟨h, rfl, .refl _, rfl⟩
  · have htrim := trimLoop_spec limits (limits.maxReplayOutcomes - reserveEntries)
      daemon.requestOutcomes [] daemon.replayOutcomeBytes
    generalize Daemon.trimLoop limits (limits.maxReplayOutcomes - reserveEntries) []
      daemon.requestOutcomes daemon.replayOutcomeBytes = trimmed at htrim ⊢
    rw [List.nil_append] at htrim
    have hpromised : ∀ item ∈ trimmed.1, Promised daemon.outcomes item :=
      fun item hmem => h.promised item (htrim.sublist.subset hmem)
    refine ⟨?_, rfl, htrim.sublist, rfl⟩
    exact {
      keys_nodup := h.keys_nodup.sublist (htrim.sublist.map _)
      promises_nodup := h.promises_nodup.sublist (htrim.sublist.map _)
      keyed := fun item hmem => h.keyed item (htrim.sublist.subset hmem)
      promised := hpromised
      size := htrim.sublist.length_le.trans h.size
      bytes_eq := by
        have hnonneg := total_byteLength_nonneg hpromised
        have heq := htrim.bytes_eq
        have hbytes := h.bytes_eq
        dsimp only
        omega
      active_eq := h.active_eq.trans htrim.active_eq.symm
      activeBytes_eq := h.activeBytes_eq.trans htrim.activeBytes_eq.symm
      inFlight := by
        intro promise outcome hlookup hnone
        obtain ⟨item, hmem, hitem⟩ := h.inFlight promise outcome hlookup hnone
        obtain ⟨outcome', hlookup', hsettled, -⟩ := (h.promised item hmem).outcome
        rw [hitem, hlookup] at hlookup'
        obtain rfl := Option.some.inj hlookup'
        rw [hnone] at hsettled
        exact ⟨item, htrim.unsettled item hmem hsettled.symm, hitem⟩
      counted := by
        intro pair
        have hbefore := h.counted pair
        have hcount := htrim.counted pair
        simp only [List.count_append]
        omega }

/-! ## Dispatch -/

theorem Promised.append (h : Promised outcomes item) (more : List (Outcome Response)) :
    Promised (outcomes ++ more) item where
  outcome := by
    obtain ⟨outcome, hlookup, hrest⟩ := h.outcome
    obtain ⟨hlt, -⟩ := List.getElem?_eq_some_iff.mp hlookup
    exact ⟨outcome, by rwa [List.getElem?_append_left hlt], hrest⟩
  byteLength_nonneg := h.byteLength_nonneg
  unsettled := h.unsettled

theorem Accounted.dispatch
    (h : Accounted limits readRequest sha256 daemon) {project : Text} {line : List UInt8}
    (hnone : daemon.requestOutcomes.lookup
      (Daemon.replayKey project (readRequest line).requestId) = none)
    (hsize : daemon.requestOutcomes.length < limits.maxReplayOutcomes) :
    Accounted limits readRequest sha256
      (Daemon.dispatch sha256 daemon project line (readRequest line)) := by
  generalize hitem : (Daemon.replayKey project (readRequest line).requestId, ({
    operation := (readRequest line).operation
    fingerprint := sha256 line
    promise := daemon.outcomes.length
    project
    requestId := (readRequest line).requestId
    line } : Entry)) = item
  have hentries : (Daemon.dispatch sha256 daemon project line (readRequest line)).requestOutcomes =
      daemon.requestOutcomes ++ [item] := by rw [← hitem]; rfl
  have hmem : ∀ other ∈ daemon.requestOutcomes ++ [item],
      other ∈ daemon.requestOutcomes ∨ other = item := by
    intro other hother
    simpa using hother
  have hnew : ∀ other ∈ daemon.requestOutcomes, other.2.promise < daemon.outcomes.length := by
    intro other hother
    obtain ⟨outcome, hlookup, -⟩ := (h.promised other hother).outcome
    exact (List.getElem?_eq_some_iff.mp hlookup).1
  refine ⟨?_, ?_, ?_, ?_, ?_, ?_, ?_, ?_, ?_, ?_⟩
  · rw [hentries, List.map_append, List.nodup_append]
    refine ⟨h.keys_nodup, by simp, ?_⟩
    intro key hkey other hother
    obtain ⟨before, hbefore, rfl⟩ := List.mem_map.mp hkey
    obtain rfl : other = item.1 := by simpa using hother
    have hne := List.lookup_eq_none_iff.mp hnone before hbefore
    rintro heq
    rw [heq, ← hitem] at hne
    simp at hne
  · rw [hentries, List.map_append, List.nodup_append]
    refine ⟨h.promises_nodup, by simp, ?_⟩
    intro promise hpromise other hother
    obtain ⟨before, hbefore, rfl⟩ := List.mem_map.mp hpromise
    obtain rfl : other = item.2.promise := by simpa using hother
    have hlt := hnew before hbefore
    rw [← hitem]
    exact Nat.ne_of_lt hlt
  · rw [hentries]
    intro other hother
    rcases hmem other hother with hother | rfl
    · exact h.keyed other hother
    · rw [← hitem]
      exact ⟨rfl, rfl, rfl, rfl⟩
  · rw [hentries]
    intro other hother
    rcases hmem other hother with hother | rfl
    · exact (h.promised other hother).append _
    · rw [← hitem]
      exact ⟨⟨_, List.getElem?_concat_length, rfl, rfl⟩, Int.le_refl _, fun _ => rfl⟩
  · rw [hentries, List.length_append, List.length_singleton]
    exact hsize
  · rw [hentries, total_append, total_cons, total_nil, ← h.bytes_eq, ← hitem]
    simp [Daemon.dispatch, byteLengthOf]
  · rw [hentries, total_append, total_cons, total_nil, ← h.active_eq, ← hitem]
    simp [Daemon.dispatch, activeOf]
  · rw [hentries, total_append, total_cons, total_nil, ← h.activeBytes_eq, ← hitem]
    simp [Daemon.dispatch, activeBytesOf]
  · rw [hentries]
    intro promise outcome hlookup hopen
    by_cases hlt : promise < daemon.outcomes.length
    · rw [Daemon.dispatch, List.getElem?_append_left hlt] at hlookup
      obtain ⟨other, hother, heq⟩ := h.inFlight promise outcome hlookup hopen
      exact ⟨other, List.mem_append_left _ hother, heq⟩
    · obtain ⟨hbound, -⟩ := List.getElem?_eq_some_iff.mp hlookup
      rw [Daemon.dispatch, List.length_append, List.length_singleton] at hbound
      refine ⟨item, List.mem_append_right _ (List.mem_singleton_self _), ?_⟩
      rw [← hitem]
      show daemon.outcomes.length = promise
      omega
  · intro pair
    have hcount := h.counted pair
    have hpair : pairOf item = (project, (readRequest line).requestId) := by rw [← hitem]; rfl
    rw [hentries, List.map_append, List.map_singleton, hpair]
    show (daemon.dispatched ++ [(project, (readRequest line).requestId)]).count pair =
      daemon.evicted.count pair + _
    rw [List.count_append, List.count_append]
    omega

/-- A request keeps the accounts, whether it is answered, refused or dispatched. -/
theorem Accounted.executeRequest (h : Accounted limits readRequest sha256 daemon) (project : Text)
    (line : List UInt8) :
    Accounted limits readRequest sha256
      (Daemon.executeRequest limits readRequest sha256 daemon project line).1 := by
  rw [Daemon.executeRequest]
  dsimp only
  split
  · split
    · exact h
    · exact h
  · next hnone =>
    obtain ⟨htrim, -, hsublist, -⟩ := h.trim 1
    split
    · exact htrim
    · next hsize =>
      split
      · exact htrim
      · exact htrim.dispatch (hsublist.lookup_eq_none hnone) (by omega)

/-! ## Completion -/

/-- The entry of a promise stands alone, so settling it changes only that entry. -/
theorem Accounted.split_settle (h : Accounted limits readRequest sha256 daemon)
    (hmem : item ∈ daemon.requestOutcomes) (byteLength : Nat) :
    ∃ before after, daemon.requestOutcomes = before ++ item :: after ∧
      (daemon.requestOutcomes.map fun other =>
        (other.1, other.2.settle item.2.promise byteLength)) =
        before ++ (item.1, { item.2 with settled := true, byteLength }) :: after ∧
      ∀ other ∈ before ++ after, other.2.promise ≠ item.2.promise := by
  obtain ⟨before, after, hsplit⟩ := List.append_of_mem hmem
  have hnodup := h.promises_nodup
  rw [hsplit, List.map_append, List.map_cons, List.nodup_append] at hnodup
  obtain ⟨-, hafter, hbefore⟩ := hnodup
  have hother : ∀ other ∈ before ++ after, other.2.promise ≠ item.2.promise := by
    intro other hother
    rcases List.mem_append.mp hother with hother | hother
    · exact hbefore _ (List.mem_map_of_mem hother) _ List.mem_cons_self
    · intro heq
      exact (List.nodup_cons.mp hafter).1 (List.mem_map.mpr ⟨other, hother, heq⟩)
  have hkeep : ∀ part : List (Text × Entry), (∀ other ∈ part, other ∈ before ++ after) →
      part.map (fun other => (other.1, other.2.settle item.2.promise byteLength)) = part := by
    intro part hpart
    conv_rhs => rw [← List.map_id part]
    refine List.map_congr_left fun other hmem => ?_
    rw [Entry.settle, if_neg (hother other (hpart other hmem))]
    rfl
  refine ⟨before, after, hsplit, ?_, hother⟩
  rw [hsplit, List.map_append, List.map_cons,
    hkeep before fun other hmem => List.mem_append_left _ hmem,
    hkeep after fun other hmem => List.mem_append_right _ hmem, Entry.settle, if_pos rfl]

theorem Promised.set (h : Promised outcomes item) {promise : Nat} (hne : item.2.promise ≠ promise)
    (outcome : Outcome Response) : Promised (outcomes.set promise outcome) item where
  outcome := by
    obtain ⟨found, hlookup, hrest⟩ := h.outcome
    exact ⟨found, by rwa [List.getElem?_set_ne hne.symm], hrest⟩
  byteLength_nonneg := h.byteLength_nonneg
  unsettled := h.unsettled

theorem activeOf_nonneg (item : Text × Entry) : 0 ≤ activeOf item := by
  rw [activeOf]
  split <;> omega

theorem activeBytesOf_nonneg (item : Text × Entry) : 0 ≤ activeBytesOf item := by
  rw [activeBytesOf]
  split <;> omega

/-- A completion moves its request from the active counters to the cached bytes. -/
theorem Accounted.settle (h : Accounted limits readRequest sha256 daemon) {promise : Nat}
    {outcome : Outcome Response} (hlookup : daemon.outcomes[promise]? = some outcome)
    (hopen : outcome.response = none) (response : Response) (byteLength : Nat) :
    Accounted limits readRequest sha256
      (Daemon.settle limits daemon promise outcome response byteLength) := by
  obtain ⟨item, hmem, rfl⟩ := h.inFlight promise outcome hlookup hopen
  obtain ⟨hlt, -⟩ := List.getElem?_eq_some_iff.mp hlookup
  obtain ⟨found, hfound, hsettled, hrequestBytes⟩ := (h.promised item hmem).outcome
  obtain rfl := Option.some.inj (hlookup.symm.trans hfound)
  have hunsettled : item.2.settled = false := by
    rw [← hsettled, hopen]
    rfl
  obtain ⟨before, after, hsplit, hmap, hother⟩ := h.split_settle hmem byteLength
  have hbytes := h.bytes_eq
  have hactive := h.active_eq
  have hactiveBytes := h.activeBytes_eq
  have hzero := (h.promised item hmem).unsettled hunsettled
  rw [hsplit] at hbytes hactive hactiveBytes
  simp only [total_append, total_cons, byteLengthOf, activeOf, activeBytesOf, hunsettled, hzero,
    Bool.false_eq_true, if_false] at hbytes hactive hactiveBytes
  have hbeforeActive : 0 ≤ total activeOf before := total_nonneg fun _ _ => activeOf_nonneg _
  have hafterActive : 0 ≤ total activeOf after := total_nonneg fun _ _ => activeOf_nonneg _
  have hbeforeBytes : 0 ≤ total activeBytesOf before :=
    total_nonneg fun _ _ => activeBytesOf_nonneg _
  have hafterBytes : 0 ≤ total activeBytesOf after :=
    total_nonneg fun _ _ => activeBytesOf_nonneg _
  have hkeep : ∀ other ∈ before ++ (item.1, { item.2 with settled := true, byteLength }) :: after,
      (other ∈ daemon.requestOutcomes ∧ other.2.promise ≠ item.2.promise) ∨
        other = (item.1, { item.2 with settled := true, byteLength }) := by
    intro other hmem
    rcases List.mem_append.mp hmem with hmem | hmem
    · refine .inl ⟨?_, hother other (List.mem_append_left _ hmem)⟩
      rw [hsplit]
      exact List.mem_append_left _ hmem
    · rcases List.mem_cons.mp hmem with rfl | hmem
      · exact .inr rfl
      · refine .inl ⟨?_, hother other (List.mem_append_right _ hmem)⟩
        rw [hsplit]
        exact List.mem_append_right _ (List.mem_cons_of_mem _ hmem)
  rw [Daemon.settle]
  refine And.left (Accounted.trim ?_ 0)
  dsimp only [Daemon.settleActiveRequest]
  rw [hmap]
  refine ⟨?_, ?_, ?_, ?_, ?_, ?_, ?_, ?_, ?_, ?_⟩
  · have := h.keys_nodup
    rw [hsplit] at this
    simpa using this
  · have := h.promises_nodup
    rw [hsplit] at this
    simpa using this
  · intro other hmem'
    rcases hkeep other hmem' with ⟨hold, -⟩ | rfl
    · exact h.keyed other hold
    · have hkeyed := h.keyed item hmem
      exact ⟨hkeyed.key_eq, hkeyed.requestId_eq, hkeyed.operation_eq, hkeyed.fingerprint_eq⟩
  · intro other hmem'
    rcases hkeep other hmem' with ⟨hold, hne⟩ | rfl
    · exact (h.promised other hold).set hne _
    · exact ⟨⟨_, List.getElem?_set_self hlt, rfl, hrequestBytes⟩, Int.natCast_nonneg _,
        fun hnot => by cases hnot⟩
  · have hsize := h.size
    rw [hsplit] at hsize
    simpa using hsize
  · simp only [total_append, total_cons, byteLengthOf]
    omega
  · simp only [total_append, total_cons, activeOf, if_true]
    omega
  · rw [hrequestBytes]
    simp only [total_append, total_cons, activeBytesOf, if_true]
    omega
  · intro promise found hfound' hnone
    by_cases heq : promise = item.2.promise
    · subst heq
      rw [List.getElem?_set_self hlt] at hfound'
      obtain rfl := Option.some.inj hfound'
      cases hnone
    · rw [List.getElem?_set_ne (Ne.symm heq)] at hfound'
      obtain ⟨other, hmem', hpromise⟩ := h.inFlight promise found hfound' hnone
      refine ⟨other, ?_, hpromise⟩
      rw [hsplit] at hmem'
      rcases List.mem_append.mp hmem' with hmem' | hmem'
      · exact List.mem_append_left _ hmem'
      · rcases List.mem_cons.mp hmem' with rfl | hmem'
        · exact absurd hpromise.symm heq
        · exact List.mem_append_right _ (List.mem_cons_of_mem _ hmem')
  · intro pair
    have hcount := h.counted pair
    rw [hsplit] at hcount
    simpa [pairOf, Entry.pair] using hcount

/-! ## Whole runs -/

theorem Accounted.handle {after : Daemon Response}
    (h : Accounted limits readRequest sha256 daemon) {event : Daemon.Event Response}
    (hhandle : daemon.handle limits readRequest sha256 event = some after) :
    Accounted limits readRequest sha256 after := by
  cases event with
  | execute project line =>
    obtain rfl := Option.some.inj hhandle
    exact h.executeRequest project line
  | settle promise response byteLength =>
    obtain ⟨outcome, hlookup, hhandle⟩ := Option.bind_eq_some_iff.mp hhandle
    split at hhandle
    · next hopen =>
      obtain rfl := Option.some.inj hhandle
      exact h.settle hlookup (Option.isNone_iff_eq_none.mp hopen) response byteLength
    · cases hhandle

theorem Accounted.of_reaches
    (h : (machine limits readRequest sha256).Reaches (fun _ _ => True) daemon) :
    Accounted limits readRequest sha256 daemon := by
  refine h.invariant _ ?_ ?_
  · intro daemon hinitial
    obtain rfl : daemon = {} := hinitial
    exact ⟨by simp, by simp, by simp, by simp, Nat.zero_le _, rfl, rfl, rfl, by simp, by simp⟩
  · intro before event after haccounted _ hstep
    exact haccounted.handle hstep

/-- An entry is found under its key. -/
theorem Accounted.lookup (h : Accounted limits readRequest sha256 daemon)
    (hmem : item ∈ daemon.requestOutcomes) :
    daemon.requestOutcomes.lookup (Daemon.replayKey item.2.project item.2.requestId) =
      some item.2 := by
  obtain ⟨before, after, hsplit⟩ := List.append_of_mem hmem
  have hnodup := h.keys_nodup
  rw [hsplit, List.map_append, List.map_cons, List.nodup_append] at hnodup
  rw [List.lookup_eq_some_iff, ← (h.keyed item hmem).key_eq]
  refine ⟨before, after, hsplit, fun other hother => ?_⟩
  simpa using (hnodup.2.2 _ (List.mem_map_of_mem hother) _ List.mem_cons_self).symm

/-- A promise that has settled keeps its response. -/
def KeepsResponses (limits : Limits) (readRequest : List UInt8 → Request)
    (sha256 : List UInt8 → List UInt8) (daemon : Daemon Response) : Prop :=
  ∀ event after, daemon.handle limits readRequest sha256 event = some after →
    ∀ (promise : Nat) outcome, daemon.outcomes[promise]? = some outcome →
      outcome.response.isSome = true → after.outcomes[promise]? = some outcome

theorem trim_outcomes (daemon : Daemon Response) (reserveEntries : Nat) :
    (Daemon.trimRequestOutcomes limits daemon reserveEntries).outcomes = daemon.outcomes := by
  rw [Daemon.trimRequestOutcomes]
  dsimp only
  split <;> rfl

theorem keepsResponses (daemon : Daemon Response) :
    KeepsResponses limits readRequest sha256 daemon := by
  intro event after hhandle promise outcome hlookup hsome
  cases event with
  | execute project line =>
    obtain rfl := Option.some.inj hhandle
    obtain ⟨hlt, -⟩ := List.getElem?_eq_some_iff.mp hlookup
    rw [Daemon.executeRequest]
    dsimp only
    split
    · split <;> exact hlookup
    · split
      · rwa [trim_outcomes]
      · split
        · rwa [trim_outcomes]
        · show (Daemon.outcomes _ ++ _)[promise]? = _
          rw [trim_outcomes, List.getElem?_append_left hlt]
          exact hlookup
  | settle settling response byteLength =>
    obtain ⟨found, hfound, hhandle⟩ := Option.bind_eq_some_iff.mp hhandle
    split at hhandle
    · next hopen =>
      obtain rfl := Option.some.inj hhandle
      have hne : settling ≠ promise := by
        rintro rfl
        obtain rfl := Option.some.inj (hlookup.symm.trans hfound)
        simp [Option.isNone_iff_eq_none.mp hopen] at hsome
      rw [Daemon.settle, trim_outcomes]
      show (daemon.outcomes.set settling _)[promise]? = _
      rwa [List.getElem?_set_ne hne]
    · cases hhandle

/-- In every state the daemon gets to, whatever the order of requests and completions: a project
and request id has been dispatched once more than evicted exactly while it has an entry; a line
sent again gets the promise of the entry, whose response never changes, and another line under the
same id a conflict, neither being dispatched; no entry in flight is gone; and the counters are the
sums over the map. -/
theorem requests_dispatched_once {daemon : Daemon Response}
    (h : (machine limits readRequest sha256).Reaches (fun _ _ => True) daemon) :
    (∀ pair, daemon.dispatched.count pair =
        daemon.evicted.count pair + (daemon.requestOutcomes.map pairOf).count pair ∧
      (daemon.requestOutcomes.map pairOf).count pair ≤ 1) ∧
    (∀ item ∈ daemon.requestOutcomes,
      Daemon.executeRequest limits readRequest sha256 daemon item.2.project item.2.line =
        (daemon, .promise item.2.promise)) ∧
    KeepsResponses limits readRequest sha256 daemon ∧
    (∀ item ∈ daemon.requestOutcomes, ∀ line, line ≠ item.2.line →
      (readRequest line).requestId = item.2.requestId →
      (sha256 line = sha256 item.2.line → line = item.2.line) →
      Daemon.executeRequest limits readRequest sha256 daemon item.2.project line =
        (daemon, Daemon.reused (readRequest line))) ∧
    (∀ (promise : Nat) outcome, daemon.outcomes[promise]? = some outcome →
      outcome.response = none → ∃ item ∈ daemon.requestOutcomes, item.2.promise = promise) ∧
    daemon.requestOutcomes.length ≤ limits.maxReplayOutcomes ∧
    daemon.replayOutcomeBytes = total byteLengthOf daemon.requestOutcomes ∧
    daemon.activeRequests = total activeOf daemon.requestOutcomes ∧
    daemon.activeRequestBytes = total activeBytesOf daemon.requestOutcomes := by
  have haccounted := Accounted.of_reaches h
  refine ⟨fun pair => ⟨haccounted.counted pair, ?_⟩, ?_, keepsResponses daemon, ?_,
    haccounted.inFlight, haccounted.size, haccounted.bytes_eq, haccounted.active_eq,
    haccounted.activeBytes_eq⟩
  · -- one entry for a key, and a pair has one key
    have hkeys : daemon.requestOutcomes.map Prod.fst =
        (daemon.requestOutcomes.map pairOf).map fun pair => Daemon.replayKey pair.1 pair.2 := by
      rw [List.map_map]
      exact List.map_congr_left fun item hmem => (haccounted.keyed item hmem).key_eq
    have hnodup := haccounted.keys_nodup
    rw [hkeys] at hnodup
    exact List.nodup_iff_count.mp (List.Pairwise.of_map _ (fun a b hne heq => hne (by rw [heq])) hnodup) pair
  · intro item hmem
    have hkeyed := haccounted.keyed item hmem
    rw [Daemon.executeRequest]
    dsimp only
    rw [← hkeyed.requestId_eq, haccounted.lookup hmem]
    dsimp only
    rw [if_neg (by simp [hkeyed.operation_eq, hkeyed.fingerprint_eq])]
  · intro item hmem line hne hid hcollision
    have hkeyed := haccounted.keyed item hmem
    rw [Daemon.executeRequest]
    dsimp only
    rw [hid, haccounted.lookup hmem]
    dsimp only
    rw [if_pos (.inr fun heq => hne (hcollision (heq.symm.trans hkeyed.fingerprint_eq)))]

def exampleLimits : Limits where
  maxReplayOutcomes := 2
  maxReplayOutcomeBytes := 8
  maxActiveRequests := 2
  maxActiveRequestBytes := 8

/-- The first byte of a line is its request id. -/
def exampleRead (line : List UInt8) : Request where
  requestId := [(line.headD 0).toUInt16]
  operation := []

/-- A request is sent, sent again, and settles; the next one fills the cache, a third evicts it. -/
def exampleEvents : List (Daemon.Event Bool) :=
  [.execute [] [1], .execute [] [1], .settle 0 true 3, .execute [] [2], .execute [] [3]]

def exampleDaemon : Daemon Bool := (machine exampleLimits exampleRead id).runAll {} exampleEvents

theorem requests_dispatched_example :
    exampleDaemon.evicted = [([], [1])] ∧
      exampleDaemon.activeRequests = total activeOf exampleDaemon.requestOutcomes :=
  ⟨by decide, (requests_dispatched_once (.runAll (.initial rfl)
    (Concurrent.Machine.allowed_of_forall (fun _ _ => trivial) _ _)
    (by decide))).2.2.2.2.2.2.2.1⟩

end ContextStore.Replay
