import ContextStore.Retrieval.Reformulation

/-! # Which misses are chained

A miss is closed by the first hit that reaches it: that shares a session in which no newer miss of
the same query took its place. The hit is chained to it when it is worded differently. -/

namespace ContextStore.Feedback

open Unicode

variable {Digest Score : Type}

/-! ## Open misses -/

def OpenMisses.openMiss (openMisses : OpenMisses) (sessionId queryKey : Text) : Option MissRecord :=
  (openMisses.ofSession sessionId).get queryKey

@[simp]
theorem ofSession_set (openMisses : OpenMisses) (sessionId s : Text)
    (m : InsertionMap Text MissRecord) :
    OpenMisses.ofSession (openMisses.set sessionId m) s =
      if s = sessionId then m else openMisses.ofSession s := by
  rw [OpenMisses.ofSession, InsertionMap.get_set]
  split <;> rfl

theorem openMiss_set (openMisses : OpenMisses) (sessionId s q : Text)
    (m : InsertionMap Text MissRecord) :
    OpenMisses.openMiss (openMisses.set sessionId m) s q =
      if s = sessionId then m.get q else openMisses.openMiss s q := by
  rw [OpenMisses.openMiss, ofSession_set]
  split <;> rfl

/-- Is the miss what the session has open under its query key? -/
def OpenMisses.Holds (openMisses : OpenMisses) (miss : MissRecord) (s q : Text) : Prop :=
  q = miss.queryKey ∧ (openMisses.openMiss s q).map MissRecord.seq = some miss.seq

instance (openMisses : OpenMisses) (miss : MissRecord) (s q : Text) :
    Decidable (openMisses.Holds miss s q) := inferInstanceAs (Decidable (_ ∧ _))

theorem openMiss_closeMiss (miss : MissRecord) (openMisses : OpenMisses) (t s q : Text) :
    (closeMiss miss openMisses t).openMiss s q =
      if s = t ∧ openMisses.Holds miss s q then none else openMisses.openMiss s q := by
  unfold closeMiss
  split
  · rename_i hnone
    rw [if_neg]
    rintro ⟨rfl, -, hseq⟩
    rw [OpenMisses.openMiss, OpenMisses.ofSession, hnone] at hseq
    cases hseq
  · rename_i linked hlinked
    have hsession : openMisses.ofSession t = linked := by rw [OpenMisses.ofSession, hlinked]; rfl
    split
    · rename_i hseq
      rw [openMiss_set, InsertionMap.get_delete]
      by_cases hs : s = t
      · subst hs
        by_cases hq : q = miss.queryKey
        · subst hq
          have hholds : openMisses.Holds miss s miss.queryKey :=
            ⟨rfl, by rw [OpenMisses.openMiss, hsession]; exact hseq⟩
          rw [if_pos rfl, if_pos rfl, if_pos ⟨rfl, hholds⟩]
        · rw [if_pos rfl, if_neg hq, if_neg (fun h => hq h.2.1), OpenMisses.openMiss, hsession]
      · rw [if_neg hs, if_neg (fun h => hs h.1)]
    · rename_i hseq
      rw [if_neg]
      rintro ⟨rfl, rfl, hholds⟩
      rw [OpenMisses.openMiss, hsession] at hholds
      exact hseq hholds

theorem openMiss_foldl_closeMiss (miss : MissRecord) (sessions : List Text)
    (openMisses : OpenMisses) (s q : Text) :
    (sessions.foldl (closeMiss miss) openMisses).openMiss s q =
      if s ∈ sessions ∧ openMisses.Holds miss s q then none else openMisses.openMiss s q := by
  induction sessions generalizing openMisses with
  | nil => simp
  | cons t sessions ih =>
    have hopen := openMiss_closeMiss miss openMisses t s q
    rw [List.foldl_cons, ih]
    by_cases ht : s = t ∧ openMisses.Holds miss s q
    · have hmem : s ∈ t :: sessions := ht.1 ▸ List.mem_cons_self
      rw [if_pos ht] at hopen
      rw [if_pos (c := s ∈ t :: sessions ∧ _) ⟨hmem, ht.2⟩, hopen, ite_self]
    · rw [if_neg ht] at hopen
      have hholds : (closeMiss miss openMisses t).Holds miss s q ↔ openMisses.Holds miss s q := by
        unfold OpenMisses.Holds
        rw [hopen]
      have hcons : s ∈ t :: sessions ∧ openMisses.Holds miss s q ↔
          s ∈ sessions ∧ openMisses.Holds miss s q := by
        rw [List.mem_cons]
        constructor
        · rintro ⟨rfl | hmem, hmiss⟩
          · exact absurd ⟨rfl, hmiss⟩ ht
          · exact ⟨hmem, hmiss⟩
        · rintro ⟨hmem, hmiss⟩
          exact ⟨.inr hmem, hmiss⟩
      simp only [hopen, hholds, hcons]

/-- Open misses are filed under their own query key and sessions, and told apart by their
sequence number. -/
structure OpenMisses.Filed (openMisses : OpenMisses) : Prop where
  filed : ∀ s q m, openMisses.openMiss s q = some m → m.queryKey = q ∧ s ∈ m.sessionIds
  unique : ∀ s q m s' q' m', openMisses.openMiss s q = some m →
    openMisses.openMiss s' q' = some m' → m.seq = m'.seq → m = m'

theorem openMiss_close {openMisses : OpenMisses} (hfiled : openMisses.Filed) {t k : Text}
    {miss : MissRecord} (hmiss : openMisses.openMiss t k = some miss) {s q : Text}
    {m : MissRecord} :
    (closeMissEverywhere openMisses miss).openMiss s q = some m ↔
      openMisses.openMiss s q = some m ∧ m ≠ miss := by
  rw [closeMissEverywhere, openMiss_foldl_closeMiss]
  split
  · rename_i hholds
    constructor
    · rintro ⟨⟩
    · rintro ⟨hm, hne⟩
      have hseq := hholds.2.2
      rw [hm] at hseq
      exact absurd (hfiled.unique _ _ _ _ _ _ hm hmiss (Option.some.inj hseq)) hne
  · rename_i hholds
    refine ⟨fun hm => ⟨hm, ?_⟩, And.left⟩
    rintro rfl
    obtain ⟨hkey, hsession⟩ := hfiled.filed s q m hm
    exact hholds ⟨hsession, hkey.symm, by rw [hm]; rfl⟩

/-! ## One hit -/

/-- While a hit is handled: what it has closed so far, each miss under the session where it was
found, and the chains this gave. -/
structure Closing (event : Event Digest Score) (start now : Detection)
    (closed : List (Text × MissRecord)) : Prop where
  open_iff : ∀ s q m, now.openMissesBySession.openMiss s q = some m ↔
    start.openMissesBySession.openMiss s q = some m ∧ ∀ p ∈ closed, p.2 ≠ m
  closed_open : ∀ p ∈ closed, p.1 ∈ event.sessionIds ∧
    start.openMissesBySession.openMiss p.1 p.2.queryKey = some p.2
  chains_eq : now.chains = start.chains ++
    (closed.filter fun p => decide (p.2.queryKey ≠ event.queryKey)).map
      fun p => chainOf event p.1 p.2
  seen_eq : now.seenChainKeys = now.chains.map fun c => (c.missSeq, c.hitSeq)
  distinct : (closed.map Prod.snd).Nodup

/-- What holds when a hit comes: its chains are new. -/
structure Ready (event : Event Digest Score) (start : Detection) : Prop where
  filed : start.openMissesBySession.Filed
  seen_eq : start.seenChainKeys = start.chains.map fun c => (c.missSeq, c.hitSeq)
  fresh : ∀ c ∈ start.chains, c.hitSeq ≠ event.seq

theorem Ready.closing {event : Event Digest Score} {start : Detection} (h : Ready event start) :
    Closing event start start [] where
  open_iff := by simp
  closed_open := by simp
  chains_eq := by simp
  seen_eq := h.seen_eq
  distinct := List.nodup_nil

section

variable {event : Event Digest Score} {start now : Detection} {closed : List (Text × MissRecord)}
  (hready : Ready event start) (h : Closing event start now closed)

include hready h

theorem Closing.filed : now.openMissesBySession.Filed where
  filed s q m hm := hready.filed.filed s q m ((h.open_iff s q m).mp hm).1
  unique s q m s' q' m' hm hm' := hready.filed.unique s q m s' q' m'
    ((h.open_iff s q m).mp hm).1 ((h.open_iff s' q' m').mp hm').1

variable {s : Text} (hs : s ∈ event.sessionIds) {k : Text} {m : MissRecord}
  (hm : now.openMissesBySession.openMiss s k = some m)

include hs hm

theorem Closing.close_next {next : Detection}
    (hopen : next.openMissesBySession = closeMissEverywhere now.openMissesBySession m)
    (hchains : next.chains = now.chains ++
      if k = event.queryKey then [] else [chainOf event s m])
    (hseen : next.seenChainKeys = next.chains.map fun c => (c.missSeq, c.hitSeq)) :
    Closing event start next (closed ++ [(s, m)]) := by
  obtain ⟨hstart, hnot⟩ := (h.open_iff s k m).mp hm
  have hkey := (hready.filed.filed s k m hstart).1
  refine ⟨?_, ?_, ?_, hseen, ?_⟩
  · intro s' q' m'
    rw [hopen, openMiss_close (h.filed hready) hm, h.open_iff, List.forall_mem_append,
      List.forall_mem_singleton, and_assoc, ne_comm (a := m')]
  · rw [List.forall_mem_append, List.forall_mem_singleton]
    exact ⟨h.closed_open, hs, hkey.symm ▸ hstart⟩
  · rw [hchains, h.chains_eq, List.filter_append, List.map_append, List.append_assoc]
    congr 2
    by_cases hself : k = event.queryKey
    · rw [if_pos hself, List.filter_cons_of_neg (by simp [hkey, hself])]
      rfl
    · rw [if_neg hself, List.filter_cons_of_pos (by simp [hkey, hself])]
      rfl
  · rw [List.map_append, List.nodup_append]
    refine ⟨h.distinct, List.nodup_singleton _, ?_⟩
    intro a ha b hb
    obtain ⟨p, hp, rfl⟩ := List.mem_map.mp ha
    obtain rfl : b = m := by simpa using hb
    exact hnot p hp

omit hs in
theorem Closing.not_seen : (m.seq, event.seq) ∉ now.seenChainKeys := by
  obtain ⟨hstart, hnot⟩ := (h.open_iff s k m).mp hm
  rw [h.seen_eq, h.chains_eq]
  intro hmem
  obtain ⟨c, hc, heq⟩ := List.mem_map.mp hmem
  obtain ⟨hmiss, hhit⟩ := Prod.mk.inj heq
  obtain hold | hnew := List.mem_append.mp hc
  · exact hready.fresh c hold hhit
  · obtain ⟨p, hp, rfl⟩ := List.mem_map.mp hnew
    have hclosed := (List.mem_filter.mp hp).1
    exact hnot p hclosed (hready.filed.unique _ _ _ _ _ _ (h.closed_open p hclosed).2 hstart hmiss)

/-- An open miss is chained and closed, unless it has the query key of the hit. -/
theorem Closing.visitMiss :
    ∃ more, Closing event start (visitMiss event s now (k, m)) (closed ++ more) ∧
      (∀ p ∈ more, p.2 = m) ∧ (k ≠ event.queryKey → (s, m) ∈ more) := by
  rw [Feedback.visitMiss]
  split
  · rename_i hkey
    exact ⟨[], by rw [List.append_nil]; exact h, by simp, fun hne => absurd hkey hne⟩
  · rename_i hkey
    have hmiss := (hready.filed.filed s k m ((h.open_iff s k m).mp hm).1).1
    refine ⟨[(s, m)], h.close_next hready hs hm ?_ ?_ ?_, by simp, by simp⟩
    · show closeMissEverywhere (addChain event s k m now).openMissesBySession m = _
      rw [addChain, if_neg (h.not_seen hready hm)]
    · show (addChain event s k m now).chains = _
      rw [addChain, if_neg (h.not_seen hready hm), if_neg hkey]
      show now.chains ++ [{ chainOf event s m with missQueryKey := k }] = _
      rw [← hmiss]
      rfl
    · show (addChain event s k m now).seenChainKeys =
        (addChain event s k m now).chains.map fun c => (c.missSeq, c.hitSeq)
      rw [addChain, if_neg (h.not_seen hready hm), List.map_append, ← h.seen_eq]
      rfl

end

section

variable {event : Event Digest Score} {start now : Detection} {closed : List (Text × MissRecord)}
  (hready : Ready event start) (h : Closing event start now closed) {s : Text}
  (hs : s ∈ event.sessionIds)

include hready h hs

/-- The loop over the open misses of a session leaves at most the one with the query key of the
hit. -/
theorem Closing.foldl_visitMiss {entries : List (Text × MissRecord)}
    (hdistinct : (entries.map Prod.fst).Nodup)
    (hopen : ∀ e ∈ entries, now.openMissesBySession.openMiss s e.1 = some e.2)
    (hall : ∀ q m, now.openMissesBySession.openMiss s q = some m → q ≠ event.queryKey →
      (q, m) ∈ entries) :
    ∃ more, Closing event start (entries.foldl (Feedback.visitMiss event s) now) (closed ++ more) ∧
      ∀ q, q ≠ event.queryKey →
        (entries.foldl (Feedback.visitMiss event s) now).openMissesBySession.openMiss s q =
          none := by
  induction entries generalizing now closed with
  | nil =>
    refine ⟨[], by rw [List.append_nil]; exact h, fun q hq => ?_⟩
    rw [Option.eq_none_iff_forall_ne_some]
    intro m hm
    exact absurd (hall q m hm hq) List.not_mem_nil
  | cons e entries ih =>
    rw [List.map_cons, List.nodup_cons] at hdistinct
    rw [List.forall_mem_cons] at hopen
    obtain ⟨more, hnext, hmore, hclosed⟩ := h.visitMiss hready hs hopen.1
    have hkeep : ∀ e' ∈ entries, (Feedback.visitMiss event s now e).openMissesBySession.openMiss
        s e'.1 = some e'.2 := by
      intro e' he'
      obtain ⟨hstart, hnot⟩ := (h.open_iff _ _ _).mp (hopen.2 e' he')
      refine (hnext.open_iff _ _ _).mpr ⟨hstart, ?_⟩
      rw [List.forall_mem_append]
      refine ⟨hnot, fun p hp heq => ?_⟩
      have hkey' := ((h.filed hready).filed _ _ _ (hopen.2 e' he')).1
      have hkey := ((h.filed hready).filed _ _ _ hopen.1).1
      rw [hmore p hp] at heq
      have hsame : e'.1 = e.1 := by rw [← hkey', ← heq, hkey]
      exact hdistinct.1 (List.mem_map.mpr ⟨e', he', hsame⟩)
    have hrest : ∀ q m, (Feedback.visitMiss event s now e).openMissesBySession.openMiss s q =
        some m → q ≠ event.queryKey → (q, m) ∈ entries := by
      intro q m hm hq
      obtain ⟨hstart, hnot⟩ := (hnext.open_iff s q m).mp hm
      rw [List.forall_mem_append] at hnot
      have hbefore := (h.open_iff s q m).mpr ⟨hstart, hnot.1⟩
      obtain heq | hmem := List.mem_cons.mp (hall q m hbefore hq)
      · subst heq
        exact absurd rfl (hnot.2 _ (hclosed hq))
      · exact hmem
    obtain ⟨others, hfinal, hempty⟩ := ih hnext hdistinct.2 hkeep hrest
    exact ⟨more ++ others, by rw [← List.append_assoc]; exact hfinal, hempty⟩

theorem Closing.closeSelf
    (hempty : ∀ q, q ≠ event.queryKey → now.openMissesBySession.openMiss s q = none) :
    ∃ more, Closing event start (closeSelf event s now) (closed ++ more) ∧
      ∀ q, (closeSelf event s now).openMissesBySession.openMiss s q = none := by
  rw [Feedback.closeSelf]
  split
  · rename_i hnone
    refine ⟨[], by rw [List.append_nil]; exact h, fun q => ?_⟩
    by_cases hq : q = event.queryKey
    · subst hq
      exact hnone
    · exact hempty q hq
  · rename_i selfMiss hself
    have hnext : Closing event start (now.close selfMiss) (closed ++ [(s, selfMiss)]) :=
      h.close_next hready hs hself rfl (by rw [if_pos rfl, List.append_nil]; rfl) h.seen_eq
    refine ⟨_, hnext, fun q => ?_⟩
    rw [Option.eq_none_iff_forall_ne_some]
    intro m hm
    obtain ⟨hopen, hne⟩ := (openMiss_close (h.filed hready) hself).mp hm
    by_cases hq : q = event.queryKey
    · subst hq
      exact hne (Option.some.inj (hopen.symm.trans hself))
    · rw [hempty q hq] at hopen
      cases hopen

theorem Closing.visitSession (hhit : resolvedRecallCount event > 0) :
    ∃ more, Closing event start (visitSession event now s) (closed ++ more) ∧
      ∀ q, (visitSession event now s).openMissesBySession.openMiss s q = none := by
  have hkeep : ∀ (state : Detection) (s' q : Text),
      (state.keepSession s).openMissesBySession.openMiss s' q =
        state.openMissesBySession.openMiss s' q := by
    intro state s' q
    rw [Detection.keepSession, openMiss_set]
    split
    · rename_i hsame
      rw [hsame]
      rfl
    · rfl
  obtain ⟨more, hnext, hempty⟩ := h.foldl_visitMiss hready hs
    (now.openMissesBySession.ofSession s).distinct
    (fun e he => InsertionMap.get_eq_some_iff.mpr he)
    fun q m hm _ => InsertionMap.get_eq_some_iff.mp hm
  obtain ⟨others, hfinal, hnone⟩ := hnext.closeSelf hready hs hempty
  rw [List.append_assoc] at hfinal
  rw [Feedback.visitSession, if_pos hhit]
  refine ⟨more ++ others, ⟨?_, hfinal.closed_open, hfinal.chains_eq, hfinal.seen_eq,
    hfinal.distinct⟩, fun q => ?_⟩
  · intro s' q m
    rw [hkeep]
    exact hfinal.open_iff s' q m
  · rw [hkeep]
    exact hnone q

end

variable {event : Event Digest Score}

theorem Closing.foldl_visitSession {start now : Detection} {closed : List (Text × MissRecord)}
    (hready : Ready event start) (h : Closing event start now closed)
    (hhit : resolvedRecallCount event > 0) (sessions : List Text)
    (hsessions : ∀ s ∈ sessions, s ∈ event.sessionIds) :
    ∃ more, Closing event start (sessions.foldl (Feedback.visitSession event) now)
        (closed ++ more) ∧
      ∀ s ∈ sessions, ∀ q,
        (sessions.foldl (Feedback.visitSession event) now).openMissesBySession.openMiss s q =
          none := by
  induction sessions generalizing now closed with
  | nil => exact ⟨[], by rw [List.append_nil]; exact h, by simp⟩
  | cons s sessions ih =>
    rw [List.forall_mem_cons] at hsessions
    obtain ⟨more, hnext, hempty⟩ := h.visitSession hready hsessions.1 hhit
    obtain ⟨others, hfinal, hnone⟩ := ih hnext hsessions.2
    refine ⟨more ++ others, by rw [← List.append_assoc]; exact hfinal, ?_⟩
    rw [List.forall_mem_cons]
    refine ⟨fun q => ?_, hnone⟩
    rw [Option.eq_none_iff_forall_ne_some]
    intro m hm
    obtain ⟨hstart, hnot⟩ := (hfinal.open_iff s q m).mp hm
    rw [List.forall_mem_append] at hnot
    have hstill := (hnext.open_iff s q m).mpr ⟨hstart, hnot.1⟩
    rw [hempty q] at hstill
    cases hstill

/-! ## One event -/

def IsMiss (event : Event Digest Score) : Prop :=
  event.shown ≠ [] ∧ resolvedRecallCount event = 0

def IsHit (event : Event Digest Score) : Prop :=
  event.shown ≠ [] ∧ resolvedRecallCount event > 0

theorem visitEvent_hit {start : Detection} (hready : Ready event start) (hhit : IsHit event) :
    (∀ s q m, (visitEvent start event).openMissesBySession.openMiss s q = some m ↔
      start.openMissesBySession.openMiss s q = some m ∧
        ∀ t ∈ event.sessionIds, start.openMissesBySession.openMiss t q ≠ some m) ∧
    (∃ added, (visitEvent start event).chains = start.chains ++ added ∧
      (∀ c ∈ added, ∃ t m, t ∈ event.sessionIds ∧
        start.openMissesBySession.openMiss t m.queryKey = some m ∧
        m.queryKey ≠ event.queryKey ∧ c = chainOf event t m) ∧
      (∀ t ∈ event.sessionIds, ∀ q m, start.openMissesBySession.openMiss t q = some m →
        q ≠ event.queryKey → ∃ c ∈ added, c.missSeq = m.seq) ∧
      (added.map Chain.missSeq).Nodup) ∧
    (visitEvent start event).seenChainKeys =
      (visitEvent start event).chains.map fun c => (c.missSeq, c.hitSeq) := by
  rw [visitEvent, if_neg hhit.1]
  obtain ⟨closed, hclosed, hnone⟩ := hready.closing.foldl_visitSession hready hhit.2
    event.sessionIds fun _ hs => hs
  rw [List.nil_append] at hclosed
  have hunique : ∀ {t q m}, t ∈ event.sessionIds →
      start.openMissesBySession.openMiss t q = some m → ∃ p ∈ closed, p.2 = m := by
    intro t q m ht hm
    by_contra hnot
    have hstill := (hclosed.open_iff t q m).mpr ⟨hm, fun p hp heq => hnot ⟨p, hp, heq⟩⟩
    rw [hnone t ht q] at hstill
    cases hstill
  refine ⟨fun s q m => ?_, ⟨_, hclosed.chains_eq, ?_, ?_, ?_⟩, hclosed.seen_eq⟩
  · rw [hclosed.open_iff]
    refine and_congr_right fun hm => ⟨fun hnot t ht htm => ?_, fun hnot p hp heq => ?_⟩
    · obtain ⟨p, hp, heq⟩ := hunique ht htm
      exact hnot p hp heq
    · obtain ⟨hsession, hopen⟩ := hclosed.closed_open p hp
      rw [heq, (hready.filed.filed s q m hm).1] at hopen
      exact hnot p.1 hsession hopen
  · intro c hc
    obtain ⟨p, hp, rfl⟩ := List.mem_map.mp hc
    obtain ⟨hmem, hkey⟩ := List.mem_filter.mp hp
    obtain ⟨hsession, hopen⟩ := hclosed.closed_open p hmem
    exact ⟨p.1, p.2, hsession, hopen, by simpa using hkey, rfl⟩
  · intro t ht q m hm hq
    obtain ⟨p, hp, rfl⟩ := hunique ht hm
    have hkey := (hready.filed.filed t q p.2 hm).1
    refine ⟨chainOf event p.1 p.2, List.mem_map.mpr ⟨p, List.mem_filter.mpr ⟨hp, ?_⟩, rfl⟩, rfl⟩
    simpa [hkey] using hq
  · -- Closed misses with one sequence number are one miss.
    rw [List.map_map]
    have hdistinct := hclosed.distinct
    rw [List.Nodup, List.pairwise_map] at hdistinct
    rw [List.Nodup, List.pairwise_map]
    refine (hdistinct.filter _).imp_of_mem fun {p p'} hp hp' hne heq => hne ?_
    exact hready.filed.unique _ _ _ _ _ _
      (hclosed.closed_open p (List.mem_filter.mp hp).1).2
      (hclosed.closed_open p' (List.mem_filter.mp hp').1).2 heq

theorem foldl_visitSession_miss (hmiss : resolvedRecallCount event = 0) (sessions : List Text)
    (start : Detection) :
    (∀ s q, (sessions.foldl (visitSession event) start).openMissesBySession.openMiss s q =
      if s ∈ sessions ∧ q = event.queryKey then some (missRecord event)
      else start.openMissesBySession.openMiss s q) ∧
    (sessions.foldl (visitSession event) start).chains = start.chains ∧
    (sessions.foldl (visitSession event) start).seenChainKeys = start.seenChainKeys := by
  induction sessions generalizing start with
  | nil => exact ⟨fun s q => by simp, rfl, rfl⟩
  | cons t sessions ih =>
    have hvisit : visitSession event start t = { start with
        openMissesBySession := start.openMissesBySession.set t
          ((start.openMissesBySession.ofSession t).set event.queryKey (missRecord event)) } := by
      rw [visitSession, if_neg (by omega)]
    have hstep : ∀ s q, (visitSession event start t).openMissesBySession.openMiss s q =
        if s = t ∧ q = event.queryKey then some (missRecord event)
        else start.openMissesBySession.openMiss s q := by
      intro s q
      rw [hvisit, openMiss_set, InsertionMap.get_set]
      by_cases hs : s = t
      · subst hs
        rw [if_pos rfl]
        simp only [true_and]
        rfl
      · rw [if_neg hs, if_neg fun h => hs h.1]
    obtain ⟨hopen, hchains, hseen⟩ := ih (visitSession event start t)
    rw [List.foldl_cons]
    refine ⟨fun s q => ?_, by rw [hchains, hvisit], by rw [hseen, hvisit]⟩
    rw [hopen, hstep]
    by_cases hq : q = event.queryKey
    · by_cases hs : s ∈ sessions
      · simp [hs, hq]
      · by_cases ht : s = t
        · simp [ht, hq]
        · simp [hs, ht]
    · simp [hq]

/-! ## Runs -/

/-- In a session of both, the hit finds the miss: no newer one with its query took its place. -/
def ReachesIn (events : List (Event Digest Score)) (miss hit : Event Digest Score) (s : Text) :
    Prop :=
  s ∈ miss.sessionIds ∧ s ∈ hit.sessionIds ∧ ∀ newer ∈ events, miss.seq < newer.seq →
    newer.seq < hit.seq → IsMiss newer → newer.queryKey = miss.queryKey → s ∉ newer.sessionIds

/-- Does the hit find the miss in some session? -/
def Reaches (events : List (Event Digest Score)) (miss hit : Event Digest Score) : Prop :=
  IsHit hit ∧ miss.seq < hit.seq ∧ ∃ s, ReachesIn events miss hit s

/-- The hit finds the miss, and none did before. -/
def First (events : List (Event Digest Score)) (miss hit : Event Digest Score) : Prop :=
  Reaches events miss hit ∧ ∀ earlier ∈ events, earlier.seq < hit.seq →
    ¬ Reaches events miss earlier

/-- What the loop has found of the events so far. -/
structure Tracks (events : List (Event Digest Score)) (state : Detection) : Prop where
  open_iff : ∀ s q m, state.openMissesBySession.openMiss s q = some m ↔
    ∃ miss ∈ events, IsMiss miss ∧ missRecord miss = m ∧ miss.queryKey = q ∧ s ∈ miss.sessionIds ∧
      (∀ newer ∈ events, miss.seq < newer.seq → IsMiss newer → newer.queryKey = q →
        s ∉ newer.sessionIds) ∧
      ∀ hit ∈ events, ¬ Reaches events miss hit
  sound : ∀ c ∈ state.chains, ∃ miss ∈ events, ∃ hit ∈ events, IsMiss miss ∧
    c = chainOf hit c.sessionId (missRecord miss) ∧ ReachesIn events miss hit c.sessionId ∧
    miss.queryKey ≠ hit.queryKey ∧ First events miss hit
  complete : ∀ miss ∈ events, ∀ hit ∈ events, IsMiss miss → First events miss hit →
    miss.queryKey ≠ hit.queryKey → ∃ c ∈ state.chains, c.missSeq = miss.seq
  distinct : (state.chains.map Chain.missSeq).Nodup
  seen_eq : state.seenChainKeys = state.chains.map fun c => (c.missSeq, c.hitSeq)

/-- In the order of time, no two events with one sequence number. -/
def Chronological (events : List (Event Digest Score)) : Prop :=
  events.Pairwise fun a b => a.seq < b.seq

theorem Chronological.eq_of_seq {events : List (Event Digest Score)} (h : Chronological events)
    {a b : Event Digest Score} (ha : a ∈ events) (hb : b ∈ events) (hseq : a.seq = b.seq) :
    a = b := by
  have hnodup : (events.map Event.seq).Nodup := by
    rw [List.Nodup, List.pairwise_map]
    exact h.imp fun hlt => Nat.ne_of_lt hlt
  exact List.inj_on_of_nodup_map hnodup ha hb hseq

section

variable {events : List (Event Digest Score)} {event : Event Digest Score}
  (hlast : ∀ earlier ∈ events, earlier.seq < event.seq)

include hlast

omit hlast in
/-- What comes later does not matter for whether a hit finds a miss. -/
theorem reachesIn_append_of_le {miss hit : Event Digest Score} (hhit : hit.seq ≤ event.seq)
    {s : Text} : ReachesIn (events ++ [event]) miss hit s ↔ ReachesIn events miss hit s := by
  refine and_congr_right fun _ => and_congr_right fun _ => ?_
  rw [List.forall_mem_append, List.forall_mem_singleton, and_iff_left_iff_imp]
  intro _ _ hbetween
  omega

omit hlast in
theorem reaches_append {miss hit : Event Digest Score} (hhit : hit.seq ≤ event.seq) :
    Reaches (events ++ [event]) miss hit ↔ Reaches events miss hit := by
  refine and_congr_right fun _ => and_congr_right fun _ => exists_congr fun s => ?_
  exact reachesIn_append_of_le hhit

theorem first_append {miss hit : Event Digest Score} (hhit : hit.seq ≤ event.seq) :
    First (events ++ [event]) miss hit ↔ First events miss hit := by
  refine and_congr (reaches_append hhit) ?_
  rw [List.forall_mem_append, List.forall_mem_singleton]
  constructor
  · rintro ⟨hnone, -⟩ earlier hearlier hlt hreaches
    have hle := Nat.le_of_lt (hlast earlier hearlier)
    exact hnone earlier hearlier hlt ((reaches_append hle).mpr hreaches)
  · intro hnone
    refine ⟨fun earlier hearlier hlt hreaches => ?_, fun hlt => by omega⟩
    have hle := Nat.le_of_lt (hlast earlier hearlier)
    exact hnone earlier hearlier hlt ((reaches_append hle).mp hreaches)

/-- Nothing is found that is not in the past. -/
theorem unreached_append {miss : Event Digest Score} :
    (∀ hit ∈ events ++ [event], ¬ Reaches (events ++ [event]) miss hit) ↔
      (∀ hit ∈ events, ¬ Reaches events miss hit) ∧ ¬ Reaches events miss event := by
  rw [List.forall_mem_append, List.forall_mem_singleton]
  refine and_congr (forall₂_congr fun hit hhit => ?_) (not_congr (reaches_append (Nat.le_refl _)))
  exact not_congr (reaches_append (Nat.le_of_lt (hlast hit hhit)))

variable {state : Detection} (h : Tracks events state) (hevents : Chronological events)

include h hevents

omit hlast in
/-- A miss that no hit has found is open where no newer one took its place. -/
theorem Tracks.open_of_unreached {miss : Event Digest Score} (hmem : miss ∈ events)
    (hmiss : IsMiss miss) (hunreached : ∀ hit ∈ events, ¬ Reaches events miss hit) {s : Text} :
    state.openMissesBySession.openMiss s miss.queryKey = some (missRecord miss) ↔
      s ∈ miss.sessionIds ∧ ∀ newer ∈ events, miss.seq < newer.seq → IsMiss newer →
        newer.queryKey = miss.queryKey → s ∉ newer.sessionIds := by
  rw [h.open_iff]
  constructor
  · rintro ⟨other, hother, -, hrecord, -, hsession, hnewer, -⟩
    obtain rfl := hevents.eq_of_seq hother hmem (congrArg MissRecord.seq hrecord)
    exact ⟨hsession, hnewer⟩
  · rintro ⟨hsession, hnewer⟩
    exact ⟨miss, hmem, hmiss, rfl, rfl, hsession, hnewer, hunreached⟩

theorem Tracks.ready : Ready event state where
  filed := by
    refine ⟨fun s q m hm => ?_, fun s q m s' q' m' hm hm' hseq => ?_⟩
    · obtain ⟨miss, -, -, rfl, hkey, hsession, -⟩ := (h.open_iff s q m).mp hm
      exact ⟨hkey, hsession⟩
    · obtain ⟨miss, hmem, -, rfl, -⟩ := (h.open_iff s q m).mp hm
      obtain ⟨miss', hmem', -, rfl, -⟩ := (h.open_iff s' q' m').mp hm'
      rw [hevents.eq_of_seq hmem hmem' hseq]
  seen_eq := h.seen_eq
  fresh := by
    intro c hc
    obtain ⟨miss, -, hit, hhit, -, heq, -⟩ := h.sound c hc
    rw [heq]
    exact Nat.ne_of_lt (hlast hit hhit)

theorem Tracks.reaches_event {miss : Event Digest Score} (hmem : miss ∈ events)
    (hmiss : IsMiss miss) (hunreached : ∀ hit ∈ events, ¬ Reaches events miss hit) {s : Text} :
    ReachesIn events miss event s ↔ s ∈ event.sessionIds ∧
      state.openMissesBySession.openMiss s miss.queryKey = some (missRecord miss) := by
  rw [h.open_of_unreached hevents hmem hmiss hunreached, ReachesIn, and_left_comm]
  refine and_congr_right fun _ => and_congr_right fun _ => forall₂_congr fun newer hnewer => ?_
  have hlt := hlast newer hnewer
  simp [hlt]

omit hevents in
/-- Chains found before stay right. -/
theorem Tracks.sound_append {c : Chain} (hc : c ∈ state.chains) :
    ∃ miss ∈ events ++ [event], ∃ hit ∈ events ++ [event], IsMiss miss ∧
      c = chainOf hit c.sessionId (missRecord miss) ∧
      ReachesIn (events ++ [event]) miss hit c.sessionId ∧ miss.queryKey ≠ hit.queryKey ∧
      First (events ++ [event]) miss hit := by
  obtain ⟨miss, hmiss, hit, hhit, hismiss, heq, hin, hkey, hfirst⟩ := h.sound c hc
  have hle := Nat.le_of_lt (hlast hit hhit)
  exact ⟨miss, List.mem_append_left _ hmiss, hit, List.mem_append_left _ hhit, hismiss, heq,
    (reachesIn_append_of_le hle).mpr hin, hkey, (first_append hlast hle).mpr hfirst⟩

omit hevents in
theorem Tracks.complete_append {miss hit : Event Digest Score} (hmiss : miss ∈ events ++ [event])
    (hhit : hit ∈ events) (hismiss : IsMiss miss) (hfirst : First (events ++ [event]) miss hit)
    (hkey : miss.queryKey ≠ hit.queryKey) : ∃ c ∈ state.chains, c.missSeq = miss.seq := by
  have hlt := hlast hit hhit
  obtain hmem | hself := List.mem_append.mp hmiss
  · exact h.complete miss hmem hit hhit hismiss
      ((first_append hlast (Nat.le_of_lt hlt)).mp hfirst) hkey
  · obtain rfl := List.mem_singleton.mp hself
    have := hfirst.1.2.1
    omega

omit hevents in
theorem Tracks.of_no_hit {next : Detection} (hno : ¬ IsHit event)
    (hchains : next.chains = state.chains) (hseen : next.seenChainKeys = state.seenChainKeys)
    (hopen : ∀ s q m, next.openMissesBySession.openMiss s q = some m ↔
      (s ∈ event.sessionIds ∧ q = event.queryKey ∧ IsMiss event ∧ m = missRecord event) ∨
      ¬ (s ∈ event.sessionIds ∧ q = event.queryKey ∧ IsMiss event) ∧
        state.openMissesBySession.openMiss s q = some m) :
    Tracks (events ++ [event]) next where
  open_iff s q m := by
    rw [hopen, h.open_iff]
    constructor
    · rintro (⟨hsession, rfl, hmiss, rfl⟩ | ⟨hnot, miss, hmem, hmiss, hrecord, hkey, hsession,
        hnewer, hunreached⟩)
      · refine ⟨event, List.mem_append_right _ (List.mem_singleton_self _), hmiss, rfl, rfl,
          hsession, ?_, ?_⟩
        · rw [List.forall_mem_append, List.forall_mem_singleton]
          refine ⟨fun newer hnewer hlt => ?_, fun hlt => absurd hlt (Nat.lt_irrefl _)⟩
          exact absurd hlt (Nat.lt_asymm (hlast newer hnewer))
        · rw [unreached_append hlast]
          refine ⟨fun hit hhit hreaches => ?_, fun hreaches => hno hreaches.1⟩
          exact Nat.lt_asymm hreaches.2.1 (hlast hit hhit)
      · refine ⟨miss, List.mem_append_left _ hmem, hmiss, hrecord, hkey, hsession, ?_, ?_⟩
        · rw [List.forall_mem_append, List.forall_mem_singleton]
          exact ⟨hnewer, fun _ hismiss hsame hin => hnot ⟨hin, hsame.symm, hismiss⟩⟩
        · rw [unreached_append hlast]
          exact ⟨hunreached, fun hreaches => hno hreaches.1⟩
    · rintro ⟨miss, hmem, hmiss, hrecord, hkey, hsession, hnewer, hunreached⟩
      rw [List.forall_mem_append, List.forall_mem_singleton] at hnewer
      rw [unreached_append hlast] at hunreached
      obtain hmem | hself := List.mem_append.mp hmem
      · refine .inr ⟨?_, miss, hmem, hmiss, hrecord, hkey, hsession, hnewer.1, hunreached.1⟩
        rintro ⟨hin, hsame, hismiss⟩
        exact hnewer.2 (hlast miss hmem) hismiss hsame.symm hin
      · obtain rfl := List.mem_singleton.mp hself
        exact .inl ⟨hsession, hkey.symm, hmiss, hrecord.symm⟩
  sound c hc := h.sound_append hlast (hchains ▸ hc)
  complete miss hmiss hit hhit hismiss hfirst hkey := by
    rw [hchains]
    obtain hmem | hself := List.mem_append.mp hhit
    · exact h.complete_append hlast hmiss hmem hismiss hfirst hkey
    · obtain rfl := List.mem_singleton.mp hself
      exact absurd hfirst.1.1 hno
  distinct := hchains ▸ h.distinct
  seen_eq := by rw [hseen, hchains, h.seen_eq]

/-- A hit chains what it finds first. -/
theorem Tracks.of_hit (hhit : IsHit event) : Tracks (events ++ [event]) (visitEvent state event) := by
  have hready : Ready event state := h.ready hlast hevents
  obtain ⟨hopen, ⟨added, hchains, hsound, hcomplete, hdistinct⟩, hseen⟩ :=
    visitEvent_hit hready hhit
  have hevent : event ∈ events ++ [event] := List.mem_append_right _ (List.mem_singleton_self _)
  -- A miss open in a session of the hit is found there.
  have hfind : ∀ t m, t ∈ event.sessionIds →
      state.openMissesBySession.openMiss t m.queryKey = some m →
      ∃ miss ∈ events, IsMiss miss ∧ missRecord miss = m ∧ ReachesIn events miss event t ∧
        (∀ hit ∈ events, ¬ Reaches events miss hit) := by
    intro t m ht hm
    obtain ⟨miss, hmem, hmiss, rfl, -, -, -, hunreached⟩ := (h.open_iff t m.queryKey m).mp hm
    exact ⟨miss, hmem, hmiss, rfl,
      (h.reaches_event hlast hevents hmem hmiss hunreached).mpr ⟨ht, hm⟩, hunreached⟩
  refine ⟨fun s q m => ?_, fun c hc => ?_, fun miss hmiss hit hhit' hismiss hfirst hkey => ?_, ?_,
    hseen⟩
  · rw [hopen, h.open_iff]
    constructor
    · rintro ⟨⟨miss, hmem, hmiss, rfl, rfl, hsession, hnewer, hunreached⟩, hnot⟩
      refine ⟨miss, List.mem_append_left _ hmem, hmiss, rfl, rfl, hsession, ?_, ?_⟩
      · rw [List.forall_mem_append, List.forall_mem_singleton]
        exact ⟨hnewer, fun _ hismiss => absurd hhit.2 (by rw [hismiss.2]; exact Nat.lt_irrefl 0)⟩
      · rw [unreached_append hlast]
        refine ⟨hunreached, ?_⟩
        rintro ⟨-, -, t, hin⟩
        obtain ⟨ht, hm⟩ := (h.reaches_event hlast hevents hmem hmiss hunreached).mp hin
        exact hnot t ht hm
    · rintro ⟨miss, hmem, hmiss, rfl, rfl, hsession, hnewer, hunreached⟩
      rw [List.forall_mem_append] at hnewer
      rw [unreached_append hlast] at hunreached
      obtain hmem | hself := List.mem_append.mp hmem
      · refine ⟨⟨miss, hmem, hmiss, rfl, rfl, hsession, hnewer.1, hunreached.1⟩, ?_⟩
        intro t ht hm
        have hin := (h.reaches_event hlast hevents hmem hmiss hunreached.1).mpr ⟨ht, hm⟩
        exact hunreached.2 ⟨hhit, hlast miss hmem, t, hin⟩
      · obtain rfl := List.mem_singleton.mp hself
        exact absurd hhit.2 (by rw [hmiss.2]; exact Nat.lt_irrefl 0)
  · rw [hchains] at hc
    obtain hold | hnew := List.mem_append.mp hc
    · exact h.sound_append hlast hold
    · obtain ⟨t, m, ht, hm, hkey, rfl⟩ := hsound c hnew
      obtain ⟨miss, hmem, hmiss, rfl, hin, hunreached⟩ := hfind t m ht hm
      refine ⟨miss, List.mem_append_left _ hmem, event, hevent, hmiss, rfl,
        (reachesIn_append_of_le (Nat.le_refl _)).mpr hin, hkey, ?_⟩
      rw [first_append hlast (Nat.le_refl _)]
      exact ⟨⟨hhit, hlast miss hmem, t, hin⟩, fun earlier hearlier _ => hunreached earlier hearlier⟩
  · rw [hchains]
    obtain hmem | hself := List.mem_append.mp hhit'
    · obtain ⟨c, hc, hseq⟩ := h.complete_append hlast hmiss hmem hismiss hfirst hkey
      exact ⟨c, List.mem_append_left _ hc, hseq⟩
    · obtain rfl := List.mem_singleton.mp hself
      rw [first_append hlast (Nat.le_refl _)] at hfirst
      obtain ⟨⟨-, hlt, t, hin⟩, hnone⟩ := hfirst
      obtain hmem | hself := List.mem_append.mp hmiss
      · have hunreached : ∀ earlier ∈ events, ¬ Reaches events miss earlier :=
          fun earlier hearlier => hnone earlier hearlier (hlast earlier hearlier)
        obtain ⟨ht, hm⟩ := (h.reaches_event hlast hevents hmem hismiss hunreached).mp hin
        obtain ⟨c, hc, hseq⟩ := hcomplete t ht _ _ hm hkey
        exact ⟨c, List.mem_append_right _ hc, hseq⟩
      · obtain rfl := List.mem_singleton.mp hself
        exact absurd hlt (Nat.lt_irrefl _)
  · rw [hchains, List.map_append, List.nodup_append]
    refine ⟨h.distinct, hdistinct, ?_⟩
    rintro seq hold seq' hnew rfl
    obtain ⟨c, hc, rfl⟩ := List.mem_map.mp hold
    obtain ⟨c', hc', heq⟩ := List.mem_map.mp hnew
    -- The miss of an old chain has been found, that of a new one has not.
    obtain ⟨miss, hmem, hit, hhit', -, hchain, -, -, hfirst⟩ := h.sound c hc
    obtain ⟨t, m, ht, hm, -, rfl⟩ := hsound c' hc'
    obtain ⟨miss', hmem', -, rfl, -, hunreached⟩ := hfind t m ht hm
    have hseq : miss'.seq = miss.seq := by
      have := congrArg Chain.missSeq hchain
      exact heq.trans this
    obtain rfl := hevents.eq_of_seq hmem' hmem hseq
    exact hunreached hit hhit' hfirst.1

theorem Tracks.visitEvent : Tracks (events ++ [event]) (visitEvent state event) := by
  by_cases hhit : IsHit event
  · exact h.of_hit hlast hevents hhit
  · by_cases hshown : event.shown = []
    · rw [Feedback.visitEvent, if_pos hshown]
      have hmiss : ¬ IsMiss event := fun hmiss => hmiss.1 hshown
      refine h.of_no_hit hlast hhit rfl rfl fun s q m => ?_
      simp [hmiss]
    · have hzero : resolvedRecallCount event = 0 := by
        by_contra hne
        exact hhit ⟨hshown, Nat.pos_of_ne_zero hne⟩
      have hmiss : IsMiss event := ⟨hshown, hzero⟩
      rw [Feedback.visitEvent, if_neg hshown]
      obtain ⟨hopen, hchains, hseen⟩ := foldl_visitSession_miss hzero event.sessionIds state
      refine h.of_no_hit hlast hhit hchains hseen fun s q m => ?_
      rw [hopen]
      by_cases hset : s ∈ event.sessionIds ∧ q = event.queryKey
      · simp [hset, hmiss, eq_comm]
      · rw [if_neg hset]
        constructor
        · intro hm
          exact .inr ⟨fun hin => hset ⟨hin.1, hin.2.1⟩, hm⟩
        · rintro (hin | ⟨-, hm⟩)
          · exact absurd ⟨hin.1, hin.2.1⟩ hset
          · exact hm

end

variable {events : List (Event Digest Score)}

/-- The loop keeps track of the events it has seen. -/
theorem tracks_detection (h : Chronological events) : Tracks events (detection events) := by
  induction events using List.reverseRecOn with
  | nil =>
    refine ⟨fun s q m => ?_, by simp [detection], by simp, by simp [detection], rfl⟩
    constructor
    · intro hm
      cases hm
    · rintro ⟨miss, hmem, -⟩
      cases hmem
  | append_singleton events event ih =>
    obtain ⟨hevents, -, hlast⟩ := List.pairwise_append.mp h
    rw [detection, List.foldl_concat]
    exact (ih hevents).visitEvent (fun earlier hearlier => hlast earlier hearlier event
      (List.mem_singleton_self _)) hevents

/-! ## The claim of the chains -/

/-- A differently worded later hit in a session of the miss, with no hit and no newer miss of its
query in that session in between. -/
structure Pairs (events : List (Event Digest Score)) (miss hit : Event Digest Score) (s : Text) :
    Prop where
  resolved : IsHit hit
  later : miss.seq < hit.seq
  inMiss : s ∈ miss.sessionIds
  inHit : s ∈ hit.sessionIds
  differs : miss.queryKey ≠ hit.queryKey
  between : ∀ other ∈ events, miss.seq < other.seq → other.seq < hit.seq →
    other.queryKey = miss.queryKey → s ∈ other.sessionIds → ¬ IsMiss other ∧ ¬ IsHit other

theorem exists_first {miss hit : Event Digest Score} (hhit : hit ∈ events)
    (h : Reaches events miss hit) :
    ∃ first ∈ events, First events miss first ∧ first.seq ≤ hit.seq := by
  induction hseq : hit.seq using Nat.strong_induction_on generalizing hit with
  | _ seq ih =>
    by_cases hfirst : ∀ earlier ∈ events, earlier.seq < hit.seq → ¬ Reaches events miss earlier
    · exact ⟨hit, hhit, ⟨h, hfirst⟩, Nat.le_of_eq hseq⟩
    · push Not at hfirst
      obtain ⟨earlier, hearlier, hlt, hreaches⟩ := hfirst
      obtain ⟨first, hmem, hfound, hle⟩ := ih earlier.seq (hseq ▸ hlt) hearlier hreaches rfl
      exact ⟨first, hmem, hfound, by omega⟩

theorem pairs_of_first {miss hit : Event Digest Score} {s : Text}
    (hin : ReachesIn events miss hit s) (hkey : miss.queryKey ≠ hit.queryKey)
    (hfirst : First events miss hit) : Pairs events miss hit s := by
  refine ⟨hfirst.1.1, hfirst.1.2.1, hin.1, hin.2.1, hkey, ?_⟩
  intro other hother hafter hbefore hsame hsession
  refine ⟨fun hmiss => hin.2.2 other hother hafter hbefore hmiss hsame hsession, fun hhit => ?_⟩
  -- A hit in between would have found the miss in the same session.
  refine hfirst.2 other hother hbefore ⟨hhit, hafter, s, hin.1, hsession, ?_⟩
  intro newer hnewer hlt hlt' hmiss
  exact hin.2.2 newer hnewer hlt (Nat.lt_trans hlt' hbefore) hmiss

/-- Every miss is in at most one chain; a chain pairs a miss with a hit; and a miss with a pairing
hit is in a chain unless a hit for its own query found it first. -/
theorem chains_pair_misses (events : List (Event Digest Score)) (limit : Nat)
    (h : Chronological events) : ∃ chains : List Chain,
    (detectReformulationChains events limit).chains = chains.take limit ∧
    (detectReformulationChains events limit).chainCount = chains.length ∧
    (chains.map Chain.missSeq).Nodup ∧
    (∀ c ∈ chains, ∃ miss ∈ events, ∃ hit ∈ events, IsMiss miss ∧
      c = chainOf hit c.sessionId (missRecord miss) ∧ Pairs events miss hit c.sessionId) ∧
    ∀ miss ∈ events, IsMiss miss → ((∃ c ∈ chains, c.missSeq = miss.seq) ↔
      ∃ hit ∈ events, (∃ s, Pairs events miss hit s) ∧ ∀ own ∈ events, own.seq < hit.seq →
        own.queryKey = miss.queryKey → ¬ Reaches events miss own) := by
  have htracks := tracks_detection h
  refine ⟨(detection events).chains, rfl, rfl, htracks.distinct, ?_, ?_⟩
  · intro c hc
    obtain ⟨miss, hmem, hit, hhit, hmiss, heq, hin, hkey, hfirst⟩ := htracks.sound c hc
    exact ⟨miss, hmem, hit, hhit, hmiss, heq, pairs_of_first hin hkey hfirst⟩
  · intro miss hmem hmiss
    constructor
    · rintro ⟨c, hc, hseq⟩
      obtain ⟨miss', hmem', hit, hhit, -, heq, hin, hkey, hfirst⟩ := htracks.sound c hc
      have hsame : miss'.seq = miss.seq := (congrArg Chain.missSeq heq).symm.trans hseq
      obtain rfl := h.eq_of_seq hmem' hmem hsame
      exact ⟨hit, hhit, ⟨_, pairs_of_first hin hkey hfirst⟩,
        fun own hown hlt _ => hfirst.2 own hown hlt⟩
    · rintro ⟨hit, hhit, ⟨s, hpairs⟩, hown⟩
      have hreaches : Reaches events miss hit := by
        refine ⟨hpairs.resolved, hpairs.later, s, hpairs.inMiss, hpairs.inHit, ?_⟩
        intro newer hnewer hafter hbefore hnewmiss hkey hsession
        exact (hpairs.between newer hnewer hafter hbefore hkey hsession).1 hnewmiss
      obtain ⟨first, hfirst, hfound, hle⟩ := exists_first hhit hreaches
      refine htracks.complete miss hmem first hfirst hmiss hfound fun hkey => ?_
      obtain hlt | heq := Nat.lt_or_eq_of_le hle
      · exact hown first hfirst hlt hkey.symm hfound.1
      · rw [h.eq_of_seq hfirst hhit heq] at hkey
        exact hpairs.differs hkey

/-- An event of one shown result, recalled or not. -/
def chainEvent (seq : Nat) (queryKey : Text) (sessionIds : List Text) (recalled : Bool) :
    Event Unit Unit where
  seq
  project := []
  query := queryKey
  queryKey
  mode := none
  status := none
  createdAt := 0
  shownCount := 1
  shown := [⟨0, [], 1, [], none, none, ()⟩]
  recalls := if recalled then [⟨(), 0, some (text "resolved")⟩] else []
  sessionIds

theorem chains_pair_misses_example : ∃ chains : List Chain,
    (detectReformulationChains [chainEvent 1 [1] [[8], [9]] false, chainEvent 2 [2] [[9]] true]
      50).chains = chains.take 50 ∧ ∃ c ∈ chains, c.missSeq = 1 := by
  have h : Chronological
      [chainEvent 1 [1] [[8], [9]] false, chainEvent 2 [2] [[9]] true] := by
    rw [Chronological, List.pairwise_pair]
    decide
  obtain ⟨chains, htake, -, -, -, hiff⟩ := chains_pair_misses _ 50 h
  refine ⟨chains, htake, (hiff _ List.mem_cons_self ⟨List.cons_ne_nil _ _, rfl⟩).mpr ?_⟩
  refine ⟨chainEvent 2 [2] [[9]] true, by simp, ⟨[9], ⟨List.cons_ne_nil _ _, by decide⟩, by decide,
    by decide, by decide, by decide, ?_⟩, ?_⟩
  · rw [List.forall_mem_cons, List.forall_mem_singleton]
    exact ⟨fun hlt => absurd hlt (by decide), fun _ hlt => absurd hlt (by decide)⟩
  · rw [List.forall_mem_cons, List.forall_mem_singleton]
    exact ⟨fun _ _ hreaches => absurd hreaches.1.2 (by decide), fun hlt => absurd hlt (by decide)⟩

/-- A miss of two sessions, recalled in the first and followed by another query in the second: the
recall closes it in both. -/
theorem recalled_miss_not_chained :
    detectReformulationChains [chainEvent 1 [1] [[8], [9]] false, chainEvent 2 [1] [[8]] true,
      chainEvent 3 [2] [[9]] true] 50 = ⟨0, [], []⟩ ∧
    IsMiss (chainEvent 1 [1] [[8], [9]] false) ∧
    Pairs [chainEvent 1 [1] [[8], [9]] false, chainEvent 2 [1] [[8]] true,
      chainEvent 3 [2] [[9]] true] (chainEvent 1 [1] [[8], [9]] false) (chainEvent 3 [2] [[9]] true)
      [9] := by
  refine ⟨by decide, ⟨List.cons_ne_nil _ _, rfl⟩, ⟨List.cons_ne_nil _ _, by decide⟩, by decide,
    by decide, by decide, by decide, ?_⟩
  rw [List.forall_mem_cons, List.forall_mem_cons, List.forall_mem_singleton]
  exact ⟨fun hlt => absurd hlt (by decide), fun _ _ _ hin => absurd hin (by decide),
    fun _ hlt => absurd hlt (by decide)⟩

end ContextStore.Feedback
