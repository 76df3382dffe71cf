import ContextStore.Session.Quiet

/-! # Calls that throw

`archiveTurns` puts the state of the window back when it throws. `process` does not: it gives up a
boundary that is not in the history, moves the boundary, and clears a rotation asked for, each before
steps that may still throw. A call that throws leaves the window as it was exactly if it throws
before the first of these. -/

namespace ContextStore.Session

open Unicode Archive Effects

variable {σ : Type} (S : Setting) (A : Analysis) (config : Config) (host : Host σ)

/-! ## Archiving turns -/

/-- The index of rotated turns with the staged turns, if they are recorded there. -/
def stagedToc (recordToc : Bool) (staged : List StagedTurn) (toc : List TocEntry) : List TocEntry :=
  lastItems TOC_MAX_ENTRIES (toc ++ if recordToc then staged.flatMap (·.entries) else [])

/-- What a call that archived turns did to the session. -/
structure Archived (m n : Machine σ) (recordToc : Bool) (staged : List StagedTurn) : Prop where
  window : n.session.windowState = { m.session.windowState with
    toc := stagedToc recordToc staged m.session.toc
    archivedTurnEntries := (staged.filter (·.fresh)).foldl setEntries
      m.session.archivedTurnEntries }
  checkpoint : n.session.completedArchiveCheckpoint = m.session.completedArchiveCheckpoint
  emitted : ∀ state ∈ n.emitted, state ∈ m.emitted ∨
    state.completedArchiveState = m.session.completedArchiveCheckpoint

def stageTurns (messages : List Message) : Step σ (List StagedTurn) :=
  Effect.mapList (archiveTurn S A config host) (groupCompleteTurns messages)

theorem quiet_stageTurns (messages : List Message) :
    Moves Quiet (stageTurns S A config host messages) :=
  Moves.mapList (quiet_archiveTurn S A config host) _

variable {S A config host} {messages : List Message} {recordToc : Bool} {m n : Machine σ}

theorem archiveTurns_eq_ok
    (h : (archiveTurns S A config host messages recordToc).run m = (.ok (), n)) :
    ∃ staged t, (stageTurns S A config host messages).run m = (.ok staged, t) ∧
      Archived m n recordToc staged ∧ ∀ chunk ∈ t.acknowledged, chunk ∈ n.acknowledged := by
  unfold archiveTurns at h
  rw [run_getSession_bind] at h
  obtain ⟨staged, t, hstage, h⟩ := Effect.bind_eq_ok.mp h
  rw [Effect.tryCatch_eq_ok fun e => Effect.fails_bind fun _ => Effect.fails_bind fun _ =>
    Effect.fails_throw e] at hstage
  rw [run_onSession_bind, Effect.tryCatch_eq_ok fun e => Effect.fails_bind fun _ =>
    Effect.fails_bind fun _ => Effect.fails_throw e] at h
  obtain ⟨_, u, hrefresh, hcommit⟩ := Effect.bind_eq_ok.mp h
  rw [run_onSession] at hcommit
  obtain rfl : n = _ := (congrArg Prod.snd hcommit).symm
  have hstaged := (quiet_stageTurns S A config host messages).of_run hstage
  have hrefreshed := (quiet_refreshArchiveProtection config host).of_run hrefresh
  refine ⟨staged, t, hstage, ⟨?_, ?_, ?_⟩, hrefreshed.acknowledged⟩
  · have hwindow := hrefreshed.window
    have hbefore := hstaged.window
    simp only [EpochWindowSession.windowState, WindowState.mk.injEq] at hwindow hbefore ⊢
    obtain ⟨hboundary, hrebalance, hrotations, htoc, hentries, hforce⟩ := hwindow
    obtain ⟨hboundary', hrebalance', hrotations', htoc', hentries', hforce'⟩ := hbefore
    refine ⟨hboundary.trans hboundary', hrebalance.trans hrebalance',
      hrotations.trans hrotations', ?_, ?_, hforce.trans hforce'⟩
    · rw [htoc, htoc', stagedToc]
    · rw [hentries, hentries']
  · exact hrefreshed.checkpoint.trans hstaged.checkpoint
  · intro state hstate
    rcases hrefreshed.emitted state hstate with hold | hnew
    · exact hstaged.emitted state hold
    · exact Or.inr (hnew.trans hstaged.checkpoint)

theorem archiveTurns_eq_error {e : StoreError}
    (h : (archiveTurns S A config host messages recordToc).run m = (.error e, n)) :
    n.session.windowState = m.session.windowState ∧
      n.session.completedArchiveCheckpoint = m.session.completedArchiveCheckpoint := by
  unfold archiveTurns at h
  rw [run_getSession_bind] at h
  rcases Effect.bind_eq_error.mp h with hstage | ⟨staged, t, hstage, hcommit⟩
  · obtain ⟨e', t, hstage, hhandler⟩ := Effect.tryCatch_eq_error.mp hstage
    have hstaged := (quiet_stageTurns S A config host messages).of_run hstage
    rw [run_onSession_bind] at hhandler
    have hrefreshed := (Moves.bind (quiet_refreshArchiveProtection config host) fun _ =>
      Moves.throw e').of_run hhandler
    refine ⟨hrefreshed.window.trans ?_, hrefreshed.checkpoint.trans hstaged.checkpoint⟩
    have hwindow := hstaged.window
    simp only [EpochWindowSession.windowState, WindowState.mk.injEq] at hwindow ⊢
    obtain ⟨hboundary, hrebalance, hrotations, htoc, -, hforce⟩ := hwindow
    exact ⟨hboundary, hrebalance, hrotations, htoc, trivial, hforce⟩
  · rw [Effect.tryCatch_eq_ok fun e => Effect.fails_bind fun _ => Effect.fails_bind fun _ =>
      Effect.fails_throw e] at hstage
    have hstaged := (quiet_stageTurns S A config host messages).of_run hstage
    rw [run_onSession_bind] at hcommit
    obtain ⟨e', u, hcommit, hhandler⟩ := Effect.tryCatch_eq_error.mp hcommit
    -- what commits throws before the turns are recorded
    have hrefused : Quiet { t with
        session := { t.session with toc := stagedToc recordToc staged t.session.toc } } u := by
      rcases Effect.bind_eq_error.mp hcommit with hthrown | ⟨_, v, -, hrecorded⟩
      · exact (quiet_refreshArchiveProtection config host).of_run hthrown
      · rw [run_onSession] at hrecorded
        cases hrecorded
    rw [run_onSession_bind] at hhandler
    have hrefreshed := (Moves.bind (Moves.tryCatch (quiet_refreshArchiveProtection config host)
      fun _ => Moves.pure ()) fun _ => Moves.throw e').of_run hhandler
    refine ⟨hrefreshed.window.trans ?_,
      hrefreshed.checkpoint.trans (hrefused.checkpoint.trans hstaged.checkpoint)⟩
    have hwindow := hrefused.window
    have hbefore := hstaged.window
    simp only [EpochWindowSession.windowState, WindowState.mk.injEq] at hwindow hbefore ⊢
    obtain ⟨hboundary, hrebalance, hrotations, -, -, hforce⟩ := hwindow
    obtain ⟨hboundary', hrebalance', hrotations', -, -, hforce'⟩ := hbefore
    exact ⟨hboundary.trans hboundary', hrebalance.trans hrebalance',
      hrotations.trans hrotations', trivial, trivial, hforce.trans hforce'⟩

/-! ## Processing a context -/

variable (S A config host)

/-- The plan a call comes to if it gets that far, with what it prepared and the state by then. -/
def plannedSlice (limits : ContextLimits) (source : List Message) (m : Machine σ) :
    Option (Prepared × RotationPlan × Machine σ) :=
  if source = [] then none
  else match (prepareContext S A config host limits source).run m with
    | (.error _, _) => none
    | (.ok prepared, t) =>
      let request := rotationRequest S config limits t.session prepared.active
      if request.tokens = 0 ∧ request.turns = 0 then none
      else some (prepared, planEpochRotation S prepared.active request, t)

/-- A call with this plan can throw only before it commits anything: the archive refuses the turns
it rotates out, or there was no rotation asked for that it could forget. -/
def throwsBeforeCommit (forceRotation : Bool) (prepared : Prepared) (t : Machine σ) :
    RotationPlan → Prop
  | .rotate rotation => ∃ e, ((archiveTurns S A config host
      (prepared.source.take rotation.start) true).run t).1 = .error e
  | .nativeCompaction _ _ | .none => forceRotation = false

/-- The slice of the history a call works on. -/
def openedSlice (messages : List Message) (session : EpochWindowSession) : Slice :=
  sliceFromBoundary S (removeEmptyAssistantErrors S messages) session.boundaryKey

def openedMachine (messages : List Message) (m : Machine σ) : Machine σ :=
  { m with session := openBoundary (openedSlice S messages m.session).found m.session }

def ThrowsBeforeCommit (limits : ContextLimits) (messages : List Message) (m : Machine σ) : Prop :=
  ∀ prepared plan t, plannedSlice S A config host limits (openedSlice S messages m.session).messages
    (openedMachine S messages m) = some (prepared, plan, t) →
      throwsBeforeCommit S A config host m.session.forceRotation prepared t plan

variable {S A config host} {limits : ContextLimits}
  {result : Except StoreError (List Message)} {prepared : Prepared} {rotation : Rotation}

theorem emitWindow_run {window : ActiveWindow}
    (h : (emitWindow S config host window).run m = (result, n)) :
    Quiet { m with session := { m.session with forceRotation := false } } n := by
  unfold emitWindow at h
  rw [run_onSession_bind] at h
  refine (Moves.bind (quiet_reconcileHintLifecycle S host _ _) fun _ => ?_).of_run h
  refine Moves.bind (quiet_withAutomaticArchiveHint S config host _ _ _) fun _ => ?_
  refine Moves.bind (quiet_reconcileStoredArtifactIds S config _) fun _ => ?_
  exact Moves.bind moves_getSession fun _ => Moves.pure _

theorem retainWindow_run
    (h : (retainWindow S A config host prepared rotation).run m = (result, n)) :
    Quiet { m with session := rotateSession S prepared rotation m.session } n := by
  unfold retainWindow at h
  rw [run_onSession_bind] at h
  refine (Moves.bind (quiet_externalizeArtifacts S A config host _ _) fun _ => ?_).of_run h
  refine Moves.bind (quiet_refreshArchiveProtection config host) fun _ => ?_
  exact Moves.bind (quiet_reportRotation host) fun _ => Moves.pure _

/-- Once its turns are archived a rotation counts, whatever throws afterwards. -/
theorem rotateWindow_run
    {boundaryPrefix : List Message} {result : Except StoreError ActiveWindow} {t : Machine σ}
    (harchived : (archiveTurns S A config host (prepared.source.take rotation.start) true).run m =
      (.ok (), t))
    (h : (rotateWindow S A config host prepared rotation boundaryPrefix).run m = (result, n)) :
    Quiet { t with session := rotateSession S prepared rotation t.session } n := by
  unfold rotateWindow at h
  rw [Effect.bind_of_ok harchived] at h
  cases hretain : (retainWindow S A config host prepared rotation).run t with
  | mk retained u =>
    have hquiet := retainWindow_run hretain
    cases retained with
    | ok active =>
      rw [Effect.bind_of_ok hretain, Effect.run_pure] at h
      cases h
      exact hquiet
    | error e =>
      rw [Effect.bind_of_error hretain] at h
      cases h
      exact hquiet

theorem keepWindow_run (prepared : Prepared) (reason : Option String)
    (boundaryPrefix : List Message) (m : Machine σ) :
    ∃ window t, (keepWindow prepared reason boundaryPrefix).run m = (.ok window, t) ∧ Quiet m t :=
  ⟨_, _, rfl, (quiet_keepWindow prepared reason boundaryPrefix).of_run rfl⟩

/-- How a call that throws leaves the window: as it was if it throws before it commits anything;
else a rotation counts, or one that was asked for is forgotten. -/
def ThrownWindow (early : Prop) (m n : Machine σ) : Prop :=
  (early ∧ n.session.windowState = m.session.windowState) ∨
    (¬ early ∧ (n.session.rotations = m.session.rotations + 1 ∨ (m.session.forceRotation = true ∧
      n.session.windowState = { m.session.windowState with forceRotation := false })))

namespace ThrownWindow

variable {early : Prop}

theorem same_iff (h : ThrownWindow early m n) :
    n.session.windowState = m.session.windowState ↔ early := by
  rcases h with ⟨hearly, hsame⟩ | ⟨hlate, hrotated | ⟨hforced, hcleared⟩⟩
  · exact iff_of_true hsame hearly
  · refine iff_of_false ?_ hlate
    intro hsame
    have hrotations : n.session.rotations = m.session.rotations :=
      congrArg WindowState.rotations hsame
    omega
  · refine iff_of_false ?_ hlate
    intro hsame
    have hforce : m.session.forceRotation = false :=
      congrArg WindowState.forceRotation (hsame.symm.trans hcleared)
    rw [hforced] at hforce
    cases hforce

theorem boundary (h : ThrownWindow early m n) : n.session.boundaryKey = m.session.boundaryKey ∨
    n.session.rotations = m.session.rotations + 1 := by
  rcases h with ⟨-, hsame⟩ | ⟨-, hrotated | ⟨-, hcleared⟩⟩
  · exact Or.inl (congrArg WindowState.boundaryKey hsame)
  · exact Or.inr hrotated
  · exact Or.inl (congrArg WindowState.boundaryKey hcleared)

theorem of_quiet {t : Machine σ} (hquiet : Quiet m t) (h : ThrownWindow early t n) :
    ThrownWindow early m n := by
  have hrotations : t.session.rotations = m.session.rotations :=
    congrArg WindowState.rotations hquiet.window
  have hforce : t.session.forceRotation = m.session.forceRotation :=
    congrArg WindowState.forceRotation hquiet.window
  unfold ThrownWindow at h ⊢
  rwa [hquiet.window, hrotations, hforce] at h

end ThrownWindow

variable {e : StoreError} {boundaryPrefix : List Message} {prepared : Prepared}

theorem keptPlan_eq_error {reason : Option String}
    (h : (keepWindow prepared reason boundaryPrefix >>= emitWindow S config host).run m =
      (.error e, n)) : ThrownWindow (m.session.forceRotation = false) m n := by
  obtain ⟨window, t, hkeep, hquiet⟩ := keepWindow_run prepared reason boundaryPrefix m
  rw [Effect.bind_of_ok hkeep] at h
  have hcleared : n.session.windowState = { m.session.windowState with forceRotation := false } :=
    (emitWindow_run h).window.trans
      (congrArg (fun w : WindowState => { w with forceRotation := false }) hquiet.window)
  cases hforce : m.session.forceRotation with
  | false =>
    refine Or.inl ⟨rfl, hcleared.trans ?_⟩
    rw [EpochWindowSession.windowState, hforce]
  | true => exact Or.inr ⟨Bool.noConfusion, Or.inr ⟨hforce, hcleared⟩⟩

theorem applyPlan_eq_error {plan : RotationPlan}
    (h : (applyPlan S A config host prepared plan boundaryPrefix >>=
      emitWindow S config host).run m = (.error e, n)) :
    ThrownWindow (throwsBeforeCommit S A config host m.session.forceRotation prepared m plan)
      m n := by
  cases plan with
  | none => exact keptPlan_eq_error h
  | nativeCompaction trigger reason => exact keptPlan_eq_error h
  | rotate rotation =>
    show ThrownWindow (∃ e, ((archiveTurns S A config host
      (prepared.source.take rotation.start) true).run m).1 = .error e) m n
    cases harchive : (archiveTurns S A config host
        (prepared.source.take rotation.start) true).run m with
    | mk result t =>
      cases result with
      | error e' =>
        have hrotate : (rotateWindow S A config host prepared rotation boundaryPrefix).run m =
            (.error e', t) := Effect.bind_of_error harchive
        rw [applyPlan, Effect.bind_of_error hrotate] at h
        cases h
        exact Or.inl ⟨⟨e, rfl⟩, (archiveTurns_eq_error harchive).1⟩
      | ok value =>
        refine Or.inr ⟨fun hthrown => ?_, Or.inl ?_⟩
        · obtain ⟨e', hthrown⟩ := hthrown
          cases hthrown
        · obtain ⟨_, _, -, hcommitted, -⟩ := archiveTurns_eq_ok harchive
          have hkept : t.session.rotations = m.session.rotations :=
            congrArg WindowState.rotations hcommitted.window
          rw [← hkept]
          rcases Effect.bind_eq_error.mp h with hrotate | ⟨window, u, hrotate, hemit⟩
          · exact congrArg WindowState.rotations (rotateWindow_run harchive hrotate).window
          · exact (congrArg WindowState.rotations (emitWindow_run hemit).window).trans
              (congrArg WindowState.rotations (rotateWindow_run harchive hrotate).window)

theorem processSlice_eq_error {source : List Message}
    (h : (processSlice S A config host limits source boundaryPrefix).run m = (.error e, n)) :
    ThrownWindow (∀ prepared plan t,
      plannedSlice S A config host limits source m = some (prepared, plan, t) →
        throwsBeforeCommit S A config host m.session.forceRotation prepared t plan) m n := by
  unfold processSlice at h
  unfold plannedSlice
  split at h
  · rename_i hempty
    rw [if_pos hempty]
    refine Or.inl ⟨?_, ((quiet_emptyWindow S config host _).of_run h).window⟩
    intro _ _ _ hnone
    cases hnone
  · rename_i hsource
    rw [if_neg hsource]
    cases hprepare : (prepareContext S A config host limits source).run m with
    | mk result t =>
      have hprepared := (quiet_prepareContext S A config host limits source).of_run hprepare
      refine ThrownWindow.of_quiet hprepared ?_
      cases result with
      | error e' =>
        rw [Effect.bind_of_error hprepare] at h
        cases h
        refine Or.inl ⟨?_, rfl⟩
        intro _ _ _ hnone
        cases hnone
      | ok prepared =>
        rw [Effect.bind_of_ok hprepare, processWindow, run_getSession_bind] at h
        dsimp only at h ⊢
        split at h
        · rename_i hquiet
          rw [if_pos hquiet]
          refine Or.inl ⟨?_, ((quiet_quietWindow S config host _ _).of_run h).window⟩
          intro _ _ _ hnone
          cases hnone
        · rename_i hbusy
          rw [if_neg hbusy]
          have hforce : t.session.forceRotation = m.session.forceRotation :=
            congrArg WindowState.forceRotation hprepared.window
          have hthrown := applyPlan_eq_error h
          rw [hforce] at hthrown
          convert hthrown using 1
          simp

/-! ## Main result -/

/-- `limits` leave room for input. -/
def ContextLimits.leaveInput (limits : ContextLimits) : Prop :=
  ¬ (limits.inputWindowTokens = some 0 ∧ limits.piCompactionReserveTokens.isSome)

theorem process_eq_error (hlimits : limits.leaveInput)
    (h : (process S A config host limits messages).run m = (.error e, n)) :
    n.session.windowState = m.session.windowState ↔
      (openedSlice S messages m.session).found = true ∧
        ThrowsBeforeCommit S A config host limits messages m := by
  unfold process at h
  rw [if_neg hlimits, run_getSession_bind] at h
  dsimp only at h
  rw [run_onSession_bind] at h
  change (processSlice S A config host limits (openedSlice S messages m.session).messages
    _).run (openedMachine S messages m) = _ at h
  have hthrown := processSlice_eq_error h
  cases hfound : (openedSlice S messages m.session).found with
  | true =>
    have hopened : openedMachine S messages m = m := by
      rw [openedMachine, hfound]
      rfl
    rw [hopened] at hthrown
    rw [hthrown.same_iff, ThrowsBeforeCommit, hopened]
    simp
  | false =>
    refine iff_of_false ?_ fun hboth => Bool.noConfusion hboth.1
    intro hsame
    -- the boundary was given up, and only a rotation sets one
    have hlost : m.session.boundaryKey ≠ none := by
      intro hnone
      rw [openedSlice, hnone] at hfound
      cases hfound
    rcases hthrown.boundary with hboundary | hrotated
    · have hkept : n.session.boundaryKey = m.session.boundaryKey :=
        congrArg WindowState.boundaryKey hsame
      apply hlost
      rw [← hkept, hboundary, openedMachine, hfound]
      rfl
    · have hrotations : n.session.rotations = m.session.rotations :=
        congrArg WindowState.rotations hsame
      have hopened : (openedMachine S messages m).session.rotations = m.session.rotations := by
        rw [openedMachine, hfound]
        rfl
      omega

variable (S A config host)

/-- A call that throws leaves the state of the window as it was: always if it is `archiveTurns`,
and exactly if it throws before it commits anything if it is `process`. -/
theorem thrown_call_keeps_window_iff :
    (∀ messages recordToc (m n : Machine σ) e,
      (archiveTurns S A config host messages recordToc).run m = (.error e, n) →
        n.session.windowState = m.session.windowState) ∧
    (∀ limits messages (m n : Machine σ) e,
      (process S A config host limits messages).run m = (.error e, n) →
        (n.session.windowState = m.session.windowState ↔ (limits.leaveInput →
          (openedSlice S messages m.session).found = true ∧
            ThrowsBeforeCommit S A config host limits messages m))) := by
  refine ⟨fun _ _ _ _ _ h => (archiveTurns_eq_error h).1, ?_⟩
  intro limits messages m n e h
  by_cases hlimits : limits.leaveInput
  · rw [process_eq_error hlimits h]
    simp [hlimits]
  · refine iff_of_true ?_ fun hleave => absurd hleave hlimits
    unfold process at h
    rw [if_pos (not_not.mp hlimits), Effect.run_throw] at h
    cases h
    rfl

/-- Two turns, the first of them complete. -/
def twoTurns : List Message :=
  [plainMessage "user" "a" none, plainMessage "assistant" "b" none, plainMessage "user" "c" none]

/-- The boundary has moved when the report of the rotation is refused. -/
theorem refused_report_moves_boundary : ∃ e n,
    (process plainSetting plainAnalysis plainConfig (plainHost true false) plainLimits
      twoTurns).run { session := {}, host := () } = (.error e, n) ∧
      n.session.windowState ≠ ({} : EpochWindowSession).windowState := by
  obtain ⟨e, he⟩ := Effect.exists_error (s := { session := {}, host := () })
    (x := process plainSetting plainAnalysis plainConfig (plainHost true false) plainLimits twoTurns)
    (by decide +kernel)
  exact ⟨e, _, he, by decide +kernel⟩

/-- With the protection refused nothing is rotated and the window stays. -/
theorem thrown_call_keeps_window_iff_refused : ∃ e n e' n',
    (archiveTurns plainSetting plainAnalysis plainConfig (plainHost false true) twoTurns true).run
      { session := {}, host := () } = (.error e, n) ∧
    n.session.windowState = ({} : EpochWindowSession).windowState ∧
    (process plainSetting plainAnalysis plainConfig (plainHost false true) plainLimits
      twoTurns).run { session := {}, host := () } = (.error e', n') ∧
    (n'.session.windowState = ({} : EpochWindowSession).windowState ↔ (plainLimits.leaveInput →
      (openedSlice plainSetting twoTurns {}).found = true ∧
        ThrowsBeforeCommit plainSetting plainAnalysis plainConfig (plainHost false true) plainLimits
          twoTurns { session := {}, host := () })) := by
  obtain ⟨e, he⟩ := Effect.exists_error (s := { session := {}, host := () })
    (x := archiveTurns plainSetting plainAnalysis plainConfig (plainHost false true) twoTurns true)
    (by decide +kernel)
  obtain ⟨e', he'⟩ := Effect.exists_error (s := { session := {}, host := () })
    (x := process plainSetting plainAnalysis plainConfig (plainHost false true) plainLimits twoTurns)
    (by decide +kernel)
  exact ⟨e, _, e', _, he, (thrown_call_keeps_window_iff _ _ _ _).1 _ _ _ _ _ he, he',
    (thrown_call_keeps_window_iff _ _ _ _).2 _ _ _ _ _ he'⟩

end ContextStore.Session
