import ContextStore.Session.Frames

/-! # What the steps of a call leave alone

Everything a call does besides moving the boundary, recording archived turns and remembering a
completed turn is quiet: it keeps the state of the window, and it is calm. -/

namespace ContextStore.Session

open Unicode Archive Effects

/-! ## The state of the window -/

/-- The boundary, the epoch, the index of rotated turns, the turns known as archived and the
rotation asked for. -/
structure WindowState where
  boundaryKey : Option Text
  toolResultRebalanceThroughKey : Option Text
  rotations : Nat
  toc : List TocEntry
  archivedTurnEntries : List (Text × List TocEntry)
  forceRotation : Bool
deriving DecidableEq

def EpochWindowSession.windowState (session : EpochWindowSession) : WindowState where
  boundaryKey := session.boundaryKey
  toolResultRebalanceThroughKey := session.toolResultRebalanceThroughKey
  rotations := session.rotations
  toc := session.toc
  archivedTurnEntries := session.archivedTurnEntries
  forceRotation := session.forceRotation

variable {σ α β : Type}

/-- No acknowledgement is lost, and no other completed turn is reported than the one remembered. -/
structure Calm (m n : Machine σ) : Prop where
  checkpoint : n.session.completedArchiveCheckpoint = m.session.completedArchiveCheckpoint
  acknowledged : ∀ chunk ∈ m.acknowledged, chunk ∈ n.acknowledged
  emitted : ∀ state ∈ n.emitted, state ∈ m.emitted ∨
    state.completedArchiveState = m.session.completedArchiveCheckpoint

structure Quiet (m n : Machine σ) : Prop extends Calm m n where
  window : n.session.windowState = m.session.windowState

instance : Std.Refl (Calm (σ := σ)) where
  refl _ := ⟨rfl, fun _ h => h, fun _ h => Or.inl h⟩

instance : IsTrans (Machine σ) Calm where
  trans m n o hmn hno := by
    refine ⟨hno.checkpoint.trans hmn.checkpoint,
      fun chunk h => hno.acknowledged chunk (hmn.acknowledged chunk h), ?_⟩
    intro state h
    rcases hno.emitted state h with hold | hnew
    · exact hmn.emitted state hold
    · exact Or.inr (hnew.trans hmn.checkpoint)

instance : Std.Refl (Quiet (σ := σ)) where
  refl m := ⟨Std.Refl.refl m, rfl⟩

instance : IsTrans (Machine σ) Quiet where
  trans _ _ _ hmn hno := ⟨IsTrans.trans _ _ _ hmn.toCalm hno.toCalm, hno.window.trans hmn.window⟩

/-! ## Steps on the session and the host -/

theorem quiet_onSession {f : EpochWindowSession → EpochWindowSession}
    (hwindow : ∀ s, (f s).windowState = s.windowState)
    (hcheckpoint : ∀ s, (f s).completedArchiveCheckpoint = s.completedArchiveCheckpoint) :
    Moves Quiet (onSession f : Step σ Unit) :=
  Moves.modify fun m => ⟨⟨hcheckpoint m.session, fun _ h => h, fun _ h => Or.inl h⟩,
    hwindow m.session⟩

theorem quiet_callHost (f : σ → Except StoreError α × σ) : Moves Quiet (callHost f) :=
  fun _ => ⟨⟨rfl, fun _ h => h, fun _ h => Or.inl h⟩, rfl⟩

theorem quiet_acknowledge (chunk : List Message) : Moves Quiet (acknowledge chunk : Step σ Unit) :=
  Moves.modify fun _ =>
    ⟨⟨rfl, fun _ h => List.mem_cons_of_mem _ h, fun _ h => Or.inl h⟩, rfl⟩

variable (S : Setting) (A : Analysis) (config : Config) (host : Host σ)

theorem quiet_reportRotation : Moves Quiet (reportRotation host) := by
  intro m
  show Quiet m ((callHost (host.onRotation (rotationState m.session (host.now m.host)))).run
    { m with emitted := rotationState m.session (host.now m.host) :: m.emitted }).2
  refine ⟨⟨rfl, fun _ h => h, ?_⟩, rfl⟩
  intro state h
  rcases List.mem_cons.mp h with rfl | hold
  · exact Or.inr rfl
  · exact Or.inl hold

/-! ## Storing -/

theorem storingFrame_quiet : StoringFrame host Quiet where
  put _ := quiet_callHost _
  setProtectedContext _ := quiet_callHost _
  plan _ _ := quiet_callHost _
  checkpoint _ _ := quiet_callHost _
  acknowledge := quiet_acknowledge
  session h := quiet_onSession
    (fun session => by obtain ⟨_, _, _, heq⟩ := h session; rw [heq]; rfl)
    fun session => by obtain ⟨_, _, _, heq⟩ := h session; rw [heq]; rfl

theorem quiet_refreshArchiveProtection : Moves Quiet (refreshArchiveProtection config host) :=
  storing_refreshArchiveProtection (storingFrame_quiet host)

theorem quiet_storeCandidates (kind turnId : Text) (chunk : List Message)
    (candidates : List (Text × List (Text × Json))) :
    Moves Quiet (storeCandidates S config host kind turnId chunk candidates) :=
  storing_storeCandidates (storingFrame_quiet host) _ _ _ _

theorem quiet_archiveChunk (turn : Turn) (chunk : List Message) :
    Moves Quiet (archiveChunk S A config host turn chunk) :=
  storing_archiveChunk (storingFrame_quiet host) _ _

theorem quiet_archiveTurn (turn : Turn) : Moves Quiet (archiveTurn S A config host turn) :=
  storing_archiveTurn (storingFrame_quiet host) _

theorem quiet_externalizeArtifacts (gate : ResultGate) (messages : List Message) :
    Moves Quiet (externalizeArtifacts S A config host gate messages) :=
  storing_externalizeArtifacts (storingFrame_quiet host) _ _

theorem quiet_prepareContext (limits : ContextLimits) (source : List Message) :
    Moves Quiet (prepareContext S A config host limits source) :=
  storing_prepareContext (storingFrame_quiet host) _ _

/-! ## Hints -/

theorem quiet_freezeHint (key hint : Text) : Moves Quiet (freezeHint key hint : Step σ Unit) :=
  quiet_onSession (fun _ => rfl) fun _ => rfl

theorem quiet_attemptHint (reconstruct : Bool) (key : Text) :
    Moves Quiet (attemptHint reconstruct key : Step σ Unit) :=
  Moves.ite (Moves.pure _) (quiet_onSession (fun _ => rfl) fun _ => rfl)

theorem quiet_requestHint (pass : HintPass) (target : Message) (key : Text) (reconstruct : Bool) :
    Moves Quiet (requestHint config host pass target key reconstruct) := by
  unfold requestHint
  split
  · refine Moves.ite (Moves.pure _) (Moves.bind (quiet_attemptHint reconstruct key) fun _ => ?_)
    exact Moves.bind (quiet_freezeHint key []) fun _ => Moves.pure _
  · refine Moves.bind (quiet_attemptHint reconstruct key) fun _ => ?_
    refine Moves.bind moves_getSession fun _ => ?_
    refine Moves.bind (Moves.tryCatch (quiet_callHost _) fun _ => Moves.pure _) fun hint => ?_
    exact Moves.bind (quiet_freezeHint key hint) fun _ => Moves.pure _

theorem quiet_hintMessage (pass : HintPass) (target : Message) :
    Moves Quiet (hintMessage S config host pass target) := by
  refine Moves.bind moves_getSession fun session => Moves.ite (Moves.pure _) ?_
  show Moves Quiet _
  cases session.frozenHintTextByMessageKey.lookup (messageKey S target) with
  | some hint => exact Moves.bind (quiet_onSession (fun _ => rfl) fun _ => rfl) fun _ => Moves.pure _
  | none => exact Moves.ite (Moves.pure _) (quiet_requestHint config host pass target _ _)

theorem quiet_withAutomaticArchiveHint (messages : List Message)
    (originalSourceKeys suppressedMessageKeys : List Text) :
    Moves Quiet (withAutomaticArchiveHint S config host messages originalSourceKeys
      suppressedMessageKeys) := by
  refine Moves.bind moves_getSession fun _ => Moves.ite (Moves.pure _) ?_
  refine Moves.bind (Moves.mapList (quiet_hintMessage S config host _) messages) fun _ => ?_
  exact Moves.ite (Moves.bind (quiet_reportRotation host) fun _ => Moves.pure _) (Moves.pure _)

theorem quiet_removePending (session : EpochWindowSession) :
    Moves Quiet (removePending host session) := by
  refine Moves.ite (Moves.pure _) (Moves.bind ?_ fun removed => ?_)
  · unfold removeHints
    split
    · exact Moves.pure _
    · exact Moves.tryCatch (Moves.bind (quiet_callHost _) fun _ => Moves.pure _)
        fun _ => Moves.pure _
  · exact Moves.ite (Moves.bind (quiet_onSession (fun _ => rfl) fun _ => rfl) fun _ => Moves.pure _)
      (Moves.pure _)

theorem quiet_reconcileHintLifecycle (activeMessages retiredMessages : List Message) :
    Moves Quiet (reconcileHintLifecycle S host activeMessages retiredMessages) := by
  refine Moves.bind (quiet_onSession (fun _ => rfl) fun _ => rfl) fun _ => ?_
  refine Moves.bind moves_getSession fun session => ?_
  refine Moves.bind (quiet_removePending host session) fun changed => ?_
  refine Moves.bind (quiet_onSession (fun _ => rfl) fun _ => rfl) fun _ => ?_
  exact Moves.ite (quiet_reportRotation host) (Moves.pure _)

theorem quiet_reconcileStoredArtifactIds (messages : List Message) :
    Moves Quiet (reconcileStoredArtifactIds S config messages : Step σ Unit) :=
  quiet_onSession (fun _ => rfl) fun _ => rfl

/-! ## Ends of a call -/

theorem quiet_emptyWindow (boundaryPrefix : List Message) :
    Moves Quiet (emptyWindow S config host boundaryPrefix) := by
  refine Moves.bind (quiet_reconcileHintLifecycle S host [] boundaryPrefix) fun _ => ?_
  refine Moves.bind (quiet_onSession (fun _ => rfl) fun _ => rfl) fun _ => ?_
  refine Moves.bind (quiet_reconcileStoredArtifactIds S config []) fun _ => ?_
  exact Moves.bind (quiet_refreshArchiveProtection config host) fun _ => Moves.pure _

theorem quiet_quietWindow (prepared : Prepared) (boundaryPrefix : List Message) :
    Moves Quiet (quietWindow S config host prepared boundaryPrefix) := by
  refine Moves.bind (quiet_reconcileHintLifecycle S host _ boundaryPrefix) fun _ => ?_
  exact Moves.bind (quiet_reconcileStoredArtifactIds S config _) fun _ => Moves.pure _

theorem quiet_keepWindow (prepared : Prepared) (reason : Option String)
    (boundaryPrefix : List Message) :
    Moves Quiet (keepWindow prepared reason boundaryPrefix : Step σ ActiveWindow) :=
  Moves.bind (quiet_onSession (fun _ => rfl) fun _ => rfl) fun _ => Moves.pure _

end ContextStore.Session
