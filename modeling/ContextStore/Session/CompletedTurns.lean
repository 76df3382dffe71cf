import ContextStore.Session.Failures
import ContextStore.Session.Grouping
import Mathlib.Data.List.TakeWhile

/-! # Completed turns are stored

What `archiveTurns` records it has stored, chunk by chunk, and what `archiveCompletedTurns` leaves
out it takes for stored: because the session recorded the turn, or because the completed turn it
remembers comes later. The first is always right. The second is right in a run in which every turn
left out this way was handed to an earlier call, and wrong for a turn of another branch. -/

namespace ContextStore.Session

open Unicode Archive Effects

variable {σ : Type} (S : Setting) (A : Analysis) (config : Config) (host : Host σ)

/-! ## What is written -/

theorem mem_trim {t : Text} {u : UInt16} (hmem : u ∈ t) (hu : isWhiteSpace u = false) :
    trim t ≠ [] := by
  intro hblank
  unfold trim at hblank
  rw [List.reverse_eq_nil_iff, List.dropWhile_eq_nil_iff] at hblank
  have hdropped : u ∈ t.dropWhile isWhiteSpace := by
    have hsplit := List.takeWhile_append_dropWhile (p := isWhiteSpace) (l := t)
    rw [← hsplit] at hmem
    rcases List.mem_append.mp hmem with htaken | hdropped
    · have hspace := List.mem_takeWhile_imp htaken
      rw [hu] at hspace
      cases hspace
    · exact hdropped
  have hspace := hblank u (List.mem_reverse.mpr hdropped)
  rw [hu] at hspace
  cases hspace

theorem mem_serializeMessage (message : Message) : 0x5b ∈ serializeMessage S message := by
  have hopen : ∀ rest : Text, 0x5b ∈ text "[" ++ rest := fun rest =>
    List.mem_append_left _ (by decide)
  unfold serializeMessage serializeWith syntheticMessageSerialization
  split
  · simp only [Option.getD_some, List.append_assoc]
    exact List.mem_append_left _ (by decide)
  · split
    · simp only [Option.getD_some, List.append_assoc]
      exact List.mem_append_left _ (by decide)
    · split
      · simp only [Option.getD_some, List.append_assoc]
        exact List.mem_append_left _ (by decide)
      · simp only [Option.getD_none, List.append_assoc]
        exact hopen _

theorem mem_join {separator t : Text} {items : List Text} {u : UInt16} (ht : t ∈ items)
    (hu : u ∈ t) : u ∈ join separator items := by
  unfold join
  refine List.mem_flatten.mpr ⟨t, ?_, hu⟩
  induction items with
  | nil => cases ht
  | cons first rest ih =>
    cases rest with
    | nil => exact ht
    | cons second others =>
      rw [List.intersperse_cons_cons]
      rcases List.mem_cons.mp ht with rfl | hlater
      · exact List.mem_cons_self
      · exact List.mem_cons_of_mem _ (List.mem_cons_of_mem _ (ih hlater))

/-- The text of a chunk is never blank. -/
theorem trim_serializeMessages {chunk : List Message} (h : chunk ≠ []) :
    trim (serializeMessages S chunk) ≠ [] := by
  obtain ⟨message, rest, rfl⟩ := List.exists_cons_of_ne_nil h
  refine mem_trim (mem_join (List.mem_cons_self) (mem_serializeMessage S message)) (by decide)

/-! ## What is recorded is stored -/

/-- A turn known by this key had all of its chunks confirmed by the archive. -/
def TurnStored (acknowledged : List (List Message)) (turnKey : Text) : Prop :=
  ∃ messages, archivedTurnKey S messages = turnKey ∧
    ∀ chunk ∈ checkpointSourceChunks S messages, chunk ∈ acknowledged

variable {S A config host}

theorem TurnStored.mono {old new : List (List Message)} {turnKey : Text}
    (h : TurnStored S old turnKey) (hsub : ∀ chunk ∈ old, chunk ∈ new) :
    TurnStored S new turnKey := by
  obtain ⟨messages, hkey, hchunks⟩ := h
  exact ⟨messages, hkey, fun chunk hmem => hsub chunk (hchunks chunk hmem)⟩

variable {m n : Machine σ} {f : EpochWindowSession → EpochWindowSession} {staged : List StagedTurn}
  {messages : List Message} {chunk : List Message} {turn : Turn}

theorem storeTurnText_eq_ok {entry : TocEntry}
    (h : (storeTurnText S A config host turn chunk).run m = (.ok entry, n)) :
    chunk ∈ n.acknowledged := by
  unfold storeTurnText at h
  split at h
  · obtain ⟨_, _, -, h⟩ := Effect.bind_eq_ok.mp h
    obtain ⟨planned, _, -, h⟩ := Effect.bind_eq_ok.mp h
    split at h
    · rw [Effect.run_throw] at h
      cases h
    · obtain ⟨stored, _, -, h⟩ := Effect.bind_eq_ok.mp h
      split at h
      · rw [Effect.run_throw] at h
        cases h
      · obtain ⟨_, t, hack, h⟩ := Effect.bind_eq_ok.mp h
        have hmem : chunk ∈ t.acknowledged := by
          rw [acknowledge, Effect.run_modify] at hack
          cases hack
          exact List.mem_cons_self
        have hlater : Quiet t n := by
          refine (Moves.bind (quiet_onSession ?_ ?_) fun _ => ?_).of_run h
          · exact fun _ => rfl
          · exact fun _ => rfl
          · exact Moves.bind (quiet_refreshArchiveProtection config host) fun _ => Moves.pure _
        exact hlater.acknowledged chunk hmem
  · obtain ⟨_, _, -, h⟩ := Effect.bind_eq_ok.mp h
    obtain ⟨id, _, -, h⟩ := Effect.bind_eq_ok.mp h
    split at h
    · rw [Effect.run_throw] at h
      cases h
    · obtain ⟨_, t, hack, h⟩ := Effect.bind_eq_ok.mp h
      rw [acknowledge, Effect.run_modify] at hack
      cases hack
      rw [Effect.run_pure] at h
      cases h
      exact List.mem_cons_self

theorem archiveChunk_eq_ok {entries : List TocEntry} (hchunk : chunk ≠ [])
    (h : (archiveChunk S A config host turn chunk).run m = (.ok entries, n)) :
    chunk ∈ n.acknowledged := by
  unfold archiveChunk at h
  rw [if_neg (trim_serializeMessages S hchunk)] at h
  obtain ⟨entry, t, hstore, h⟩ := Effect.bind_eq_ok.mp h
  have hlater := (Moves.bind (quiet_storeCandidates S config host _ _ _ _) fun _ =>
    Moves.bind (quiet_storeCandidates S config host _ _ _ _) fun _ => Moves.pure _).of_run h
  exact hlater.acknowledged chunk (storeTurnText_eq_ok hstore)

/-- A staged turn was known before, or all of it is confirmed. -/
def StagedOf (m n : Machine σ) (turn : Turn) (staged : StagedTurn) : Prop :=
  staged.turnKey = archivedTurnKey S turn.messages ∧
    ((staged.fresh = false ∧ (m.session.archivedTurnEntries.lookup staged.turnKey).isSome) ∨
      (staged.fresh = true ∧ ∀ chunk ∈ checkpointSourceChunks S turn.messages,
        chunk ∈ n.acknowledged))

theorem archiveTurn_eq_ok {staged : StagedTurn}
    (h : (archiveTurn S A config host turn).run m = (.ok staged, n)) :
    StagedOf (S := S) m n turn staged := by
  unfold archiveTurn at h
  rw [run_getSession_bind] at h
  dsimp only at h
  split at h
  · rename_i entries hlookup
    rw [Effect.run_pure] at h
    cases h
    exact ⟨rfl, Or.inl ⟨rfl, Option.isSome_iff_exists.mpr ⟨entries, hlookup⟩⟩⟩
  · obtain ⟨entries, t, hchunks, h⟩ := Effect.bind_eq_ok.mp h
    rw [Effect.run_pure] at h
    cases h
    refine ⟨rfl, Or.inr ⟨rfl, ?_⟩⟩
    intro chunk hmem
    have hruns := Moves.mapList_eq_ok (quiet_archiveChunk S A config host turn) hchunks
    obtain ⟨entry, -, u, v, -, hrun, hlater⟩ := exists_of_forall₂ hruns hmem
    exact hlater.acknowledged chunk (archiveChunk_eq_ok (ne_nil_of_mem_chunks S hmem) hrun)

/-- Every turn recorded in the session is stored. -/
def EntriesStored (S : Setting) (m : Machine σ) : Prop :=
  ∀ turnKey, (m.session.archivedTurnEntries.lookup turnKey).isSome →
    TurnStored S m.acknowledged turnKey

theorem stageTurns_eq_ok (hentries : EntriesStored S m)
    (h : (stageTurns S A config host messages).run m = (.ok staged, n)) :
    (∀ turn ∈ groupCompleteTurns messages,
      TurnStored S n.acknowledged (archivedTurnKey S turn.messages)) ∧
      ∀ turn ∈ staged, TurnStored S n.acknowledged turn.turnKey := by
  have hruns := Moves.mapList_eq_ok (quiet_archiveTurn S A config host) h
  have hstored : List.Forall₂ (fun turn staged => staged.turnKey = archivedTurnKey S turn.messages ∧
      TurnStored S n.acknowledged staged.turnKey) (groupCompleteTurns messages) staged := by
    refine hruns.imp ?_
    intro turn staged hrun
    obtain ⟨u, v, hu, hrun, hv⟩ := hrun
    have hacknowledged := ((quiet_archiveTurn S A config host turn).of_run hrun).acknowledged
    obtain ⟨hkey, ⟨-, hknown⟩ | ⟨-, hchunks⟩⟩ := archiveTurn_eq_ok hrun
    · have hold : u.session.archivedTurnEntries = m.session.archivedTurnEntries :=
        congrArg WindowState.archivedTurnEntries hu.window
      rw [hold] at hknown
      refine ⟨hkey, (hentries _ hknown).mono fun chunk hmem => ?_⟩
      exact hv.acknowledged chunk (hacknowledged chunk (hu.acknowledged chunk hmem))
    · exact ⟨hkey, turn.messages, hkey.symm, fun chunk hmem =>
        hv.acknowledged chunk (hchunks chunk hmem)⟩
  constructor
  · intro turn hmem
    obtain ⟨staged, -, hkey, hturn⟩ := exists_of_forall₂ hstored hmem
    exact hkey ▸ hturn
  · intro turn hmem
    have hflipped : List.Forall₂ (fun staged turn => TurnStored S n.acknowledged staged.turnKey)
        staged (groupCompleteTurns messages) := (hstored.imp fun _ _ h => h.2).flip
    obtain ⟨_, -, hturn⟩ := exists_of_forall₂ hflipped hmem
    exact hturn

theorem lookup_setEntries {entries : List (Text × List TocEntry)} {staged : StagedTurn}
    {turnKey : Text} (h : ((setEntries entries staged).lookup turnKey).isSome) :
    turnKey = staged.turnKey ∨ (entries.lookup turnKey).isSome := by
  by_cases hkey : turnKey = staged.turnKey
  · exact Or.inl hkey
  · right
    have hne : (turnKey == staged.turnKey) = false := by simpa using hkey
    rw [setEntries, List.lookup_cons, hne] at h
    rw [List.lookup_isSome_iff] at h ⊢
    obtain ⟨pair, hpair, heq⟩ := h
    exact ⟨pair, List.mem_of_mem_filter hpair, heq⟩

theorem lookup_foldl_setEntries {turnKey : Text} :
    ∀ {entries : List (Text × List TocEntry)},
      ((staged.foldl setEntries entries).lookup turnKey).isSome →
        (∃ turn ∈ staged, turnKey = turn.turnKey) ∨ (entries.lookup turnKey).isSome := by
  induction staged with
  | nil =>
    intro entries h
    exact Or.inr h
  | cons turn rest ih =>
    intro entries h
    rcases ih h with ⟨later, hmem, hkey⟩ | hset
    · exact Or.inl ⟨later, List.mem_cons_of_mem _ hmem, hkey⟩
    · rcases lookup_setEntries hset with hkey | hold
      · exact Or.inl ⟨turn, List.mem_cons_self, hkey⟩
      · exact Or.inr hold

theorem archiveTurns_stored {recordToc : Bool} (hentries : EntriesStored S m)
    (h : (archiveTurns S A config host messages recordToc).run m = (.ok (), n)) :
    (∀ turn ∈ groupCompleteTurns messages,
      TurnStored S n.acknowledged (archivedTurnKey S turn.messages)) ∧ EntriesStored S n := by
  obtain ⟨staged, t, hstage, harchived, hacknowledged⟩ := archiveTurns_eq_ok h
  obtain ⟨hturns, hstaged⟩ := stageTurns_eq_ok hentries hstage
  have hold := ((quiet_stageTurns S A config host messages).of_run hstage).acknowledged
  refine ⟨fun turn hmem => (hturns turn hmem).mono hacknowledged, ?_⟩
  intro turnKey hlookup
  have hrecorded : n.session.archivedTurnEntries = (staged.filter (·.fresh)).foldl setEntries
      m.session.archivedTurnEntries := congrArg WindowState.archivedTurnEntries harchived.window
  rw [hrecorded] at hlookup
  rcases lookup_foldl_setEntries hlookup with ⟨turn, hmem, rfl⟩ | hknown
  · exact (hstaged turn (List.mem_of_mem_filter hmem)).mono hacknowledged
  · exact (hentries turnKey hknown).mono fun chunk hmem => hacknowledged chunk (hold chunk hmem)

/-! ## Calls that remember no turn -/

/-- A calm step that records only what is stored. -/
structure Tracks (S : Setting) (m n : Machine σ) : Prop extends Calm m n where
  entries : EntriesStored S m → EntriesStored S n

instance : Std.Refl (Tracks (σ := σ) S) where
  refl m := ⟨Std.Refl.refl m, id⟩

instance : IsTrans (Machine σ) (Tracks S) where
  trans _ _ _ hmn hno := ⟨IsTrans.trans _ _ _ hmn.toCalm hno.toCalm, hno.entries ∘ hmn.entries⟩

theorem EntriesStored.of_calm (h : EntriesStored S m) (hcalm : Calm m n)
    (hsame : n.session.archivedTurnEntries = m.session.archivedTurnEntries) :
    EntriesStored S n := by
  intro turnKey hlookup
  rw [hsame] at hlookup
  exact (h turnKey hlookup).mono hcalm.acknowledged

theorem tracks_of_quiet {α : Type} {x : Step σ α} (h : Moves Quiet x) : Moves (Tracks S) x :=
  h.mono fun _ _ hquiet => ⟨hquiet.toCalm, fun hentries => hentries.of_calm hquiet.toCalm
    (congrArg WindowState.archivedTurnEntries hquiet.window)⟩

theorem tracks_onSession
    (hcheckpoint : ∀ s, (f s).completedArchiveCheckpoint = s.completedArchiveCheckpoint)
    (hentries : ∀ s, (f s).archivedTurnEntries = s.archivedTurnEntries) :
    Moves (Tracks S) (onSession f : Step σ Unit) :=
  Moves.modify fun m =>
    have hcalm : Calm m { m with session := f m.session } :=
      ⟨hcheckpoint m.session, fun _ h => h, fun _ h => Or.inl h⟩
    ⟨hcalm, fun h => h.of_calm hcalm (hentries m.session)⟩

theorem calm_onSession
    (hcheckpoint : ∀ s, (f s).completedArchiveCheckpoint = s.completedArchiveCheckpoint) :
    Moves Calm (onSession f : Step σ Unit) :=
  Moves.modify fun m => ⟨hcheckpoint m.session, fun _ h => h, fun _ h => Or.inl h⟩

theorem calm_of_quiet {α : Type} {x : Step σ α} (h : Moves Quiet x) : Moves Calm x :=
  h.mono fun _ _ hquiet => hquiet.toCalm

variable (S A config host)

theorem calm_archiveTurns (messages : List Message) (recordToc : Bool) :
    Moves Calm (archiveTurns S A config host messages recordToc) := by
  have hrefresh := calm_of_quiet (quiet_refreshArchiveProtection config host)
  refine Moves.bind (calm_of_quiet moves_getSession) fun before => ?_
  refine Moves.bind (Moves.tryCatch
    (calm_of_quiet (quiet_stageTurns S A config host messages)) fun e => ?_) fun staged => ?_
  · exact Moves.bind (calm_onSession fun _ => rfl) fun _ => Moves.bind hrefresh fun _ =>
      Moves.throw e
  · refine Moves.bind (calm_onSession fun _ => rfl) fun _ => Moves.tryCatch ?_ fun e => ?_
    · exact Moves.bind hrefresh fun _ => calm_onSession fun _ => rfl
    · refine Moves.bind (calm_onSession fun _ => rfl) fun _ => Moves.bind ?_ fun _ => Moves.throw e
      exact Moves.tryCatch hrefresh fun _ => Moves.pure _

theorem tracks_archiveTurns (messages : List Message) (recordToc : Bool) :
    Moves (Tracks S) (archiveTurns S A config host messages recordToc) := by
  intro m
  cases hrun : (archiveTurns S A config host messages recordToc).run m with
  | mk result n =>
    have hcalm := (calm_archiveTurns S A config host messages recordToc).of_run hrun
    refine ⟨hcalm, fun hentries => ?_⟩
    cases result with
    | ok value => exact (archiveTurns_stored hentries hrun).2
    | error e =>
      refine hentries.of_calm hcalm ?_
      exact congrArg WindowState.archivedTurnEntries (archiveTurns_eq_error hrun).1

theorem tracks_emitWindow (window : ActiveWindow) :
    Moves (Tracks S) (emitWindow S config host window) := by
  refine Moves.bind (tracks_onSession (fun _ => rfl) fun _ => rfl) fun _ => tracks_of_quiet ?_
  refine Moves.bind (quiet_reconcileHintLifecycle S host _ _) fun _ => ?_
  refine Moves.bind (quiet_withAutomaticArchiveHint S config host _ _ _) fun _ => ?_
  refine Moves.bind (quiet_reconcileStoredArtifactIds S config _) fun _ => ?_
  exact Moves.bind moves_getSession fun _ => Moves.pure _

theorem tracks_rotateWindow (prepared : Prepared) (rotation : Rotation)
    (boundaryPrefix : List Message) :
    Moves (Tracks S) (rotateWindow S A config host prepared rotation boundaryPrefix) := by
  refine Moves.bind (tracks_archiveTurns S A config host _ _) fun _ => ?_
  refine Moves.bind (Moves.bind (tracks_onSession (fun _ => rfl) fun _ => rfl) fun _ => ?_)
    fun _ => Moves.pure _
  refine tracks_of_quiet (Moves.bind (quiet_externalizeArtifacts S A config host _ _) fun _ => ?_)
  refine Moves.bind (quiet_refreshArchiveProtection config host) fun _ => ?_
  exact Moves.bind (quiet_reportRotation host) fun _ => Moves.pure _

theorem tracks_applyPlan (prepared : Prepared) (plan : RotationPlan)
    (boundaryPrefix : List Message) :
    Moves (Tracks S) (applyPlan S A config host prepared plan boundaryPrefix) := by
  cases plan with
  | none => exact tracks_of_quiet (quiet_keepWindow _ _ _)
  | nativeCompaction trigger reason => exact tracks_of_quiet (quiet_keepWindow _ _ _)
  | rotate rotation => exact tracks_rotateWindow S A config host prepared rotation boundaryPrefix

theorem tracks_process (limits : ContextLimits) (messages : List Message) :
    Moves (Tracks S) (process S A config host limits messages) := by
  refine Moves.ite (Moves.throw _) (Moves.bind (tracks_of_quiet moves_getSession) fun session => ?_)
  refine Moves.bind (tracks_onSession ?_ ?_) fun _ => Moves.ite ?_ ?_
  · exact fun _ => by unfold openBoundary; split <;> rfl
  · exact fun _ => by unfold openBoundary; split <;> rfl
  · exact tracks_of_quiet (quiet_emptyWindow S config host _)
  · refine Moves.bind (tracks_of_quiet (quiet_prepareContext S A config host limits _)) ?_
    intro prepared
    refine Moves.bind (tracks_of_quiet moves_getSession) fun _ => Moves.ite ?_ ?_
    · exact tracks_of_quiet (quiet_quietWindow S config host _ _)
    · refine Moves.bind (tracks_applyPlan S A config host _ _ _) fun window => ?_
      exact tracks_emitWindow S config host window

theorem tracks_resetAfterCompaction : Moves (Tracks S) (resetAfterCompaction config host) := by
  refine Moves.bind (tracks_onSession (fun _ => rfl) fun _ => rfl) fun _ => tracks_of_quiet ?_
  refine Moves.bind (quiet_refreshArchiveProtection config host) fun _ => ?_
  refine Moves.bind moves_getSession fun _ => ?_
  exact Moves.bind (moves_now host) fun _ => Moves.pure _

/-! ## Remembering a turn -/

/-- The checkpoint was remembered, or forgotten again, and no other was reported meanwhile. -/
structure Remembers (remembered : TurnCheckpoint) (m n : Machine σ) : Prop where
  checkpoint : n.session.completedArchiveCheckpoint = m.session.completedArchiveCheckpoint ∨
    n.session.completedArchiveCheckpoint = some remembered
  entries : n.session.archivedTurnEntries = m.session.archivedTurnEntries
  acknowledged : n.acknowledged = m.acknowledged
  emitted : ∀ state ∈ n.emitted, state ∈ m.emitted ∨ state.completedArchiveState = some remembered

theorem reportRotation_run (m : Machine σ) :
    ∃ state, state.completedArchiveState = m.session.completedArchiveCheckpoint ∧
      (reportRotation host).run m = ((host.onRotation state m.host).1,
        { m with emitted := state :: m.emitted, host := (host.onRotation state m.host).2 }) :=
  ⟨rotationState m.session (host.now m.host), rfl, rfl⟩

theorem remembers_rememberCheckpoint (remembered : TurnCheckpoint) :
    Moves (Remembers remembered) (rememberCheckpoint host remembered) := by
  intro m
  cases hrun : (rememberCheckpoint host remembered).run m with
  | mk result n =>
    unfold rememberCheckpoint at hrun
    rw [run_getSession_bind] at hrun
    split at hrun
    · rw [Effect.run_pure] at hrun
      cases hrun
      exact ⟨Or.inl rfl, rfl, rfl, fun _ h => Or.inl h⟩
    · rw [setCompletedArchiveCheckpoint, run_onSession_bind] at hrun
      obtain ⟨state, hstate, hreport⟩ := reportRotation_run host { m with session :=
        { m.session with completedArchiveCheckpoint := some remembered } }
      have hemitted : ∀ s ∈ state :: m.emitted, s ∈ m.emitted ∨
          s.completedArchiveState = some remembered := by
        intro s hmem
        rcases List.mem_cons.mp hmem with rfl | hold
        · exact Or.inr hstate
        · exact Or.inl hold
      dsimp only at hreport
      cases hanswer : (host.onRotation state m.host).1 with
      | ok value =>
        rw [hanswer] at hreport
        rw [Effect.bind_of_ok (Effect.tryCatch_of_ok hreport), Effect.run_pure] at hrun
        cases hrun
        exact ⟨Or.inr rfl, rfl, rfl, hemitted⟩
      | error e =>
        rw [hanswer] at hreport
        have hforget (t : Machine σ) :
            ((setCompletedArchiveCheckpoint m.session.completedArchiveCheckpoint >>= fun _ =>
              Effect.throw e : Step σ Unit)).run t = (.error e, { t with session :=
                { t.session with
                  completedArchiveCheckpoint := m.session.completedArchiveCheckpoint } }) :=
          run_onSession_bind _ _ t
        rw [Effect.bind_of_error ((Effect.tryCatch_of_error hreport).trans (hforget _))] at hrun
        cases hrun
        exact ⟨Or.inl rfl, rfl, rfl, hemitted⟩

/-! ## Runs -/

inductive Event (σ : Type) where
  | archiveCompletedTurns (messages : List Message)
  | process (limits : ContextLimits) (messages : List Message)
  | restore (entries : List BranchEntry)
  | seedCompletedArchiveCheckpoint (messages : List Message)
  | requestRotation
  | resetAfterCompaction
  /-- The host changes its own state between two calls. -/
  | hostMoves (host : σ)

/-- The machine with a record of the calls: the turns of the histories of the calls of
`archiveCompletedTurns` that returned, and those of the histories the checkpoint was seeded from. -/
structure Trace (σ : Type) where
  machine : Machine σ
  given : List Text := []
  seeded : List Text := []

def turnKeys (turns : List Turn) : List Text := turns.map fun turn => archivedTurnKey S turn.messages

def givenBy {α : Type} (complete : List Turn) (result : Except StoreError α) : List Text :=
  if result.isOk then turnKeys S complete else []

/-- The turns a seed covers. -/
def seededBy (session : EpochWindowSession) (complete : List Turn) : List Text :=
  if session.completedArchiveCheckpoint.isSome then [] else turnKeys S complete

def Trace.step (t : Trace σ) : Event σ → Trace σ
  | .archiveCompletedTurns messages =>
    let result := (Session.archiveCompletedTurns S A config host messages).run t.machine
    { t with
      machine := result.2, given := givenBy S (completedTurns S messages) result.1 ++ t.given }
  | .process limits messages =>
    { t with machine := ((Session.process S A config host limits messages).run t.machine).2 }
  | .restore entries =>
    { t with machine := ((Session.restore S config host entries).run t.machine).2 }
  | .seedCompletedArchiveCheckpoint messages =>
    { t with
      machine := ((Session.seedCompletedArchiveCheckpoint S host messages).run t.machine).2
      seeded := seededBy S t.machine.session (completedTurns S messages) ++ t.seeded }
  | .requestRotation => { t with machine := (Session.requestRotation.run t.machine).2 }
  | .resetAfterCompaction =>
    { t with machine := ((Session.resetAfterCompaction config host).run t.machine).2 }
  | .hostMoves host => { t with machine := { t.machine with host } }

/-- A session is restored from what it reported: the completed turns its entries remember. -/
def Trace.RestoresReported (t : Trace σ) : Event σ → Prop
  | .restore entries => ∀ data, BranchEntry.rotation data ∈ entries →
      ∀ checkpoint, data.completedArchiveState = some checkpoint →
        ∃ state ∈ t.machine.emitted, state.completedArchiveState = some checkpoint
  | _ => True

/-- A completed turn the remembered one leaves out was in the history of an earlier call that
returned, or of the seed, or is recorded in the session. -/
def Trace.LeavesOutKnown (t : Trace σ) : Event σ → Prop
  | .archiveCompletedTurns messages => ∀ turn ∈ completedTurns S messages,
      turn ∉ archiveCandidates S t.machine.session.completedArchiveCheckpoint
        (completedTurns S messages) →
      archivedTurnKey S turn.messages ∈ t.given ∨ archivedTurnKey S turn.messages ∈ t.seeded ∨
        (t.machine.session.archivedTurnEntries.lookup (archivedTurnKey S turn.messages)).isSome
  | _ => True

/-- The runs of a new session whose steps all meet `C`. -/
inductive Run (C : Trace σ → Event σ → Prop) : Trace σ → Prop where
  | start (state : σ) (signature : Option ProtectionRequest) : Run C
      { machine := { session := { archiveProtectionSignature := signature }, host := state } }
  | step {t : Trace σ} {event : Event σ} (run : Run C t) (meets : C t event) :
      Run C (t.step S A config host event)

/-- Stored, or one of the turns the seed covers. -/
def Trace.Covers (t : Trace σ) (turnKey : Text) : Prop :=
  TurnStored S t.machine.acknowledged turnKey ∨ turnKey ∈ t.seeded

def Trace.Names (t : Trace σ) (checkpoint : TurnCheckpoint) : Prop :=
  ∃ turn, completedArchiveCheckpoint S turn = some checkpoint ∧
    t.Covers S (archivedTurnKey S turn.messages)

structure Trace.Sound (t : Trace σ) : Prop where
  entries : EntriesStored S t.machine
  given : ∀ turnKey ∈ t.given, t.Covers S turnKey
  checkpoint : ∀ checkpoint, t.machine.session.completedArchiveCheckpoint = some checkpoint →
    t.Names S checkpoint
  emitted : ∀ state ∈ t.machine.emitted, ∀ checkpoint,
    state.completedArchiveState = some checkpoint → t.Names S checkpoint

variable {S A config host} {t : Trace σ}

theorem Trace.Covers.mono {u : Trace σ} {turnKey : Text} (h : t.Covers S turnKey)
    (hacknowledged : ∀ chunk ∈ t.machine.acknowledged, chunk ∈ u.machine.acknowledged)
    (hseeded : ∀ key ∈ t.seeded, key ∈ u.seeded) : u.Covers S turnKey := by
  rcases h with hstored | hseed
  · exact Or.inl (hstored.mono hacknowledged)
  · exact Or.inr (hseeded turnKey hseed)

namespace Trace.Sound

theorem tracks (h : t.Sound S) (htracks : Tracks S t.machine n) :
    ({ t with machine := n } : Trace σ).Sound S := by
  have hcovers {turnKey : Text} (hkey : t.Covers S turnKey) :
      ({ t with machine := n } : Trace σ).Covers S turnKey :=
    hkey.mono htracks.acknowledged fun _ h => h
  have hnames {checkpoint : TurnCheckpoint} (hname : t.Names S checkpoint) :
      ({ t with machine := n } : Trace σ).Names S checkpoint :=
    hname.imp fun _ hturn => ⟨hturn.1, hcovers hturn.2⟩
  refine ⟨htracks.entries h.entries, fun key hkey => hcovers (h.given key hkey), ?_, ?_⟩
  · intro checkpoint hcheckpoint
    exact hnames (h.checkpoint checkpoint (htracks.checkpoint.symm.trans hcheckpoint))
  · intro state hstate checkpoint hcheckpoint
    rcases htracks.emitted state hstate with hold | hnew
    · exact hnames (h.emitted state hold checkpoint hcheckpoint)
    · exact hnames (h.checkpoint checkpoint (hnew.symm.trans hcheckpoint))

theorem seed (h : t.Sound S) (keys : List Text) :
    ({ t with seeded := keys ++ t.seeded } : Trace σ).Sound S := by
  have hcovers {turnKey : Text} (hkey : t.Covers S turnKey) :
      ({ t with seeded := keys ++ t.seeded } : Trace σ).Covers S turnKey :=
    hkey.mono (fun _ h => h) fun _ h => List.mem_append_right _ h
  have hnames {checkpoint : TurnCheckpoint} (hname : t.Names S checkpoint) :
      ({ t with seeded := keys ++ t.seeded } : Trace σ).Names S checkpoint :=
    hname.imp fun _ hturn => ⟨hturn.1, hcovers hturn.2⟩
  exact ⟨h.entries, fun key hkey => hcovers (h.given key hkey),
    fun checkpoint hcheckpoint => hnames (h.checkpoint checkpoint hcheckpoint),
    fun state hstate checkpoint hcheckpoint => hnames (h.emitted state hstate checkpoint hcheckpoint)⟩

/-- The last of some covered turns is remembered. -/
theorem persistLast {complete : List Turn} {result : Except StoreError Bool} (h : t.Sound S)
    (hcovered : ∀ turn ∈ complete, t.Covers S (archivedTurnKey S turn.messages))
    (hrun : (Session.persistLast S host complete).run t.machine = (result, n)) :
    ({ t with machine := n } : Trace σ).Sound S := by
  unfold Session.persistLast persistCompletedArchiveCheckpoint at hrun
  split at hrun
  · rw [Effect.run_pure] at hrun
    cases hrun
    exact h
  · rename_i last hlast
    split at hrun
    · rw [Effect.run_pure] at hrun
      cases hrun
      exact h
    · rename_i remembered hremembered
      have hstep := (remembers_rememberCheckpoint host remembered).of_run hrun
      have hcovers {turnKey : Text} (hkey : t.Covers S turnKey) :
          ({ t with machine := n } : Trace σ).Covers S turnKey :=
        hkey.mono (fun _ h => hstep.acknowledged ▸ h) fun _ h => h
      have hnames {checkpoint : TurnCheckpoint} (hname : t.Names S checkpoint) :
          ({ t with machine := n } : Trace σ).Names S checkpoint :=
        hname.imp fun _ hturn => ⟨hturn.1, hcovers hturn.2⟩
      have hnamed : ({ t with machine := n } : Trace σ).Names S remembered :=
        ⟨last, hremembered, hcovers (hcovered last (List.mem_of_getLast? hlast))⟩
      refine ⟨?_, fun key hkey => hcovers (h.given key hkey), ?_, ?_⟩
      · intro turnKey hlookup
        show TurnStored S n.acknowledged turnKey
        rw [hstep.acknowledged]
        exact h.entries turnKey (hstep.entries ▸ hlookup)
      · intro checkpoint hcheckpoint
        rcases hstep.checkpoint with hsame | hset
        · exact hnames (h.checkpoint checkpoint (hsame.symm.trans hcheckpoint))
        · cases hset.symm.trans hcheckpoint
          exact hnamed
      · intro state hstate checkpoint hcheckpoint
        rcases hstep.emitted state hstate with hold | hnew
        · exact hnames (h.emitted state hold checkpoint hcheckpoint)
        · cases hnew.symm.trans hcheckpoint
          exact hnamed

end Trace.Sound

/-! ## Steps of a run -/

theorem mem_of_mem_archiveCandidates {checkpoint : Option TurnCheckpoint} {complete : List Turn}
    (h : turn ∈ archiveCandidates S checkpoint complete) : turn ∈ complete := by
  unfold archiveCandidates at h
  split at h
  · exact h
  · split at h
    · exact List.mem_of_mem_drop h
    · split at h
      · exact h
      · exact List.mem_of_mem_filter h

theorem tracks_archivePending (pending : List Turn) :
    Moves (Tracks S) (archivePending S A config host pending) :=
  Moves.ite (Moves.pure _) (tracks_archiveTurns S A config host _ _)

variable {messages : List Message} {entries : List BranchEntry}

theorem opensTurn_of_completed (h : turn ∈ completedTurns S messages) :
    OpensTurn turn.messages := by
  obtain ⟨hgroup, hcompleted⟩ := List.mem_filter.mp h
  unfold isCompletedUserTurn at hcompleted
  rw [Bool.and_eq_true] at hcompleted
  exact opensTurn_of_mem hgroup hcompleted.1

theorem archivePending_stored {pending : List Turn}
    (hpending : ∀ turn ∈ pending, turn ∈ completedTurns S messages) (hentries : EntriesStored S m)
    (h : (archivePending S A config host pending).run m = (.ok (), n)) :
    ∀ turn ∈ pending, TurnStored S n.acknowledged (archivedTurnKey S turn.messages) := by
  intro turn hmem
  unfold archivePending at h
  rw [if_neg (List.ne_nil_of_mem hmem)] at h
  have hgroups := groupCompleteTurns_flatMap fun turn hturn =>
    opensTurn_of_completed (hpending turn hturn)
  have hmessages : turn.messages ∈ pending.map (·.messages) := List.mem_map_of_mem hmem
  rw [← hgroups] at hmessages
  obtain ⟨found, hfound, hsame⟩ := List.mem_map.mp hmessages
  rw [← hsame]
  exact (archiveTurns_stored hentries h).1 found hfound

theorem acknowledged_persistLast {complete : List Turn} {result : Except StoreError Bool}
    (h : (persistLast S host complete).run m = (result, n)) :
    n.acknowledged = m.acknowledged := by
  unfold persistLast persistCompletedArchiveCheckpoint at h
  split at h
  · rw [Effect.run_pure] at h
    cases h
    rfl
  · split at h
    · rw [Effect.run_pure] at h
      cases h
      rfl
    · exact ((remembers_rememberCheckpoint host _).of_run h).acknowledged

theorem covered_of_archived (h : t.Sound S)
    (hknown : t.LeavesOutKnown S (.archiveCompletedTurns messages))
    (harchive : (archivePending S A config host
      (pendingTurns S t.machine.session (completedTurns S messages))).run t.machine = (.ok (), n)) :
    ∀ turn ∈ completedTurns S messages,
      ({ t with machine := n } : Trace σ).Covers S (archivedTurnKey S turn.messages) := by
  intro turn hmem
  have htracks := (tracks_archivePending (S := S) _).of_run harchive
  have hold {turnKey : Text} (hkey : t.Covers S turnKey) :
      ({ t with machine := n } : Trace σ).Covers S turnKey :=
    hkey.mono htracks.acknowledged fun _ h => h
  have hrecorded (hlookup : (t.machine.session.archivedTurnEntries.lookup
      (archivedTurnKey S turn.messages)).isSome) :
      ({ t with machine := n } : Trace σ).Covers S (archivedTurnKey S turn.messages) :=
    hold (Or.inl (h.entries _ hlookup))
  by_cases hcandidate : turn ∈ archiveCandidates S t.machine.session.completedArchiveCheckpoint
      (completedTurns S messages)
  · cases hlookup : (t.machine.session.archivedTurnEntries.lookup
        (archivedTurnKey S turn.messages)).isSome with
    | true => exact hrecorded hlookup
    | false =>
      have hpending : turn ∈ pendingTurns S t.machine.session (completedTurns S messages) := by
        refine List.mem_filter.mpr ⟨hcandidate, ?_⟩
        rw [← Option.not_isSome, hlookup]
        rfl
      have hcomplete : ∀ other ∈ pendingTurns S t.machine.session (completedTurns S messages),
          other ∈ completedTurns S messages := fun other hother =>
        mem_of_mem_archiveCandidates (List.mem_of_mem_filter hother)
      exact Or.inl (archivePending_stored hcomplete h.entries harchive turn hpending)
  · rcases hknown turn hmem hcandidate with hgiven | hseeded | hlookup
    · exact hold (h.given _ hgiven)
    · exact Or.inr hseeded
    · exact hrecorded hlookup

theorem sound_archiveCompletedTurns (h : t.Sound S)
    (hknown : t.LeavesOutKnown S (.archiveCompletedTurns messages)) :
    (t.step S A config host (.archiveCompletedTurns messages)).Sound S := by
  unfold Trace.step
  dsimp only
  cases hrun : (archiveCompletedTurns S A config host messages).run t.machine with
  | mk result n =>
    unfold archiveCompletedTurns at hrun
    rw [run_getSession_bind] at hrun
    cases harchive : (archivePending S A config host
        (pendingTurns S t.machine.session (completedTurns S messages))).run t.machine with
    | mk archived u =>
      have htracks := (tracks_archivePending (S := S) _).of_run harchive
      cases archived with
      | error e =>
        rw [Effect.bind_of_error harchive] at hrun
        cases hrun
        exact h.tracks htracks
      | ok value =>
        rw [Effect.bind_of_ok harchive] at hrun
        have hcovered := covered_of_archived h hknown harchive
        have hsound := h.tracks htracks
        cases hpersist : (persistLast S host (completedTurns S messages)).run u with
        | mk persisted v =>
          have hlast := hsound.persistLast hcovered hpersist
          cases persisted with
          | error e =>
            rw [Effect.bind_of_error hpersist] at hrun
            cases hrun
            exact hlast
          | ok changed =>
            rw [Effect.bind_of_ok hpersist, Effect.run_pure] at hrun
            cases hrun
            refine ⟨hlast.entries, ?_, hlast.checkpoint, hlast.emitted⟩
            intro turnKey hkey
            rcases List.mem_append.mp hkey with hnew | hold
            · obtain ⟨turn, hturn, rfl⟩ := List.mem_map.mp hnew
              exact (hcovered turn hturn).mono
                (fun chunk hmem => acknowledged_persistLast hpersist ▸ hmem) fun _ h => h
            · exact hlast.given turnKey hold

theorem checkpoint_foldl_restoreEntry {get : Reader} {checkpoint : TurnCheckpoint} :
    ∀ {session : EpochWindowSession},
      (entries.foldl (restoreEntry S get) session).completedArchiveCheckpoint = some checkpoint →
        session.completedArchiveCheckpoint = some checkpoint ∨
          ∃ data, BranchEntry.rotation data ∈ entries ∧
            data.completedArchiveState = some checkpoint := by
  induction entries with
  | nil =>
    intro session h
    exact Or.inl h
  | cons entry rest ih =>
    intro session h
    rcases ih h with hfirst | ⟨data, hmem, hdata⟩
    · cases entry with
      | compaction entry => exact Or.inl hfirst
      | other => exact Or.inl hfirst
      | rotation data =>
        have hset : (data.completedArchiveState.bind restoredCheckpoint).or
            session.completedArchiveCheckpoint = some checkpoint := hfirst
        rw [Option.or_eq_some_iff] at hset
        rcases hset with hset | ⟨-, hold⟩
        · right
          obtain ⟨state, hstate, hvalid⟩ := Option.bind_eq_some_iff.mp hset
          unfold restoredCheckpoint at hvalid
          split at hvalid
          · cases hvalid
            exact ⟨data, List.mem_cons_self, hstate⟩
          · cases hvalid
        · exact Or.inl hold
    · exact Or.inr ⟨data, List.mem_cons_of_mem _ hmem, hdata⟩

theorem entries_foldl_restoreEntry {get : Reader} :
    ∀ {session : EpochWindowSession}, session.archivedTurnEntries = [] →
      (entries.foldl (restoreEntry S get) session).archivedTurnEntries = [] := by
  induction entries with
  | nil =>
    intro session h
    exact h
  | cons entry rest ih =>
    intro session h
    refine ih ?_
    cases entry <;> exact h

theorem sound_restore (h : t.Sound S) (hreported : t.RestoresReported (.restore entries)) :
    (t.step S A config host (.restore entries)).Sound S := by
  have hrun : (restore S config host entries).run t.machine =
      (refreshArchiveProtection config host).run { t.machine with
        session := restoredSession S (host.get t.machine.host) entries t.machine.session } := by
    unfold restore
    rw [Effect.bind_of_ok (Effect.run_get t.machine), run_onSession_bind]
  have hreset : ({ t with machine := { t.machine with
      session := restoredSession S (host.get t.machine.host) entries t.machine.session } } :
        Trace σ).Sound S := by
    refine ⟨?_, h.given, ?_, h.emitted⟩
    · intro turnKey hlookup
      have hnone : (restoredSession S (host.get t.machine.host) entries
          t.machine.session).archivedTurnEntries = [] := by
        unfold restoredSession
        split
        · exact entries_foldl_restoreEntry rfl
        · exact entries_foldl_restoreEntry rfl
      rw [hnone] at hlookup
      cases hlookup
    · intro checkpoint hcheckpoint
      have hfolded : (entries.foldl (restoreEntry S (host.get t.machine.host))
          (resetSession t.machine.session)).completedArchiveCheckpoint = some checkpoint := by
        dsimp only at hcheckpoint
        unfold restoredSession at hcheckpoint
        split at hcheckpoint
        · exact hcheckpoint
        · exact hcheckpoint
      rcases checkpoint_foldl_restoreEntry hfolded with hnone | ⟨data, hmem, hdata⟩
      · cases hnone
      · obtain ⟨state, hstate, hsame⟩ := hreported data hmem checkpoint hdata
        exact h.emitted state hstate checkpoint hsame
  have hrefreshed := tracks_of_quiet (S := S) (quiet_refreshArchiveProtection config host)
  have hsound := hreset.tracks (hrefreshed _)
  rw [← hrun] at hsound
  exact hsound

theorem sound_seed (h : t.Sound S) :
    (t.step S A config host (.seedCompletedArchiveCheckpoint messages)).Sound S := by
  unfold Trace.step
  dsimp only
  cases hrun : (seedCompletedArchiveCheckpoint S host messages).run t.machine with
  | mk result n =>
    unfold seedCompletedArchiveCheckpoint at hrun
    rw [run_getSession_bind] at hrun
    unfold seededBy
    split at hrun
    · rename_i hset
      rw [Effect.run_pure] at hrun
      cases hrun
      rw [if_pos hset]
      exact h
    · rename_i hset
      rw [if_neg hset]
      refine (h.seed (turnKeys S (completedTurns S messages))).persistLast ?_ hrun
      intro turn hmem
      exact Or.inr (List.mem_append_left _ (List.mem_map_of_mem hmem))

theorem Trace.Sound.step {event : Event σ} (h : t.Sound S) (hreported : t.RestoresReported event)
    (hknown : t.LeavesOutKnown S event) : (t.step S A config host event).Sound S := by
  cases event with
  | archiveCompletedTurns messages => exact sound_archiveCompletedTurns h hknown
  | process limits messages => exact h.tracks (tracks_process S A config host limits messages _)
  | restore entries => exact sound_restore h hreported
  | seedCompletedArchiveCheckpoint messages => exact sound_seed h
  | requestRotation =>
    have htracks : Moves (Tracks S) (requestRotation : Step σ Unit) :=
      tracks_onSession (fun _ => rfl) fun _ => rfl
    exact h.tracks (htracks t.machine)
  | resetAfterCompaction => exact h.tracks (tracks_resetAfterCompaction S config host _)
  | hostMoves state =>
    have hcalm : Calm t.machine { t.machine with host := state } :=
      ⟨rfl, fun _ h => h, fun _ h => Or.inl h⟩
    exact h.tracks ⟨hcalm, fun hentries => hentries.of_calm hcalm rfl⟩

/-! ## Main result -/

variable (S A config host)

/-- The steps of a run whose calls leave out only turns that an earlier call was given. -/
def MeetsGiven (t : Trace σ) (event : Event σ) : Prop :=
  t.RestoresReported event ∧ t.LeavesOutKnown S event

theorem Run.sound (h : Run S A config host (MeetsGiven S) t) : t.Sound S := by
  induction h with
  | start state signature =>
    refine ⟨?_, ?_, ?_, ?_⟩
    · intro turnKey hlookup
      cases hlookup
    · intro turnKey hgiven
      cases hgiven
    · intro checkpoint hnone
      cases hnone
    · intro state hstate
      cases hstate
  | step run meets ih => exact ih.step meets.1 meets.2

/-- In such a run every completed turn of a history that `archiveCompletedTurns` returned for is
stored or covered by the seed, and no rotation state names any other turn. -/
theorem completed_turns_stored (t : Trace σ) (h : Run S A config host (MeetsGiven S) t) :
    (∀ turnKey ∈ t.given, t.Covers S turnKey) ∧ ∀ state ∈ t.machine.emitted, ∀ checkpoint,
        state.completedArchiveState = some checkpoint → t.Names S checkpoint :=
  ⟨h.sound.given, h.sound.emitted⟩

/-! ### A turn of another branch -/

theorem TurnStored.begins {acknowledged : List (List Message)} {turnKey : Text}
    (h : TurnStored S acknowledged turnKey) (hkey : turnKey ≠ []) :
    ∃ chunk ∈ acknowledged, ∃ message ∈ chunk, messageKey S message <+: turnKey := by
  obtain ⟨messages, rfl, hchunks⟩ := h
  cases messages with
  | nil => exact absurd rfl hkey
  | cons message rest =>
    have hmem : message ∈ (checkpointSourceChunks S (message :: rest)).flatten := by
      rw [flatten_checkpointSourceChunks]
      exact List.mem_cons_self
    obtain ⟨chunk, hchunk, hmessage⟩ := List.mem_flatten.mp hmem
    refine ⟨chunk, hchunks chunk hchunk, message, hmessage, ?_⟩
    unfold archivedTurnKey join
    cases rest with
    | nil => simp
    | cons next others =>
      rw [List.map_cons, List.map_cons, List.intersperse_cons_cons, List.flatten_cons]
      exact List.prefix_append _ _

def firstBranch : List Message :=
  [plainMessage "user" "a" (some 1), plainMessage "assistant" "b" (some 5)]

/-- Completed before the last turn of the first branch. -/
def otherBranch : List Message :=
  [plainMessage "user" "c" (some 2), plainMessage "assistant" "d" (some 3)]

def plainStart : Trace Unit := { machine := { session := {}, host := () } }

def plainStep (t : Trace Unit) (event : Event Unit) : Trace Unit :=
  t.step plainSetting plainAnalysis plainConfig (plainHost true true) event

/-- The turn of the other branch is older than the one remembered, and is taken for stored. -/
theorem other_branch_left_out : ∃ t : Trace Unit,
    Run plainSetting plainAnalysis plainConfig (plainHost true true) Trace.RestoresReported t ∧
      ∃ turnKey ∈ t.given, ¬ t.Covers plainSetting turnKey := by
  refine ⟨plainStep (plainStep plainStart (.archiveCompletedTurns firstBranch))
    (.archiveCompletedTurns otherBranch), ?_, archivedTurnKey plainSetting otherBranch, ?_, ?_⟩
  · exact ((Run.start () none).step trivial).step trivial
  · decide +kernel
  · have hnot : ((plainStep (plainStep plainStart (.archiveCompletedTurns firstBranch))
        (.archiveCompletedTurns otherBranch)).machine.acknowledged.all fun chunk =>
          chunk.all fun message => !(messageKey plainSetting message).isPrefixOf
            (archivedTurnKey plainSetting otherBranch)) = true := by decide +kernel
    have hnonempty : archivedTurnKey plainSetting otherBranch ≠ [] := by decide +kernel
    have hunseeded : (plainStep (plainStep plainStart (.archiveCompletedTurns firstBranch))
        (.archiveCompletedTurns otherBranch)).seeded = [] := rfl
    rintro (hstored | hseeded)
    · obtain ⟨chunk, hchunk, message, hmessage, hbegins⟩ := TurnStored.begins plainSetting hstored hnonempty
      have hfails := List.all_eq_true.mp (List.all_eq_true.mp hnot chunk hchunk) message hmessage
      rw [List.isPrefixOf_iff_prefix.mpr hbegins] at hfails
      cases hfails
    · rw [hunseeded] at hseeded
      cases hseeded

/-- The turns of one branch are stored. -/
theorem completed_turns_stored_firstBranch :
    (∀ turnKey ∈ (plainStep plainStart (.archiveCompletedTurns firstBranch)).given,
      (plainStep plainStart (.archiveCompletedTurns firstBranch)).Covers plainSetting turnKey) ∧
    ∀ state ∈ (plainStep plainStart (.archiveCompletedTurns firstBranch)).machine.emitted,
      ∀ checkpoint, state.completedArchiveState = some checkpoint →
        (plainStep plainStart (.archiveCompletedTurns firstBranch)).Names plainSetting
          checkpoint := by
  refine completed_turns_stored plainSetting plainAnalysis plainConfig (plainHost true true) _
    ((Run.start () none).step ⟨trivial, ?_⟩)
  intro turn hmem hleft
  exact absurd hmem hleft

end ContextStore.Session
