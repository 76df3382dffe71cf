import ContextStore.Session.Window

/-! # What storing leaves alone

Most of a call only stores to the archive and keeps account of what is there. A relation between
states that each of these steps keeps is kept by everything that is made of them. -/

namespace ContextStore.Session

open Unicode Archive Effects

variable {σ α : Type}

@[simp]
theorem run_getSession (m : Machine σ) : (getSession : Step σ _).run m = (.ok m.session, m) := rfl

@[simp]
theorem run_onSession (f : EpochWindowSession → EpochWindowSession) (m : Machine σ) :
    (onSession f).run m = (.ok (), { m with session := f m.session }) := rfl

/-- A step whose first part cannot throw. -/
theorem run_getSession_bind (f : EpochWindowSession → Step σ α) (m : Machine σ) :
    (getSession >>= f).run m = (f m.session).run m := Effect.bind_of_ok (run_getSession m)

theorem run_onSession_bind (g : EpochWindowSession → EpochWindowSession)
    (f : Unit → Step σ α) (m : Machine σ) :
    (onSession g >>= f).run m = (f ()).run { m with session := g m.session } :=
  Effect.bind_of_ok (run_onSession g m)

/-! ## Writes of a checkpoint -/

section Writes

variable {γ : Type} {view : σ → γ} {archive : Facade σ}
  (hput : ∀ document s, view (archive.put document s).2 = view s)

include hput

theorem putIdempotent_view (S : Setting) (document : CheckpointDocument) (s : σ) :
    view (putIdempotent S archive document s).2 = view s := by
  have hwritten := hput document s
  unfold putIdempotent
  split
  · rfl
  · split <;> rfl
  · split
    · next heq =>
      rw [heq] at hwritten
      split <;> exact hwritten
    · next heq =>
      rw [heq] at hwritten
      exact hwritten
    · next heq =>
      rw [heq] at hwritten
      exact hwritten

theorem putAll_view (S : Setting) (documents : List CheckpointDocument) : ∀ s,
    view (putAll S archive documents s).2 = view s := by
  induction documents with
  | nil =>
    intro s
    rfl
  | cons document rest ih =>
    intro s
    have hwritten := putIdempotent_view hput S document s
    unfold putAll
    split
    · next heq =>
      rw [heq] at hwritten
      exact (ih _).trans hwritten
    · next heq =>
      rw [heq] at hwritten
      exact hwritten

theorem createArchiveCheckpoint_view (S : Setting) (request : CheckpointRequest) (s : σ) :
    view (createArchiveCheckpoint S archive request s).2 = view s := by
  unfold createArchiveCheckpoint
  split
  · rfl
  · rfl
  · next plan _ =>
    have hwritten := putAll_view hput S (plan.documents request) s
    split
    · next heq =>
      rw [heq] at hwritten
      exact hwritten
    · next heq =>
      rw [heq] at hwritten
      exact hwritten

end Writes

def EpochWindowSession.withStored (session : EpochWindowSession)
    (activeArchiveIds storedArtifactIds : List Text) (signature : Option ProtectionRequest) :
    EpochWindowSession :=
  { session with activeArchiveIds, storedArtifactIds, archiveProtectionSignature := signature }

/-- A relation that no write to the archive breaks, and no account of one. -/
structure StoringFrame (host : Host σ) (R : Machine σ → Machine σ → Prop) : Prop where
  put : ∀ document, Moves R (callHost (host.put document))
  setProtectedContext : ∀ request, Moves R (callHost (host.setProtectedContext request))
  plan : ∀ S request, Moves R (createCheckpoint S host.checkpointPlanningArchive request)
  checkpoint : ∀ S request, Moves R (createCheckpoint S host.archive request)
  acknowledge : ∀ chunk, Moves R (acknowledge chunk)
  session : ∀ {f : EpochWindowSession → EpochWindowSession},
    (∀ session, ∃ activeArchiveIds storedArtifactIds signature,
      f session = session.withStored activeArchiveIds storedArtifactIds signature) →
    Moves R (onSession f)

variable {R : Machine σ → Machine σ → Prop} [Std.Refl R] [IsTrans (Machine σ) R]

theorem moves_getSession : Moves R (getSession : Step σ EpochWindowSession) :=
  Moves.bind Moves.get fun _ => Moves.pure _

theorem moves_now (host : Host σ) : Moves R (now host) :=
  Moves.bind Moves.get fun _ => Moves.pure _

variable {S : Setting} {A : Analysis} {config : Config} {host : Host σ}

theorem moves_createdAtOf (message : Option Message) : Moves R (createdAtOf host message) :=
  Moves.bind (moves_now host) fun _ => Moves.pure _

theorem moves_checkpointCreatedAt (messages : List Message) :
    Moves R (checkpointCreatedAt host messages) :=
  Moves.bind (moves_now host) fun _ => Moves.pure _

/-! ## Steps that store by other steps -/

variable {store : Message → Text → Step σ (Option Text)}

theorem moves_externalizeResult (gate : ResultGate) (hstore : ∀ m t, Moves R (store m t))
    (index admittedChars : Nat) (message : Message) :
    Moves R (externalizeResult S A gate store index admittedChars message) := by
  refine Moves.ite (Moves.pure _) (Moves.ite (Moves.pure _) (Moves.bind (hstore _ _) fun id => ?_))
  cases confirmed id with
  | none => exact Moves.pure _
  | some id => exact Moves.pure _

theorem moves_externalizeResultsFrom (gate : ResultGate) (hstore : ∀ m t, Moves R (store m t))
    (messages : List Message) : ∀ index admittedChars,
      Moves R (externalizeResultsFrom S A gate store index admittedChars messages) := by
  induction messages with
  | nil =>
    intro index admittedChars
    exact Moves.pure _
  | cons message rest ih =>
    intro index admittedChars
    refine Moves.bind (moves_externalizeResult gate hstore index admittedChars message) ?_
    exact fun _ => Moves.bind (ih _ _) fun _ => Moves.pure _

theorem moves_externalizePart (maxTokens : Nat)
    {store : Message → Json → Text → Step σ (Option Text)}
    (hstore : ∀ m p t, Moves R (store m p t)) (message : Message) (part : Json) :
    Moves R (externalizePart A maxTokens store message part) := by
  unfold externalizePart
  split
  · exact Moves.pure _
  · exact Moves.ite (Moves.pure _) (Moves.bind (hstore _ _ _) fun _ => Moves.pure _)

theorem moves_externalizeLargeToolArguments (maxTokens : Nat)
    {store : Message → Json → Text → Step σ (Option Text)}
    (hstore : ∀ m p t, Moves R (store m p t)) (messages : List Message) :
    Moves R (externalizeLargeToolArguments A maxTokens store messages) := by
  refine Moves.bind (Moves.mapList (fun message => ?_) messages) fun _ => Moves.pure _
  unfold externalizeArguments
  split
  · exact Moves.bind (Moves.mapList (moves_externalizePart maxTokens hstore message) _)
      fun _ => Moves.pure _
  · exact Moves.pure _

theorem moves_deduplicateFrom (callArguments : List (Text × Text))
    (hstore : ∀ m t, Moves R (store m t)) (messages : List Message) : ∀ index seen,
      Moves R (deduplicateFrom S callArguments store index seen messages) := by
  induction messages with
  | nil =>
    intro index seen
    exact Moves.pure _
  | cons message rest ih =>
    intro index seen
    refine Moves.ite (Moves.bind (ih _ _) fun _ => Moves.pure _) ?_
    split
    · exact Moves.bind (ih _ _) fun _ => Moves.pure _
    · exact Moves.bind (hstore _ _) fun _ => Moves.bind (ih _ _) fun _ => Moves.pure _

variable (frame : StoringFrame host R)

include frame

theorem storing_refreshArchiveProtection : Moves R (refreshArchiveProtection config host) := by
  refine Moves.bind moves_getSession fun session => Moves.ite (Moves.pure _) ?_
  exact Moves.bind (frame.setProtectedContext _) fun _ => frame.session fun _ => ⟨_, _, _, rfl⟩

/-! ## Storing -/

theorem storing_storeArtifact (id kind value : Text) (message : Message) (metadata : Json) :
    Moves R (storeArtifact config host id kind value message metadata) := by
  refine Moves.bind moves_getSession fun session => Moves.ite (Moves.pure _) ?_
  refine Moves.bind (moves_createdAtOf _) fun _ => ?_
  refine Moves.bind (frame.put _) fun storedId => ?_
  refine Moves.bind (frame.session fun session => ?_) fun _ => Moves.pure _
  cases confirmed storedId <;> exact ⟨_, _, _, rfl⟩

theorem storing_storeTurnCheckpoint (turn : Turn) (chunk : List Message) :
    Moves R (storeTurnCheckpoint S A config host turn chunk) := by
  refine Moves.bind (moves_checkpointCreatedAt chunk) fun _ => ?_
  refine Moves.bind (frame.plan S _) fun planned => ?_
  cases plannedTurn S planned with
  | none => exact Moves.throw _
  | some plan =>
    refine Moves.bind (frame.checkpoint S _) fun stored => ?_
    show Moves R _
    cases hentry : storedTurn plan stored with
    | none => exact Moves.throw _
    | some entry =>
      refine Moves.bind (frame.acknowledge chunk) fun _ => ?_
      refine Moves.bind (frame.session fun _ => ⟨_, _, _, rfl⟩) fun _ => ?_
      exact Moves.bind (storing_refreshArchiveProtection frame) fun _ => Moves.pure _

theorem storing_storeTurnDocument (turn : Turn) (chunk : List Message) :
    Moves R (storeTurnDocument S A config host turn chunk) := by
  refine Moves.bind (moves_createdAtOf _) fun _ => ?_
  refine Moves.bind (frame.put _) fun id => ?_
  cases confirmed id with
  | none => exact Moves.throw _
  | some id => exact Moves.bind (frame.acknowledge chunk) fun _ => Moves.pure _

theorem storing_storeCandidates (kind turnId : Text) (chunk : List Message)
    (candidates : List (Text × List (Text × Json))) :
    Moves R (storeCandidates S config host kind turnId chunk candidates) := by
  refine Moves.bind (Moves.mapList (fun candidate => ?_) candidates) fun _ => Moves.pure _
  refine Moves.bind (moves_createdAtOf _) fun _ => ?_
  exact Moves.bind (frame.put _) fun _ => Moves.pure _

theorem storing_archiveChunk (turn : Turn) (chunk : List Message) :
    Moves R (archiveChunk S A config host turn chunk) := by
  refine Moves.ite (Moves.pure _) (Moves.bind ?_ fun entry => ?_)
  · exact Moves.ite (storing_storeTurnCheckpoint frame turn chunk)
      (storing_storeTurnDocument frame turn chunk)
  · refine Moves.bind (storing_storeCandidates frame _ _ _ _) fun _ => ?_
    exact Moves.bind (storing_storeCandidates frame _ _ _ _) fun _ => Moves.pure _

theorem storing_archiveTurn (turn : Turn) : Moves R (archiveTurn S A config host turn) := by
  refine Moves.bind moves_getSession fun session => ?_
  dsimp only
  split
  · exact Moves.pure _
  · exact Moves.bind (Moves.mapList (storing_archiveChunk frame turn) _)
      fun _ => Moves.pure _

/-! ## Replacing artifacts -/

theorem storing_storeToolResult (message : Message) (value : Text) :
    Moves R (storeToolResult S config host message value) :=
  storing_storeArtifact frame _ _ _ _ _

theorem storing_storeToolArgument (message : Message) (part : Json) (value : Text) :
    Moves R (storeToolArgument S config host message part value) :=
  storing_storeArtifact frame _ _ _ _ _

omit [Std.Refl R] [IsTrans (Machine σ) R] in
theorem storing_addActiveArchiveIds (ids : List Text) :
    Moves R (addActiveArchiveIds ids : Step σ Unit) :=
  frame.session fun _ => ⟨_, _, _, rfl⟩

theorem storing_externalizeArtifacts (gate : ResultGate) (messages : List Message) :
    Moves R (externalizeArtifacts S A config host gate messages) := by
  refine Moves.bind (moves_externalizeResultsFrom gate (storing_storeToolResult frame)
    messages 0 0) fun _ => ?_
  refine Moves.bind (storing_addActiveArchiveIds frame _) fun _ => ?_
  refine Moves.bind (moves_externalizeLargeToolArguments _ (storing_storeToolArgument frame)
    _) fun _ => ?_
  exact Moves.bind (storing_addActiveArchiveIds frame _) fun _ => Moves.pure _

theorem storing_deduplicateActive (messages : List Message) :
    Moves R (deduplicateActive S config host messages) :=
  Moves.ite (moves_deduplicateFrom _ (storing_storeToolResult frame) messages 0 []) (Moves.pure _)

/-! ## Oversized messages of the user -/

theorem storing_planInput (message : Message) (source : CheckpointSource) (createdAt : Nat) :
    ∀ fuel previewTokens,
      Moves R (planInput S A config host message source createdAt fuel previewTokens) := by
  intro fuel
  induction fuel with
  | zero =>
    intro previewTokens
    rw [planInput]
    exact Moves.pure _
  | succ fuel ih =>
    intro previewTokens
    cases previewTokens with
    | zero => exact Moves.pure _
    | succ previewTokens =>
      refine Moves.bind (frame.plan S _) fun planned => ?_
      show Moves R _
      cases normalizedPlan S planned with
      | none => exact Moves.pure _
      | some stored => exact Moves.ite (Moves.pure _) (ih _)

theorem storing_externalizeOversizedUser (message : Message) :
    Moves R (externalizeOversizedUser S A config host message) := by
  refine Moves.bind (moves_checkpointCreatedAt _) fun _ => ?_
  refine Moves.bind (storing_planInput frame message _ _ _ _) fun planned => ?_
  cases planned with
  | none => exact Moves.throw _
  | some planned =>
    refine Moves.bind (frame.checkpoint S _) fun stored => ?_
    show Moves R _
    cases storedInput S planned stored with
    | none => exact Moves.throw _
    | some externalized => exact Moves.pure _

theorem storing_externalizeOversizedUsers (messages : List Message) :
    Moves R (externalizeOversizedUsers S A config host messages) := by
  refine Moves.bind (Moves.mapList (fun message => ?_) messages) fun _ => Moves.pure _
  exact Moves.ite (Moves.pure _) (storing_externalizeOversizedUser frame message)

theorem storing_prepareContext (limits : ContextLimits) (source : List Message) :
    Moves R (prepareContext S A config host limits source) := by
  refine Moves.bind (storing_externalizeOversizedUsers frame source) fun _ => ?_
  refine Moves.bind (frame.session fun _ => ⟨_, _, _, rfl⟩) fun _ => ?_
  refine Moves.bind (storing_deduplicateActive frame _) fun _ => ?_
  refine Moves.bind (storing_addActiveArchiveIds frame _) fun _ => ?_
  refine Moves.bind moves_getSession fun _ => ?_
  refine Moves.bind (storing_externalizeArtifacts frame _ _) fun _ => ?_
  exact Moves.bind (storing_refreshArchiveProtection frame) fun _ => Moves.pure _

end ContextStore.Session
