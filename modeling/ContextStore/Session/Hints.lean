import ContextStore.Session.Frames

/-! # Hints

The text of a hint is in the memory of a session only; what is persisted is which messages one was
asked for. A session restored asks the archive for the text it had decided on, so that a hint stays
as it is exactly if the archive answers with what was added to the message. -/

namespace ContextStore.Session

open Unicode Archive Effects

variable {σ : Type}

/-! ## The archive -/

/-- What the archive was asked to do about hints: to decide on one, with the text it answers with
from then on, or to remove some. -/
inductive HintRequest where
  | fresh (key : Text) (failed : Bool) (answer : Text)
  | removal (failed kept : Bool)
deriving DecidableEq

/-- Nothing was decided on and nothing was removed if the request failed. -/
def HintRequest.Clean : HintRequest → Prop
  | .fresh _ failed answer => failed = true → answer = []
  | .removal failed kept => failed = true → kept = true

/-- What there is of hints outside of a session. -/
structure HintView where
  /-- The text for a message whose hint is to be reconstructed. -/
  answer : Text → Text
  requests : List HintRequest
  persisted : Option RotationState

/-- The archive may fail before or after it has decided. -/
structure Decided (key : Text) (result : Except StoreError Text) (before after : HintView) :
    Prop where
  requests : after.requests = .fresh key (!result.isOk) (after.answer key) :: before.requests
  persisted : after.persisted = before.persisted
  others : ∀ other, other ≠ key → after.answer other = before.answer other
  decided : ∀ hint, result = .ok hint → after.answer key = hint

/-- The archive may fail before or after it has removed them. -/
structure Removed (keys : List Text) (result : Except StoreError Unit) (before after : HintView) :
    Prop where
  requests : after.requests = .removal (!result.isOk)
    (keys.all fun key => after.answer key = before.answer key) :: before.requests
  persisted : after.persisted = before.persisted
  others : ∀ other, other ∉ keys → after.answer other = before.answer other

/-- An archive that reconstructs a hint it has decided on, and a host that keeps the states it is
handed. -/
structure HintArchive (host : Host σ) where
  view : σ → HintView
  put : ∀ document s, view (host.put document s).2 = view s
  setProtectedContext : ∀ request s, view (host.setProtectedContext request s).2 = view s
  onRotation : ∀ state s, (host.onRotation state s).1 = .ok () ∧
    view (host.onRotation state s).2 = { view s with persisted := some state }
  unavailable : host.preflight = none → ∀ s key, (view s).answer key = []
  reconstruct : ∀ preflight, host.preflight = some preflight → ∀ request s,
    request.reconstruct = true →
      (preflight request s).1 = .ok ((view s).answer request.messageKey) ∧
        view (preflight request s).2 = view s
  preflight : ∀ preflight, host.preflight = some preflight → ∀ request s,
    request.reconstruct = false → Decided request.messageKey (preflight request s).1 (view s)
      (view (preflight request s).2)
  removeHints : ∀ remove, host.removeHints = some remove → ∀ keys s,
    Removed keys (remove keys s).1 (view s) (view (remove keys s).2)

variable {host : Host σ} (archive : HintArchive host) (config : Config)

/-- The hints asked for a message anew. -/
def freshRequests (key : Text) (requests : List HintRequest) : Nat :=
  (requests.filter fun request => match request with
    | .fresh other _ _ => other = key
    | .removal _ _ => false).length

def HintArchive.Clean (m : Machine σ) : Prop :=
  ∀ request ∈ (archive.view m.host).requests, request.Clean

/-! ## What a session knows -/

/-- A text added is that of the archive. -/
def HintsKnown (m : Machine σ) : Prop :=
  ∀ key hint, m.session.frozenHintTextByMessageKey.lookup key = some hint →
    key ∈ m.session.reconstructOnlyHintMessageKeys ∧ (archive.view m.host).answer key = hint

/-- The keys a session restored from a state has. -/
def HintView.restoredKeys (view : HintView) : List Text :=
  restoredHintKeys ((view.persisted.map (·.reconstructOnlyMessageKeys)).getD [])

def persistableKeys (session : EpochWindowSession) : List Text :=
  restoredHintKeys (lastItems MAX_RECONSTRUCT_ONLY_HINT_KEYS session.reconstructOnlyHintMessageKeys)

def HintsPersisted (m : Machine σ) : Prop :=
  ∀ key, key ∈ (archive.view m.host).restoredKeys ↔ key ∈ persistableKeys m.session

/-- No hint is asked for on its own. -/
def Config.NeverAsks (config : Config) (host : Host σ) : Prop :=
  config.automaticRetrieval = some false ∨
    host.preflight = none ∧ config.automaticRetrieval ≠ some true

/-- The hint of a message is decided: it was asked for and this is what the archive answers, or none
is asked for. -/
def Kept (key hint : Text) (m : Machine σ) : Prop :=
  key ∈ m.session.reconstructOnlyHintMessageKeys ∧ (archive.view m.host).answer key = hint ∨
    key ∉ m.session.reconstructOnlyHintMessageKeys ∧ hint = [] ∧ config.NeverAsks host

variable {archive config} in
theorem Kept.unique {key hint hint' : Text} {m : Machine σ}
    (h : Kept archive config key hint m) (h' : Kept archive config key hint' m) : hint = hint' := by
  rcases h with ⟨hasked, hanswer⟩ | ⟨hnot, hnone, -⟩
  · rcases h' with ⟨-, hanswer'⟩ | ⟨hnot, -, -⟩
    · exact hanswer.symm.trans hanswer'
    · exact absurd hasked hnot
  · rcases h' with ⟨hasked, -⟩ | ⟨-, hnone', -⟩
    · exact absurd hasked hnot
    · exact hnone.trans hnone'.symm

/-! ## Steps that keep hints -/

/-- A step after which the hints are those before it. -/
structure HintStep (key : Text) (m n : Machine σ) : Prop where
  requests : (archive.view m.host).requests <:+ (archive.view n.host).requests
  known : HintsKnown archive m → archive.Clean n → HintsKnown archive n
  kept : HintsKnown archive m → archive.Clean n → ∀ hint, Kept archive config key hint m →
    Kept archive config key hint n ∧
      freshRequests key (archive.view n.host).requests =
        freshRequests key (archive.view m.host).requests

variable {archive config} in
theorem HintStep.clean {key : Text} {m n : Machine σ} (h : HintStep archive config key m n)
    (hclean : archive.Clean n) : archive.Clean m :=
  fun request hmem => hclean request (h.requests.subset hmem)

instance (key : Text) : Std.Refl (HintStep archive config key) where
  refl _ := ⟨List.suffix_refl _, fun h _ => h, fun _ _ _ h => ⟨h, rfl⟩⟩

instance (key : Text) : IsTrans (Machine σ) (HintStep archive config key) where
  trans m n o hmn hno := by
    refine ⟨hmn.requests.trans hno.requests, fun hknown hclean => ?_, ?_⟩
    · exact hno.known (hmn.known hknown (hno.clean hclean)) hclean
    · intro hknown hclean hint hkept
      have hbefore := hno.clean hclean
      obtain ⟨hkept', hcount⟩ := hmn.kept hknown hbefore hint hkept
      obtain ⟨hkept'', hcount'⟩ := hno.kept (hmn.known hknown hbefore) hclean hint hkept'
      exact ⟨hkept'', hcount'.trans hcount⟩

/-- A step that does not touch the hints at all, but may hand over the state. -/
structure HintFrame (m n : Machine σ) : Prop where
  frozen : n.session.frozenHintTextByMessageKey = m.session.frozenHintTextByMessageKey
  attempted : n.session.reconstructOnlyHintMessageKeys = m.session.reconstructOnlyHintMessageKeys
  answer : (archive.view n.host).answer = (archive.view m.host).answer
  requests : (archive.view n.host).requests = (archive.view m.host).requests
  persisted : HintsPersisted archive m → HintsPersisted archive n

instance : Std.Refl (HintFrame archive) where
  refl _ := ⟨rfl, rfl, rfl, rfl, fun h => h⟩

instance : IsTrans (Machine σ) (HintFrame archive) where
  trans _ _ _ hmn hno := ⟨hno.frozen.trans hmn.frozen, hno.attempted.trans hmn.attempted,
    hno.answer.trans hmn.answer, hno.requests.trans hmn.requests,
    fun h => hno.persisted (hmn.persisted h)⟩

variable {archive config} in
theorem HintFrame.kept_iff {m n : Machine σ} (h : HintFrame archive m n) {key hint : Text} :
    Kept archive config key hint n ↔ Kept archive config key hint m := by
  rw [Kept, Kept, h.attempted, h.answer]

variable {archive} in
theorem HintFrame.known {m n : Machine σ} (h : HintFrame archive m n)
    (hknown : HintsKnown archive m) : HintsKnown archive n := by
  intro key hint
  rw [h.frozen, h.attempted, h.answer]
  exact hknown key hint

theorem HintFrame.step {m n : Machine σ} (h : HintFrame archive m n) (key : Text) :
    HintStep archive config key m n :=
  ⟨by rw [h.requests], fun hknown _ => h.known hknown,
    fun _ _ _ hkept => ⟨h.kept_iff.mpr hkept, by rw [h.requests]⟩⟩

theorem hintFrame_of_view {m n : Machine σ}
    (hfrozen : n.session.frozenHintTextByMessageKey = m.session.frozenHintTextByMessageKey)
    (hattempted :
      n.session.reconstructOnlyHintMessageKeys = m.session.reconstructOnlyHintMessageKeys)
    (hview : archive.view n.host = archive.view m.host) : HintFrame archive m n := by
  refine ⟨hfrozen, hattempted, by rw [hview], by rw [hview], fun h => ?_⟩
  rw [HintsPersisted, hview, persistableKeys, hattempted]
  exact h

/-! ## Up to the window -/

variable {archive}

theorem hintFrame_callHost {α : Type} {f : σ → Except StoreError α × σ}
    (h : ∀ s, archive.view (f s).2 = archive.view s) : Moves (HintFrame archive) (callHost f) :=
  fun m => hintFrame_of_view archive rfl rfl (h m.host)

theorem hintFrame_onSession {f : EpochWindowSession → EpochWindowSession}
    (hfrozen : ∀ session, (f session).frozenHintTextByMessageKey =
      session.frozenHintTextByMessageKey)
    (hattempted : ∀ session, (f session).reconstructOnlyHintMessageKeys =
      session.reconstructOnlyHintMessageKeys) :
    Moves (HintFrame archive) (onSession f) :=
  Moves.modify fun m => hintFrame_of_view archive (hfrozen m.session) (hattempted m.session) rfl

theorem storingFrame_hints : StoringFrame host (HintFrame archive) where
  put document := hintFrame_callHost (archive.put document)
  setProtectedContext request := hintFrame_callHost (archive.setProtectedContext request)
  plan S request := hintFrame_callHost fun s =>
    createArchiveCheckpoint_view (fun _ _ => rfl) S request s
  checkpoint S request := hintFrame_callHost fun s =>
    createArchiveCheckpoint_view (fun _ s => archive.put _ s) S request s
  acknowledge _ := Moves.modify fun _ => hintFrame_of_view archive rfl rfl rfl
  session h := hintFrame_onSession
    (fun session => by obtain ⟨_, _, _, heq⟩ := h session; rw [heq]; rfl)
    fun session => by obtain ⟨_, _, _, heq⟩ := h session; rw [heq]; rfl

variable (archive) in
theorem run_reportRotation (m : Machine σ) : ∃ n, (reportRotation host).run m = (.ok (), n) ∧
    HintFrame archive m n ∧ HintsPersisted archive n := by
  obtain ⟨hok, hview⟩ := archive.onRotation (rotationState m.session (host.now m.host)) m.host
  have hkeys : ∀ (session : EpochWindowSession) archivedAt (view : HintView),
      { view with persisted := some (rotationState session archivedAt) }.restoredKeys =
        persistableKeys session := fun _ _ _ => by
    rw [HintView.restoredKeys, persistableKeys, Option.map_some, Option.getD_some, rotationState]
  refine ⟨⟨m.session, (host.onRotation (rotationState m.session (host.now m.host)) m.host).2,
    m.acknowledged, rotationState m.session (host.now m.host) :: m.emitted⟩, ?_, ?_, ?_⟩
  · exact Prod.ext hok rfl
  · refine ⟨rfl, rfl, by rw [hview], by rw [hview], fun _ key => ?_⟩
    rw [hview, hkeys]
  · intro key
    rw [hview, hkeys]

theorem hintFrame_reportRotation : Moves (HintFrame archive) (reportRotation host) := by
  intro m
  obtain ⟨n, hrun, hframe, -⟩ := run_reportRotation archive m
  rw [hrun]
  exact hframe

section Open

variable {S : Setting} {A : Analysis} {config}

theorem hintFrame_archiveTurns (messages : List Message) (recordToc : Bool) :
    Moves (HintFrame archive) (archiveTurns S A config host messages recordToc) := by
  refine Moves.bind moves_getSession fun before => ?_
  refine Moves.bind (Moves.tryCatch ?_ ?_) fun staged => ?_
  · exact Moves.mapList (storing_archiveTurn storingFrame_hints) _
  · intro e
    refine Moves.bind (hintFrame_onSession (fun _ => rfl) fun _ => rfl) fun _ => ?_
    exact Moves.bind (storing_refreshArchiveProtection storingFrame_hints) fun _ => Moves.throw e
  · refine Moves.bind (hintFrame_onSession (fun _ => rfl) fun _ => rfl) fun _ => ?_
    refine Moves.tryCatch ?_ ?_
    · refine Moves.bind (storing_refreshArchiveProtection storingFrame_hints) fun _ => ?_
      exact hintFrame_onSession (fun _ => rfl) fun _ => rfl
    · intro e
      refine Moves.bind (hintFrame_onSession (fun _ => rfl) fun _ => rfl) fun _ => ?_
      refine Moves.bind (Moves.tryCatch ?_ fun _ => Moves.pure _) fun _ => Moves.throw e
      exact storing_refreshArchiveProtection storingFrame_hints

theorem hintFrame_retainWindow (prepared : Prepared) (rotation : Rotation) :
    Moves (HintFrame archive) (retainWindow S A config host prepared rotation) := by
  refine Moves.bind (hintFrame_onSession (fun _ => rfl) fun _ => rfl) fun _ => ?_
  refine Moves.bind (storing_externalizeArtifacts storingFrame_hints _ _) fun _ => ?_
  refine Moves.bind (storing_refreshArchiveProtection storingFrame_hints) fun _ => ?_
  exact Moves.bind hintFrame_reportRotation fun _ => Moves.pure _

theorem hintFrame_applyPlan (prepared : Prepared) (plan : RotationPlan)
    (boundaryPrefix : List Message) :
    Moves (HintFrame archive) (applyPlan S A config host prepared plan boundaryPrefix) := by
  have hkeep : ∀ reason, Moves (HintFrame archive)
      (keepWindow prepared reason boundaryPrefix : Step σ ActiveWindow) := fun _ =>
    Moves.bind (hintFrame_onSession (fun _ => rfl) fun _ => rfl) fun _ => Moves.pure _
  cases plan with
  | rotate rotation =>
    refine Moves.bind (hintFrame_archiveTurns _ _) fun _ => ?_
    exact Moves.bind (hintFrame_retainWindow prepared rotation) fun _ => Moves.pure _
  | nativeCompaction trigger reason => exact hkeep _
  | none => exact hkeep _

end Open

end ContextStore.Session
