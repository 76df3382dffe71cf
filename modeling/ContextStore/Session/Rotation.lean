import ContextStore.Session.CompletedTurns
import Mathlib.Algebra.Order.BigOperators.Group.List

/-! # Rotations

A rotation cuts the window at a turn of the user: what comes before is archived, chunk by chunk, and
what follows is retained. Artifacts are replaced in place, so the cut found in the provider's
messages is one of the source. The boundary is found again by the key of its message alone; an
earlier message whose key of an older format is the same key is found instead. -/

namespace ContextStore.Session

open Unicode Archive Effects

variable {σ : Type} (S : Setting) (A : Analysis) (config : Config) (host : Host σ)

/-! ## Messages are replaced in place -/

/-- The same messages as far as their roles tell. -/
def SameRoles (messages replaced : List Message) : Prop :=
  List.Forall₂ (fun message other => other.role = message.role) messages replaced

theorem SameRoles.refl (messages : List Message) : SameRoles messages messages :=
  List.forall₂_same.mpr fun _ _ => rfl

theorem SameRoles.trans {first second third : List Message} (h : SameRoles first second)
    (h' : SameRoles second third) : SameRoles first third := by
  unfold SameRoles at h h' ⊢
  induction h generalizing third with
  | nil => exact h'
  | cons hrole hrest ih =>
    obtain ⟨message, rest, hmessage, hlater, rfl⟩ := List.forall₂_cons_left_iff.mp h'
    exact List.Forall₂.cons (hmessage.trans hrole) (ih hlater)

theorem SameRoles.isUser_getElem? {messages replaced : List Message}
    (h : SameRoles messages replaced) (index : Nat) :
    replaced[index]?.any Message.isUser = messages[index]?.any Message.isUser := by
  unfold SameRoles at h
  induction h generalizing index with
  | nil => rfl
  | cons hrole hrest ih =>
    cases index with
    | zero => simp [Message.isUser, hrole]
    | succ index => exact ih index

theorem sameRoles_map {α : Type} {messages : List Message} {replaced : List α} {f : α → Message}
    (h : List.Forall₂ (fun message other => (f other).role = message.role) messages replaced) :
    SameRoles messages (replaced.map f) := List.forall₂_map_right_iff.mpr h

theorem returns_planInput (message : Message) (source : CheckpointSource) (createdAt : Nat) :
    ∀ fuel previewTokens,
      Returns (fun planned => ∀ input ∈ planned, input.providerMessage.role = message.role)
        (planInput S A config host message source createdAt fuel previewTokens) := by
  have hnone : ∀ input ∈ (none : Option PlannedInput), input.providerMessage.role = message.role := by
    intro _ hmem
    cases hmem
  intro fuel
  induction fuel with
  | zero =>
    intro previewTokens
    rw [planInput]
    exact Returns.pure hnone
  | succ fuel ih =>
    intro previewTokens
    cases previewTokens with
    | zero => exact Returns.pure hnone
    | succ previewTokens =>
      refine Returns.after fun planned => ?_
      show Returns _ _
      cases normalizedPlan S planned with
      | none => exact Returns.pure hnone
      | some stored =>
        refine Returns.ite (Returns.pure ?_) (ih _)
        intro input hmem
        cases hmem
        rfl

theorem returns_externalizeUser (message : Message) :
    Returns (fun replaced => replaced.message.role = message.role)
      (externalizeUser S A config host message) := by
  refine Returns.ite (Returns.pure rfl) (Returns.after fun createdAt => ?_)
  refine Returns.bind (returns_planInput S A config host message _ createdAt _ _) ?_
  intro planned hplanned
  cases planned with
  | none => exact Returns.throw _
  | some planned =>
    refine Returns.after fun stored => ?_
    show Returns _ _
    cases hstored : storedInput S planned stored with
    | none => exact Returns.throw _
    | some externalized =>
      refine Returns.pure ?_
      unfold storedInput at hstored
      split at hstored
      · cases hstored
      · split at hstored
        · cases hstored
          exact hplanned planned rfl
        · cases hstored

theorem returns_externalizeOversizedUsers (messages : List Message) :
    Returns (fun replaced => SameRoles messages replaced.messages)
      (externalizeOversizedUsers S A config host messages) :=
  Returns.bind (Returns.mapList (returns_externalizeUser S A config host) messages)
    fun _ hreplaced => Returns.pure (sameRoles_map hreplaced)

variable {ε τ : Type}

theorem returns_deduplicateFrom (callArguments : List (Text × Text))
    (store : Message → Text → Effect ε τ (Option Text)) (messages : List Message) :
    ∀ index seen, Returns (fun replaced => SameRoles messages replaced.messages)
      (deduplicateFrom S callArguments store index seen messages) := by
  induction messages with
  | nil =>
    intro index seen
    exact Returns.pure List.Forall₂.nil
  | cons message rest ih =>
    intro index seen
    refine Returns.ite ?_ ?_
    · exact Returns.bind (ih _ _) fun _ hrest => Returns.pure (List.Forall₂.cons rfl hrest)
    · split
      · exact Returns.bind (ih _ _) fun _ hrest => Returns.pure (List.Forall₂.cons rfl hrest)
      · refine Returns.after fun id => Returns.bind (ih _ _) fun _ hrest => ?_
        refine Returns.pure (List.Forall₂.cons ?_ hrest)
        unfold storedDuplicate
        split <;> rfl

theorem returns_externalizeResult (gate : ResultGate)
    (store : Message → Text → Effect ε τ (Option Text)) (index admittedChars : Nat)
    (message : Message) :
    Returns (fun replaced => replaced.message.role = message.role)
      (externalizeResult S A gate store index admittedChars message) := by
  refine Returns.ite (Returns.pure rfl) (Returns.ite (Returns.pure rfl) (Returns.after fun id => ?_))
  cases confirmed id with
  | none => exact Returns.pure rfl
  | some id => exact Returns.pure rfl

theorem returns_externalizeResultsFrom (gate : ResultGate)
    (store : Message → Text → Effect ε τ (Option Text)) (messages : List Message) :
    ∀ index admittedChars, Returns (fun replaced => SameRoles messages replaced.messages)
      (externalizeResultsFrom S A gate store index admittedChars messages) := by
  induction messages with
  | nil =>
    intro index admittedChars
    exact Returns.pure List.Forall₂.nil
  | cons message rest ih =>
    intro index admittedChars
    refine Returns.bind (returns_externalizeResult S A gate store index admittedChars message) ?_
    intro replaced hrole
    exact Returns.bind (ih _ _) fun _ hrest => Returns.pure (List.Forall₂.cons hrole hrest)

theorem returns_externalizeLargeToolArguments (maxTokens : Nat)
    (store : Message → Json → Text → Effect ε τ (Option Text)) (messages : List Message) :
    Returns (fun replaced => SameRoles messages replaced.messages)
      (externalizeLargeToolArguments A maxTokens store messages) := by
  have hmessage : ∀ message, Returns (fun replaced => replaced.message.role = message.role)
      (externalizeArguments A maxTokens store message) := by
    intro message
    unfold externalizeArguments
    split
    · exact Returns.after fun _ => Returns.pure rfl
    · exact Returns.pure rfl
  exact Returns.bind (Returns.mapList hmessage messages) fun _ hreplaced =>
    Returns.pure (sameRoles_map hreplaced)

theorem returns_externalizeArtifacts (gate : ResultGate) (messages : List Message) :
    Returns (SameRoles messages) (externalizeArtifacts S A config host gate messages) := by
  refine Returns.bind (returns_externalizeResultsFrom S A gate _ messages 0 0) ?_
  intro externalized hresults
  refine Returns.after fun _ => ?_
  refine Returns.bind (returns_externalizeLargeToolArguments A _ _ externalized.messages) ?_
  intro arguments harguments
  exact Returns.after fun _ => Returns.pure (hresults.trans harguments)

theorem returns_deduplicateActive (messages : List Message) :
    Returns (fun replaced => SameRoles messages replaced.messages)
      (deduplicateActive S config host messages) :=
  Returns.ite (returns_deduplicateFrom S _ _ messages 0 []) (Returns.pure (SameRoles.refl messages))

structure PreparedFrom (source : List Message) (prepared : Prepared) : Prop where
  kept : prepared.source = source
  active : SameRoles source prepared.active

theorem returns_prepareContext (limits : ContextLimits) (source : List Message) :
    Returns (PreparedFrom source) (prepareContext S A config host limits source) := by
  refine Returns.bind (returns_externalizeOversizedUsers S A config host source) ?_
  intro oversized husers
  refine Returns.after fun _ => ?_
  refine Returns.bind (returns_deduplicateActive S config host oversized.messages) ?_
  intro deduplicated hdeduplicated
  refine Returns.after fun _ => Returns.after fun session => ?_
  refine Returns.bind (returns_externalizeArtifacts S A config host _ deduplicated.messages) ?_
  intro active hactive
  refine Returns.after fun _ => Returns.pure ?_
  exact ⟨rfl, husers.trans (hdeduplicated.trans hactive)⟩

/-! ## The cut -/

variable {messages : List Message}

theorem start_mem_of_mem_userTurns {turn : Turn} :
    ∀ {starts : List Nat}, turn ∈ userTurns messages starts → turn.start ∈ starts := by
  intro starts
  induction starts with
  | nil =>
    intro h
    cases h
  | cons start rest ih =>
    intro h
    cases rest with
    | nil =>
      obtain rfl := List.mem_singleton.mp h
      exact List.mem_cons_self
    | cons next others =>
      rcases List.mem_cons.mp h with rfl | hlater
      · exact List.mem_cons_self
      · exact List.mem_cons_of_mem _ (ih hlater)

theorem isUser_start {turn : Turn} (h : turn ∈ groupCompleteTurns messages)
    (huser : turn.hasUser = true) : messages[turn.start]?.any Message.isUser = true := by
  have hstart : turn.start ∈ userStarts messages := by
    unfold groupCompleteTurns at h
    split at h
    · split at h
      · cases h
      · obtain rfl := List.mem_singleton.mp h
        cases huser
    · rename_i first rest hstarts
      rw [hstarts]
      rcases List.mem_append.mp h with hpreamble | hturns
      · split at hpreamble
        · obtain rfl := List.mem_singleton.mp hpreamble
          cases huser
        · cases hpreamble
      · exact start_mem_of_mem_userTurns hturns
  exact (List.mem_filter.mp hstart).2

theorem findCandidate_start {request : RotationRequest} {trigger : RotationTrigger}
    {configured : Nat} {rotation : Rotation} :
    ∀ {turns : List Turn}, findCandidate S messages request trigger configured turns = some rotation →
      ∃ turn ∈ turns, rotation.start = turn.start := by
  intro turns
  induction turns with
  | nil =>
    intro h
    cases h
  | cons candidate rest ih =>
    intro h
    rw [findCandidate] at h
    split at h
    · obtain ⟨turn, hmem, hstart⟩ := ih h
      exact ⟨turn, List.mem_cons_of_mem _ hmem, hstart⟩
    · split at h
      · obtain ⟨turn, hmem, hstart⟩ := ih h
        exact ⟨turn, List.mem_cons_of_mem _ hmem, hstart⟩
      · cases h
        exact ⟨candidate, List.mem_cons_self, rfl⟩

theorem planEpochRotation_start {request : RotationRequest} {rotation : Rotation}
    (h : planEpochRotation S messages request = .rotate rotation) :
    messages[rotation.start]?.any Message.isUser = true := by
  unfold planEpochRotation at h
  split at h
  · cases h
  · split at h
    · cases h
    · dsimp only at h
      split at h
      · cases h
      · split at h
        · cases h
        · rename_i found hfound
          cases h
          obtain ⟨turn, hmem, hstart⟩ := findCandidate_start S hfound
          rw [hstart]
          obtain ⟨hgroup, huser⟩ := List.mem_filter.mp (List.mem_of_mem_tail hmem)
          exact isUser_start hgroup huser

/-! ## The rotation of a call -/

/-- A call that rotated: what it prepared, the cut it planned and the state once the turns before
the cut were archived. -/
structure Rotated (limits : ContextLimits) (source : List Message) (m n : Machine σ)
    (prepared : Prepared) (rotation : Rotation) (t u : Machine σ) : Prop where
  prepare : (prepareContext S A config host limits source).run m = (.ok prepared, t)
  plan : planEpochRotation S prepared.active
    (rotationRequest S config limits t.session prepared.active) = .rotate rotation
  archive : (archiveTurns S A config host (prepared.source.take rotation.start) true).run t =
    (.ok (), u)
  boundary : n.session.boundaryKey = prepared.source[rotation.start]?.map (messageKey S)
  acknowledged : ∀ chunk ∈ u.acknowledged, chunk ∈ n.acknowledged

variable {S A config host} {limits : ContextLimits} {messages : List Message} {m n : Machine σ}
  {result : Except StoreError (List Message)}

theorem applyPlan_rotated {prepared : Prepared} {plan : RotationPlan}
    {boundaryPrefix : List Message}
    (h : (applyPlan S A config host prepared plan boundaryPrefix >>=
      emitWindow S config host).run m = (result, n))
    (hrotated : n.session.rotations ≠ m.session.rotations) :
    ∃ rotation u, plan = .rotate rotation ∧
      (archiveTurns S A config host (prepared.source.take rotation.start) true).run m =
        (.ok (), u) ∧
      n.session.boundaryKey = prepared.source[rotation.start]?.map (messageKey S) ∧
      ∀ chunk ∈ u.acknowledged, chunk ∈ n.acknowledged := by
  -- a plan that keeps the window keeps the epoch
  have hkept (reason : Option String) : (keepWindow prepared reason boundaryPrefix >>=
      emitWindow S config host).run m = (result, n) →
        n.session.rotations = m.session.rotations := by
    intro hrun
    obtain ⟨window, t, hkeep, hquiet⟩ := keepWindow_run prepared reason boundaryPrefix m
    rw [Effect.bind_of_ok hkeep] at hrun
    exact (congrArg WindowState.rotations (emitWindow_run hrun).window).trans
      (congrArg WindowState.rotations hquiet.window)
  cases plan with
  | none => exact absurd (hkept _ h) hrotated
  | nativeCompaction trigger reason => exact absurd (hkept _ h) hrotated
  | rotate rotation =>
    cases harchive : (archiveTurns S A config host
        (prepared.source.take rotation.start) true).run m with
    | mk archived u =>
      cases archived with
      | error e =>
        have hrotate : (rotateWindow S A config host prepared rotation boundaryPrefix).run m =
            (.error e, u) := Effect.bind_of_error harchive
        rw [applyPlan, Effect.bind_of_error hrotate] at h
        cases h
        exact absurd (congrArg WindowState.rotations (archiveTurns_eq_error harchive).1) hrotated
      | ok value =>
        refine ⟨rotation, u, rfl, harchive, ?_⟩
        cases hrotate : (rotateWindow S A config host prepared rotation
            boundaryPrefix).run m with
        | mk window v =>
          have hretained := rotateWindow_run harchive hrotate
          have hboundary : v.session.boundaryKey =
              prepared.source[rotation.start]?.map (messageKey S) :=
            congrArg WindowState.boundaryKey hretained.window
          cases window with
          | error e =>
            rw [applyPlan, Effect.bind_of_error hrotate] at h
            cases h
            exact ⟨hboundary, hretained.acknowledged⟩
          | ok window =>
            rw [applyPlan, Effect.bind_of_ok hrotate] at h
            have hemitted := emitWindow_run h
            exact ⟨(congrArg WindowState.boundaryKey hemitted.window).trans hboundary,
              fun chunk hmem => hemitted.acknowledged chunk
                (hretained.acknowledged chunk hmem)⟩

theorem processSlice_rotated {source boundaryPrefix : List Message}
    (h : (processSlice S A config host limits source boundaryPrefix).run m = (result, n))
    (hrotated : n.session.rotations ≠ m.session.rotations) :
    ∃ prepared rotation t u,
      Rotated S A config host limits source m n prepared rotation t u ∧ Quiet m t := by
  unfold processSlice at h
  split at h
  · have hquiet := (quiet_emptyWindow S config host _).of_run h
    exact absurd (congrArg WindowState.rotations hquiet.window) hrotated
  · cases hprepare : (prepareContext S A config host limits source).run m with
    | mk outcome t =>
      have hprepared := (quiet_prepareContext S A config host limits source).of_run hprepare
      have hrotations : t.session.rotations = m.session.rotations :=
        congrArg WindowState.rotations hprepared.window
      cases outcome with
      | error e =>
        rw [Effect.bind_of_error hprepare] at h
        cases h
        exact absurd hrotations hrotated
      | ok prepared =>
        rw [Effect.bind_of_ok hprepare, processWindow, run_getSession_bind] at h
        dsimp only at h
        split at h
        · have hquiet := (quiet_quietWindow S config host _ _).of_run h
          exact absurd ((congrArg WindowState.rotations hquiet.window).trans hrotations) hrotated
        · rw [← hrotations] at hrotated
          obtain ⟨rotation, u, hplan, harchive, hboundary, hacknowledged⟩ :=
            applyPlan_rotated h hrotated
          exact ⟨prepared, rotation, t, u,
            ⟨hprepare, hplan, harchive, hboundary, hacknowledged⟩, hprepared⟩

theorem process_rotated (h : (process S A config host limits messages).run m = (result, n))
    (hrotated : n.session.rotations ≠ m.session.rotations) :
    ∃ prepared rotation t u, Rotated S A config host limits
      (openedSlice S messages m.session).messages (openedMachine S messages m) n prepared rotation
        t u ∧ Quiet (openedMachine S messages m) t := by
  unfold process at h
  split at h
  · rw [Effect.run_throw] at h
    cases h
    exact absurd rfl hrotated
  · rw [run_getSession_bind] at h
    dsimp only at h
    rw [run_onSession_bind] at h
    have hopened : (openedMachine S messages m).session.rotations = m.session.rotations := by
      unfold openedMachine openBoundary
      dsimp only
      split <;> rfl
    rw [← hopened] at hrotated
    exact processSlice_rotated h hrotated

/-! ## Chunks within their bound -/

variable (S)

def keyBytes (message : Message) : Nat := (utf8 (messageKey S message)).length

/-- No more keys and no more bytes of keys than one document may name. -/
def ChunkFits (chunk : List Message) : Prop :=
  chunk.length ≤ S.limits.maxSourceMessageKeysPerDocument ∧
    (chunk.map (keyBytes S)).sum ≤ S.limits.maxSourceMessageKeyBytesPerDocument

/-- The chunks of the turns of some messages, in order. -/
def turnChunks (messages : List Message) : List (List Message) :=
  (groupCompleteTurns messages).flatMap fun turn => checkpointSourceChunks S turn.messages

theorem flatten_turnChunks (messages : List Message) : (turnChunks S messages).flatten = messages := by
  unfold turnChunks
  rw [List.flatMap_def, List.flatten_flatten, List.map_map]
  have hparts : (List.flatten ∘ fun turn : Turn => checkpointSourceChunks S turn.messages) =
      fun turn => turn.messages := funext fun turn => flatten_checkpointSourceChunks S turn.messages
  rw [hparts, ← List.flatMap_def]
  exact flatMap_groupCompleteTurns messages

theorem fits_of_mem_chunksFrom (hkeys : 0 < S.limits.maxSourceMessageKeysPerDocument)
    {chunk : List Message} : ∀ {current : List Message}, (∀ message ∈ messages,
        keyBytes S message ≤ S.limits.maxSourceMessageKeyBytesPerDocument) →
      ChunkFits S current →
      chunk ∈ chunksFrom S current (current.map (keyBytes S)).sum messages → ChunkFits S chunk := by
  induction messages with
  | nil =>
    intro current hfit hcurrent h
    unfold chunksFrom at h
    split at h
    · cases h
    · exact List.mem_singleton.mp h ▸ hcurrent
  | cons message rest ih =>
    intro current hfit hcurrent h
    have hmessage := hfit message List.mem_cons_self
    have hrest : ∀ other ∈ rest, keyBytes S other ≤ S.limits.maxSourceMessageKeyBytesPerDocument :=
      fun other hmem => hfit other (List.mem_cons_of_mem _ hmem)
    have hsingle : ([message].map (keyBytes S)).sum = keyBytes S message := by simp
    rw [chunksFrom] at h
    split at h
    · rcases List.mem_cons.mp h with rfl | hlater
      · exact hcurrent
      · have hone : ChunkFits S [message] := ⟨hkeys, hsingle.trans_le hmessage⟩
        refine ih hrest hone ?_
        rw [hsingle]
        exact hlater
    · rename_i hroom
      have hsum : ((current ++ [message]).map (keyBytes S)).sum =
          (current.map (keyBytes S)).sum + keyBytes S message := by simp
      refine ih hrest ⟨?_, ?_⟩ (hsum ▸ h)
      · by_cases hempty : current = []
        · rw [hempty]
          exact hkeys
        · have hlength : current.length < S.limits.maxSourceMessageKeysPerDocument := by
            by_contra hfull
            exact hroom ⟨hempty, Or.inl (not_lt.mp hfull)⟩
          rw [List.length_append, List.length_singleton]
          exact hlength
      · rw [hsum]
        by_cases hempty : current = []
        · rw [hempty]
          simpa using hmessage
        · by_contra hover
          exact hroom ⟨hempty, Or.inr (not_le.mp hover)⟩

theorem chunks_fit_iff (hkeys : 0 < S.limits.maxSourceMessageKeysPerDocument)
    (messages : List Message) : (∀ chunk ∈ turnChunks S messages, ChunkFits S chunk) ↔
      ∀ message ∈ messages, keyBytes S message ≤ S.limits.maxSourceMessageKeyBytesPerDocument := by
  constructor
  · intro hfits message hmem
    rw [← flatten_turnChunks S messages] at hmem
    obtain ⟨chunk, hchunk, hmessage⟩ := List.mem_flatten.mp hmem
    have hle := List.single_le_sum (l := chunk.map (keyBytes S)) (fun _ _ => Nat.zero_le _) _
      (List.mem_map_of_mem hmessage)
    exact hle.trans (hfits chunk hchunk).2
  · intro hfit chunk hchunk
    obtain ⟨turn, hturn, hmem⟩ := List.mem_flatMap.mp hchunk
    have hturnFits : ∀ message ∈ turn.messages,
        keyBytes S message ≤ S.limits.maxSourceMessageKeyBytesPerDocument := by
      intro message hmessage
      refine hfit message ?_
      rw [← flatMap_groupCompleteTurns messages]
      exact List.mem_flatMap.mpr ⟨turn, hturn, hmessage⟩
    exact fits_of_mem_chunksFrom S hkeys hturnFits ⟨Nat.zero_le _, Nat.zero_le _⟩ hmem

/-! ## Finding the boundary again -/

/-- A key of an older format of the message is this key. -/
def LegacyMatch (key : Text) (message : Message) : Prop :=
  legacyBoundaryMessageKey S message = key ∨ preMultimodalMessageKey S message false = key ∨
    preMultimodalMessageKey S message true = key

theorem matchesBoundary_eq_true {key : Text} {message : Message} :
    matchesBoundary S key message = true ↔ messageKey S message = key ∨ LegacyMatch S key message := by
  unfold matchesBoundary LegacyMatch
  simp only [Bool.or_eq_true, decide_eq_true_eq, or_assoc]

theorem messageKey_ne_nil (message : Message) : messageKey S message ≠ [] := by
  unfold messageKey messageKeyWithSerialization
  intro hnil
  have hlength := congrArg List.length hnil
  have hcolon : (text ":").length = 1 := by decide
  simp only [List.length_append, List.length_nil] at hlength
  omega

theorem sliceFromBoundary_some {key : Text} (hkey : key ≠ [])
    {start : Nat} (h : messages.findIdx? (matchesBoundary S key) = some start) :
    (sliceFromBoundary S messages (some key)).messages = messages.drop start := by
  cases key with
  | nil => exact absurd rfl hkey
  | cons u rest =>
    rw [sliceFromBoundary, h]
    exact hkey

theorem openedSlice_suffix (messages : List Message) (session : EpochWindowSession) :
    ∃ before, removeEmptyAssistantErrors S messages =
      before ++ (openedSlice S messages session).messages := by
  unfold openedSlice sliceFromBoundary
  split
  · exact ⟨[], rfl⟩
  · exact ⟨[], rfl⟩
  · split
    · exact ⟨[], rfl⟩
    · exact ⟨_, (List.take_append_drop _ _).symm⟩

/-- The slice starts at the boundary exactly if nothing before it matches. -/
theorem slice_eq_iff (before rest later : List Message) (user : Message) :
    (sliceFromBoundary S (before ++ user :: rest ++ later)
      (some (messageKey S user))).messages = user :: rest ++ later ↔
        ∀ message ∈ before, matchesBoundary S (messageKey S user) message = false := by
  have huser : matchesBoundary S (messageKey S user) user = true :=
    (matchesBoundary_eq_true S).mpr (Or.inl rfl)
  rw [List.append_assoc]
  constructor
  · intro hslice message hmem
    by_contra hmatch
    rw [Bool.not_eq_false] at hmatch
    cases hfound : before.findIdx? (matchesBoundary S (messageKey S user)) with
    | none =>
      have hnone := List.findIdx?_eq_none_iff.mp hfound message hmem
      rw [hmatch] at hnone
      cases hnone
    | some start =>
      have hwhole : (before ++ (user :: rest ++ later)).findIdx?
          (matchesBoundary S (messageKey S user)) = some start := by
        rw [List.findIdx?_append, hfound]
        rfl
      rw [sliceFromBoundary_some S (messageKey_ne_nil S user) hwhole] at hslice
      have hstart := (List.findIdx?_eq_some_iff_getElem.mp hfound).1
      have hlength := congrArg List.length hslice
      simp only [List.length_drop, List.length_append, List.length_cons] at hlength
      omega
  · intro hnone
    have hwhole : (before ++ (user :: rest ++ later)).findIdx?
        (matchesBoundary S (messageKey S user)) = some before.length := by
      rw [List.findIdx?_append, List.findIdx?_eq_none_iff.mpr hnone, List.cons_append,
        List.findIdx?_cons, huser]
      simp
    rw [sliceFromBoundary_some S (messageKey_ne_nil S user) hwhole, List.drop_left]

/-! ## Main result -/

/-- The turn is recorded in the session already, or the archive confirmed all of its chunks. -/
def TurnArchived (m n : Machine σ) (turn : Turn) : Prop :=
  (m.session.archivedTurnEntries.lookup (archivedTurnKey S turn.messages)).isSome ∨
    ∀ chunk ∈ checkpointSourceChunks S turn.messages, chunk ∈ n.acknowledged

/-- A rotation cut the window into what it archived and what it retained. -/
structure CutsExactly (messages : List Message) (m n : Machine σ)
    (before archived retained : List Message) : Prop where
  history : removeEmptyAssistantErrors S messages = before ++ (archived ++ retained)
  window : (openedSlice S messages m.session).messages = archived ++ retained
  boundary : ∃ user rest, retained = user :: rest ∧ user.isUser = true ∧
    n.session.boundaryKey = some (messageKey S user)
  turns : ∀ turn ∈ groupCompleteTurns archived, TurnArchived S m n turn
  chunks : (turnChunks S archived).flatten = archived

/-- On any extension of the history the slice is what was retained, extended. -/
def FindsRetained (messages : List Message) (n : Machine σ) (retained : List Message) : Prop :=
  ∀ later, (openedSlice S (messages ++ later) n.session).messages =
    retained ++ removeEmptyAssistantErrors S later

theorem turnArchived_of_staged {archived : List Message} {t u : Machine σ} {recordToc : Bool}
    (harchive : (archiveTurns S A config host archived recordToc).run t = (.ok (), u)) :
    ∀ turn ∈ groupCompleteTurns archived, TurnArchived S t u turn := by
  obtain ⟨staged, v, hstage, -, hacknowledged⟩ := archiveTurns_eq_ok harchive
  have hruns := Moves.mapList_eq_ok (quiet_archiveTurn S A config host) hstage
  intro turn hmem
  obtain ⟨staged, -, w, x, hw, hrun, hx⟩ := exists_of_forall₂ hruns hmem
  obtain ⟨hkey, ⟨-, hknown⟩ | ⟨-, hchunks⟩⟩ := archiveTurn_eq_ok hrun
  · have hold : w.session.archivedTurnEntries = t.session.archivedTurnEntries :=
      congrArg WindowState.archivedTurnEntries hw.window
    rw [hold, hkey] at hknown
    exact Or.inl hknown
  · exact Or.inr fun chunk hchunk =>
      hacknowledged chunk (hx.acknowledged chunk (hchunks chunk hchunk))

theorem cutsExactly_of_rotated
    (h : (process S A config host limits messages).run m = (result, n))
    (hrotated : n.session.rotations ≠ m.session.rotations) :
    ∃ before archived retained, CutsExactly S messages m n before archived retained := by
  obtain ⟨prepared, rotation, t, u, hcall, hquiet⟩ := process_rotated h hrotated
  obtain ⟨hkept, hactive⟩ := returns_prepareContext S A config host limits _ _ _ _ hcall.prepare
  obtain ⟨before, hbefore⟩ := openedSlice_suffix S messages m.session
  have harchive := hcall.archive
  have hboundary := hcall.boundary
  rw [hkept] at harchive hboundary
  -- the cut of the prepared messages is a cut of the source
  have huser := planEpochRotation_start S hcall.plan
  rw [hactive.isUser_getElem?] at huser
  cases hat : (openedSlice S messages m.session).messages[rotation.start]? with
  | none =>
    rw [hat] at huser
    cases huser
  | some user =>
    obtain ⟨hlt, hget⟩ := List.getElem?_eq_some_iff.mp hat
    rw [hat] at huser hboundary
    refine ⟨before, (openedSlice S messages m.session).messages.take rotation.start,
      (openedSlice S messages m.session).messages.drop rotation.start, ?_, ?_, ?_, ?_, ?_⟩
    · rw [List.take_append_drop]
      exact hbefore
    · exact (List.take_append_drop _ _).symm
    · refine ⟨user, (openedSlice S messages m.session).messages.drop (rotation.start + 1), ?_,
        huser, hboundary⟩
      rw [List.drop_eq_getElem_cons hlt, hget]
    · intro turn hmem
      have hopened : t.session.archivedTurnEntries = m.session.archivedTurnEntries := by
        refine (congrArg WindowState.archivedTurnEntries hquiet.window).trans ?_
        show (openBoundary _ _).archivedTurnEntries = _
        unfold openBoundary
        split <;> rfl
      rcases turnArchived_of_staged S harchive turn hmem with hknown | hchunks
      · rw [hopened] at hknown
        exact Or.inl hknown
      · exact Or.inr fun chunk hchunk => hcall.acknowledged chunk (hchunks chunk hchunk)
    · exact flatten_turnChunks S _

theorem findsRetained_iff (hdistinct : (messages.map (messageKey S)).Nodup)
    {before archived retained : List Message}
    (hcut : CutsExactly S messages m n before archived retained) :
    FindsRetained S messages n retained ↔ ∀ key, n.session.boundaryKey = some key →
      ∀ message ∈ before ++ archived, ¬ LegacyMatch S key message := by
  obtain ⟨user, rest, rfl, -, hboundary⟩ := hcut.boundary
  have hhistory : removeEmptyAssistantErrors S messages = (before ++ archived) ++ user :: rest :=
    hcut.history.trans (List.append_assoc _ _ _).symm
  have hslice (later : List Message) :
      (openedSlice S (messages ++ later) n.session).messages =
        user :: rest ++ removeEmptyAssistantErrors S later ↔
      ∀ message ∈ before ++ archived, matchesBoundary S (messageKey S user) message = false := by
    rw [← slice_eq_iff S (before ++ archived) rest (removeEmptyAssistantErrors S later) user,
      ← hhistory, ← hboundary, openedSlice]
    unfold removeEmptyAssistantErrors
    rw [List.filter_append]
  -- the key itself is no earlier message's
  have hother : ∀ message ∈ before ++ archived, messageKey S message ≠ messageKey S user := by
    have hsublist : (removeEmptyAssistantErrors S messages).Sublist messages :=
      List.filter_sublist
    have hnodup := (hsublist.map (messageKey S)).nodup hdistinct
    rw [hhistory, List.map_append, List.nodup_append] at hnodup
    intro message hmem
    exact hnodup.2.2 _ (List.mem_map_of_mem hmem) _ (List.mem_map_of_mem List.mem_cons_self)
  have hlegacy : (∀ message ∈ before ++ archived,
      matchesBoundary S (messageKey S user) message = false) ↔
        ∀ message ∈ before ++ archived, ¬ LegacyMatch S (messageKey S user) message := by
    refine forall₂_congr fun message hmem => ?_
    rw [← Bool.not_eq_true, matchesBoundary_eq_true, not_or]
    exact and_iff_right (hother message hmem)
  unfold FindsRetained
  rw [hboundary]
  simp only [Option.some.injEq, forall_eq']
  rw [← hlegacy]
  exact ⟨fun hfinds => (hslice []).mp (hfinds []), fun hnone later => (hslice later).mpr hnone⟩

variable (A config host)

/-- Every rotation cuts the window exactly at a turn of the user. The boundary finds what was
retained again exactly if no earlier message has it as a key of an older format, and the chunks are
within their bound exactly if each key alone is. -/
theorem rotation_exact_iff (hlimits : S.limits = {}) (limits : ContextLimits)
    (messages : List Message) (hdistinct : (messages.map (messageKey S)).Nodup) (m n : Machine σ)
    (result : Except StoreError (List Message))
    (h : (process S A config host limits messages).run m = (result, n))
    (hrotated : n.session.rotations ≠ m.session.rotations) :
    ∃ before archived retained, CutsExactly S messages m n before archived retained ∧
      (FindsRetained S messages n retained ↔ ∀ key, n.session.boundaryKey = some key →
        ∀ message ∈ before ++ archived, ¬ LegacyMatch S key message) ∧
      ((∀ chunk ∈ turnChunks S archived, ChunkFits S chunk) ↔ ∀ message ∈ archived,
        keyBytes S message ≤ S.limits.maxSourceMessageKeyBytesPerDocument) := by
  obtain ⟨before, archived, retained, hcut⟩ := cutsExactly_of_rotated S h hrotated
  have hkeys : 0 < S.limits.maxSourceMessageKeysPerDocument := by
    rw [hlimits]
    decide
  exact ⟨before, archived, retained, hcut, findsRetained_iff S hdistinct hcut,
    chunks_fit_iff S hkeys archived⟩

/-! ### An image and the same text without it -/

/-- A turn that opens with a text and an image, and one that opens with the text alone. -/
def imageTurns : List Message :=
  [{ role := text "user"
     content := .array [textPart (text "x"),
       .object [(text "type", .string (text "image")), (text "data", .string (text "QQ=="))]] },
    plainMessage "assistant" "b" none, plainMessage "user" "x" none]

def imageRun : Except StoreError (List Message) × Machine Unit :=
  (process plainSetting plainAnalysis plainConfig (plainHost true true) plainLimits
    imageTurns).run { session := {}, host := () }

/-- Before its image counted the first message had the key of the boundary. -/
theorem image_turn_found_again : (imageTurns.map (messageKey plainSetting)).Nodup ∧
    imageRun.2.session.rotations = 1 ∧ ∀ before archived retained,
      CutsExactly plainSetting imageTurns { session := {}, host := () } imageRun.2 before archived
        retained → ¬ FindsRetained plainSetting imageTurns imageRun.2 retained := by
  refine ⟨by decide +kernel, by decide +kernel, ?_⟩
  intro before archived retained hcut hfinds
  have hslice := congrArg List.length (hfinds [])
  have hwhole : (openedSlice plainSetting imageTurns imageRun.2.session).messages.length = 3 := by
    decide +kernel
  have hkept : (imageTurns.map (messageKey plainSetting)).head? ≠
      imageRun.2.session.boundaryKey := by decide +kernel
  obtain ⟨user, rest, rfl, -, hboundary⟩ := hcut.boundary
  have hwindow : imageTurns = archived ++ user :: rest := hcut.window
  have hlength := congrArg List.length hwindow
  have hthree : imageTurns.length = 3 := rfl
  have hnil : archived.length = 0 := by
    simp only [removeEmptyAssistantErrors, List.filter_nil, List.append_nil] at hslice
    rw [List.length_append] at hlength
    omega
  rw [List.length_eq_zero_iff.mp hnil, List.nil_append] at hwindow
  rw [hwindow, hboundary] at hkept
  exact hkept rfl

/-- Two turns of different texts. -/
theorem rotation_exact_iff_twoTurns : ∃ before archived retained,
    CutsExactly plainSetting twoTurns { session := {}, host := () }
      ((process plainSetting plainAnalysis plainConfig (plainHost true true) plainLimits
        twoTurns).run { session := {}, host := () }).2 before archived retained ∧
    (FindsRetained plainSetting twoTurns ((process plainSetting plainAnalysis plainConfig
        (plainHost true true) plainLimits twoTurns).run { session := {}, host := () }).2 retained ↔
      ∀ key, ((process plainSetting plainAnalysis plainConfig (plainHost true true) plainLimits
        twoTurns).run { session := {}, host := () }).2.session.boundaryKey = some key →
        ∀ message ∈ before ++ archived, ¬ LegacyMatch plainSetting key message) ∧
    ((∀ chunk ∈ turnChunks plainSetting archived, ChunkFits plainSetting chunk) ↔
      ∀ message ∈ archived, keyBytes plainSetting message ≤
        plainSetting.limits.maxSourceMessageKeyBytesPerDocument) :=
  rotation_exact_iff plainSetting plainAnalysis plainConfig (plainHost true true) rfl plainLimits
    twoTurns (by decide +kernel) { session := {}, host := () } _ _ rfl (by decide +kernel)

end ContextStore.Session
