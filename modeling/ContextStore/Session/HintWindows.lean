import ContextStore.Session.HintPass

/-! # The hints of one call

A call opens the window, removes the hints of messages that are gone, and adds those of the messages
that are there. -/

namespace ContextStore.Session

open Unicode Archive Effects

/-! ## One call -/

/-- What a call has come to before it looks at the hints. -/
inductive OpenedWindow where
  | empty (boundaryPrefix : List Message)
  | quiet (prepared : Prepared) (boundaryPrefix : List Message)
  | filled (window : ActiveWindow)

def OpenedWindow.messages : OpenedWindow → List Message
  | .empty _ => []
  | .quiet prepared _ => prepared.active
  | .filled window => window.active

/-- The keys of what stands for messages that are too large. -/
def OpenedWindow.suppressedKeys : OpenedWindow → List Text
  | .empty _ => []
  | .quiet prepared _ => prepared.suppressedHintMessageKeys
  | .filled window => window.suppressedHintMessageKeys

section Parts

variable {σ : Type} (S : Setting) (A : Analysis) (config : Config) (host : Host σ)

def openSlice (limits : ContextLimits) (source boundaryPrefix : List Message) :
    Step σ OpenedWindow :=
  if source = [] then return .empty boundaryPrefix
  else do
    let prepared ← prepareContext S A config host limits source
    let session ← getSession
    let request := rotationRequest S config limits session prepared.active
    if request.tokens = 0 ∧ request.turns = 0 then return .quiet prepared boundaryPrefix
    else do
      let window ← applyPlan S A config host prepared
        (planEpochRotation S prepared.active request) boundaryPrefix
      return .filled window

def openWindow (limits : ContextLimits) (messages : List Message) : Step σ OpenedWindow :=
  if limits.inputWindowTokens = some 0 ∧ limits.piCompactionReserveTokens.isSome then
    Effect.throw (.plain "Pi's compaction reserve leaves no usable model input budget.")
  else do
    let session ← getSession
    let contextMessages := removeEmptyAssistantErrors S messages
    let sliced := sliceFromBoundary S contextMessages session.boundaryKey
    onSession (openBoundary sliced.found)
    openSlice S A config host limits sliced.messages
      (unreconciledPrefix session sliced contextMessages)

def closeWindow : OpenedWindow → Step σ (List Message)
  | .empty boundaryPrefix => emptyWindow S config host boundaryPrefix
  | .quiet prepared boundaryPrefix => quietWindow S config host prepared boundaryPrefix
  | .filled window => emitWindow S config host window

/-- A call opens the window, and then looks at the hints. -/
theorem process_eq (limits : ContextLimits) (messages : List Message) :
    process S A config host limits messages =
      openWindow S A config host limits messages >>= closeWindow S config host := by
  unfold process openWindow
  split
  · rfl
  · rw [Effect.bind_assoc]
    refine congrArg _ (funext fun session => ?_)
    dsimp only
    rw [Effect.bind_assoc]
    refine congrArg _ (funext fun _ => ?_)
    unfold processSlice openSlice
    split
    · rfl
    · rw [Effect.bind_assoc]
      refine congrArg _ (funext fun prepared => ?_)
      unfold processWindow
      rw [Effect.bind_assoc]
      refine congrArg _ (funext fun session => ?_)
      dsimp only
      split
      · rfl
      · rw [Effect.bind_assoc]
        rfl

end Parts

variable {σ : Type} {host : Host σ} {archive : HintArchive host} {S : Setting} {A : Analysis}
  {config : Config}

/-! ## Messages that are gone -/

/-- What a request to remove hints leaves. -/
inductive RemovalOutcome (removable : List Text) (failed : Bool) (before after : HintView) :
    Prop where
  | unavailable (same : after = before)
  | requested (result : Except StoreError Unit) (hresult : result.isOk = !failed)
      (removed : Removed removable result before after)

variable {before after : HintView} {removable : List Text} {failed : Bool}

theorem RemovalOutcome.others (h : RemovalOutcome removable failed before after) {key : Text}
    (hother : key ∉ removable) : after.answer key = before.answer key := by
  cases h with
  | unavailable same => rw [same]
  | requested result hresult removed => exact removed.others key hother

theorem RemovalOutcome.persisted (h : RemovalOutcome removable failed before after) :
    after.persisted = before.persisted := by
  cases h with
  | unavailable same => rw [same]
  | requested result hresult removed => exact removed.persisted

theorem RemovalOutcome.requests (h : RemovalOutcome removable failed before after) :
    before.requests <:+ after.requests ∧ ∀ key,
      freshRequests key after.requests = freshRequests key before.requests := by
  cases h with
  | unavailable same =>
    rw [same]
    exact ⟨List.suffix_refl _, fun _ => rfl⟩
  | requested result hresult removed =>
    rw [removed.requests]
    exact ⟨List.suffix_cons _ _, fun _ => rfl⟩

theorem RemovalOutcome.answer (h : RemovalOutcome removable true before after)
    (hclean : ∀ request ∈ after.requests, request.Clean) (key : Text) :
    after.answer key = before.answer key := by
  cases h with
  | unavailable same => rw [same]
  | requested result hresult removed =>
    by_cases hmem : key ∈ removable
    · have hkept : (!result.isOk) = true →
          (removable.all fun key => after.answer key = before.answer key) = true :=
        hclean (.removal (!result.isOk) _) (removed.requests ▸ List.mem_cons_self)
      exact of_decide_eq_true (List.all_eq_true.mp (hkept (by rw [hresult]; rfl)) key hmem)
    · exact removed.others key hmem

/-- What becomes of the hints whose removal is pending. -/
inductive PendingOutcome (archive : HintArchive host) (removable : List Text) (m : Machine σ) :
    Bool → Machine σ → Prop
  | remain {n : Machine σ} (frozen : n.session.frozenHintTextByMessageKey =
        m.session.frozenHintTextByMessageKey)
      (attempted : n.session.reconstructOnlyHintMessageKeys =
        m.session.reconstructOnlyHintMessageKeys)
      (removal : RemovalOutcome removable true (archive.view m.host) (archive.view n.host)) :
      PendingOutcome archive removable m false n
  | drop {n : Machine σ} (frozen : n.session.frozenHintTextByMessageKey =
        m.session.frozenHintTextByMessageKey.filter fun hint => hint.1 ∉ removable)
      (attempted : n.session.reconstructOnlyHintMessageKeys =
        m.session.reconstructOnlyHintMessageKeys.filter (· ∉ removable))
      (removal : RemovalOutcome removable false (archive.view m.host) (archive.view n.host)) :
      PendingOutcome archive removable m
        (m.session.reconstructOnlyHintMessageKeys.any (· ∈ removable)) n

theorem removeHints_cases (archive : HintArchive host) (removable : List Text) (m : Machine σ) :
    ∃ removed t, (removeHints host removable).run m = (.ok removed, { m with host := t }) ∧
      RemovalOutcome removable (!removed) (archive.view m.host) (archive.view t) := by
  unfold removeHints
  cases hremove : host.removeHints with
  | none => exact ⟨true, m.host, rfl, .unavailable rfl⟩
  | some remove =>
    have hremoved := archive.removeHints remove hremove removable m.host
    cases hresult : (remove removable m.host).1 with
    | ok _ =>
      rw [hresult] at hremoved
      have hcall : (callHost (remove removable)).run m =
          (.ok (), { m with host := (remove removable m.host).2 }) := Prod.ext hresult rfl
      refine ⟨true, _, ?_, .requested _ rfl hremoved⟩
      exact Effect.tryCatch_of_ok ((Effect.bind_of_ok hcall).trans rfl)
    | error e =>
      rw [hresult] at hremoved
      have hcall : (callHost (remove removable)).run m =
          (.error e, { m with host := (remove removable m.host).2 }) := Prod.ext hresult rfl
      refine ⟨false, _, ?_, .requested _ rfl hremoved⟩
      exact (Effect.tryCatch_of_error (Effect.bind_of_error hcall)).trans rfl

theorem removePending_cases (archive : HintArchive host) (m : Machine σ) :
    ∃ changed n, (removePending host m.session).run m = (.ok changed, n) ∧
      PendingOutcome archive m.session.pendingHintRemovalKeys m changed n := by
  unfold removePending
  by_cases hnone : m.session.pendingHintRemovalKeys = []
  · rw [if_pos hnone]
    exact ⟨_, _, rfl, .remain rfl rfl (.unavailable rfl)⟩
  · rw [if_neg hnone]
    obtain ⟨removed, t, hrun, hremoval⟩ :=
      removeHints_cases archive m.session.pendingHintRemovalKeys m
    rw [Effect.bind_of_ok hrun]
    cases removed with
    | true =>
      exact ⟨_, { m with
        session := dropHints m.session.pendingHintRemovalKeys m.session
        host := t }, rfl, .drop rfl rfl hremoval⟩
    | false => exact ⟨_, { m with host := t }, rfl, .remain rfl rfl hremoval⟩

theorem lookup_filter_notMem (entries : List (Text × Text)) (removable : List Text) (key : Text) :
    (entries.filter fun entry => entry.1 ∉ removable).lookup key =
      if key ∈ removable then none else entries.lookup key := by
  induction entries with
  | nil => split <;> rfl
  | cons entry rest ih =>
    rw [List.filter_cons, List.lookup_cons]
    by_cases hentry : entry.1 ∈ removable
    · rw [if_neg (by simpa using hentry), ih]
      split
      · rfl
      · next hkey =>
        have hne : key ≠ entry.1 := by
          rintro rfl
          exact hkey hentry
        rw [beq_eq_false_iff_ne.mpr hne]
    · rw [if_pos (by simpa using hentry), List.lookup_cons, ih]
      by_cases hkey : key ∈ removable
      · have hne : key ≠ entry.1 := by
          rintro rfl
          exact hentry hkey
        rw [if_pos hkey, if_pos hkey, beq_eq_false_iff_ne.mpr hne]
      · rw [if_neg hkey, if_neg hkey]

section Pending

variable {removable : List Text} {m n : Machine σ} {changed : Bool}

theorem PendingOutcome.requests (h : PendingOutcome archive removable m changed n) :
    (archive.view m.host).requests <:+ (archive.view n.host).requests ∧ ∀ key,
      freshRequests key (archive.view n.host).requests =
        freshRequests key (archive.view m.host).requests := by
  cases h with
  | remain frozen attempted removal => exact removal.requests
  | drop frozen attempted removal => exact removal.requests

theorem PendingOutcome.known (h : PendingOutcome archive removable m changed n)
    (hclean : archive.Clean n) (hknown : HintsKnown archive m) : HintsKnown archive n := by
  cases h with
  | remain frozen attempted removal =>
    intro key hint hlookup
    rw [frozen] at hlookup
    rw [attempted, removal.answer hclean]
    exact hknown key hint hlookup
  | drop frozen attempted removal =>
    intro key hint hlookup
    rw [frozen, lookup_filter_notMem] at hlookup
    split at hlookup
    · cases hlookup
    · next hother =>
      obtain ⟨hasked, hanswer⟩ := hknown key hint hlookup
      rw [attempted, removal.others hother, List.mem_filter]
      exact ⟨⟨hasked, by simpa using hother⟩, hanswer⟩

theorem PendingOutcome.kept (h : PendingOutcome archive removable m changed n) {key hint : Text}
    (hother : key ∉ removable) (hkept : Kept archive config key hint m) :
    Kept archive config key hint n := by
  cases h with
  | remain frozen attempted removal =>
    rw [Kept, attempted, removal.others hother]
    exact hkept
  | drop frozen attempted removal =>
    rw [Kept, attempted, removal.others hother, List.mem_filter]
    have hremains : decide (key ∉ removable) = true := by simpa using hother
    rw [Kept] at hkept
    simpa only [hremains, and_true] using hkept

theorem PendingOutcome.persisted (h : PendingOutcome archive removable m changed n)
    (hunchanged : changed = false) (hpersisted : HintsPersisted archive m) :
    HintsPersisted archive n := by
  have hsame : ∀ failed, RemovalOutcome removable failed (archive.view m.host)
      (archive.view n.host) → n.session.reconstructOnlyHintMessageKeys =
        m.session.reconstructOnlyHintMessageKeys → HintsPersisted archive n := by
    intro failed hremoval hattempted
    rw [HintsPersisted, HintView.restoredKeys, hremoval.persisted, persistableKeys, hattempted]
    exact hpersisted
  cases h with
  | remain frozen attempted removal => exact hsame true removal attempted
  | drop frozen attempted removal =>
    refine hsame false removal (attempted.trans (List.filter_eq_self.mpr fun key hmem => ?_))
    rw [List.any_eq_false] at hunchanged
    simpa using hunchanged key hmem

end Pending

/-- What reconciling the hints with the messages in the window does. -/
structure HintsReconciled (archive : HintArchive host) (config : Config) (activeKeys : List Text)
    (m n : Machine σ) : Prop where
  requests : (archive.view m.host).requests <:+ (archive.view n.host).requests
  freshRequests : ∀ key, freshRequests key (archive.view n.host).requests =
    freshRequests key (archive.view m.host).requests
  known : archive.Clean n → HintsKnown archive m → HintsKnown archive n
  kept : ∀ key ∈ activeKeys, ∀ hint, Kept archive config key hint m → Kept archive config key hint n
  persisted : HintsPersisted archive m → HintsPersisted archive n

variable (archive S config) in
theorem reconcileHintLifecycle_run (activeMessages retiredMessages : List Message) (m : Machine σ) :
    ∃ n, (reconcileHintLifecycle S host activeMessages retiredMessages).run m = (.ok (), n) ∧
      HintsReconciled archive config (userMessageKeys S activeMessages) m n := by
  unfold reconcileHintLifecycle
  dsimp only
  rw [run_onSession_bind, run_getSession_bind]
  generalize hactive : userMessageKeys S activeMessages = activeKeys
  generalize hpending :
    addPending activeKeys (userMessageKeys S retiredMessages) m.session = pending
  have hframe : HintFrame archive m { m with session := pending } := by
    rw [← hpending]
    exact hintFrame_of_view archive rfl rfl rfl
  have hdisjoint : ∀ key ∈ activeKeys, key ∉ pending.pendingHintRemovalKeys := by
    intro key hmem hremoved
    rw [← hpending, addPending, List.mem_filter] at hremoved
    exact absurd hmem (of_decide_eq_true hremoved.2)
  obtain ⟨changed, u, hrun, houtcome⟩ := removePending_cases archive { m with session := pending }
  rw [Effect.bind_of_ok hrun, run_onSession_bind]
  have hsettled : HintFrame archive u { u with session := settleHints activeKeys u.session } :=
    hintFrame_of_view archive rfl rfl rfl
  have hall : ∀ n, HintFrame archive { u with session := settleHints activeKeys u.session } n →
      (HintsPersisted archive m → HintsPersisted archive n) →
        HintsReconciled archive config activeKeys m n := by
    intro n hlast hpersisted
    have hafter := IsTrans.trans _ _ _ hsettled hlast
    obtain ⟨hsuffix, hcount⟩ := houtcome.requests
    refine ⟨?_, fun key => ?_, fun hclean hknown => ?_, fun key hmem hint hkept => ?_, hpersisted⟩
    · rw [hafter.requests, ← hframe.requests]
      exact hsuffix
    · rw [hafter.requests, hcount]
    · have hmid := (hafter.step archive config []).clean hclean
      have hstart := (hframe.step archive config []).known hknown fun request hmem =>
        hmid request (hsuffix.subset hmem)
      exact (hafter.step archive config []).known (houtcome.known hmid hstart) hclean
    · exact hafter.kept_iff.mpr (houtcome.kept (hdisjoint key hmem) (hframe.kept_iff.mpr hkept))
  cases changed with
  | true =>
    obtain ⟨n, hreport, hlast, hpersisted⟩ := run_reportRotation archive
      { u with session := settleHints activeKeys u.session }
    exact ⟨n, hreport, hall n hlast fun _ => hpersisted⟩
  | false =>
    refine ⟨_, rfl, hall _ (Std.Refl.refl _) fun hbefore => ?_⟩
    exact hsettled.persisted (houtcome.persisted rfl (hframe.persisted hbefore))

/-! ## What a call does to the hints -/

theorem noUser_of_countUserTurns {messages : List Message} (h : countUserTurns messages = 0) :
    ∀ message ∈ messages, message.isUser = false := by
  have hstarts : userStarts messages = [] := by
    cases hstarts : userStarts messages with
    | nil => rfl
    | cons first rest =>
      rw [countUserTurns, groupCompleteTurns, hstarts] at h
      cases rest <;> simp [userTurns, List.filter_append] at h
  intro message hmem
  obtain ⟨index, hindex, hget⟩ := List.mem_iff_getElem.mp hmem
  refine Bool.eq_false_iff.mpr fun huser => ?_
  have hstart : index ∈ userStarts messages := by
    refine List.mem_filter.mpr ⟨List.mem_range.mpr hindex, ?_⟩
    rw [List.getElem?_eq_getElem hindex, hget]
    exact huser
  rw [hstarts] at hstart
  cases hstart

/-- A window without turns has no messages that get hints. -/
theorem openWindow_quiet (limits : ContextLimits) (messages : List Message) :
    Returns (fun opened => (∃ window, opened = .filled window) ∨
      userMessageKeys S opened.messages = []) (openWindow S A config host limits messages) := by
  have hnone : ∀ active, (∀ message ∈ active, message.isUser = false) →
      userMessageKeys S active = [] := by
    intro active huser
    refine List.eq_nil_iff_forall_not_mem.mpr fun key hkey => ?_
    obtain ⟨target, hmem, htarget, -⟩ := mem_userMessageKeys.mp hkey
    rw [huser target hmem] at htarget
    cases htarget
  refine Returns.ite (.throw _) (.after fun session => .after fun _ => ?_)
  refine Returns.ite (.pure (.inr rfl)) (.after fun prepared => .after fun current => ?_)
  dsimp only
  split
  · next hzero => exact .pure (.inr (hnone _ (noUser_of_countUserTurns hzero.2)))
  · exact .after fun window => .pure (.inl ⟨window, rfl⟩)

theorem sliceFromBoundary_eq_nil {messages : List Message} {boundaryKey : Option Text} :
    (sliceFromBoundary S messages boundaryKey).messages = [] ↔ messages = [] := by
  unfold sliceFromBoundary
  split
  · exact Iff.rfl
  · exact Iff.rfl
  · split
    · exact Iff.rfl
    · next start hfind =>
      obtain ⟨hlt, -⟩ := List.findIdx?_eq_some_iff_getElem.mp hfind
      constructor
      · intro hnil
        have hle := List.drop_eq_nil_iff.mp hnil
        omega
      · rintro rfl
        exact List.drop_nil

theorem openWindow_empty (limits : ContextLimits) (messages : List Message) :
    Returns (fun opened => (∃ boundaryPrefix, opened = .empty boundaryPrefix) ↔
      removeEmptyAssistantErrors S messages = []) (openWindow S A config host limits messages) := by
  refine Returns.ite (.throw _) (.after fun session => .after fun _ => ?_)
  have hslice := @sliceFromBoundary_eq_nil S (removeEmptyAssistantErrors S messages)
    session.boundaryKey
  unfold openSlice
  split
  · next hnil => exact .pure ⟨fun _ => hslice.mp hnil, fun _ => ⟨_, rfl⟩⟩
  · next hne =>
    have hnot : ∀ opened : OpenedWindow, (∀ boundaryPrefix, opened ≠ .empty boundaryPrefix) →
        ((∃ boundaryPrefix, opened = .empty boundaryPrefix) ↔
          removeEmptyAssistantErrors S messages = []) := by
      refine fun opened hopened => ⟨?_, fun hnil => absurd (hslice.mpr hnil) hne⟩
      rintro ⟨boundaryPrefix, heq⟩
      exact absurd heq (hopened boundaryPrefix)
    refine .after fun prepared => .after fun current => ?_
    dsimp only
    split
    · exact .pure (hnot _ fun _ heq => by cases heq)
    · exact .after fun window => .pure (hnot _ fun _ heq => by cases heq)

theorem hintFrame_openWindow (limits : ContextLimits) (messages : List Message) :
    Moves (HintFrame archive) (openWindow S A config host limits messages) := by
  have hopen : ∀ found, Moves (HintFrame archive) (onSession (openBoundary found)) := by
    intro found
    refine hintFrame_onSession (fun session => ?_) fun session => ?_
    · cases found <;> rfl
    · cases found <;> rfl
  refine Moves.ite (Moves.throw _) (Moves.bind moves_getSession fun session => ?_)
  refine Moves.bind (hopen _) fun _ => Moves.ite (Moves.pure _) ?_
  refine Moves.bind (storing_prepareContext storingFrame_hints limits _) fun prepared => ?_
  refine Moves.bind moves_getSession fun current => Moves.ite (Moves.pure _) ?_
  exact Moves.bind (hintFrame_applyPlan prepared _ _) fun _ => Moves.pure _

/-! ## The hints of one call -/

instance (activeKeys : List Text) : Std.Refl (HintsReconciled archive config activeKeys) where
  refl _ := ⟨List.suffix_refl _, fun _ => rfl, fun _ h => h, fun _ _ _ h => h, fun h => h⟩

instance (activeKeys : List Text) : IsTrans (Machine σ)
    (HintsReconciled archive config activeKeys) where
  trans _ _ _ hmn hno := by
    refine ⟨hmn.requests.trans hno.requests,
      fun key => (hno.freshRequests key).trans (hmn.freshRequests key), fun hclean hknown => ?_,
      fun key hmem hint hkept => hno.kept key hmem hint (hmn.kept key hmem hint hkept),
      fun h => hno.persisted (hmn.persisted h)⟩
    refine hno.known hclean (hmn.known ?_ hknown)
    exact fun request hmem => hclean request (hno.requests.subset hmem)

theorem HintFrame.reconciled {m n : Machine σ} (h : HintFrame archive m n)
    (activeKeys : List Text) : HintsReconciled archive config activeKeys m n :=
  ⟨by rw [h.requests], fun _ => by rw [h.requests],
    fun hclean hknown => (h.step archive config []).known hknown hclean,
    fun _ _ _ hkept => h.kept_iff.mpr hkept, h.persisted⟩

theorem HintsReconciled.mono {activeKeys : List Text} {m n : Machine σ}
    (h : HintsReconciled archive config activeKeys m n) :
    HintsReconciled archive config [] m n :=
  ⟨h.requests, h.freshRequests, h.known, fun _ hmem => absurd hmem List.not_mem_nil, h.persisted⟩

theorem reconciled_reconcileHintLifecycle (activeMessages retiredMessages : List Message) :
    Moves (HintsReconciled archive config [])
      (reconcileHintLifecycle S host activeMessages retiredMessages) := by
  intro m
  obtain ⟨n, hrun, hreconciled⟩ :=
    reconcileHintLifecycle_run archive S config activeMessages retiredMessages m
  rw [hrun]
  exact hreconciled.mono

theorem reconciled_of_frame {α : Type} {x : Step σ α} (h : Moves (HintFrame archive) x) :
    Moves (HintsReconciled archive config []) x :=
  Moves.mono (fun _ _ hframe => hframe.reconciled []) h

theorem reconciled_emptyWindow (boundaryPrefix : List Message) :
    Moves (HintsReconciled archive config []) (emptyWindow S config host boundaryPrefix) := by
  refine Moves.bind (reconciled_reconcileHintLifecycle _ _) fun _ => ?_
  refine reconciled_of_frame ?_
  refine Moves.bind (hintFrame_onSession (fun _ => rfl) fun _ => rfl) fun _ => ?_
  refine Moves.bind (hintFrame_onSession (fun _ => rfl) fun _ => rfl) fun _ => ?_
  exact Moves.bind (storing_refreshArchiveProtection storingFrame_hints) fun _ => Moves.pure _

theorem reconciled_quietWindow (prepared : Prepared) (boundaryPrefix : List Message) :
    Moves (HintsReconciled archive config [])
      (quietWindow S config host prepared boundaryPrefix) := by
  refine Moves.bind (reconciled_reconcileHintLifecycle _ _) fun _ => reconciled_of_frame ?_
  exact Moves.bind (hintFrame_onSession (fun _ => rfl) fun _ => rfl) fun _ => Moves.pure _

/-- A window with turns is always emitted, with the hints that are added to it. -/
def WindowEmitted (archive : HintArchive host) (S : Setting) (config : Config)
    (window : ActiveWindow) (m : Machine σ) (out : List Message) (n : Machine σ) : Prop :=
  ∃ marker shown u v, out = marker ++ shown ∧
    HintsReconciled archive config (userMessageKeys S window.active) m u ∧
    HintsAdded archive S config window.suppressedHintMessageKeys window.active u shown v ∧
    HintFrame archive v n

variable (archive S config) in
theorem emitWindow_emits (window : ActiveWindow) (m : Machine σ) :
    ∃ out n, (emitWindow S config host window).run m = (.ok out, n) ∧
      WindowEmitted archive S config window m out n := by
  unfold emitWindow
  rw [run_onSession_bind]
  have hfirst : HintFrame archive m
      { m with session := { m.session with forceRotation := false } } :=
    hintFrame_of_view archive rfl rfl rfl
  obtain ⟨u, hreconcile, hreconciled⟩ := reconcileHintLifecycle_run archive S config
    window.active window.boundaryPrefix
      { m with session := { m.session with forceRotation := false } }
  obtain ⟨shown, v, hadd, hadded⟩ := withAutomaticArchiveHint_run archive S config
    window.active window.visibleSourceKeys window.suppressedHintMessageKeys u
  rw [Effect.bind_of_ok hreconcile, Effect.bind_of_ok hadd]
  refine ⟨_, _, rfl, _, shown, u, v, rfl, ?_, hadded, hintFrame_of_view archive rfl rfl rfl⟩
  exact IsTrans.trans _ _ _ (hfirst.reconciled _) hreconciled

/-- What is known of the hints stays so, for a longer list of requests. -/
structure HintsCarried (archive : HintArchive host) (m n : Machine σ) : Prop where
  requests : (archive.view m.host).requests <:+ (archive.view n.host).requests
  known : archive.Clean n → HintsKnown archive m → HintsKnown archive n
  persisted : HintsPersisted archive m → HintsPersisted archive n

variable {m n : Machine σ}

theorem HintsCarried.clean (h : HintsCarried archive m n) (hclean : archive.Clean n) :
    archive.Clean m :=
  fun request hmem => hclean request (h.requests.subset hmem)

theorem HintsCarried.trans {o : Machine σ} (h : HintsCarried archive m n)
    (h' : HintsCarried archive n o) : HintsCarried archive m o :=
  ⟨h.requests.trans h'.requests,
    fun hclean hknown => h'.known hclean (h.known (h'.clean hclean) hknown),
    fun hpersisted => h'.persisted (h.persisted hpersisted)⟩

theorem HintsReconciled.carried {activeKeys : List Text}
    (h : HintsReconciled archive config activeKeys m n) : HintsCarried archive m n :=
  ⟨h.requests, h.known, h.persisted⟩

theorem HintsAdded.carried {suppressed : List Text} {messages window : List Message}
    (h : HintsAdded archive S config suppressed messages m window n) : HintsCarried archive m n :=
  ⟨(h.step []).requests, fun hclean hknown => (h.step []).known hknown hclean, h.persisted⟩

theorem HintFrame.carried (h : HintFrame archive m n) : HintsCarried archive m n :=
  ⟨by rw [h.requests], fun _ => h.known, h.persisted⟩

variable {limits : ContextLimits} {messages : List Message} {m n : Machine σ}
  {out : List Message}

/-- The messages with the key are shown with the hint. -/
def Shows (S : Setting) (opened : OpenedWindow) (out : List Message) (key hint : Text) : Prop :=
  ∃ marker shown, out = marker ++ shown ∧ List.Forall₂ (ShownWith S key hint) opened.messages shown

variable {window : ActiveWindow}

theorem WindowEmitted.carried (h : WindowEmitted archive S config window m out n) :
    HintsCarried archive m n := by
  obtain ⟨marker, shown, u, v, -, hreconciled, hadded, hframe⟩ := h
  exact hreconciled.carried.trans (hadded.carried.trans hframe.carried)

/-- A message that may get a hint is shown with the one decided for it by then, for which the
archive was asked once at most, and not at all if it was decided before. -/
theorem WindowEmitted.inline (h : WindowEmitted archive S config window m out n)
    (hknown : HintsKnown archive m) (hclean : archive.Clean n) {key : Text}
    (hmem : key ∈ userMessageKeys S window.active)
    (hinline : key ∉ window.suppressedHintMessageKeys) :
    (∃ hint, Kept archive config key hint n ∧ Shows S (.filled window) out key hint) ∧
      freshRequests key (archive.view n.host).requests ≤
        freshRequests key (archive.view m.host).requests + 1 ∧
      ∀ hint, Kept archive config key hint m → Kept archive config key hint n ∧
        freshRequests key (archive.view n.host).requests =
          freshRequests key (archive.view m.host).requests := by
  obtain ⟨marker, shown, u, v, hout, hreconciled, hadded, hframe⟩ := h
  have hlate := hframe.carried.clean hclean
  have hearly := hadded.carried.clean hlate
  have hafter := hreconciled.known hearly hknown
  obtain ⟨hint, hkept⟩ := hadded.exists_kept hafter hlate key hmem hinline
  refine ⟨⟨hint, hframe.kept_iff.mpr hkept, marker, shown, hout,
    hadded.shown hafter hlate key hint hinline hkept⟩, ?_, fun hint hbefore => ?_⟩
  · rw [hframe.requests, ← hreconciled.freshRequests key]
    exact hadded.freshRequests_le hafter hlate key
  · have hbetween := hreconciled.kept key hmem hint hbefore
    obtain ⟨hstill, hcount⟩ := (hadded.step key).kept hafter hlate hint hbetween
    refine ⟨hframe.kept_iff.mpr hstill, ?_⟩
    rw [hframe.requests, hcount, hreconciled.freshRequests key]

/-- What stands for a message that is too large gets no hint, and none is asked for. -/
theorem WindowEmitted.suppressed (h : WindowEmitted archive S config window m out n) {key : Text}
    (hsuppressed : key ∈ window.suppressedHintMessageKeys) :
    Shows S (.filled window) out key [] ∧ freshRequests key (archive.view n.host).requests =
      freshRequests key (archive.view m.host).requests := by
  obtain ⟨marker, shown, u, v, hout, hreconciled, hadded, hframe⟩ := h
  refine ⟨⟨marker, shown, hout, hadded.shown_suppressed key hsuppressed⟩, ?_⟩
  rw [hframe.requests, hadded.freshRequests_suppressed key hsuppressed,
    hreconciled.freshRequests key]

theorem process_emits (archive : HintArchive host)
    (h : (process S A config host limits messages).run m = (.ok out, n)) :
    ∃ opened p, (openWindow S A config host limits messages).run m = (.ok opened, p) ∧
      HintFrame archive m p ∧ HintsCarried archive p n ∧
      ((∃ window, opened = .filled window ∧ WindowEmitted archive S config window p out n) ∨
        userMessageKeys S opened.messages = []) := by
  rw [process_eq] at h
  obtain ⟨opened, p, hopen, hclose⟩ := Effect.bind_eq_ok.mp h
  refine ⟨opened, p, hopen, (hintFrame_openWindow limits messages).of_run hopen, ?_⟩
  have hquiet := openWindow_quiet limits messages m opened p hopen
  cases opened with
  | empty boundaryPrefix =>
    have hreconciled :=
      (@reconciled_emptyWindow σ host archive S config boundaryPrefix).of_run hclose
    exact ⟨hreconciled.carried, .inr rfl⟩
  | quiet prepared boundaryPrefix =>
    have hreconciled := (@reconciled_quietWindow σ host archive S config prepared
      boundaryPrefix).of_run hclose
    refine ⟨hreconciled.carried, .inr ?_⟩
    rcases hquiet with ⟨window, heq⟩ | hnone
    · cases heq
    · exact hnone
  | filled window =>
    obtain ⟨out', n', hrun, hemitted⟩ :=
      emitWindow_emits archive S config window p
    rw [show (closeWindow S config host (.filled window)).run p = _ from hrun] at hclose
    cases hclose
    exact ⟨hemitted.carried, .inl ⟨window, rfl, hemitted⟩⟩

/-- A call that throws makes no request for a new hint, and does not touch the hints at all if there
are messages. -/
theorem process_fails (archive : HintArchive host) {e : StoreError}
    (h : (process S A config host limits messages).run m = (.error e, n)) :
    HintsReconciled archive config [] m n ∧
      (removeEmptyAssistantErrors S messages ≠ [] → HintFrame archive m n) := by
  rw [process_eq] at h
  rcases Effect.bind_eq_error.mp h with hopen | ⟨opened, p, hopen, hclose⟩
  · have hframe := (@hintFrame_openWindow σ host archive S A config limits messages).of_run hopen
    exact ⟨hframe.reconciled [], fun _ => hframe⟩
  · have hframe := (@hintFrame_openWindow σ host archive S A config limits messages).of_run hopen
    cases opened with
    | empty boundaryPrefix =>
      have hreconciled :=
        (@reconciled_emptyWindow σ host archive S config boundaryPrefix).of_run hclose
      have hnil := (openWindow_empty limits messages m _ p hopen).mp ⟨boundaryPrefix, rfl⟩
      exact ⟨IsTrans.trans _ _ _ (hframe.reconciled []) hreconciled, fun hne => absurd hnil hne⟩
    | quiet prepared boundaryPrefix =>
      obtain ⟨u, hreconcile, -⟩ := reconcileHintLifecycle_run archive S config
        prepared.active boundaryPrefix p
      have hrun : (closeWindow S config host (.quiet prepared boundaryPrefix)).run p =
          _ := Effect.bind_of_ok hreconcile
      rw [hrun] at hclose
      cases hclose
    | filled window =>
      obtain ⟨out', n', hrun, -⟩ := emitWindow_emits archive S config window p
      rw [show (closeWindow S config host (.filled window)).run p = _ from hrun] at hclose
      cases hclose

end ContextStore.Session
