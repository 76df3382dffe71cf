import ContextStore.Session.HintWindows

/-! # Hints over a run

A hint stays as it was first shown through later calls, failed calls and restores, as long as its
message stays in the window (`hints_stay`): the archive is asked for a new one once at most. That
fails where the archive decided on a text with a request that failed: the message is shown without
a hint, and with one after a restore. -/

namespace ContextStore.Session

open Unicode Archive Effects

variable {σ : Type} {host : Host σ} {archive : HintArchive host} {S : Setting} {A : Analysis}
  {config : Config}

/-! ## Restoring -/

def BranchEntry.rotationData : BranchEntry → Option RotationData
  | .rotation data => some data
  | .compaction _ | .other => none

/-- The rotation state persisted last. -/
def lastRotation (entries : List BranchEntry) : Option RotationData :=
  (entries.filterMap BranchEntry.rotationData).getLast?

theorem foldl_restoreEntry (get : Reader) (entries : List BranchEntry) :
    ∀ session : EpochWindowSession,
      (entries.foldl (restoreEntry S get) session).frozenHintTextByMessageKey =
          session.frozenHintTextByMessageKey ∧
        (entries.foldl (restoreEntry S get) session).reconstructOnlyHintMessageKeys =
          ((lastRotation entries).map fun data =>
            restoredHintKeys data.reconstructOnlyMessageKeys).getD
              session.reconstructOnlyHintMessageKeys := by
  induction entries with
  | nil =>
    intro session
    exact ⟨rfl, rfl⟩
  | cons entry rest ih =>
    intro session
    obtain ⟨hfrozen, hkeys⟩ := ih (restoreEntry S get session entry)
    rw [List.foldl_cons, hfrozen, hkeys]
    cases entry with
    | rotation data =>
      refine ⟨rfl, ?_⟩
      have hlast : lastRotation (.rotation data :: rest) =
          some ((lastRotation rest).getD data) := by
        have hcons : (BranchEntry.rotation data :: rest).filterMap BranchEntry.rotationData =
            data :: rest.filterMap BranchEntry.rotationData := rfl
        rw [lastRotation, hcons, List.getLast?_cons]
        rfl
      rw [hlast, Option.map_some, Option.getD_some]
      cases lastRotation rest with
      | none => rw [Option.map_none, Option.getD_none, Option.getD_none, restoreEntry,
          restoreRotation]
      | some last => rw [Option.map_some, Option.getD_some, Option.getD_some]
    | compaction entry => exact ⟨rfl, rfl⟩
    | other => exact ⟨rfl, rfl⟩

theorem length_eraseDups_le : ∀ (count : Nat) (items : List Text), items.length ≤ count →
    items.eraseDups.length ≤ items.length := by
  intro count
  induction count with
  | zero =>
    intro items h
    rw [List.eq_nil_of_length_eq_zero (Nat.le_zero.mp h)]
    exact Nat.le_refl _
  | succ count ih =>
    intro items h
    cases items with
    | nil => exact Nat.le_refl _
    | cons item rest =>
      have hfilter := List.length_filter_le (fun other => !other == item) rest
      rw [List.length_cons] at h
      rw [List.eraseDups_cons, List.length_cons, List.length_cons]
      have hrest := ih _ (Nat.le_trans hfilter (Nat.le_of_succ_le_succ h))
      omega

theorem lastItems_of_le {α : Type} {count : Nat} {items : List α} (h : items.length ≤ count) :
    lastItems count items = items := by
  rw [lastItems, Nat.sub_eq_zero_of_le h, List.drop_zero]

theorem length_lastItems_le {α : Type} (count : Nat) (items : List α) :
    (lastItems count items).length ≤ count := by
  rw [lastItems, List.length_drop]
  omega

/-- The test of a key that is restored. -/
def isRestoredKey (key : Text) : Bool :=
  (text "user:").isPrefixOf key && key.length ≤ MAX_RESTORED_KEY_LENGTH

theorem restoredHintKeys_eq (keys : List Text) : restoredHintKeys keys =
    (lastItems MAX_RECONSTRUCT_ONLY_HINT_KEYS (keys.filter isRestoredKey)).eraseDups := rfl

theorem length_restoredHintKeys_le (keys : List Text) :
    (restoredHintKeys keys).length ≤ MAX_RECONSTRUCT_ONLY_HINT_KEYS := by
  rw [restoredHintKeys_eq]
  exact Nat.le_trans (length_eraseDups_le _ _ (Nat.le_refl _)) (length_lastItems_le _ _)

variable {keys : List Text} {m n : Machine σ} {key : Text}

theorem mem_restoredHintKeys (h : key ∈ restoredHintKeys keys) :
    key ∈ keys ∧ isRestoredKey key = true := by
  rw [restoredHintKeys_eq, List.mem_eraseDups] at h
  exact List.mem_filter.mp (List.mem_of_mem_drop h)

theorem mem_restoredHintKeys_of_le (hlength : keys.length ≤ MAX_RECONSTRUCT_ONLY_HINT_KEYS)
    (hmem : key ∈ keys) (hkey : isRestoredKey key = true) : key ∈ restoredHintKeys keys := by
  have hfilter := List.length_filter_le isRestoredKey keys
  rw [restoredHintKeys_eq, List.mem_eraseDups, lastItems_of_le (Nat.le_trans hfilter hlength)]
  exact List.mem_filter.mpr ⟨hmem, hkey⟩

theorem mem_restoredHintKeys_again :
    key ∈ restoredHintKeys (lastItems MAX_RECONSTRUCT_ONLY_HINT_KEYS (restoredHintKeys keys)) ↔
      key ∈ restoredHintKeys keys := by
  have hlength := length_restoredHintKeys_le keys
  rw [lastItems_of_le hlength]
  exact ⟨fun h => (mem_restoredHintKeys h).1,
    fun h => mem_restoredHintKeys_of_le hlength h (mem_restoredHintKeys h).2⟩

/-- Every key that a hint was asked for fits into a rotation state. -/
def FitsRotation (session : EpochWindowSession) : Prop :=
  session.reconstructOnlyHintMessageKeys.length ≤ MAX_RECONSTRUCT_ONLY_HINT_KEYS ∧
    ∀ key ∈ session.reconstructOnlyHintMessageKeys, key.length ≤ MAX_RESTORED_KEY_LENGTH

/-- What there is of hints in the session and outside of it is the same. -/
structure SameHints (archive : HintArchive host) (m n : Machine σ) : Prop where
  view : archive.view n.host = archive.view m.host
  frozen : n.session.frozenHintTextByMessageKey = m.session.frozenHintTextByMessageKey
  attempted : n.session.reconstructOnlyHintMessageKeys = m.session.reconstructOnlyHintMessageKeys

instance : Std.Refl (SameHints archive) where
  refl _ := ⟨rfl, rfl, rfl⟩

instance : IsTrans (Machine σ) (SameHints archive) where
  trans _ _ _ hmn hno := ⟨hno.view.trans hmn.view, hno.frozen.trans hmn.frozen,
    hno.attempted.trans hmn.attempted⟩

theorem sameHints_refreshArchiveProtection (archive : HintArchive host) (config : Config) :
    Moves (SameHints archive) (refreshArchiveProtection config host) := by
  refine Moves.bind moves_getSession fun session => Moves.ite (Moves.pure _) (Moves.bind ?_ ?_)
  · exact fun m => ⟨archive.setProtectedContext _ m.host, rfl, rfl⟩
  · exact fun _ => Moves.modify fun m => ⟨rfl, rfl, rfl⟩

/-- A session restored from what was persisted last. -/
structure HintsRestored (archive : HintArchive host) (m n : Machine σ) : Prop where
  view : archive.view n.host = archive.view m.host
  frozen : n.session.frozenHintTextByMessageKey = []
  attempted : n.session.reconstructOnlyHintMessageKeys = (archive.view m.host).restoredKeys

theorem restore_restores (archive : HintArchive host) {entries : List BranchEntry}
    {result : Except StoreError Unit}
    (hlast : lastRotation entries = (archive.view m.host).persisted.map RotationState.data)
    (h : (restore S config host entries).run m = (result, n)) : HintsRestored archive m n := by
  have hsession : (restoredSession S (host.get m.host) entries m.session).frozenHintTextByMessageKey
        = [] ∧ (restoredSession S (host.get m.host) entries
          m.session).reconstructOnlyHintMessageKeys = (archive.view m.host).restoredKeys := by
    obtain ⟨hfrozen, hkeys⟩ := @foldl_restoreEntry S (host.get m.host) entries
      (resetSession m.session)
    have hrestored : ((lastRotation entries).map fun data =>
        restoredHintKeys data.reconstructOnlyMessageKeys).getD [] =
          (archive.view m.host).restoredKeys := by
      rw [hlast, HintView.restoredKeys]
      cases (archive.view m.host).persisted with
      | none => simp [restoredHintKeys, lastItems]
      | some state => simp only [Option.map_some, Option.getD_some, RotationState.data]
    unfold restoredSession
    dsimp only
    split
    · exact ⟨hfrozen, hkeys.trans hrestored⟩
    · exact ⟨hfrozen, hkeys.trans hrestored⟩
  have hprotected := (sameHints_refreshArchiveProtection archive config).of_run
    (show (refreshArchiveProtection config host).run { m with
      session := restoredSession S (host.get m.host) entries m.session } = (result, n) from h)
  obtain ⟨hview, hfrozen, hattempted⟩ := hprotected
  exact ⟨hview, hfrozen.trans hsession.1, hattempted.trans hsession.2⟩

/-- Nothing that is known of the hints is lost. -/
theorem HintsRestored.kept (h : HintsRestored archive m n) (hpersisted : HintsPersisted archive m)
    (hfits : FitsRotation m.session) {hint : Text}
    (huser : (text "user:").isPrefixOf key = true) (hkept : Kept archive config key hint m) :
    Kept archive config key hint n := by
  rw [Kept, h.attempted, h.view]
  rcases hkept with ⟨hasked, hanswer⟩ | ⟨hnot, hnever⟩
  · refine .inl ⟨(hpersisted key).mpr ?_, hanswer⟩
    rw [persistableKeys, lastItems_of_le hfits.1]
    refine mem_restoredHintKeys_of_le hfits.1 hasked ?_
    rw [isRestoredKey, huser, decide_eq_true (hfits.2 key hasked), Bool.and_self]
  · refine .inr ⟨fun hmem => hnot ?_, hnever⟩
    have hsaved := (mem_restoredHintKeys ((hpersisted key).mp hmem)).1
    exact List.mem_of_mem_drop hsaved

theorem HintsRestored.carried (h : HintsRestored archive m n) : HintsCarried archive m n := by
  refine ⟨by rw [h.view], fun _ _ key hint hlookup => ?_, fun hpersisted key => ?_⟩
  · rw [h.frozen] at hlookup
    cases hlookup
  · rw [h.view, persistableKeys, h.attempted]
    exact mem_restoredHintKeys_again.symm

/-! ## Runs -/

/-- A call on a history that has only grown, with the window it emits, or a session restored from
what was persisted last, which every key that a hint was asked for fits into. -/
inductive HintEvent (archive : HintArchive host) (S : Setting) (A : Analysis) (config : Config)
    (m : Machine σ) (history : List Message) :
    Option (OpenedWindow × List Message) → Machine σ → List Message → Prop
  | emits {limits : ContextLimits} {messages out : List Message} {opened : OpenedWindow}
      {p n : Machine σ} (grows : history <+: messages)
      (opens : (openWindow S A config host limits messages).run m = (.ok opened, p))
      (emits : (process S A config host limits messages).run m = (.ok out, n)) :
      HintEvent archive S A config m history (some (opened, out)) n messages
  | fails {limits : ContextLimits} {messages : List Message} {e : StoreError} {n : Machine σ}
      (grows : history <+: messages)
      (fails : (process S A config host limits messages).run m = (.error e, n)) :
      HintEvent archive S A config m history none n messages
  | restores {entries : List BranchEntry} {result : Except StoreError Unit} {n : Machine σ}
      (last : lastRotation entries = (archive.view m.host).persisted.map RotationState.data)
      (fits : FitsRotation m.session)
      (restores : (restore S config host entries).run m = (result, n)) :
      HintEvent archive S A config m history none n history

/-- The states a session and those restored from it come to. -/
inductive HintRun (archive : HintArchive host) (S : Setting) (A : Analysis) (config : Config) :
    Machine σ → List Message → Prop
  | start {s : σ} (nothing : (archive.view s).persisted = none) :
      HintRun archive S A config { session := {}, host := s } []
  | step {m n : Machine σ} {history history' : List Message}
      {emission : Option (OpenedWindow × List Message)}
      (run : HintRun archive S A config m history)
      (event : HintEvent archive S A config m history emission n history') :
      HintRun archive S A config n history'

/-- A part of a run in which the message stays in the window, either as itself or, each time, as
what stands for a message that is too large. -/
inductive HintStay (archive : HintArchive host) (S : Setting) (A : Analysis) (config : Config)
    (key : Text) (standsIn : Prop) (m : Machine σ) (history : List Message) :
    List (OpenedWindow × List Message) → Machine σ → List Message → Prop
  | here : HintStay archive S A config key standsIn m history [] m history
  | shown {calls : List (OpenedWindow × List Message)} {opened : OpenedWindow} {out : List Message}
      {n o : Machine σ} {history' history'' : List Message}
      (stay : HintStay archive S A config key standsIn m history calls n history')
      (event : HintEvent archive S A config n history' (some (opened, out)) o history'')
      (stays : key ∈ userMessageKeys S opened.messages)
      (stands : key ∈ opened.suppressedKeys ↔ standsIn) :
      HintStay archive S A config key standsIn m history ((opened, out) :: calls) o history''
  | silent {calls : List (OpenedWindow × List Message)} {n o : Machine σ}
      {history' history'' : List Message}
      (stay : HintStay archive S A config key standsIn m history calls n history')
      (event : HintEvent archive S A config n history' none o history'') :
      HintStay archive S A config key standsIn m history calls o history''

section Runs

variable {m n : Machine σ} {history history' : List Message}

theorem HintEvent.carried {emission : Option (OpenedWindow × List Message)}
    (h : HintEvent archive S A config m history emission n history') :
    HintsCarried archive m n := by
  cases h with
  | emits grows opens emits =>
    obtain ⟨opened, p, -, hframe, hcarried, -⟩ := process_emits archive emits
    exact hframe.carried.trans hcarried
  | fails grows fails => exact (process_fails archive fails).1.carried
  | restores last fits restores => exact (restore_restores archive last restores).carried

theorem HintRun.known (h : HintRun archive S A config m history) :
    HintsPersisted archive m ∧ (archive.Clean m → HintsKnown archive m) := by
  induction h with
  | start nothing =>
    refine ⟨fun key => ?_, fun _ key hint hlookup => by cases hlookup⟩
    rw [HintView.restoredKeys, nothing]
    simp [persistableKeys, restoredHintKeys, lastItems]
  | step run event ih =>
    refine ⟨event.carried.persisted ih.1, fun hclean => ?_⟩
    exact event.carried.known hclean (ih.2 (event.carried.clean hclean))

/-- An event that emits nothing asks for no hint, and keeps those decided. -/
theorem HintEvent.silent (h : HintEvent archive S A config m history none n history') (key : Text) :
    freshRequests key (archive.view n.host).requests =
        freshRequests key (archive.view m.host).requests ∧
      (removeEmptyAssistantErrors S history ≠ [] → HintsPersisted archive m →
        (text "user:").isPrefixOf key = true → removeEmptyAssistantErrors S history' ≠ [] ∧
          ∀ hint, Kept archive config key hint m → Kept archive config key hint n) := by
  cases h with
  | fails grows fails =>
    obtain ⟨hreconciled, hframe⟩ := process_fails archive fails
    refine ⟨hreconciled.freshRequests key, fun hne _ _ => ?_⟩
    have hcontext : removeEmptyAssistantErrors S history' ≠ [] :=
      fun hnil => hne (List.prefix_nil.mp (hnil ▸ grows.filter _))
    exact ⟨hcontext, fun hint hkept => (hframe hcontext).kept_iff.mpr hkept⟩
  | restores last fits restores =>
    have hrestored := restore_restores archive last restores
    refine ⟨by rw [hrestored.view], fun hne hpersisted huser => ⟨hne, fun hint hkept => ?_⟩⟩
    exact hrestored.kept hpersisted fits huser hkept

/-- A call that shows the message emits a window with turns. -/
theorem HintEvent.shown {opened : OpenedWindow} {out : List Message}
    (h : HintEvent archive S A config m history (some (opened, out)) n history')
    (hmem : key ∈ userMessageKeys S opened.messages) :
    ∃ window p, opened = .filled window ∧ HintFrame archive m p ∧
      WindowEmitted archive S config window p out n ∧
        removeEmptyAssistantErrors S history' ≠ [] := by
  cases h with
  | emits grows opens emits =>
    obtain ⟨opened', p', hopens, hframe, -, hcases⟩ := process_emits archive emits
    obtain ⟨hopened, -⟩ := Prod.mk.inj (opens.symm.trans hopens)
    obtain rfl := Except.ok.inj hopened
    rcases hcases with ⟨window, rfl, hemitted⟩ | hnone
    · refine ⟨window, p', rfl, hframe, hemitted, fun hnil => ?_⟩
      obtain ⟨boundaryPrefix, heq⟩ := (openWindow_empty _ _ m _ p' hopens).mpr hnil
      cases heq
    · rw [hnone] at hmem
      cases hmem

variable {calls : List (OpenedWindow × List Message)} {key : Text}

theorem isPrefixOf_messageKey {messages : List Message}
    (h : key ∈ userMessageKeys S messages) : (text "user:").isPrefixOf key = true := by
  obtain ⟨target, -, huser, -, rfl⟩ := mem_userMessageKeys.mp h
  have hrole : target.role = text "user" := of_decide_eq_true huser
  have hcolon : text "user" ++ text ":" = text "user:" := by decide
  rw [messageKey, messageKeyWithSerialization, hrole, List.isPrefixOf_iff_prefix, hcolon]
  simp only [List.append_assoc]
  exact List.prefix_append _ _

/-- What a stay has come to: the message was not shown yet, or it was always shown without a hint,
or with the one that is decided. -/
inductive Stayed (archive : HintArchive host) (S : Setting) (config : Config) (key : Text)
    (standsIn : Prop) (m : Machine σ) (calls : List (OpenedWindow × List Message)) (n : Machine σ)
    (history : List Message) : Prop
  | unseen (none : calls = []) (count : freshRequests key (archive.view n.host).requests =
      freshRequests key (archive.view m.host).requests)
  | suppressed (stands : standsIn) (shows : ∀ call ∈ calls, Shows S call.1 call.2 key [])
      (count : freshRequests key (archive.view n.host).requests =
        freshRequests key (archive.view m.host).requests)
  | kept (itself : ¬ standsIn) (user : (text "user:").isPrefixOf key = true)
      (context : removeEmptyAssistantErrors S history ≠ []) (hint : Text)
      (kept : Kept archive config key hint n)
      (shows : ∀ call ∈ calls, Shows S call.1 call.2 key hint)
      (count : freshRequests key (archive.view n.host).requests ≤
        freshRequests key (archive.view m.host).requests + 1)

theorem HintStay.carried {standsIn : Prop}
    (h : HintStay archive S A config key standsIn m history calls n history') :
    HintsCarried archive m n := by
  induction h with
  | here => exact (Std.Refl.refl m : HintFrame archive m m).carried
  | shown stay event stays stands ih => exact ih.trans event.carried
  | silent stay event ih => exact ih.trans event.carried

theorem HintStay.stayed {standsIn : Prop}
    (h : HintStay archive S A config key standsIn m history calls n history')
    (hpersisted : HintsPersisted archive m) (hknown : archive.Clean m → HintsKnown archive m)
    (hclean : archive.Clean n) : Stayed archive S config key standsIn m calls n history' := by
  induction h with
  | here => exact .unseen rfl rfl
  | @silent calls n o history' history'' stay event ih =>
    have hbefore := event.carried.clean hclean
    obtain ⟨hcount, hkeeps⟩ := event.silent key
    cases ih hbefore with
    | unseen none count => exact .unseen none (hcount.trans count)
    | suppressed stands shows count => exact .suppressed stands shows (hcount.trans count)
    | kept itself user context hint kept shows count =>
      obtain ⟨hcontext, hkept⟩ := hkeeps context (stay.carried.persisted hpersisted) user
      exact .kept itself user hcontext hint (hkept hint kept) shows (hcount ▸ count)
  | @shown calls opened out n o history' history'' stay event stays stands ih =>
    have hbefore := event.carried.clean hclean
    obtain ⟨window, p, rfl, hframe, hemitted, hcontext⟩ := event.shown stays
    have hearly := stay.carried.clean hbefore
    have hknown' := hframe.known (stay.carried.known hbefore (hknown hearly))
    by_cases hstands : standsIn
    · obtain ⟨hshows, hcount⟩ := hemitted.suppressed (stands.mpr hstands)
      rw [hframe.requests] at hcount
      cases ih hbefore with
      | unseen none count =>
        refine .suppressed hstands ?_ (hcount.trans count)
        rw [none]
        exact List.forall_mem_singleton.mpr hshows
      | suppressed _ shows count =>
        refine .suppressed hstands ?_ (hcount.trans count)
        exact List.forall_mem_cons.mpr ⟨hshows, shows⟩
      | kept itself user context hint kept shows count => exact absurd hstands itself
    · obtain ⟨⟨hint, hkept, hshows⟩, hle, hstill⟩ := hemitted.inline hknown' hclean stays
        fun hsuppressed => hstands (stands.mp hsuppressed)
      rw [hframe.requests] at hle hstill
      have huser := isPrefixOf_messageKey stays
      cases ih hbefore with
      | unseen none count =>
        refine .kept hstands huser hcontext hint hkept ?_ (count ▸ hle)
        rw [none]
        exact List.forall_mem_singleton.mpr hshows
      | suppressed stands' shows count => exact absurd stands' hstands
      | kept _ user context hint' kept' shows count =>
        obtain ⟨hkept', hsame⟩ := hstill hint' (hframe.kept_iff.mpr kept')
        obtain rfl := hkept.unique hkept'
        refine .kept hstands huser hcontext hint hkept ?_ (hsame ▸ count)
        exact List.forall_mem_cons.mpr ⟨hshows, shows⟩

/-- While a message stays in the window its hint stays as it is, and the archive is asked for a new
one once at most. -/
theorem hints_stay (hrun : HintRun archive S A config m history) {key : Text} {standsIn : Prop}
    {calls : List (OpenedWindow × List Message)}
    (hstay : HintStay archive S A config key standsIn m history calls n history')
    (hclean : archive.Clean n) :
    (∃ hint, ∀ call ∈ calls, Shows S call.1 call.2 key hint) ∧
      freshRequests key (archive.view n.host).requests ≤
        freshRequests key (archive.view m.host).requests + 1 := by
  obtain ⟨hpersisted, hknown⟩ := hrun.known
  cases hstay.stayed hpersisted hknown hclean with
  | unseen none count =>
    refine ⟨⟨[], ?_⟩, by omega⟩
    rw [none]
    exact List.forall_mem_nil _
  | suppressed stands shows count => exact ⟨⟨[], shows⟩, by omega⟩
  | kept itself user context hint kept shows count => exact ⟨⟨hint, shows⟩, count⟩

end Runs

/-! ## A request that fails after the archive has decided -/

/-- An archive of hints, and the rotation state kept last. -/
structure HintStore where
  decided : List (Text × Text) := []
  requests : List HintRequest := []
  persisted : Option RotationState := none

/-- It decides on the same text for all messages; the reply may be lost. -/
def decideHint (replies : Bool) (request : PreflightRequest) (s : HintStore) :
    Except StoreError Text × HintStore :=
  if request.reconstruct then (.ok ((s.decided.lookup request.messageKey).getD []), s)
  else (if replies then .ok (text "See note-1.") else .error (.plain "connection lost"), {
    s with
    decided := (request.messageKey, text "See note-1.") :: s.decided
    requests := .fresh request.messageKey (!replies) (text "See note-1.") :: s.requests })

def hintHost (replies : Bool) : Host HintStore where
  now _ := 1
  get _ _ := .ok none
  put document s := (.ok (some (document.id.getD document.text)), s)
  setProtectedContext _ s := (.ok (), s)
  preflight := some (decideHint replies)
  onRotation state s := (.ok (), { s with persisted := some state })

theorem lookup_cons_ne {other hint : Text} (decided : List (Text × Text)) (h : other ≠ key) :
    ((key, hint) :: decided).lookup other = decided.lookup other := by
  rw [List.lookup_cons, beq_eq_false_iff_ne.mpr h]

def hintArchive (replies : Bool) : HintArchive (hintHost replies) where
  view s := {
    answer key := (s.decided.lookup key).getD [], requests := s.requests, persisted := s.persisted }
  put _ _ := rfl
  setProtectedContext _ _ := rfl
  onRotation _ _ := ⟨rfl, rfl⟩
  unavailable h := by cases h
  reconstruct preflight h request s hreconstruct := by
    obtain rfl : decideHint replies = preflight := Option.some.inj h
    rw [decideHint, if_pos hreconstruct]
    exact ⟨rfl, rfl⟩
  preflight preflight h request s hfresh := by
    obtain rfl : decideHint replies = preflight := Option.some.inj h
    have hanswer : ((((request.messageKey, text "See note-1.") :: s.decided).lookup
        request.messageKey).getD [] : Text) = text "See note-1." := by
      rw [List.lookup_cons_self, Option.getD_some]
    rw [decideHint, if_neg (by rw [hfresh]; exact Bool.false_ne_true)]
    refine ⟨?_, rfl, fun other hother => ?_, fun hint hok => ?_⟩
    · dsimp only
      rw [hanswer]
      cases replies <;> rfl
    · exact congrArg (·.getD []) (lookup_cons_ne s.decided hother)
    · refine hanswer.trans ?_
      cases replies with
      | true => exact Except.ok.inj hok
      | false => cases hok
  removeHints _ h := by cases h

def askingMessage : Message := plainMessage "user" "Where is the note?" (some 1)

def askingKey : Text := messageKey plainSetting askingMessage

/-- A call on the message, after what came before it. -/
def askAgain (replies : Bool) (m : Machine HintStore) :
    Except StoreError (List Message) × Machine HintStore :=
  (process plainSetting plainAnalysis plainConfig (hintHost replies) plainLimits
    [askingMessage]).run m

def openAgain (replies : Bool) (m : Machine HintStore) : Except StoreError OpenedWindow :=
  ((openWindow plainSetting plainAnalysis plainConfig (hintHost replies) plainLimits
    [askingMessage]).run m).1

def persistedEntries (s : HintStore) : List BranchEntry :=
  s.persisted.toList.map fun state => .rotation state.data

def restoreAgain (replies : Bool) (m : Machine HintStore) : Machine HintStore :=
  ((restore plainSetting plainConfig (hintHost replies) (persistedEntries m.host)).run m).2

def plainContent (message : Message) : Option Text :=
  match message.content with
  | .string value => some value
  | _ => none

/-- What decides on the hint of a message, and its content. -/
structure Description where
  isUser : Bool
  isBlank : Bool
  key : Text
  content : Option Text
deriving DecidableEq

def describe (message : Message) : Description where
  isUser := message.isUser
  isBlank := trim (structuralText message) = []
  key := messageKey plainSetting message
  content := plainContent message

theorem plainContent_withHint {message : Message} {value : Text}
    (h : plainContent message = some value) (hint : Text) :
    plainContent (withHint message hint) = some (value ++ hint) := by
  rw [withHint]
  split
  · next hnone => rw [hnone, List.append_nil, h]
  · unfold plainContent at h ⊢
    rw [appendArchivedHint]
    cases hcontent : message.content with
    | string text =>
      rw [hcontent] at h
      rw [← Option.some.inj h]
    | _ =>
      rw [hcontent] at h
      cases h

theorem content_of_shows {opened : OpenedWindow} {out : List Message} {hint content : Text}
    (hshows : Shows plainSetting opened out askingKey hint)
    (hopened : opened.messages.map describe = [describe askingMessage])
    (hout : out.map plainContent = [some content]) :
    text "Where is the note?" ++ hint = content := by
  obtain ⟨marker, shown, rfl, hall⟩ := hshows
  obtain ⟨target, hmessages, htarget⟩ := List.map_eq_singleton_iff.mp hopened
  rw [hmessages] at hall
  cases hall with
  | @cons _ result _ rest hresult hrest =>
    cases hrest with
    | nil =>
      have hmarker : marker = [] := by
        have hlength := congrArg List.length hout
        rw [List.length_map, List.length_append] at hlength
        exact List.eq_nil_of_length_eq_zero (Nat.succ.inj hlength)
      rw [hmarker] at hout
      have hcontent : plainContent result = some content := (List.cons.inj hout).1
      obtain ⟨huser, htext, hkey, hplain⟩ := Description.mk.inj htarget
      have hsaid : trim (structuralText target) ≠ [] := by
        refine of_decide_eq_false (htext.trans ?_)
        decide +kernel
      have hquestion : plainContent target = some (text "Where is the note?") := hplain
      rw [hresult (huser.trans (by decide)) hsaid hkey, plainContent_withHint hquestion]
        at hcontent
      exact Option.some.inj hcontent

/-- The state after the first call, and after the session was restored. -/
def asked (replies : Bool) : Machine HintStore :=
  (askAgain replies { session := {}, host := {} }).2

def restoredAsked (replies : Bool) : Machine HintStore := restoreAgain replies (asked replies)

theorem exists_event {replies : Bool} {m : Machine HintStore} {history : List Message}
    {content : Text} (hgrows : history <+: [askingMessage])
    (hopen : (openAgain replies m).toOption.map (fun opened =>
      (opened.messages.map describe, opened.suppressedKeys)) = some ([describe askingMessage], []))
    (hout : (askAgain replies m).1.toOption.map (·.map plainContent) = some [some content]) :
    ∃ opened out, HintEvent (hintArchive replies) plainSetting plainAnalysis plainConfig m history
        (some (opened, out)) (askAgain replies m).2 [askingMessage] ∧
      opened.messages.map describe = [describe askingMessage] ∧ opened.suppressedKeys = [] ∧
        out.map plainContent = [some content] := by
  obtain ⟨opened, hopened, hdescribed⟩ := Option.map_eq_some_iff.mp hopen
  obtain ⟨out, hemitted, hcontent⟩ := Option.map_eq_some_iff.mp hout
  obtain ⟨hmessages, hkeys⟩ := Prod.mk.inj hdescribed
  have hok : ∀ {α : Type} {x : Except StoreError α} {a : α}, x.toOption = some a → x = .ok a := by
    intro α x a h
    cases x with
    | ok b => exact congrArg Except.ok (Option.some.inj h)
    | error e => cases h
  refine ⟨opened, out, .emits hgrows (Prod.ext (hok hopened) rfl) (Prod.ext (hok hemitted) rfl),
    hmessages, hkeys, hcontent⟩

theorem stays_of_describe {messages : List Message}
    (h : messages.map describe = [describe askingMessage]) :
    askingKey ∈ userMessageKeys plainSetting messages := by
  obtain ⟨target, rfl, htarget⟩ := List.map_eq_singleton_iff.mp h
  obtain ⟨huser, htext, hkey, -⟩ := Description.mk.inj htarget
  have hsaid : trim (structuralText target) ≠ [] :=
    of_decide_eq_false (htext.trans (by decide +kernel))
  exact mem_userMessageKeys.mpr
    ⟨target, List.mem_singleton_self _, huser.trans (by decide), hsaid, hkey⟩

theorem lastRotation_persistedEntries (s : HintStore) :
    lastRotation (persistedEntries s) = s.persisted.map RotationState.data := by
  rw [persistedEntries]
  cases s.persisted <;> rfl

theorem exists_stay (replies : Bool) {first second : Text}
    (hopen : (openAgain replies { session := {}, host := {} }).toOption.map (fun opened =>
      (opened.messages.map describe, opened.suppressedKeys)) = some ([describe askingMessage], []))
    (hout : (askAgain replies { session := {}, host := {} }).1.toOption.map (·.map plainContent) =
      some [some first])
    (hfits : FitsRotation (asked replies).session)
    (hopen' : (openAgain replies (restoredAsked replies)).toOption.map (fun opened =>
      (opened.messages.map describe, opened.suppressedKeys)) = some ([describe askingMessage], []))
    (hout' : (askAgain replies (restoredAsked replies)).1.toOption.map (·.map plainContent) =
      some [some second]) :
    ∃ opened out opened' out', HintStay (hintArchive replies) plainSetting plainAnalysis plainConfig
        askingKey False { session := {}, host := {} } [] [(opened', out'), (opened, out)]
        (askAgain replies (restoredAsked replies)).2 [askingMessage] ∧
      opened.messages.map describe = [describe askingMessage] ∧
      out.map plainContent = [some first] ∧
      opened'.messages.map describe = [describe askingMessage] ∧
      out'.map plainContent = [some second] := by
  obtain ⟨opened, out, hevent, hmessages, hkeys, hcontent⟩ :=
    exists_event (List.nil_prefix) hopen hout
  obtain ⟨opened', out', hevent', hmessages', hkeys', hcontent'⟩ :=
    exists_event (List.prefix_refl _) hopen' hout'
  have hnot : ∀ keys : List Text, keys = [] → (askingKey ∈ keys ↔ False) := by
    rintro keys rfl
    exact iff_of_false List.not_mem_nil id
  have hfirst := HintStay.shown .here hevent (stays_of_describe hmessages) (hnot _ hkeys)
  have hrestored := hfirst.silent (.restores (lastRotation_persistedEntries _) hfits rfl)
  exact ⟨opened, out, opened', out',
    hrestored.shown hevent' (stays_of_describe hmessages') (hnot _ hkeys'), hmessages, hcontent,
    hmessages', hcontent'⟩

theorem fits_asked (replies : Bool) : FitsRotation (asked replies).session := by
  cases replies <;> exact ⟨by decide +kernel, by decide +kernel⟩

/-- The archive decides on a text and its reply is lost: after a restore the message has a hint
that it was shown without. -/
theorem lost_reply_changes_hint : ∃ calls n,
    HintRun (hintArchive false) plainSetting plainAnalysis plainConfig
      { session := {}, host := {} } [] ∧
    HintStay (hintArchive false) plainSetting plainAnalysis plainConfig askingKey False
      { session := {}, host := {} } [] calls n [askingMessage] ∧
    ¬ ∃ hint, ∀ call ∈ calls, Shows plainSetting call.1 call.2 askingKey hint := by
  obtain ⟨opened, out, opened', out', hstay, hmessages, hcontent, hmessages', hcontent'⟩ :=
    @exists_stay false (text "Where is the note?") (text "Where is the note?See note-1.")
      (by decide +kernel) (by decide +kernel) (fits_asked false) (by decide +kernel)
      (by decide +kernel)
  refine ⟨_, _, .start rfl, hstay, ?_⟩
  rintro ⟨hint, hshows⟩
  have hsecond := content_of_shows (hshows _ List.mem_cons_self) hmessages' hcontent'
  have hfirst := content_of_shows (hshows _ (List.mem_cons_of_mem _ List.mem_cons_self)) hmessages
    hcontent
  rw [hfirst] at hsecond
  exact absurd hsecond (by decide)

/-- Where replies are not lost the hint is the same after a restore. -/
theorem hints_stay_restored : ∃ calls n,
    HintStay (hintArchive true) plainSetting plainAnalysis plainConfig askingKey False
      { session := {}, host := {} } [] calls n [askingMessage] ∧ calls.length = 2 ∧
    (∃ hint, ∀ call ∈ calls, Shows plainSetting call.1 call.2 askingKey hint) ∧
    freshRequests askingKey ((hintArchive true).view n.host).requests ≤ 1 := by
  obtain ⟨opened, out, opened', out', hstay, -⟩ :=
    @exists_stay true (text "Where is the note?See note-1.") (text "Where is the note?See note-1.")
      (by decide +kernel) (by decide +kernel) (fits_asked true) (by decide +kernel)
      (by decide +kernel)
  have hrequests : ((askAgain true (restoredAsked true)).2.host.requests =
      [.fresh askingKey false (text "See note-1.")]) := by decide +kernel
  have hclean : (hintArchive true).Clean (askAgain true (restoredAsked true)).2 := by
    intro request hmem
    rw [show ((hintArchive true).view (askAgain true (restoredAsked true)).2.host).requests = _ from
      hrequests] at hmem
    rw [List.mem_singleton.mp hmem]
    exact fun hfailed => by cases hfailed
  obtain ⟨hshows, hcount⟩ := hints_stay (.start rfl) hstay hclean
  exact ⟨_, _, hstay, rfl, hshows, hcount⟩

end ContextStore.Session
