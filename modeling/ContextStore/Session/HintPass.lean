import ContextStore.Session.Hints

/-! # A pass over the hints -/

namespace ContextStore.Session

open Unicode Archive Effects

variable {σ : Type} {host : Host σ} (archive : HintArchive host) (S : Setting) (config : Config)

/-! ## One message -/

/-- A message of the user that may get a hint. -/
def Offered (pass : HintPass) (target : Message) : Prop :=
  target.isUser = true ∧ trim (structuralText target) ≠ [] ∧
    messageKey S target ∉ pass.suppressedMessageKeys

/-- The hint is in the memory of the session. -/
structure Froze (key hint : Text) (attempted : List Text) (m n : Machine σ) : Prop where
  frozen : n.session.frozenHintTextByMessageKey =
    (key, hint) :: m.session.frozenHintTextByMessageKey.filter (·.1 ≠ key)
  attempted : n.session.reconstructOnlyHintMessageKeys = attempted

/-- What is decided for a message that was not asked for before. -/
inductive FirstHint (key hint : Text) (before after : HintView) : Prop where
  | unavailable (nothing : hint = []) (silent : before.answer key = []) (same : after = before)
  | requested (result : Except StoreError Text) (decided : Decided key result before after)
      (hint_eq : hint = result.toOption.getD [])

/-- What a pass comes to for one message. -/
inductive HintOutcome (pass : HintPass) (target : Message) (m : Machine σ) :
    Hinted → Machine σ → Prop
  | skipped (skip : ¬ Offered S pass target) : HintOutcome pass target m { message := target } m
  | unasked (offered : Offered S pass target)
      (fresh : messageKey S target ∉ m.session.reconstructOnlyHintMessageKeys)
      (never : config.NeverAsks host) : HintOutcome pass target m { message := target } m
  | reused {n : Machine σ} {hint : Text} (offered : Offered S pass target)
      (known : m.session.frozenHintTextByMessageKey.lookup (messageKey S target) = some hint)
      (same : HintFrame archive m n) :
      HintOutcome pass target m { message := withHint target hint } n
  | answered {n : Machine σ} (offered : Offered S pass target)
      (asked : messageKey S target ∈ m.session.reconstructOnlyHintMessageKeys)
      (froze : Froze (messageKey S target) ((archive.view m.host).answer (messageKey S target))
        m.session.reconstructOnlyHintMessageKeys m n)
      (same : archive.view n.host = archive.view m.host) :
      HintOutcome pass target m
        { message := withHint target ((archive.view m.host).answer (messageKey S target)) } n
  | first {n : Machine σ} {hint : Text} (offered : Offered S pass target)
      (fresh : messageKey S target ∉ m.session.reconstructOnlyHintMessageKeys)
      (asks : ¬ config.NeverAsks host)
      (froze : Froze (messageKey S target) hint
        (addKey m.session.reconstructOnlyHintMessageKeys (messageKey S target)) m n)
      (decided : FirstHint (messageKey S target) hint (archive.view m.host) (archive.view n.host)) :
      HintOutcome pass target m { message := withHint target hint, changed := true } n

variable {S config}

theorem run_preflightHint {preflight : PreflightRequest → σ → Except StoreError Text × σ}
    (request : PreflightRequest) (m : Machine σ) :
    (preflightHint preflight request).run m =
      (.ok ((preflight request m.host).1.toOption.getD []),
        { m with host := (preflight request m.host).2 }) := by
  cases hresult : (preflight request m.host).1 with
  | ok hint =>
    refine Effect.tryCatch_of_ok ?_
    exact Prod.ext hresult rfl
  | error e =>
    have hcall : (callHost (preflight request)).run m =
        (.error e, { m with host := (preflight request m.host).2 }) := Prod.ext hresult rfl
    exact Effect.tryCatch_of_error hcall

def hintRequest (pass : HintPass) (target : Message) (key : Text) (session : EpochWindowSession)
    (reconstruct : Bool) : PreflightRequest where
  messageKey := key
  message := structuralText target
  excludeVisibleSourceKeys := pass.visibleSourceKeys
  activeMessageKeys := pass.activeMessageKeys
  epoch := session.rotations
  reconstruct

/-- The session once a hint is decided. -/
def frozenSession (key hint : Text) (session : EpochWindowSession) : EpochWindowSession :=
  { session with
    frozenHintTextByMessageKey :=
      (key, hint) :: session.frozenHintTextByMessageKey.filter (·.1 ≠ key)
    activeHintMessageKeys := addKey session.activeHintMessageKeys key }

theorem requestHint_asked {pass : HintPass} {target : Message} {m : Machine σ}
    (offered : Offered S pass target)
    (hasked : messageKey S target ∈ m.session.reconstructOnlyHintMessageKeys) :
    ∃ hinted n, (requestHint config host pass target (messageKey S target) true).run m =
      (.ok hinted, n) ∧ HintOutcome archive S config pass target m hinted n := by
  have hanswered : ∀ t, archive.view t = archive.view m.host → HintOutcome archive S config pass
      target m { message := withHint target ((archive.view m.host).answer (messageKey S target)) }
        { m with
          session := frozenSession (messageKey S target)
            ((archive.view m.host).answer (messageKey S target)) m.session
          host := t } :=
    fun t hview => .answered offered hasked ⟨rfl, rfl⟩ hview
  unfold requestHint
  cases hpreflight : host.preflight with
  | none =>
    have houtcome := hanswered m.host rfl
    rw [archive.unavailable hpreflight m.host (messageKey S target)] at houtcome
    exact ⟨_, _, rfl, houtcome⟩
  | some preflight =>
    obtain ⟨hanswer, hview⟩ := archive.reconstruct preflight hpreflight
      (hintRequest pass target (messageKey S target) m.session true) m.host rfl
    refine ⟨_, _, ?_, hanswered _ hview⟩
    refine (Effect.bind_of_ok (run_preflightHint
      (hintRequest pass target (messageKey S target) m.session true) m)).trans ?_
    rw [hanswer]
    rfl

theorem requestHint_first {pass : HintPass} {target : Message} {m : Machine σ}
    (offered : Offered S pass target)
    (hfresh : messageKey S target ∉ m.session.reconstructOnlyHintMessageKeys)
    (hasks : config.automaticRetrieval ≠ some false) :
    ∃ hinted n, (requestHint config host pass target (messageKey S target) false).run m =
      (.ok hinted, n) ∧ HintOutcome archive S config pass target m hinted n := by
  unfold requestHint
  cases hpreflight : host.preflight with
  | none =>
    by_cases hsilent : config.automaticRetrieval = some true
    · have hsilence := archive.unavailable hpreflight m.host (messageKey S target)
      have houtcome := @HintOutcome.first σ host archive S config pass target m
        { m with session := frozenSession (messageKey S target) [] { m.session with
          reconstructOnlyHintMessageKeys := addKey m.session.reconstructOnlyHintMessageKeys
            (messageKey S target) } } [] offered hfresh
        (by
          rintro (hnever | ⟨-, hnever⟩)
          · exact hasks hnever
          · exact hnever hsilent)
        ⟨rfl, rfl⟩ (.unavailable rfl hsilence rfl)
      exact ⟨_, _, by rw [if_neg (fun h => h.2 hsilent)]; rfl, houtcome⟩
    · exact ⟨_, _, by rw [if_pos ⟨rfl, hsilent⟩]; rfl, .unasked offered hfresh
        (.inr ⟨hpreflight, hsilent⟩)⟩
  | some preflight =>
    let attempted : Machine σ := { m with session := { m.session with
      reconstructOnlyHintMessageKeys := addKey m.session.reconstructOnlyHintMessageKeys
        (messageKey S target) } }
    have hdecided := archive.preflight preflight hpreflight
      (hintRequest pass target (messageKey S target) m.session false) m.host rfl
    have hchosen : ¬ config.NeverAsks host := by
      rintro (hnever | ⟨hnone, -⟩)
      · exact hasks hnever
      · rw [hpreflight] at hnone
        cases hnone
    refine ⟨_, _, ?_, @HintOutcome.first σ host archive S config pass target m
      { attempted with
        session := frozenSession (messageKey S target) _ attempted.session
        host := _ } _ offered hfresh hchosen ⟨rfl, rfl⟩ (.requested _ hdecided rfl)⟩
    exact Effect.bind_of_ok (run_preflightHint
      (hintRequest pass target (messageKey S target) m.session false) attempted)

theorem hintMessage_cases (pass : HintPass) (target : Message) (m : Machine σ) :
    ∃ hinted n, (hintMessage S config host pass target).run m = (.ok hinted, n) ∧
      HintOutcome archive S config pass target m hinted n := by
  unfold hintMessage
  rw [run_getSession_bind]
  dsimp only
  by_cases hskip : target.isUser = false ∨ trim (structuralText target) = [] ∨
      messageKey S target ∈ pass.suppressedMessageKeys
  · rw [if_pos hskip]
    refine ⟨_, _, rfl, .skipped ?_⟩
    rintro ⟨huser, htext, hinline⟩
    rcases hskip with h | h | h
    · rw [huser] at h
      cases h
    · exact htext h
    · exact hinline h
  · rw [if_neg hskip]
    have offered : Offered S pass target := by
      rw [not_or, not_or] at hskip
      exact ⟨by simpa using hskip.1, hskip.2.1, hskip.2.2⟩
    cases hknown : m.session.frozenHintTextByMessageKey.lookup (messageKey S target) with
    | some hint =>
      refine ⟨_, _, rfl, .reused offered hknown ?_⟩
      exact hintFrame_of_view archive rfl rfl rfl
    | none =>
      by_cases hasked : messageKey S target ∈ m.session.reconstructOnlyHintMessageKeys
      · dsimp only
        rw [decide_eq_true hasked, if_neg (fun h => by cases h.1)]
        exact requestHint_asked archive offered hasked
      · dsimp only
        rw [decide_eq_false hasked]
        by_cases hsilent : config.automaticRetrieval = some false
        · rw [if_pos ⟨rfl, hsilent⟩]
          exact ⟨_, _, rfl, .unasked offered hasked (.inl hsilent)⟩
        · rw [if_neg fun h => hsilent h.2]
          exact requestHint_first archive offered hasked hsilent

/-! ## What one message does to the hints -/

theorem mem_addKey {items : List Text} {item other : Text} :
    other ∈ addKey items item ↔ other ∈ items ∨ other = item := by
  rw [addKey]
  split
  · next hmem =>
    constructor
    · exact Or.inl
    · rintro (h | rfl)
      · exact h
      · exact hmem
  · simp

variable {before after : HintView} {key hint : Text}

theorem Froze.lookup {attempted : List Text} {m n : Machine σ} (h : Froze key hint attempted m n)
    (other : Text) :
    n.session.frozenHintTextByMessageKey.lookup other =
      if other = key then some hint else m.session.frozenHintTextByMessageKey.lookup other := by
  rw [h.frozen]
  generalize m.session.frozenHintTextByMessageKey = frozen
  by_cases hother : other = key
  · rw [if_pos hother, hother, List.lookup_cons_self]
  · rw [if_neg hother, List.lookup_cons, beq_eq_false_iff_ne.mpr hother]
    show (frozen.filter (·.1 ≠ key)).lookup other = frozen.lookup other
    induction frozen with
    | nil => rfl
    | cons entry rest ih =>
      rw [List.filter_cons, List.lookup_cons]
      by_cases hkey : entry.1 = key
      · have hne : other ≠ entry.1 := fun h => hother (h.trans hkey)
        rw [if_neg (by simpa using hkey), ih, beq_eq_false_iff_ne.mpr hne]
      · rw [if_pos (by simpa using hkey), List.lookup_cons, ih]

/-- The archive answers from then on with the hint a message got. -/
theorem FirstHint.answer (h : FirstHint key hint before after)
    (hclean : ∀ request ∈ after.requests, request.Clean) : after.answer key = hint := by
  cases h with
  | unavailable nothing silent same => rw [same, nothing, silent]
  | requested result decided hint_eq =>
    cases result with
    | ok text => rw [decided.decided text rfl, hint_eq]; rfl
    | error e =>
      have hmem := decided.requests ▸ List.mem_cons_self
      rw [hint_eq]
      exact hclean _ hmem rfl

theorem FirstHint.requests_cases (h : FirstHint key hint before after) :
    after.requests = before.requests ∨
      ∃ failed answer, after.requests = .fresh key failed answer :: before.requests := by
  cases h with
  | unavailable nothing silent same => exact .inl (by rw [same])
  | requested result decided hint_eq => exact .inr ⟨_, _, decided.requests⟩

theorem FirstHint.others {other : Text} (h : FirstHint key hint before after)
    (hother : other ≠ key) : after.answer other = before.answer other := by
  cases h with
  | unavailable nothing silent same => rw [same]
  | requested result decided hint_eq => exact decided.others other hother

theorem freshRequests_cons (key other answer : Text) (failed : Bool) (requests : List HintRequest) :
    freshRequests key (.fresh other failed answer :: requests) =
      freshRequests key requests + if other = key then 1 else 0 := by
  rw [freshRequests, List.filter_cons]
  by_cases h : other = key
  · rw [if_pos (by simpa using h), if_pos h, List.length_cons]
    rfl
  · rw [if_neg (by simpa using h), if_neg h]
    rfl

variable {archive} {pass : HintPass} {target : Message} {m n : Machine σ} {hinted : Hinted}

theorem HintOutcome.step (h : HintOutcome archive S config pass target m hinted n) (key : Text) :
    HintStep archive config key m n := by
  cases h with
  | skipped skip => exact Std.Refl.refl m
  | unasked offered fresh never => exact Std.Refl.refl m
  | reused offered known same => exact same.step archive config key
  | answered offered asked froze same =>
    refine ⟨by rw [same], fun hknown _ => ?_, fun _ _ hint hkept => ⟨?_, by rw [same]⟩⟩
    · intro other hint hlookup
      rw [froze.lookup] at hlookup
      rw [froze.attempted, same]
      split at hlookup
      · next heq =>
        rw [heq]
        exact ⟨asked, Option.some.inj hlookup⟩
      · exact hknown other hint hlookup
    · rw [Kept, froze.attempted, same]
      exact hkept
  | first offered fresh asks froze decided =>
    refine ⟨?_, fun hknown hclean => ?_, fun _ _ hint hkept => ?_⟩
    · rcases decided.requests_cases with heq | ⟨failed, answer, heq⟩
      · rw [heq]
      · rw [heq]
        exact List.suffix_cons _ _
    · intro other hint hlookup
      rw [froze.lookup] at hlookup
      rw [froze.attempted, mem_addKey]
      split at hlookup
      · next heq =>
        rw [heq]
        exact ⟨.inr rfl, (decided.answer hclean).trans (Option.some.inj hlookup)⟩
      · next hne =>
        obtain ⟨hasked, hanswer⟩ := hknown other hint hlookup
        exact ⟨.inl hasked, (decided.others hne).trans hanswer⟩
    · have hne : key ≠ messageKey S target := by
        rintro rfl
        rcases hkept with ⟨hasked, -⟩ | ⟨-, -, hnever⟩
        · exact fresh hasked
        · exact asks hnever
      refine ⟨?_, ?_⟩
      · rw [Kept, froze.attempted, mem_addKey, decided.others hne]
        rcases hkept with ⟨hasked, hanswer⟩ | ⟨hnot, hnone⟩
        · exact .inl ⟨.inl hasked, hanswer⟩
        · exact .inr ⟨by simp [hnot, hne], hnone⟩
      · rcases decided.requests_cases with heq | ⟨failed, answer, heq⟩
        · rw [heq]
        · rw [heq, freshRequests_cons, if_neg fun h => hne h.symm]
          rfl

theorem withHint_nil (target : Message) : withHint target [] = target := if_pos rfl

theorem HintOutcome.shown (h : HintOutcome archive S config pass target m hinted n)
    (offered : Offered S pass target) (hknown : HintsKnown archive m) (hclean : archive.Clean n) :
    ∃ hint, hinted.message = withHint target hint ∧
      Kept archive config (messageKey S target) hint n := by
  cases h with
  | skipped skip => exact absurd offered skip
  | unasked offered fresh never =>
    exact ⟨[], (withHint_nil target).symm, .inr ⟨fresh, rfl, never⟩⟩
  | @reused n hint offered known same =>
    obtain ⟨hasked, hanswer⟩ := hknown _ _ known
    refine ⟨hint, rfl, .inl ⟨?_, ?_⟩⟩
    · rw [same.attempted]
      exact hasked
    · rw [same.answer]
      exact hanswer
  | answered offered asked froze same =>
    refine ⟨_, rfl, .inl ⟨?_, ?_⟩⟩
    · rw [froze.attempted]
      exact asked
    · rw [same]
  | @first n hint offered fresh asks froze decided =>
    refine ⟨hint, rfl, .inl ⟨?_, decided.answer hclean⟩⟩
    rw [froze.attempted, mem_addKey]
    exact .inr rfl

theorem HintOutcome.freshRequests_le (h : HintOutcome archive S config pass target m hinted n)
    (key : Text) : freshRequests key (archive.view n.host).requests ≤
      freshRequests key (archive.view m.host).requests + 1 := by
  cases h with
  | skipped skip => exact Nat.le_succ _
  | unasked offered fresh never => exact Nat.le_succ _
  | reused offered known same =>
    rw [same.requests]
    exact Nat.le_succ _
  | answered offered asked froze same =>
    rw [same]
    exact Nat.le_succ _
  | first offered fresh asks froze decided =>
    rcases decided.requests_cases with heq | ⟨failed, answer, heq⟩
    · rw [heq]
      exact Nat.le_succ _
    · rw [heq, freshRequests_cons]
      split <;> omega

theorem HintOutcome.freshRequests_other (h : HintOutcome archive S config pass target m hinted n)
    (hother : Offered S pass target → messageKey S target ≠ key) :
    freshRequests key (archive.view n.host).requests =
      freshRequests key (archive.view m.host).requests := by
  cases h with
  | skipped skip => rfl
  | unasked offered fresh never => rfl
  | reused offered known same => rw [same.requests]
  | answered offered asked froze same => rw [same]
  | first offered fresh asks froze decided =>
    rcases decided.requests_cases with heq | ⟨failed, answer, heq⟩
    · rw [heq]
    · rw [heq, freshRequests_cons, if_neg (hother offered)]
      rfl

theorem HintOutcome.persisted (h : HintOutcome archive S config pass target m hinted n)
    (hunchanged : hinted.changed = false) (hpersisted : HintsPersisted archive m) :
    HintsPersisted archive n := by
  cases h with
  | skipped skip => exact hpersisted
  | unasked offered fresh never => exact hpersisted
  | reused offered known same => exact same.persisted hpersisted
  | answered offered asked froze same =>
    rw [HintsPersisted, same, persistableKeys, froze.attempted]
    exact hpersisted
  | first offered fresh asks froze decided => cases hunchanged

theorem HintOutcome.skipped_message (h : HintOutcome archive S config pass target m hinted n)
    (hskip : ¬ Offered S pass target) : hinted.message = target := by
  cases h with
  | skipped skip => rfl
  | unasked offered fresh never => rfl
  | reused offered known same => exact absurd offered hskip
  | answered offered asked froze same => exact absurd offered hskip
  | first offered fresh asks froze decided => exact absurd offered hskip

/-! ## The whole pass -/

inductive PassRun (archive : HintArchive host) (S : Setting) (config : Config) (pass : HintPass) :
    List Message → Machine σ → List Hinted → Machine σ → Prop
  | nil {m : Machine σ} : PassRun archive S config pass [] m [] m
  | cons {target : Message} {rest : List Message} {hinted : Hinted} {others : List Hinted}
      {m u n : Machine σ} (outcome : HintOutcome archive S config pass target m hinted u)
      (later : PassRun archive S config pass rest u others n) :
      PassRun archive S config pass (target :: rest) m (hinted :: others) n

variable (archive) in
theorem exists_passRun (pass : HintPass) (messages : List Message) : ∀ m : Machine σ,
    ∃ hinted n, (Effect.mapList (hintMessage S config host pass) messages).run m =
      (.ok hinted, n) ∧ PassRun archive S config pass messages m hinted n := by
  induction messages with
  | nil =>
    intro m
    exact ⟨_, _, rfl, .nil⟩
  | cons target rest ih =>
    intro m
    obtain ⟨hinted, u, hrun, houtcome⟩ := @hintMessage_cases σ host archive S config pass target m
    obtain ⟨others, n, hrest, hlater⟩ := ih u
    refine ⟨hinted :: others, n, ?_, .cons houtcome hlater⟩
    rw [Effect.mapList, Effect.bind_of_ok hrun, Effect.bind_of_ok hrest]
    rfl

variable {messages : List Message} {others : List Hinted}

theorem PassRun.step (h : PassRun archive S config pass messages m others n) (key : Text) :
    HintStep archive config key m n := by
  induction h with
  | nil => exact Std.Refl.refl _
  | cons outcome later ih => exact IsTrans.trans _ _ _ (outcome.step key) ih

theorem PassRun.persisted (h : PassRun archive S config pass messages m others n)
    (hunchanged : ∀ hinted ∈ others, hinted.changed = false)
    (hpersisted : HintsPersisted archive m) : HintsPersisted archive n := by
  induction h with
  | nil => exact hpersisted
  | cons outcome later ih =>
    refine ih (fun hinted hmem => hunchanged hinted (List.mem_cons_of_mem _ hmem)) ?_
    exact outcome.persisted (hunchanged _ List.mem_cons_self) hpersisted

/-- The user's message with the key is shown with the hint. -/
def ShownWith (S : Setting) (key hint : Text) (target shown : Message) : Prop :=
  target.isUser = true → trim (structuralText target) ≠ [] → messageKey S target = key →
    shown = withHint target hint

theorem PassRun.exists_kept (h : PassRun archive S config pass messages m others n)
    (hknown : HintsKnown archive m) (hclean : archive.Clean n)
    (hmem : target ∈ messages) (offered : Offered S pass target) :
    ∃ hint, Kept archive config (messageKey S target) hint n := by
  induction h with
  | nil => cases hmem
  | cons outcome later ih =>
    have hbefore := (later.step (messageKey S target)).clean hclean
    have hafter := (outcome.step (messageKey S target)).known hknown hbefore
    rcases List.mem_cons.mp hmem with rfl | hrest
    · obtain ⟨hint, -, hkept⟩ := outcome.shown offered hknown hbefore
      exact ⟨hint, ((later.step _).kept hafter hclean hint hkept).1⟩
    · exact ih hafter hclean hrest

/-- The hint decided at the end is the one each message with the key was given. -/
theorem PassRun.shown (h : PassRun archive S config pass messages m others n)
    (hknown : HintsKnown archive m) (hclean : archive.Clean n)
    (hinline : key ∉ pass.suppressedMessageKeys) (hkept : Kept archive config key hint n) :
    List.Forall₂ (ShownWith S key hint) messages (others.map (·.message)) := by
  induction h with
  | nil => exact .nil
  | cons outcome later ih =>
    have hbefore := (later.step key).clean hclean
    have hafter := (outcome.step key).known hknown hbefore
    refine .cons ?_ (ih hafter hclean hkept)
    rintro huser htext rfl
    obtain ⟨given, hshown, hgiven⟩ := outcome.shown ⟨huser, htext, hinline⟩ hknown hbefore
    have hsame := ((later.step _).kept hafter hclean given hgiven).1.unique hkept
    exact hsame ▸ hshown

variable {key : Text}

theorem PassRun.shown_suppressed (h : PassRun archive S config pass messages m others n)
    (hsuppressed : key ∈ pass.suppressedMessageKeys) :
    List.Forall₂ (ShownWith S key []) messages (others.map (·.message)) := by
  induction h with
  | nil => exact .nil
  | cons outcome later ih =>
    refine .cons ?_ ih
    rintro - - rfl
    rw [withHint_nil]
    exact outcome.skipped_message fun offered => offered.2.2 hsuppressed

theorem PassRun.freshRequests_suppressed (h : PassRun archive S config pass messages m others n)
    (hsuppressed : key ∈ pass.suppressedMessageKeys) :
    freshRequests key (archive.view n.host).requests =
      freshRequests key (archive.view m.host).requests := by
  induction h with
  | nil => rfl
  | cons outcome later ih =>
    refine ih.trans (outcome.freshRequests_other ?_)
    rintro offered rfl
    exact offered.2.2 hsuppressed

/-- At most one request is made for a key. -/
theorem PassRun.freshRequests_le (h : PassRun archive S config pass messages m others n)
    (hknown : HintsKnown archive m) (hclean : archive.Clean n) (key : Text) :
    freshRequests key (archive.view n.host).requests ≤
      freshRequests key (archive.view m.host).requests + 1 := by
  induction h with
  | nil => exact Nat.le_succ _
  | @cons target rest hinted others m u n outcome later ih =>
    have hbefore := (later.step key).clean hclean
    have hafter := (outcome.step key).known hknown hbefore
    by_cases hoffered : Offered S pass target ∧ messageKey S target = key
    · obtain ⟨offered, rfl⟩ := hoffered
      obtain ⟨hint, -, hkept⟩ := outcome.shown offered hknown hbefore
      rw [((later.step _).kept hafter hclean hint hkept).2]
      exact outcome.freshRequests_le _
    · rw [← outcome.freshRequests_other fun offered heq => hoffered ⟨offered, heq⟩]
      exact ih hafter hclean

/-! ## The hints of a window -/

/-- What a pass over the messages of a window does. -/
structure HintsAdded (archive : HintArchive host) (S : Setting) (config : Config)
    (suppressed : List Text) (messages : List Message) (m : Machine σ) (window : List Message)
    (n : Machine σ) : Prop where
  step : ∀ key, HintStep archive config key m n
  persisted : HintsPersisted archive m → HintsPersisted archive n
  exists_kept : HintsKnown archive m → archive.Clean n → ∀ key ∈ userMessageKeys S messages,
    key ∉ suppressed → ∃ hint, Kept archive config key hint n
  shown : HintsKnown archive m → archive.Clean n → ∀ key hint, key ∉ suppressed →
    Kept archive config key hint n → List.Forall₂ (ShownWith S key hint) messages window
  shown_suppressed : ∀ key ∈ suppressed, List.Forall₂ (ShownWith S key []) messages window
  freshRequests_le : HintsKnown archive m → archive.Clean n → ∀ key,
    freshRequests key (archive.view n.host).requests ≤
      freshRequests key (archive.view m.host).requests + 1
  freshRequests_suppressed : ∀ key ∈ suppressed, freshRequests key (archive.view n.host).requests =
      freshRequests key (archive.view m.host).requests

theorem mem_userMessageKeys :
    key ∈ userMessageKeys S messages ↔ ∃ target ∈ messages, target.isUser = true ∧
      trim (structuralText target) ≠ [] ∧ messageKey S target = key := by
  rw [userMessageKeys, List.mem_eraseDups, List.mem_map]
  simp only [List.mem_filter, Bool.and_eq_true, decide_eq_true_eq, and_assoc]

theorem PassRun.added (h : PassRun archive S config pass messages m others n) {o : Machine σ}
    (hframe : HintFrame archive n o)
    (hpersisted : HintsPersisted archive m → HintsPersisted archive o) :
    HintsAdded archive S config pass.suppressedMessageKeys messages m (others.map (·.message))
      o := by
  have hclean : archive.Clean o → archive.Clean n := (hframe.step archive config []).clean
  refine ⟨fun key => IsTrans.trans _ _ _ (h.step key) (hframe.step archive config key), hpersisted,
    ?_, ?_, fun key => h.shown_suppressed, ?_, ?_⟩
  · intro hknown hafter key hmem hinline
    obtain ⟨target, htarget, huser, htext, rfl⟩ := mem_userMessageKeys.mp hmem
    obtain ⟨hint, hkept⟩ := h.exists_kept hknown (hclean hafter) htarget ⟨huser, htext, hinline⟩
    have hbefore := (h.step (messageKey S target)).known hknown (hclean hafter)
    exact ⟨hint, ((hframe.step archive config _).kept hbefore hafter hint hkept).1⟩
  · intro hknown hafter key hint hinline hkept
    exact h.shown hknown (hclean hafter) hinline (hframe.kept_iff.mp hkept)
  · intro hknown hafter key
    rw [hframe.requests]
    exact h.freshRequests_le hknown (hclean hafter) key
  · intro key hsuppressed
    rw [hframe.requests]
    exact h.freshRequests_suppressed hsuppressed

theorem forall₂_shownWith_nil (S : Setting) (key : Text) (messages : List Message) :
    List.Forall₂ (ShownWith S key []) messages messages := by
  induction messages with
  | nil => exact .nil
  | cons target rest ih => exact .cons (fun _ _ _ => (withHint_nil target).symm) ih

variable (archive S config) in
theorem withAutomaticArchiveHint_run (messages : List Message)
    (originalSourceKeys suppressed : List Text) (m : Machine σ) :
    ∃ shown n, (withAutomaticArchiveHint S config host messages originalSourceKeys suppressed).run
      m = (.ok shown, n) ∧ HintsAdded archive S config suppressed messages m shown n := by
  unfold withAutomaticArchiveHint
  rw [run_getSession_bind]
  split
  · next hdisabled =>
    refine ⟨messages, m, rfl, ?_⟩
    rw [hintsDisabled, Bool.and_eq_true, Bool.and_eq_true] at hdisabled
    obtain ⟨⟨hnever, -⟩, hnone⟩ := hdisabled
    have hattempted : m.session.reconstructOnlyHintMessageKeys = [] := List.isEmpty_iff.mp hnone
    have hnot : ∀ key, key ∉ m.session.reconstructOnlyHintMessageKeys := by
      intro key
      rw [hattempted]
      exact List.not_mem_nil
    refine ⟨fun key => Std.Refl.refl m, fun h => h, ?_, ?_, ?_, fun _ _ _ => Nat.le_succ _,
      fun _ _ => rfl⟩
    · exact fun _ _ key _ _ => ⟨[], .inr ⟨hnot key, rfl, .inl (of_decide_eq_true hnever)⟩⟩
    · intro _ _ key hint _ hkept
      rcases hkept with ⟨hasked, -⟩ | ⟨-, rfl, -⟩
      · exact absurd hasked (hnot key)
      · exact forall₂_shownWith_nil S key messages
    · exact fun key _ => forall₂_shownWith_nil S key messages
  · dsimp only
    generalize hpass : HintPass.mk _ _ suppressed = pass
    obtain ⟨hinted, u, hrun, hpassed⟩ := exists_passRun archive pass messages m
    rw [Effect.bind_of_ok hrun]
    have hsuppressed : pass.suppressedMessageKeys = suppressed := by rw [← hpass]
    split
    · obtain ⟨n, hreport, hframe, hpersisted⟩ := run_reportRotation archive u
      refine ⟨_, n, ?_, hsuppressed ▸ hpassed.added hframe fun _ => hpersisted⟩
      rw [Effect.bind_of_ok hreport]
      rfl
    · next hchanged =>
      refine ⟨_, u, rfl, hsuppressed ▸ hpassed.added (Std.Refl.refl u) (hpassed.persisted ?_)⟩
      intro entry hmem
      rw [List.any_eq_true, not_exists] at hchanged
      exact Bool.eq_false_iff.mpr fun h => hchanged entry ⟨hmem, h⟩

end ContextStore.Session
