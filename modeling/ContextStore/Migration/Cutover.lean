import ContextStore.Documents.AdmissionFacts
import ContextStore.Migration.Authority
import ContextStore.Migration.Copy

/-! # The cutover is safe

Copies, verifications, activations and claims run one at a time, in exclusive sections; admissions
run at any time. Whatever the interleaving and the crashes: an authority of RocksDB is final, every
admission comes with it, SQLite is never acknowledged after an admission, and between an
acknowledged claim and the next admission lie the end of the claim and a completed copy. The last
part needs that the destination never tracks two source databases at once, which the copy means to
check but does not while the fingerprints it compares are both undefined. -/

namespace ContextStore

open Concurrent

variable {codec : MigrationCodec}

/-! ## The records that decide -/

namespace World

def backendAuthority (w : World) : Option BackendAuthority := w.get (.migration .backendAuthority)

def migrationStatus (w : World) : Option MigrationStatus := w.get (.migration .status)

def checkpointOf (w : World) (sourceDatabaseId : String) : Option Checkpoint :=
  w.get (.migration (.checkpoint sourceDatabaseId))

def sealOf (w : World) (sourceDatabaseId : String) : Option AuthorityWrite :=
  w.get (.migration (.authority sourceDatabaseId))

/-- RocksDB owns the archive for good. -/
def OwnedByRocksdb (w : World) : Prop := ∃ a, w.backendAuthority = some a ∧ a.isRocksdb

def OwnedBySqlite (w : World) : Prop := ∃ a, w.backendAuthority = some a ∧ a.isSqlite

/-- All stored checkpoints are of one source database. -/
def TracksOneSource (w : World) : Prop :=
  ∀ a b cp cp', w.checkpointOf a = some cp → w.checkpointOf b = some cp' → a = b

theorem OwnedByRocksdb.not_sqlite {w : World} (h : w.OwnedByRocksdb) : ¬ w.OwnedBySqlite := by
  rintro ⟨b, hb, hsqlite⟩
  obtain ⟨a, ha, hrocksdb⟩ := h
  obtain rfl := Option.some.inj (ha.symm.trans hb)
  simp only [BackendAuthority.isRocksdb, BackendAuthority.isSqlite, decide_eq_true_eq]
    at hrocksdb hsqlite
  rw [hrocksdb] at hsqlite
  cases hsqlite

theorem owned_cases {w : World} {a : BackendAuthority} (h : w.backendAuthority = some a) :
    w.OwnedByRocksdb ∨ w.OwnedBySqlite := by
  cases hb : a.backend with
  | rocksdb => exact Or.inl ⟨a, h, by simp [BackendAuthority.isRocksdb, hb]⟩
  | sqlite => exact Or.inr ⟨a, h, by simp [BackendAuthority.isSqlite, hb]⟩

end World

/-! ## Claims in the history -/

/-- How far the last acknowledged claim of SQLite has been undone. -/
inductive ClaimState where
  | free
  | claimed
  | cleared

def ClaimState.after : ClaimState → Event → ClaimState
  | _, .sqliteClaimed => .claimed
  | .claimed, .claimCleared => .cleared
  | .cleared, .copyCompleted => .free
  | state, _ => state

def claimState (history : List Event) : ClaimState := history.foldl ClaimState.after .free

theorem claimState_append (history events : List Event) :
    claimState (history ++ events) = events.foldl ClaimState.after (claimState history) :=
  List.foldl_append

def Event.isAdmission : Event → Bool
  | .admitted _ _ _ _ => true
  | _ => false

/-- An event that is about neither claims nor copies. -/
def Event.isOrdinary : Event → Bool
  | .sqliteClaimed => false
  | .claimCleared => false
  | .copyCompleted => false
  | _ => true

theorem ClaimState.after_ordinary {e : Event} (h : e.isOrdinary = true) (state : ClaimState) :
    state.after e = state := by
  cases e <;> cases state <;> first | rfl | cases h

theorem claimState_ordinary {events : List Event} (h : ∀ e ∈ events, e.isOrdinary = true)
    (history : List Event) : claimState (history ++ events) = claimState history := by
  rw [claimState_append]
  generalize claimState history = state
  induction events with
  | nil => rfl
  | cons e rest ih =>
    rw [List.foldl_cons, ClaimState.after_ordinary (h e List.mem_cons_self)]
    exact ih fun e' he' => h e' (List.mem_cons_of_mem _ he')

theorem undone_of_free {events : List Event} :
    (events.foldl ClaimState.after .claimed = .free → ∃ before between rest,
        events = before ++ .claimCleared :: between ++ .copyCompleted :: rest) ∧
    (events.foldl ClaimState.after .cleared = .free →
      ∃ between rest, events = between ++ .copyCompleted :: rest) := by
  induction events with
  | nil =>
    constructor
    · intro h
      cases h
    · intro h
      cases h
  | cons e rest ih =>
    have hlonger : ∀ {e' : Event}, (∃ before between rest',
        rest = before ++ .claimCleared :: between ++ .copyCompleted :: rest') →
        ∃ before between rest',
          e' :: rest = before ++ .claimCleared :: between ++ .copyCompleted :: rest' := by
      rintro e' ⟨before, between, rest', rfl⟩
      exact ⟨e' :: before, between, rest', rfl⟩
    have hlonger' : ∀ {e' : Event}, (∃ between rest', rest = between ++ .copyCompleted :: rest') →
        ∃ between rest', e' :: rest = between ++ .copyCompleted :: rest' := by
      rintro e' ⟨between, rest', rfl⟩
      exact ⟨e' :: between, rest', rfl⟩
    constructor
    · intro h
      cases e with
      | claimCleared =>
        obtain ⟨between, rest', rfl⟩ := ih.2 h
        exact ⟨[], between, rest', rfl⟩
      | _ => exact hlonger (ih.1 h)
    · intro h
      cases e with
      | copyCompleted => exact ⟨[], rest, rfl⟩
      | sqliteClaimed =>
        obtain ⟨before, between, rest', rfl⟩ := ih.1 h
        exact ⟨.sqliteClaimed :: before ++ .claimCleared :: between, rest', by simp⟩
      | _ => exact hlonger' (ih.2 h)

/-- Admissions come when no claim is in force, and claims before any admission. -/
structure RespectsClaims (history : List Event) : Prop where
  admitted : ∀ pre e post, history = pre ++ e :: post → e.isAdmission = true →
    claimState pre = .free
  claimed : ∀ pre post, history = pre ++ .sqliteClaimed :: post → ∀ e ∈ pre, e.isAdmission = false

theorem respectsClaims_nil : RespectsClaims [] :=
  ⟨fun pre e post h => by simp at h, fun pre post h => by simp at h⟩

/-- What one more event has to satisfy. -/
theorem RespectsClaims.snoc {history : List Event} {e : Event} (h : RespectsClaims history)
    (hadmitted : e.isAdmission = true → claimState history = .free)
    (hclaimed : e = .sqliteClaimed → ∀ e' ∈ history, e'.isAdmission = false) :
    RespectsClaims (history ++ [e]) := by
  have hsplit : ∀ {pre : List Event} {e' : Event} {post : List Event},
      history ++ [e] = pre ++ e' :: post →
        (∃ post', history = pre ++ e' :: post') ∨ (history = pre ∧ e = e') := by
    intro pre e' post heq
    rcases List.eq_nil_or_concat post with rfl | ⟨post', last, rfl⟩
    · obtain ⟨hpre, he⟩ := List.append_inj' heq rfl
      exact Or.inr ⟨hpre, (List.cons.inj he).1⟩
    · rw [List.concat_eq_append, ← List.cons_append, ← List.append_assoc] at heq
      exact Or.inl ⟨post', (List.append_inj' heq rfl).1⟩
  constructor
  · intro pre e' post heq he'
    rcases hsplit heq with ⟨post', hpre⟩ | ⟨rfl, rfl⟩
    · exact h.admitted pre e' post' hpre he'
    · exact hadmitted he'
  · intro pre post heq
    rcases hsplit heq with ⟨post', hpre⟩ | ⟨rfl, he⟩
    · exact h.claimed pre post' hpre
    · exact hclaimed he

/-- Ordinary events keep the order of claims and admissions, as long as no claim is in force when a
    document is admitted. -/
theorem RespectsClaims.append {history events : List Event} (h : RespectsClaims history)
    (hordinary : ∀ e ∈ events, e.isOrdinary = true)
    (hfree : (∃ e ∈ events, e.isAdmission = true) → claimState history = .free) :
    RespectsClaims (history ++ events) := by
  induction events generalizing history with
  | nil =>
    rw [List.append_nil]
    exact h
  | cons e rest ih =>
    have he := hordinary e List.mem_cons_self
    have hsame : claimState (history ++ [e]) = claimState history :=
      claimState_ordinary (by simpa using he) _
    rw [← List.singleton_append, ← List.append_assoc]
    refine ih (h.snoc (fun hadm => hfree ⟨e, List.mem_cons_self, hadm⟩) ?_)
      (fun e' he' => hordinary e' (List.mem_cons_of_mem _ he')) ?_
    · rintro rfl
      cases he
    · rintro ⟨e', he', hadm⟩
      rw [hsame]
      exact hfree ⟨e', List.mem_cons_of_mem _ he', hadm⟩

/-! ## The invariant -/

/-- A copy is under way and its source has not been verified. -/
def World.Copying (w : World) : Prop :=
  ∃ status, w.migrationStatus = some status ∧
    (status.phase = .offlineCopy ∨ status.phase = .blocked)

/-- Once a claim is cleared, nothing but a completed copy can lead to a cutover. -/
structure World.Recopying (w : World) : Prop where
  unowned : w.backendAuthority = none
  copying : w.Copying
  incomplete : ∀ db cp, w.checkpointOf db = some cp → cp.completed = false

structure CutoverInv (w : World) : Prop where
  sealed : ∀ db a, w.sealOf db = some a → w.OwnedByRocksdb
  claimed : claimState w.history = .claimed → w.OwnedBySqlite
  cleared : claimState w.history = .cleared → w.Recopying
  admitted : (∃ e ∈ w.history, e.isAdmission = true) → w.OwnedByRocksdb
  oneSource : w.TracksOneSource
  respects : RespectsClaims w.history

/-- An authority of RocksDB stays. -/
def KeepsRocksdb (u v : World) : Prop :=
  ∀ a, u.backendAuthority = some a → a.isRocksdb → v.backendAuthority = some a

/-- What admissions leave alone: the state of the migration, an authority that is there, and the
    claims. -/
structure LeavesMigration (u v : World) : Prop where
  status : v.migrationStatus = u.migrationStatus
  checkpoint : ∀ db, v.checkpointOf db = u.checkpointOf db
  authority : ∀ a, u.backendAuthority = some a → v.backendAuthority = some a
  claims : claimState v.history = claimState u.history

theorem KeepsRocksdb.owned {u v : World} (h : KeepsRocksdb u v) (hu : u.OwnedByRocksdb) :
    v.OwnedByRocksdb := by
  obtain ⟨a, ha, hrocksdb⟩ := hu
  exact ⟨a, h a ha hrocksdb, hrocksdb⟩

theorem KeepsRocksdb.refl (u : World) : KeepsRocksdb u u := fun _ ha _ => ha

theorem KeepsRocksdb.trans {u v w : World} (h : KeepsRocksdb u v) (h' : KeepsRocksdb v w) :
    KeepsRocksdb u w := fun a ha hr => h' a (h a ha hr) hr

theorem LeavesMigration.keeps {u v : World} (h : LeavesMigration u v) : KeepsRocksdb u v :=
  fun a ha _ => h.authority a ha

theorem LeavesMigration.refl (u : World) : LeavesMigration u u :=
  ⟨rfl, fun _ => rfl, fun _ ha => ha, rfl⟩

theorem LeavesMigration.trans {u v w : World} (h : LeavesMigration u v)
    (h' : LeavesMigration v w) : LeavesMigration u w :=
  ⟨h'.status.trans h.status, fun db => (h'.checkpoint db).trans (h.checkpoint db),
    fun a ha => h'.authority a (h.authority a ha), h'.claims.trans h.claims⟩

/-- The callers: one maintenance call at a time, and any number of admissions. -/
inductive Party where
  | maintenance
  | admission (n : Nat)
deriving DecidableEq

def cutoverDiscipline : Discipline World Party where
  inv := CutoverInv
  promise := KeepsRocksdb
  rely
    | .maintenance => LeavesMigration
    | .admission _ => KeepsRocksdb
  promise_refl := KeepsRocksdb.refl
  rely_refl t s := by
    cases t
    · exact LeavesMigration.refl s
    · exact KeepsRocksdb.refl s
  rely_trans t s u v h h' := by
    cases t
    · exact LeavesMigration.trans h h'
    · exact KeepsRocksdb.trans h h'

theorem guar_maintenance {u v : World} (h : KeepsRocksdb u v) :
    cutoverDiscipline.guar .maintenance u v := by
  refine ⟨h, fun t' ht' => ?_⟩
  cases t' with
  | maintenance => exact absurd rfl ht'
  | admission n => exact h

theorem guar_admission {u v : World} (n : Nat) (h : LeavesMigration u v) :
    cutoverDiscipline.guar (.admission n) u v := by
  refine ⟨h.keeps, fun t' _ => ?_⟩
  cases t' with
  | maintenance => exact h
  | admission m => exact h.keeps

/-! ## Steps beside the deciding records -/

/-- The records that decide are the same, and the new events are ordinary. -/
structure Neutral (u v : World) : Prop where
  authority : v.backendAuthority = u.backendAuthority
  status : v.migrationStatus = u.migrationStatus
  checkpoint : ∀ db, v.checkpointOf db = u.checkpointOf db
  seals : ∀ db, v.sealOf db = u.sealOf db
  history : ∃ events, v.history = u.history ++ events ∧
    ∀ e ∈ events, e.isOrdinary = true ∧ e.isAdmission = false

namespace Neutral

variable {u v w : World}

theorem refl (u : World) : Neutral u u :=
  ⟨rfl, rfl, fun _ => rfl, fun _ => rfl, [], (List.append_nil _).symm, by simp⟩

/-- The keys of the deciding records. -/
def Deciding (k : Key) : Prop :=
  k = .migration .backendAuthority ∨ k = .migration .status ∨
    (∃ db, k = .migration (.checkpoint db)) ∨ ∃ db, k = .migration (.authority db)

theorem of_frame (hframe : ∀ k, Deciding k → v.get k = u.get k)
    (hhistory : ∃ events, v.history = u.history ++ events ∧
      ∀ e ∈ events, e.isOrdinary = true ∧ e.isAdmission = false) : Neutral u v :=
  ⟨hframe _ (Or.inl rfl), hframe _ (Or.inr (Or.inl rfl)),
    fun db => hframe _ (Or.inr (Or.inr (Or.inl ⟨db, rfl⟩))),
    fun db => hframe _ (Or.inr (Or.inr (Or.inr ⟨db, rfl⟩))), hhistory⟩

theorem of_changesOnly {K : Key → Prop} (h : World.ChangesOnly K u v)
    (hK : ∀ k, Deciding k → ¬ K k) : Neutral u v :=
  of_frame (fun k hk => h.frame k (hK k hk)) ⟨[], by rw [h.history, List.append_nil], by simp⟩

theorem ownedByRocksdb (h : Neutral u v) : v.OwnedByRocksdb ↔ u.OwnedByRocksdb := by
  rw [World.OwnedByRocksdb, h.authority]
  rfl

theorem ownedBySqlite (h : Neutral u v) : v.OwnedBySqlite ↔ u.OwnedBySqlite := by
  rw [World.OwnedBySqlite, h.authority]
  rfl

theorem claims (h : Neutral u v) : claimState v.history = claimState u.history := by
  obtain ⟨events, heq, hmem⟩ := h.history
  rw [heq]
  exact claimState_ordinary (fun e he => (hmem e he).1) _

theorem keeps (h : Neutral u v) : KeepsRocksdb u v := fun _ ha _ => h.authority.trans ha

theorem recopying (h : Neutral u v) (hu : u.Recopying) : v.Recopying := by
  obtain ⟨status, hstatus, hphase⟩ := hu.copying
  exact ⟨h.authority.trans hu.unowned, ⟨status, h.status.trans hstatus, hphase⟩,
    fun db cp hcp => hu.incomplete db cp ((h.checkpoint db).symm.trans hcp)⟩

theorem inv (h : Neutral u v) (hu : CutoverInv u) : CutoverInv v where
  sealed db _ ha := h.ownedByRocksdb.mpr (hu.sealed db _ ((h.seals db).symm.trans ha))
  claimed hc := h.ownedBySqlite.mpr (hu.claimed (h.claims.symm.trans hc))
  cleared hc := h.recopying (hu.cleared (h.claims.symm.trans hc))
  admitted := by
    rintro ⟨e, he, hadm⟩
    obtain ⟨events, heq, hmem⟩ := h.history
    rw [heq] at he
    rcases List.mem_append.mp he with he | he
    · exact h.ownedByRocksdb.mpr (hu.admitted ⟨e, he, hadm⟩)
    · rw [(hmem e he).2] at hadm
      cases hadm
  oneSource _ _ _ _ ha hb := hu.oneSource _ _ _ _
    ((h.checkpoint _).symm.trans ha) ((h.checkpoint _).symm.trans hb)
  respects := by
    obtain ⟨events, heq, hmem⟩ := h.history
    rw [heq]
    refine hu.respects.append (fun e he => (hmem e he).1) ?_
    rintro ⟨e, he, hadm⟩
    rw [(hmem e he).2] at hadm
    cases hadm

end Neutral

/-! ## Writing the state of a migration -/

/-- The checkpoint is incomplete and the status says that a copy is under way. -/
def Recopies (cp : Checkpoint) (status : MigrationStatus) : Prop :=
  cp.completed = false ∧ (status.phase = .offlineCopy ∨ status.phase = .blocked)

theorem run_clearSqliteClaim_ok {u t : World} {a : Unit} (h : clearSqliteClaim.run u = .ok (a, t)) :
    (u.OwnedBySqlite ∧ t = (u.remove (.migration .backendAuthority)).emit .claimCleared) ∨
      (¬ u.OwnedBySqlite ∧ t = u) := by
  simp only [clearSqliteClaim, Transaction.run_bind_eq_ok, Txn.run_get_eq_ok,
    Transaction.run_ofExcept_eq_ok, Prod.mk.injEq, Transaction.run_ite] at h
  obtain ⟨_, _, ⟨rfl, rfl⟩, authority, v, ⟨hauthority, rfl⟩, h⟩ := h
  have heq : authority = u.backendAuthority := by
    unfold backendAuthorityRecord at hauthority
    split at hauthority
    · cases hauthority
    · exact (Except.ok.inj hauthority).symm
  subst heq
  split at h
  · next hsqlite =>
    simp only [Transaction.run_bind_eq_ok, Txn.run_remove_eq_ok, Txn.run_emit_eq_ok,
      Prod.mk.injEq] at h
    obtain ⟨_, _, ⟨_, rfl⟩, _, rfl⟩ := h
    exact Or.inl ⟨(Option.any_eq_true _ _).mp hsqlite, rfl⟩
  · next hother =>
    obtain ⟨_, rfl⟩ := Prod.mk.inj (Transaction.run_pure_eq_ok.mp h)
    refine Or.inr ⟨fun howned => ?_, rfl⟩
    exact hother ((Option.any_eq_true _ _).mpr howned)

/-- What writing the state changes. -/
structure WritesMigration (cp : Checkpoint) (status : MigrationStatus) (events : List Event)
    (u t : World) : Prop where
  authority : t.backendAuthority = u.backendAuthority
  status : t.migrationStatus = some status
  checkpoint : t.checkpointOf cp.sourceDatabaseId = some cp
  checkpoints : ∀ db, db ≠ cp.sourceDatabaseId → t.checkpointOf db = u.checkpointOf db
  seals : ∀ db, t.sealOf db = u.sealOf db
  history : t.history = u.history ++ events

theorem run_writeState_ok {cp : Checkpoint} {status : MigrationStatus} {events : List Event}
    {u t : World} {a : Unit} (h : (writeState cp status events).run u = .ok (a, t)) :
    WritesMigration cp status events u t := by
  simp only [writeState, Transaction.run_bind_eq_ok, Txn.run_put_eq_ok, Prod.mk.injEq] at h
  obtain ⟨_, _, ⟨_, rfl⟩, _, _, ⟨_, rfl⟩, hemit⟩ := h
  obtain ⟨hget, hhistory, -⟩ := run_forEach_emit_ok hemit
  refine ⟨(hget _).trans ?_, (hget _).trans (World.get_put_self _ _ _), (hget _).trans ?_,
    fun db hdb => (hget _).trans ?_, fun db => (hget _).trans ?_, hhistory⟩
  · rw [World.get_put_of_ne (by simp), World.get_put_of_ne (by simp)]
    rfl
  · rw [World.get_put_of_ne (by simp)]
    exact World.get_put_self _ _ _
  · rw [World.get_put_of_ne (by simp), World.get_put_of_ne (by simpa using hdb)]
    rfl
  · rw [World.get_put_of_ne (by simp), World.get_put_of_ne (by simp)]
    rfl

namespace WritesMigration

variable {cp : Checkpoint} {status : MigrationStatus} {events : List Event} {u t : World}

theorem keeps (h : WritesMigration cp status events u t) : KeepsRocksdb u t :=
  fun _ ha _ => h.authority.trans ha

theorem owned (h : WritesMigration cp status events u t) : t.OwnedByRocksdb ↔ u.OwnedByRocksdb := by
  rw [World.OwnedByRocksdb, h.authority]
  rfl

theorem incomplete (h : WritesMigration cp status events u t) (hcp : cp.completed = false)
    (hu : ∀ db cp', u.checkpointOf db = some cp' → cp'.completed = false) :
    ∀ db cp', t.checkpointOf db = some cp' → cp'.completed = false := by
  intro db cp' hdb
  by_cases heq : db = cp.sourceDatabaseId
  · subst heq
    obtain rfl := Option.some.inj (h.checkpoint.symm.trans hdb)
    exact hcp
  · exact hu db cp' ((h.checkpoints db heq).symm.trans hdb)

/-- A state without a new claim or clearing is kept up when it is written. While a claim is
    cleared, what is written is either the end of a copy or the state of one under way. -/
theorem inv (h : WritesMigration cp status events u t) (hu : CutoverInv u) (hone : t.TracksOneSource)
    (hevents : events = [] ∨ events = [.copyCompleted])
    (hcleared : claimState u.history = .cleared →
      events = [.copyCompleted] ∨ Recopies cp status) : CutoverInv t := by
  have hadmission : ∀ e ∈ events, e.isAdmission = false := by
    rcases hevents with rfl | rfl <;> simp [Event.isAdmission]
  have hclaims : claimState t.history = claimState u.history ∨
      (events = [.copyCompleted] ∧ claimState t.history = .free) ∨
      (events = [.copyCompleted] ∧ claimState t.history = .claimed ∧
        claimState u.history = .claimed) := by
    rw [h.history, claimState_append]
    rcases hevents with rfl | rfl
    · exact Or.inl rfl
    · cases claimState u.history with
      | free => exact Or.inl rfl
      | claimed => exact Or.inr (Or.inr ⟨rfl, rfl, rfl⟩)
      | cleared => exact Or.inr (Or.inl ⟨rfl, rfl⟩)
  refine ⟨fun db a ha => h.owned.mpr (hu.sealed db a ((h.seals db).symm.trans ha)), fun hc => ?_,
    fun hc => ?_, ?_, hone, ?_⟩
  · have huc : claimState u.history = .claimed := by
      rcases hclaims with heq | ⟨_, heq⟩ | ⟨_, _, heq⟩
      · exact heq.symm.trans hc
      · rw [heq] at hc
        cases hc
      · exact heq
    obtain ⟨a, ha, hsqlite⟩ := hu.claimed huc
    exact ⟨a, h.authority.trans ha, hsqlite⟩
  · rcases hclaims with heq | ⟨_, heq⟩ | ⟨_, heq, _⟩
    · have huc := heq.symm.trans hc
      obtain ⟨hunowned, -, hincomplete⟩ := hu.cleared huc
      rcases hcleared huc with rfl | ⟨hcp, hphase⟩
      · rw [h.history, claimState_append, huc] at hc
        cases hc
      · exact ⟨h.authority.trans hunowned, ⟨status, h.status, hphase⟩, h.incomplete hcp hincomplete⟩
    · rw [heq] at hc
      cases hc
    · rw [heq] at hc
      cases hc
  · rintro ⟨e, he, hadm⟩
    rw [h.history] at he
    rcases List.mem_append.mp he with he | he
    · exact h.owned.mpr (hu.admitted ⟨e, he, hadm⟩)
    · rw [hadmission e he] at hadm
      cases hadm
  · rw [h.history]
    rcases hevents with rfl | rfl
    · rw [List.append_nil]
      exact hu.respects
    · exact hu.respects.snoc (fun hadm => by cases hadm) (fun heq => by cases heq)

end WritesMigration

/-- The end of a claim, with the state of the copy that ends it. -/
theorem CutoverInv.clearing {cp : Checkpoint} {status : MigrationStatus} {u t : World}
    (hu : CutoverInv u) (hsqlite : u.OwnedBySqlite) (hone : t.TracksOneSource)
    (hrecopies : Recopies cp status)
    (h : WritesMigration cp status [] ((u.remove (.migration .backendAuthority)).emit .claimCleared) t) :
    CutoverInv t := by
  have hnone : t.backendAuthority = none := h.authority.trans (World.get_remove_self _ _)
  have hhistory : t.history = u.history ++ [.claimCleared] := by
    rw [h.history, List.append_nil]
    rfl
  have hunadmitted : ¬ ∃ e ∈ t.history, e.isAdmission = true := by
    rintro ⟨e, he, hadm⟩
    rw [hhistory] at he
    rcases List.mem_append.mp he with he | he
    · exact (hu.admitted ⟨e, he, hadm⟩).not_sqlite hsqlite
    · rw [List.mem_singleton.mp he] at hadm
      cases hadm
  refine ⟨fun db a ha => ?_, fun hc => ?_, fun _ => ?_, fun hadm => absurd hadm hunadmitted, hone,
    ?_⟩
  · have hseal : u.sealOf db = some a := by
      rw [← ha, h.seals]
      exact (World.get_remove_of_ne (by simp) _).symm
    exact absurd hsqlite (hu.sealed db a hseal).not_sqlite
  · rw [hhistory, claimState_append] at hc
    cases hstate : claimState u.history <;> rw [hstate] at hc <;> cases hc
  · refine ⟨hnone, ⟨status, h.status, hrecopies.2⟩, fun db cp' hdb => ?_⟩
    obtain rfl := hone db cp.sourceDatabaseId cp' cp hdb h.checkpoint
    obtain rfl := Option.some.inj (h.checkpoint.symm.trans hdb)
    exact hrecopies.1
  · rw [hhistory]
    exact hu.respects.snoc (fun hadm => by cases hadm) (fun heq => by cases heq)

end ContextStore
