import ContextStore.Migration.CutoverRuns
import ContextStore.Store.Ledger

/-! # No write is lost in the cutover

Admissions are safe calls too, and the calls of a whole system add up: `cutover_is_safe`. A run in
which two databases are copied into one destination shows what its condition is for. -/

namespace ContextStore

open Concurrent

variable {codec : MigrationCodec} {α : Type}

/-! ## The system -/

section System

variable (codec)

/-- One maintenance call at a time, and any number of admissions, over a destination on which no
    migration and no admission has begun. -/
def cutoverSystem (allowed : World → Prop) : System World Party StoreError Unit where
  initial w := (∀ key, w.get (.migration key) = none) ∧ w.history = []
  calls
    | .maintenance, _, p =>
      (∃ around options, p = (startMigration codec around options).void) ∨
      (∃ around options, p = (verifyMigration codec around options verificationPageSize).void) ∨
      (∃ around path, p = (activateRocksBackend codec around path).void) ∨
      ∃ around path, p = (claimSqliteBackend codec around path).void
    | .admission _, _, p => ∃ around request options clock,
        p = (admitDocument codec.toAdmissionCodec (commitCanonicalAdmission codec around) request
          options clock).void
  allowed := allowed

end System

/-! ## Admissions -/

namespace SafeAdmission

variable {β : Type} {n : Nat} {s : World}

theorem bind {p : Prog α} {f : α → Prog β} {q : β → World → Prop} (mid : α → World → Prop)
    (h : SafeAdmission n p mid s) (hf : ∀ a t, mid a t → SafeAdmission n (f a) q t) :
    SafeAdmission n (p.bind f) q s :=
  Safe.seq mid h hf

theorem readsTo {r : α → Prop} {p : Prog α} (hp : p.ReadsTo r) :
    SafeAdmission n p (fun a _ => r a) s :=
  Safe.mono (Safe.of_readsTo (φ := fun _ => True) (cutoverDiscipline.guar_refl _)
    (fun _ _ _ _ => trivial) hp trivial) fun _ _ h => h.1

/-- Either attempt, whatever it does when its commit is rejected. -/
theorem gatedAttempt (around : Surroundings) {prepared : PreparedAdmission}
    (hsubject : prepared.state.SubjectOnly) (committedAt : Nat)
    {onError : AdmissionGate → StoreError → Prog CommitResult}
    (honError : ∀ gate error t, SafeAdmission n (onError gate error) (fun _ _ => True) t) :
    SafeAdmission n (gatedAttempt codec around prepared committedAt onError)
      (fun _ _ => True) s := by
  refine bind (fun gate t => GateSound gate t ∧ gate.Claims) ?_ fun gate t hgate => ?_
  · refine Safe.seqRequire fun _ => Safe.seqRequire fun _ =>
      bind (fun state t => ∀ found, state = .ok found → ∀ gate,
        admissionGate found prepared.request.idempotencyKey prepared.manifest.documentId
          (around.clock 0) = .ok gate → GateSound gate t ∧ gate.Claims)
        (Safe.read (cutoverDiscipline.guar_refl _) fun u _ hinv found hfound gate hgate =>
          gateSound hinv hfound hgate)
        fun state t hstate => Safe.seqOfExcept fun found hfound => Safe.ofExcept fun gate hgate =>
          hstate found hfound gate hgate
  · refine Safe.tryCatch (Safe.weaken ?_ fun r v (_ : OnOk (fun _ _ => True) r v) => ?_)
    · refine Safe.seqOfExcept fun commit hcommit => Safe.transaction
        (cutoverDiscipline.guar_refl _) (fun u result v hrely hinv _ hrun => ?_)
        fun _ _ _ _ _ => trivial
      rcases run_commitTransaction_ok (ordinary_gated hsubject hgate.2 hcommit) hrun with
        ⟨_, _, _, rfl, _⟩ | hcommits
      · exact ⟨hinv, cutoverDiscipline.guar_refl _ _, trivial⟩
      · have hsound : GateSound gate u ∨ u.OwnedByRocksdb := by
          rcases hgate.1 with howned | ⟨a, hmem, hready⟩
          · exact Or.inr (KeepsRocksdb.owned hrely howned)
          · exact Or.inl (.taking a hmem hready)
        obtain ⟨hinv', hleaves⟩ := gated_commit_ok hsubject hgate.2 hcommit hinv hsound hcommits
        exact ⟨hinv', guar_admission n hleaves, trivial⟩
    · cases r with
      | ok _ => trivial
      | error error => exact honError gate error v

theorem commitCanonicalAdmission (around : Nat → Surroundings) {prepared : PreparedAdmission}
    (hsubject : prepared.state.SubjectOnly) (committedAt : Nat) :
    SafeAdmission n (commitCanonicalAdmission codec around prepared committedAt)
      (fun _ _ => True) s := by
  refine gatedAttempt _ hsubject _ fun gate error t => ?_
  split
  · exact gatedAttempt _ hsubject _ fun _ _ _ => trivial
  · trivial

theorem admitDocument (around : Nat → Surroundings) (request : PutRequest)
    (options : AdmissionOptions) (clock : Nat → Nat) :
    SafeAdmission n (admitDocument codec.toAdmissionCodec
      (ContextStore.commitCanonicalAdmission codec around) request options clock)
      (fun _ _ => True) s := by
  have hcommit : ∀ (prepared : PreparedAdmission) (committedAt : Nat) (t : World),
      prepared.request = request ∧ prepared.state.SubjectOnly →
        SafeAdmission n (ContextStore.commitCanonicalAdmission codec around prepared committedAt)
          (fun _ _ => True) t :=
    fun prepared committedAt t h => commitCanonicalAdmission around h.2 committedAt
  refine Safe.seqOfExcept fun _ _ => bind _ (readsTo (readsTo_prepareAttempt request _ _ _))
    fun prepared t hprepared => bind (fun _ _ => True) ?_ fun _ _ _ => trivial
  refine Safe.tryCatch (Safe.weaken (hcommit prepared _ t hprepared) fun r v _ => ?_)
  cases r with
  | ok _ => trivial
  | error error =>
    dsimp only
    split
    · trivial
    · exact bind _ (readsTo (readsTo_prepareAttempt request _ _ _))
        fun prepared w h => hcommit prepared _ w h

/-- A call whose result does not matter. -/
theorem finished {p : Prog α} (h : SafeAdmission n p (fun _ _ => True) s) :
    cutoverDiscipline.SafeCall (cutoverSystem codec World.TracksOneSource) (.admission n) p.void
      (fun _ _ => True) s := by
  have hvoid : SafeAdmission n p.void (fun _ _ => True) s :=
    Safe.mapResult (Safe.mono h fun _ _ _ => trivial)
  exact Safe.weaken hvoid fun _ _ _ => trivial

end SafeAdmission

theorem SafeMaintenance.finished {p : Prog α} {s : World}
    (h : SafeMaintenance p (fun _ _ => True) s) :
    cutoverDiscipline.SafeCall (cutoverSystem codec World.TracksOneSource) .maintenance p.void
      (fun _ _ => True) s := by
  have hvoid : SafeMaintenance p.void (fun _ _ => True) s :=
    Safe.mapResult (Safe.mono h fun _ _ _ => trivial)
  exact Safe.weaken hvoid fun _ _ _ => trivial

/-! ## The promise -/

variable (codec)

/-- What the cutover promises of a configuration. -/
structure CutoverSafe (allowed : World → Prop)
    (c : Config World Party StoreError Unit) : Prop where
  /-- An authority of RocksDB never changes again. -/
  final : ∀ c', Relation.ReflTransGen (Step (cutoverSystem codec allowed)) c c' → ∀ a,
    c.shared.backendAuthority = some a → a.isRocksdb = true → c'.shared.backendAuthority = some a
  /-- An admitted document implies an authority of RocksDB. -/
  owned : ∀ e ∈ c.shared.history, e.isAdmission = true → c.shared.OwnedByRocksdb
  /-- Between an acknowledged claim of SQLite and a later admission, the claim is cleared and then
      a copy is completed. -/
  recopied : ∀ pre mid post e, c.shared.history = pre ++ .sqliteClaimed :: mid ++ e :: post →
    e.isAdmission = true → ∃ before between rest,
      mid = before ++ .claimCleared :: between ++ .copyCompleted :: rest
  /-- No claim of SQLite is acknowledged after an admission. -/
  unclaimed : ∀ pre mid post e, e.isAdmission = true →
    c.shared.history ≠ pre ++ e :: mid ++ .sqliteClaimed :: post

variable {codec}

theorem covers_cutover : cutoverDiscipline.Covers (cutoverSystem codec World.TracksOneSource)
    fun _ _ _ => True := by
  refine ⟨fun s hs => ?_, fun party s p _ hcall => ?_⟩
  · obtain ⟨hempty, hhistory⟩ := hs
    refine ⟨fun db a ha => ?_, fun hc => ?_, fun hc => ?_, ?_, fun a b cp cp' ha => ?_, ?_⟩
    · rw [World.sealOf, hempty] at ha
      cases ha
    · rw [hhistory] at hc
      cases hc
    · rw [hhistory] at hc
      cases hc
    · rintro ⟨e, he, _⟩
      rw [hhistory] at he
      cases he
    · rw [World.checkpointOf, hempty] at ha
      cases ha
    · rw [hhistory]
      exact respectsClaims_nil
  · cases party with
    | maintenance =>
      rcases hcall with ⟨around, options, rfl⟩ | ⟨around, options, rfl⟩ | ⟨around, path, rfl⟩ |
        ⟨around, path, rfl⟩
      · exact SafeMaintenance.finished (.startMigration around options)
      · exact SafeMaintenance.finished (.verifyMigration around options _)
      · exact SafeMaintenance.finished (.activateRocksBackend around path)
      · exact SafeMaintenance.finished (.claimSqliteBackend around path)
    | admission n =>
      obtain ⟨around, request, options, clock, rfl⟩ := hcall
      exact SafeAdmission.finished (.admitDocument around request options clock)

/-- As long as the destination tracks one source database at a time, in every run: an authority of
    RocksDB is final, every admission has one, admissions follow a claim of SQLite only once it is
    cleared and a copy has been completed since, and SQLite is never acknowledged after an
    admission. -/
theorem cutover_is_safe {c : Config World Party StoreError Unit}
    (hc : Reachable (cutoverSystem codec World.TracksOneSource) c) :
    CutoverSafe codec World.TracksOneSource c := by
  have hinv := cutoverDiscipline.invariant covers_cutover hc
  refine ⟨fun c' hrun => ?_, fun e he hadm => hinv.admitted ⟨e, he, hadm⟩,
    fun pre mid post e heq hadm => ?_, fun pre mid post e hadm heq => ?_⟩
  · suffices hkeeps : Reachable (cutoverSystem codec World.TracksOneSource) c' ∧
        KeepsRocksdb c.shared c'.shared from fun a ha hr => hkeeps.2 a ha hr
    induction hrun with
    | refl => exact ⟨hc, KeepsRocksdb.refl _⟩
    | tail _ hstep ih =>
      exact ⟨.step ih.1 hstep,
        ih.2.trans (cutoverDiscipline.promise_of_step covers_cutover ih.1 hstep)⟩
  · have hfree := hinv.respects.admitted _ e post heq hadm
    rw [claimState_append, List.foldl_cons] at hfree
    have hclaimed : (pre.foldl ClaimState.after .free).after .sqliteClaimed = .claimed := by
      cases pre.foldl ClaimState.after .free <;> rfl
    rw [show claimState pre = pre.foldl ClaimState.after .free from rfl, hclaimed] at hfree
    exact undone_of_free.1 hfree
  · have hnone := hinv.respects.claimed _ post heq e
      (List.mem_append_right _ List.mem_cons_self)
    rw [hadm] at hnone
    cases hnone

/-! ## Two runs -/

/-- The archive path holds the database with this inode. -/
def sampleSurroundings (inode : String) : Surroundings where
  files := fun _ => {
    openArchive := fun _ => some (emptySource inode)
    realPath := some
    fileExists := fun _ => true }
  clock := fun _ => 7

def sampleCopy (inode : String) : Prog Unit :=
  (startMigration sampleMigrationCodec (sampleSurroundings inode)
    { sourcePath := "archive.sqlite" }).void

def sampleVerify (inode : String) : Prog Unit :=
  (verifyMigration sampleMigrationCodec (sampleSurroundings inode)
    { sourcePath := some "archive.sqlite" } verificationPageSize).void

def sampleClaimSqlite : Prog Unit :=
  (claimSqliteBackend sampleMigrationCodec (sampleSurroundings "A") "archive.sqlite").void

def samplePut : PutRequest where
  idempotencyKey := "put"
  document := {
    documentId := "doc"
    version := 1
    sourceKey := "source"
    sessionId := "session"
    project := "project"
    kind := "manual"
    createdAt := 5
    text := [97] }
  retentionClass := "durable-evidence"

def sampleAdmission : Prog Unit :=
  (admitDocument sampleMigrationCodec.toAdmissionCodec
    (commitCanonicalAdmission sampleMigrationCodec fun _ => sampleSurroundings "A")
    samplePut {} fun _ => 9).void

/-- A first copy is interrupted, and another database at the same path is copied as far; then the
    first one is completed, verified and claimed for SQLite. An interrupted copy of the second ends
    the claim, and the first is verified again. -/
def swappedMoves : List (Move World Party StoreError Unit) :=
  Move.call .maintenance (sampleCopy "A") 5 ++ Move.call .maintenance (sampleCopy "B") 5 ++
    Move.call .maintenance (sampleCopy "A") 7 ++ Move.call .maintenance (sampleVerify "A") 7 ++
    Move.call .maintenance sampleClaimSqlite 4 ++ Move.call .maintenance (sampleCopy "B") 5 ++
    Move.call .maintenance (sampleVerify "A") 7 ++ Move.call (.admission 0) sampleAdmission 4

/-- The same with one database, whose copy is repeated after the claim. -/
def recopiedMoves : List (Move World Party StoreError Unit) :=
  Move.call .maintenance (sampleCopy "A") 5 ++ Move.call .maintenance (sampleCopy "A") 7 ++
    Move.call .maintenance (sampleVerify "A") 7 ++ Move.call .maintenance sampleClaimSqlite 4 ++
    Move.call .maintenance (sampleCopy "A") 7 ++ Move.call .maintenance (sampleVerify "A") 7 ++
    Move.call (.admission 0) sampleAdmission 4

def cutoverStart : Config World Party StoreError Unit := ⟨freshWorld, fun _ => none⟩

theorem cutoverStart_reachable (allowed : World → Prop) :
    Reachable (cutoverSystem sampleMigrationCodec allowed) cutoverStart :=
  .initial ⟨fun _ => World.get_put_of_ne (fun h => by cases h) ⟨KeyValue.Store.empty, 0, []⟩ _, rfl⟩

theorem sampleCalls {allowed : World → Prop} {moves : List (Move World Party StoreError Unit)}
    (hmoves : moves = swappedMoves ∨ moves = recopiedMoves) :
    ∀ t p, .start t p ∈ moves → ∀ s, (cutoverSystem sampleMigrationCodec allowed).calls t s p := by
  intro t p hp s
  have hcall : (∃ inode, t = .maintenance ∧ p = sampleCopy inode) ∨
      (∃ inode, t = .maintenance ∧ p = sampleVerify inode) ∨
      (t = .maintenance ∧ p = sampleClaimSqlite) ∨ (t = .admission 0 ∧ p = sampleAdmission) := by
    rcases hmoves with rfl | rfl <;>
      simp only [swappedMoves, recopiedMoves, Move.call, List.replicate, List.mem_append,
        List.mem_cons, Move.start.injEq, reduceCtorEq, or_false, List.not_mem_nil] at hp <;>
      grind
  rcases hcall with ⟨inode, rfl, rfl⟩ | ⟨inode, rfl, rfl⟩ | ⟨rfl, rfl⟩ | ⟨rfl, rfl⟩
  · exact Or.inl ⟨_, _, rfl⟩
  · exact Or.inr (Or.inl ⟨_, _, rfl⟩)
  · exact Or.inr (Or.inr (Or.inr ⟨_, _, rfl⟩))
  · exact ⟨_, _, _, _, rfl⟩

/-- The two databases are tracked at once, and the admission follows the claim without a copy
    completed in between. -/
theorem admission_after_claim_of_two_sources :
    Reachable (cutoverSystem sampleMigrationCodec fun _ => True)
      (cutoverStart.playAll swappedMoves) ∧
    ¬ CutoverSafe sampleMigrationCodec (fun _ => True) (cutoverStart.playAll swappedMoves) := by
  refine ⟨.playAll (cutoverStart_reachable _)
    (Config.playable_of_calls (fun _ => trivial) (sampleCalls (Or.inl rfl)) _), fun hsafe => ?_⟩
  have hhistory : ∃ mid e, (cutoverStart.playAll swappedMoves).shared.history =
      [.copyCompleted] ++ .sqliteClaimed :: mid ++ e :: [] ∧ e.isAdmission = true ∧
      .copyCompleted ∉ mid := by
    refine ⟨((cutoverStart.playAll swappedMoves).shared.history.drop 2).take 2,
      ((cutoverStart.playAll swappedMoves).shared.history.getD 4 .copyCompleted), ?_⟩
    decide +kernel
  obtain ⟨mid, e, heq, hadm, hnone⟩ := hhistory
  obtain ⟨before, between, rest, rfl⟩ := hsafe.recopied _ _ _ _ heq hadm
  exact hnone (by simp)

/-- The databases whose checkpoints are stored. -/
def trackedSources (w : World) : List String :=
  w.store.scan (fun k _ => match k with
    | .migration (.checkpoint db) => some db
    | _ => none) fun _ _ => True

theorem tracksOneSource_of_trackedSources {w : World}
    (h : ∀ a ∈ trackedSources w, ∀ b ∈ trackedSources w, a = b) : w.TracksOneSource := by
  intro a b cp cp' ha hb
  have hmem : ∀ c cp, w.checkpointOf c = some cp → c ∈ trackedSources w := fun c cp hc =>
    KeyValue.Store.mem_scan.mpr ⟨.migration (.checkpoint c), cp, hc, rfl⟩
  exact h a (hmem a cp ha) b (hmem b cp' hb)

/-- In the second run the admission comes after the completion of the second copy. -/
theorem cutover_is_safe_recopied :
    (∃ e ∈ (cutoverStart.playAll recopiedMoves).shared.history, e.isAdmission = true) ∧
    .sqliteClaimed ∈ (cutoverStart.playAll recopiedMoves).shared.history ∧
    CutoverSafe sampleMigrationCodec World.TracksOneSource
      (cutoverStart.playAll recopiedMoves) := by
  refine ⟨by decide +kernel, by decide +kernel, cutover_is_safe (.playAll
    (cutoverStart_reachable _) (Config.playable_of_states (sampleCalls (Or.inr rfl)) _ ?_))⟩
  intro c hc
  refine tracksOneSource_of_trackedSources ?_
  revert c
  decide +kernel

end ContextStore
