import ContextStore.Foundation.KeyValue
import ContextStore.Foundation.Interleaving
import ContextStore.Store.Records

/-! # The shared state and its transaction view

`World` is what every call of the daemon shares: the store, and the supply of random identifiers.
Its `history` is a history variable: transactions append the events that the properties are about,
and no modelled function reads it. The second half of the file is the transaction view
(`StoreView` of the source): point reads and writes, immutable writes, scans and counters. -/

namespace ContextStore

open KeyValue Concurrent

/-! ## Errors -/

/-- What a call can throw: the error class of the source, with its message. -/
inductive StoreError where
  | typeError (message : String)
  | rangeError (message : String)
  | plain (message : String)
  /-- An `Error` with a `code` property. -/
  | coded (code message : String)
  | outboxIntegrity (message : String)
  | outboxClaim (message : String)
  | immutableRecordConflict (key : Key)
  | idempotencyConflict (requestId : String)
  | canonicalTransitionConflict (key : Key)
  | manifestIntegrity (message : String)
  | schemaCompatibility (message : String)
  | leaseTargetUnavailable (documentId : String) (documentVersion : Nat)
  | migrationBlocked (message : String)
  | migrationSourceMismatch (message : String)
  | migrationInterrupted (boundary : String)
  /-- The database gave up on an optimistic transaction. -/
  | busy
  /-- Not thrown by the source: the observation of an unbounded loop ends here, as by a crash. -/
  | unfinished
deriving DecidableEq

/-- The `code` property, where the class sets one that some caller looks at. -/
def StoreError.code : StoreError → Option String
  | .coded code _ => some code
  | .outboxIntegrity _ => some "ERR_ROCKSDB_OUTBOX_INTEGRITY"
  | .outboxClaim _ => some "ERR_ROCKSDB_OUTBOX_CLAIM"
  | .immutableRecordConflict _ => some "ERR_ROCKSDB_IMMUTABLE_CONFLICT"
  | .idempotencyConflict _ => some "ERR_ROCKSDB_IDEMPOTENCY_CONFLICT"
  | .canonicalTransitionConflict _ => some "CONFLICT"
  | .manifestIntegrity _ => some "ERR_ROCKSDB_MANIFEST_INTEGRITY"
  | .schemaCompatibility _ => some "ERR_ROCKSDB_SCHEMA_INCOMPATIBLE"
  | .leaseTargetUnavailable _ _ => some "ERR_RETRIEVAL_LEASE_TARGET_UNAVAILABLE"
  | .migrationBlocked _ => some "MIGRATION_BLOCKED"
  | .migrationSourceMismatch _ => some "MIGRATION_BLOCKED"
  | .migrationInterrupted _ => some "ERR_MIGRATION_INTERRUPTED"
  | _ => none

/-- `Number.MAX_SAFE_INTEGER` -/
def maxSafeInteger : Nat := 9007199254740991

/-! ## World -/

/-- What the history variable remembers of a run. -/
inductive Event where
  /-- A generation was published for an outbox sequence, under a claim token. -/
  | published (sequence generation : Nat) (claimToken : Uuid)
  /-- A commit took effect: its content, the document it admits and what it returned. -/
  | committed (content : List ContentEntry) (admission : Option DocumentIdentity)
      (result : CommitResult)
  /-- A document was admitted with this text: the manifest of an earlier version whose supersession
      was new, and whether the admission was prepared as a replay. -/
  | admitted (manifest : Manifest) (text : List UInt8) (retires : Option Manifest)
      (replayed : Bool)
  /-- A retrieval lease was created. -/
  | leased (leaseId : Uuid)
  /-- A supersession record was written. -/
  | tombstoned (documentId : String) (version : Nat)
  /-- A row of a source database was migrated. -/
  | migrated (sourceDatabaseId : String) (orderingKey : Nat)
  /-- SQLite was acknowledged as the backend. -/
  | sqliteClaimed
  /-- An offline copy removed the claim of SQLite. -/
  | claimCleared
  /-- An offline copy was marked as complete. -/
  | copyCompleted
deriving DecidableEq

structure World where
  store : Store Key.Record
  uuids : Nat
  history : List Event

abbrev Txn (α : Type) : Type := Transaction World StoreError α

abbrev Prog (α : Type) : Type := Program World StoreError α

namespace World

def get (w : World) (k : Key) : Option k.Record := w.store.get k

def put (w : World) (k : Key) (v : k.Record) : World := { w with store := w.store.put k v }

def remove (w : World) (k : Key) : World := { w with store := w.store.remove k }

def emit (w : World) (e : Event) : World := { w with history := w.history ++ [e] }

variable (w : World) (k k' : Key) (v : k.Record) (e : Event)

@[simp] theorem get_put_self : (w.put k v).get k = some v := Store.get_put_self _ _ _

@[simp] theorem get_put_of_ne {k k' : Key} (h : k' ≠ k) (w : World) (v : k.Record) :
    (w.put k v).get k' = w.get k' := Store.get_put_of_ne h _ _

@[simp] theorem get_remove_self : (w.remove k).get k = none := Store.get_remove_self _ _

@[simp] theorem get_remove_of_ne {k k' : Key} (h : k' ≠ k) (w : World) :
    (w.remove k).get k' = w.get k' := Store.get_remove_of_ne h _

@[simp] theorem get_emit : (w.emit e).get k = w.get k := rfl

@[simp] theorem history_put : (w.put k v).history = w.history := rfl

@[simp] theorem history_remove : (w.remove k).history = w.history := rfl

@[simp] theorem history_emit : (w.emit e).history = w.history ++ [e] := rfl

@[simp] theorem uuids_put : (w.put k v).uuids = w.uuids := rfl

@[simp] theorem uuids_remove : (w.remove k).uuids = w.uuids := rfl

@[simp] theorem uuids_emit : (w.emit e).uuids = w.uuids := rfl

theorem get_remove_eq_some_iff {k k' : Key} {v : k'.Record} {w : World} :
    (w.remove k).get k' = some v ↔ k' ≠ k ∧ w.get k' = some v :=
  Store.get_remove_eq_some_iff _ _ _ _

/-- Only keys in `K` differ between two states, and nothing outside the store. -/
structure ChangesOnly (K : Key → Prop) (u t : World) : Prop where
  frame : ∀ k, ¬ K k → t.get k = u.get k
  history : t.history = u.history
  uuids : t.uuids = u.uuids

namespace ChangesOnly

variable {K K' : Key → Prop} {u v t : World}

theorem refl (K : Key → Prop) (u : World) : ChangesOnly K u u := ⟨fun _ _ => rfl, rfl, rfl⟩

theorem trans (h : ChangesOnly K u v) (h' : ChangesOnly K v t) : ChangesOnly K u t :=
  ⟨fun k hk => (h'.frame k hk).trans (h.frame k hk), h'.history.trans h.history,
    h'.uuids.trans h.uuids⟩

theorem mono (h : ChangesOnly K u t) (hK : ∀ k, K k → K' k) : ChangesOnly K' u t :=
  ⟨fun k hk => h.frame k fun hk' => hk (hK k hk'), h.history, h.uuids⟩

theorem put {k : Key} (hk : K k) (u : World) (v : k.Record) : ChangesOnly K u (u.put k v) :=
  ⟨fun _ hk' => get_put_of_ne (by rintro rfl; exact hk' hk) _ _, rfl, rfl⟩

theorem remove {k : Key} (hk : K k) (u : World) : ChangesOnly K u (u.remove k) :=
  ⟨fun _ hk' => get_remove_of_ne (by rintro rfl; exact hk' hk) _, rfl, rfl⟩

end ChangesOnly

/-- Write a list of entries, in order. -/
def putAll (w : World) (entries : List Entry) : World :=
  entries.foldl (fun w entry => w.put entry.1 entry.2) w

theorem get_putAll_of_not_mem {entries : List Entry} {k : Key} (h : ∀ v, ⟨k, v⟩ ∉ entries)
    (w : World) : (w.putAll entries).get k = w.get k := by
  induction entries generalizing w with
  | nil => rfl
  | cons entry rest ih =>
    have hne : k ≠ entry.1 := by
      rintro rfl
      exact h entry.2 List.mem_cons_self
    exact (ih (fun v hv => h v (List.mem_cons_of_mem _ hv)) _).trans (get_put_of_ne hne _ _)

/-- What is under a written key afterwards is what some entry of the list wrote there. -/
theorem get_putAll_of_mem {entries : List Entry} {k : Key} {v : k.Record}
    (h : ⟨k, v⟩ ∈ entries) (w : World) :
    ∃ v', ⟨k, v'⟩ ∈ entries ∧ (w.putAll entries).get k = some v' := by
  induction entries generalizing v w with
  | nil => cases h
  | cons entry rest ih =>
    by_cases hrest : ∃ v', ⟨k, v'⟩ ∈ rest
    · obtain ⟨v', hv'⟩ := hrest
      obtain ⟨found, hmem, hget⟩ := ih hv' (w.put entry.1 entry.2)
      exact ⟨found, List.mem_cons_of_mem _ hmem, hget⟩
    · have hnone : ∀ v', ⟨k, v'⟩ ∉ rest := fun v' hv' => hrest ⟨v', hv'⟩
      rcases List.mem_cons.mp h with rfl | hmem
      · exact ⟨v, List.mem_cons_self, (get_putAll_of_not_mem hnone _).trans (get_put_self _ _ _)⟩
      · exact absurd hmem (hnone v)

theorem putAll_changesOnly {K : Key → Prop} {entries : List Entry}
    (h : ∀ entry ∈ entries, K entry.1) (w : World) : ChangesOnly K w (w.putAll entries) := by
  induction entries generalizing w with
  | nil => exact .refl K w
  | cons entry rest ih =>
    exact (ChangesOnly.put (h _ List.mem_cons_self) w _).trans
      (ih (fun e he => h e (List.mem_cons_of_mem _ he)) _)

def removeAll (w : World) (keys : List Key) : World := keys.foldl remove w

@[simp] theorem removeAll_nil (w : World) : w.removeAll [] = w := rfl

theorem removeAll_append (w : World) (keys keys' : List Key) :
    w.removeAll (keys ++ keys') = (w.removeAll keys).removeAll keys' := List.foldl_append

@[simp] theorem get_removeAll_of_not_mem {keys : List Key} {k : Key} (h : k ∉ keys) (w : World) :
    (w.removeAll keys).get k = w.get k := by
  induction keys generalizing w with
  | nil => rfl
  | cons key rest ih =>
    have hne : k ≠ key := fun heq => h (heq ▸ List.mem_cons_self)
    exact (ih (fun hk => h (List.mem_cons_of_mem _ hk)) _).trans (get_remove_of_ne hne _)

@[simp] theorem get_removeAll_of_mem {keys : List Key} {k : Key} (h : k ∈ keys) (w : World) :
    (w.removeAll keys).get k = none := by
  induction keys generalizing w with
  | nil => cases h
  | cons key rest ih =>
    by_cases hrest : k ∈ rest
    · exact ih hrest _
    · obtain rfl : k = key := (List.mem_cons.mp h).resolve_right hrest
      exact (get_removeAll_of_not_mem hrest _).trans (get_remove_self _ _)

theorem get_removeAll (w : World) (keys : List Key) (k : Key) :
    (w.removeAll keys).get k = if k ∈ keys then none else w.get k := by
  split
  · next h => exact get_removeAll_of_mem h w
  · next h => exact get_removeAll_of_not_mem h w

theorem removeAll_changesOnly {K : Key → Prop} {keys : List Key} (h : ∀ k ∈ keys, K k)
    (w : World) : ChangesOnly K w (w.removeAll keys) := by
  induction keys generalizing w with
  | nil => exact .refl K w
  | cons key rest ih =>
    exact (ChangesOnly.remove (h _ List.mem_cons_self) w).trans
      (ih (fun k hk => h k (List.mem_cons_of_mem _ hk)) _)

end World

/-- `store.get`: a point read outside any transaction. -/
def Prog.get (k : Key) : Prog (Option k.Record) := Program.read (·.get k)

/-! ## The transaction view -/

/-- What an immutable write reports. -/
inductive PutStatus where
  | inserted
  | unchanged
deriving DecidableEq

namespace Txn

def get (k : Key) : Txn (Option k.Record) := fun w => .ok (w.get k, w)

def put (k : Key) (v : k.Record) : Txn Unit := fun w => .ok ((), w.put k v)

def remove (k : Key) : Txn Unit := fun w => .ok ((), w.remove k)

/-- Write a record that must not change once written. -/
def putImmutable (k : Key) (v : k.Record) : Txn PutStatus := fun w =>
  match w.get k with
  | none => .ok (.inserted, w.put k v)
  | some current =>
    if current = v then .ok (.unchanged, w) else .error (.immutableRecordConflict k)

/-- The value of a counter; an unwritten one is 0. -/
def increment (name : CounterKey) : Txn Nat := do
  let current ← get (.counter name)
  let value := current.getD 0 + 1
  Transaction.require (value ≤ maxSafeInteger) (.rangeError "Counter overflowed.")
  put (.counter name) value
  return value

def randomUUID : Txn Uuid := fun w => .ok (⟨w.uuids⟩, { w with uuids := w.uuids + 1 })

/-- Append to the history variable. -/
def emit (e : Event) : Txn Unit := fun w => .ok ((), w.emit e)

variable {w : World} {k : Key} {v : k.Record}

-- The record type is kept out of the index: at a concrete key it is already reduced.
@[simp] theorem run_get_eq_ok {p : Option k.Record × World} :
    @Eq (no_index (Except StoreError (Option k.Record × World)))
        (@Transaction.run _ _ (no_index (Option k.Record)) (get k) w)
        (@Except.ok _ (no_index (Option k.Record × World)) p) ↔ (w.get k, w) = p :=
  Except.ok.injEq (w.get k, w) p ▸ Iff.rfl

@[simp] theorem run_put_eq_ok {p : Unit × World} : (put k v).run w = .ok p ↔ ((), w.put k v) = p :=
  Except.ok.injEq ((), w.put k v) p ▸ Iff.rfl

@[simp] theorem run_remove_eq_ok {p : Unit × World} :
    (remove k).run w = .ok p ↔ ((), w.remove k) = p :=
  Except.ok.injEq ((), w.remove k) p ▸ Iff.rfl

@[simp] theorem run_emit_eq_ok {e : Event} {p : Unit × World} :
    (emit e).run w = .ok p ↔ ((), w.emit e) = p :=
  Except.ok.injEq ((), w.emit e) p ▸ Iff.rfl

@[simp] theorem run_randomUUID_eq_ok {p : Uuid × World} :
    randomUUID.run w = .ok p ↔ (⟨w.uuids⟩, { w with uuids := w.uuids + 1 }) = p :=
  Except.ok.injEq (_, { w with uuids := w.uuids + 1 }) p ▸ Iff.rfl

/-- An immutable write inserts under an absent key, leaves an equal record, and throws otherwise. -/
theorem run_putImmutable_eq_ok {p : PutStatus × World} :
    (putImmutable k v).run w = .ok p ↔
      (w.get k = none ∧ p = (.inserted, w.put k v)) ∨ (w.get k = some v ∧ p = (.unchanged, w)) := by
  unfold putImmutable Transaction.run
  cases hk : w.get k with
  | none =>
    simp only [hk, Except.ok.injEq, true_and, reduceCtorEq, false_and, or_false]
    exact eq_comm
  | some current =>
    by_cases hv : current = v
    · simp only [hk, hv, if_true, Except.ok.injEq, true_and, reduceCtorEq, false_and, false_or]
      exact eq_comm
    · simp [hk, hv]

/-- After an immutable write the record is there, whether or not it was before. -/
theorem get_of_putImmutable {status : PutStatus} {w' : World}
    (h : (putImmutable k v).run w = .ok (status, w')) : w'.get k = some v := by
  rcases run_putImmutable_eq_ok.mp h with ⟨_, heq⟩ | ⟨hk, heq⟩
  · obtain ⟨rfl, rfl⟩ := Prod.mk.inj heq
    exact World.get_put_self _ _ _
  · obtain ⟨rfl, rfl⟩ := Prod.mk.inj heq
    exact hk

/-- An immutable write touches no other key, nor anything outside the store. -/
theorem frame_of_putImmutable {status : PutStatus} {w' : World}
    (h : (putImmutable k v).run w = .ok (status, w')) :
    (∀ k', k' ≠ k → w'.get k' = w.get k') ∧ w'.history = w.history ∧ w'.uuids = w.uuids := by
  rcases run_putImmutable_eq_ok.mp h with ⟨_, heq⟩ | ⟨_, heq⟩
  · obtain ⟨rfl, rfl⟩ := Prod.mk.inj heq
    exact ⟨fun k' hk' => World.get_put_of_ne hk' _ _, rfl, rfl⟩
  · obtain ⟨rfl, rfl⟩ := Prod.mk.inj heq
    exact ⟨fun _ _ => rfl, rfl, rfl⟩

theorem changesOnly_of_putImmutable {K : Key → Prop} {status : PutStatus} {w' : World} (hk : K k)
    (h : (putImmutable k v).run w = .ok (status, w')) : World.ChangesOnly K w w' := by
  obtain ⟨hframe, hhistory, huuids⟩ := frame_of_putImmutable h
  exact ⟨fun k' hk' => hframe k' (by rintro rfl; exact hk' hk), hhistory, huuids⟩

theorem run_forEach_remove {β : Type} (key : β → Key) (l : List β) (w : World) :
    (Transaction.forEach (fun b => remove (key b)) l).run w =
      .ok ((), w.removeAll (l.map key)) := by
  induction l generalizing w with
  | nil => rfl
  | cons b rest ih => exact ih (w.remove (key b))

@[simp] theorem run_forEach_remove_eq_ok {β : Type} {key : β → Key} {l : List β}
    {p : Unit × World} :
    (Transaction.forEach (fun b => remove (key b)) l).run w = .ok p ↔
      ((), w.removeAll (l.map key)) = p := by
  rw [run_forEach_remove, Except.ok.injEq]

theorem run_forEach_put {β : Type} (key : β → Key) (value : (b : β) → (key b).Record)
    (l : List β) (w : World) :
    (Transaction.forEach (fun b => put (key b) (value b)) l).run w =
      .ok ((), w.putAll (l.map fun b => ⟨key b, value b⟩)) := by
  induction l generalizing w with
  | nil => rfl
  | cons b rest ih => exact ih (w.put (key b) (value b))

/-- A loop of writes. -/
@[simp] theorem run_forEach_put_eq_ok {β : Type} {key : β → Key}
    {value : (b : β) → (key b).Record} {l : List β} {p : Unit × World} :
    (Transaction.forEach (fun b => put (key b) (value b)) l).run w = .ok p ↔
      ((), w.putAll (l.map fun b => ⟨key b, value b⟩)) = p := by
  rw [run_forEach_put, Except.ok.injEq]

@[simp] theorem run_increment_eq_ok {name : CounterKey} {p : Nat × World} :
    (increment name).run w = .ok p ↔ (w.get (.counter name)).getD 0 + 1 ≤ maxSafeInteger ∧
        ((w.get (.counter name)).getD 0 + 1,
          w.put (.counter name) ((w.get (.counter name)).getD 0 + 1)) = p := by
  simp [increment]

end Txn

end ContextStore
