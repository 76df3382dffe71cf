import Mathlib.Data.List.AList
import Mathlib.Data.List.Sort

/-! # Typed key-value stores

A store holds finitely many keys, and the key fixes the type of the record stored under it
(`ρ : κ → Type`), so a record of one kind can never be read back as another. The carrier is
Mathlib's `AList`; the operations are named after what a database offers (point read, write,
removal, prefix scan), and every lemma about them is stated through `Store.get`. -/

namespace KeyValue

variable {κ : Type} [DecidableEq κ] {ρ : κ → Type}

/-- Finitely many keys, each with a record of the type the key fixes. -/
def Store (ρ : κ → Type) : Type := AList ρ

namespace Store

def empty : Store ρ := (∅ : AList ρ)

/-- The record under `k`, if there is one. -/
def get (s : Store ρ) (k : κ) : Option (ρ k) := AList.lookup k s

def has (s : Store ρ) (k : κ) : Bool := (s.get k).isSome

def put (s : Store ρ) (k : κ) (v : ρ k) : Store ρ := AList.insert k v s

def remove (s : Store ρ) (k : κ) : Store ρ := AList.erase k s

/-- The stored pairs that `select` accepts, sorted by `le`: a prefix scan, where `select`
    recognises the prefix and returns what the caller takes from key and record. -/
def scan {α : Type} (s : Store ρ) (select : (k : κ) → ρ k → Option α)
    (le : α → α → Prop) [DecidableRel le] : List α :=
  (AList.entries s |>.filterMap fun e => select e.1 e.2).insertionSort le

/-- Whether `select` accepts some stored pair. -/
def any (s : Store ρ) (select : (k : κ) → ρ k → Bool) : Bool :=
  (AList.entries s).any fun e => select e.1 e.2

/-! ## Point lemmas -/

@[simp] theorem get_empty (k : κ) : (empty : Store ρ).get k = none := rfl

@[simp] theorem get_put_self (s : Store ρ) (k : κ) (v : ρ k) : (s.put k v).get k = some v :=
  AList.lookup_insert s

@[simp] theorem get_put_of_ne {k k' : κ} (h : k' ≠ k) (s : Store ρ) (v : ρ k) :
    (s.put k v).get k' = s.get k' :=
  AList.lookup_insert_ne h

@[simp] theorem get_remove_self (s : Store ρ) (k : κ) : (s.remove k).get k = none :=
  AList.lookup_erase k s

@[simp] theorem get_remove_of_ne {k k' : κ} (h : k' ≠ k) (s : Store ρ) :
    (s.remove k).get k' = s.get k' :=
  AList.lookup_erase_ne h

theorem get_remove_eq_some_iff (s : Store ρ) (k k' : κ) (v' : ρ k') :
    (s.remove k).get k' = some v' ↔ k' ≠ k ∧ s.get k' = some v' := by
  by_cases h : k' = k
  · subst h
    simp
  · simp [h]

/-! ## Scans -/

/-- A scan returns what `select` accepts of the stored pairs, and nothing else. -/
theorem mem_scan {α : Type} {s : Store ρ} {select : (k : κ) → ρ k → Option α}
    {le : α → α → Prop} [DecidableRel le] {a : α} :
    a ∈ s.scan select le ↔ ∃ k v, s.get k = some v ∧ select k v = some a := by
  simp only [scan, List.mem_insertionSort, List.mem_filterMap, Sigma.exists]
  constructor
  · rintro ⟨k, v, hmem, hsel⟩
    exact ⟨k, v, AList.mem_lookup_iff.mpr hmem, hsel⟩
  · rintro ⟨k, v, hget, hsel⟩
    exact ⟨k, v, AList.mem_lookup_iff.mp hget, hsel⟩

theorem any_eq_true_iff {s : Store ρ} {select : (k : κ) → ρ k → Bool} :
    s.any select = true ↔ ∃ k v, s.get k = some v ∧ select k v = true := by
  simp only [any, List.any_eq_true, Sigma.exists]
  constructor
  · rintro ⟨k, v, hmem, hsel⟩
    exact ⟨k, v, AList.mem_lookup_iff.mpr hmem, hsel⟩
  · rintro ⟨k, v, hget, hsel⟩
    exact ⟨k, v, AList.mem_lookup_iff.mp hget, hsel⟩

end Store

end KeyValue
