import ContextStore.Foundation.Totals
import Mathlib.Data.List.Nodup

/-! # Maps that keep the order of insertion

A map whose entries are visited in the order in which their keys were first set: setting a present
key keeps its place. -/

structure InsertionMap (κ ν : Type) where
  entries : List (κ × ν)
  distinct : (entries.map Prod.fst).Nodup

namespace InsertionMap

variable {κ ν : Type} [DecidableEq κ]

def empty : InsertionMap κ ν := ⟨[], List.nodup_nil⟩

def get (m : InsertionMap κ ν) (k : κ) : Option ν := m.entries.lookup k

/-- The entries with `k` set to `v`, at its place or at the end. -/
def setEntry (k : κ) (v : ν) : List (κ × ν) → List (κ × ν)
  | [] => [(k, v)]
  | e :: rest => if e.1 = k then (k, v) :: rest else e :: setEntry k v rest

variable {m : InsertionMap κ ν} {l : List (κ × ν)} {k : κ} {v : ν}

theorem mem_setEntry_keys {k' : κ} :
    k' ∈ (setEntry k v l).map Prod.fst ↔ k' = k ∨ k' ∈ l.map Prod.fst := by
  induction l with
  | nil => simp [setEntry]
  | cons e l ih =>
    rw [setEntry]
    split
    · rename_i he
      simp [he]
    · rw [List.map_cons, List.mem_cons, ih, List.map_cons, List.mem_cons, or_left_comm]

theorem nodup_setEntry (h : (l.map Prod.fst).Nodup) : ((setEntry k v l).map Prod.fst).Nodup := by
  induction l with
  | nil => simp [setEntry]
  | cons e l ih =>
    rw [List.map_cons, List.nodup_cons] at h
    rw [setEntry]
    split
    · rename_i he
      rw [List.map_cons, List.nodup_cons, ← he]
      exact h
    · rename_i he
      rw [List.map_cons, List.nodup_cons, mem_setEntry_keys, not_or]
      exact ⟨⟨he, h.1⟩, ih h.2⟩

def set (m : InsertionMap κ ν) (k : κ) (v : ν) : InsertionMap κ ν :=
  ⟨setEntry k v m.entries, nodup_setEntry m.distinct⟩

def delete (m : InsertionMap κ ν) (k : κ) : InsertionMap κ ν :=
  ⟨m.entries.filter fun e => e.1 ≠ k, (List.filter_sublist.map Prod.fst).nodup m.distinct⟩

theorem lookup_eq_some_iff (h : (l.map Prod.fst).Nodup) : l.lookup k = some v ↔ (k, v) ∈ l := by
  induction l with
  | nil => simp
  | cons e l ih =>
    rw [List.map_cons, List.nodup_cons] at h
    obtain ⟨k', v'⟩ := e
    rw [List.lookup_cons, List.mem_cons, Prod.mk.injEq]
    by_cases hk : k = k'
    · subst hk
      have habsent : (k, v) ∉ l := fun hmem => h.1 (List.mem_map.mpr ⟨_, hmem, rfl⟩)
      simp [habsent, eq_comm]
    · rw [beq_false_of_ne hk]
      simp only [ih h.2, hk, false_and, false_or]

theorem get_eq_some_iff :
    m.get k = some v ↔ (k, v) ∈ m.entries := lookup_eq_some_iff m.distinct

@[simp]
theorem get_empty (k : κ) : (empty : InsertionMap κ ν).get k = none := rfl

@[simp]
theorem get_set_self (m : InsertionMap κ ν) (k : κ) (v : ν) : (m.set k v).get k = some v := by
  rw [get_eq_some_iff]
  show (k, v) ∈ setEntry k v m.entries
  induction m.entries with
  | nil => simp [setEntry]
  | cons e l ih =>
    rw [setEntry]
    split
    · exact List.mem_cons_self
    · exact List.mem_cons_of_mem _ ih

theorem get_set_of_ne (m : InsertionMap κ ν) {k' : κ} (v : ν) (h : k' ≠ k) :
    (m.set k v).get k' = m.get k' := by
  show (setEntry k v m.entries).lookup k' = m.entries.lookup k'
  induction m.entries with
  | nil => simp [setEntry, List.lookup_cons, beq_false_of_ne h]
  | cons e l ih =>
    rw [setEntry]
    split
    · rename_i he
      rw [List.lookup_cons, List.lookup_cons, he, beq_false_of_ne h]
    · rw [List.lookup_cons, List.lookup_cons, ih]

theorem get_set (m : InsertionMap κ ν) (k k' : κ) (v : ν) :
    (m.set k v).get k' = if k' = k then some v else m.get k' := by
  split
  · rename_i h
    rw [h, get_set_self]
  · rename_i h
    exact get_set_of_ne m v h

theorem get_delete (m : InsertionMap κ ν) (k k' : κ) :
    (m.delete k).get k' = if k' = k then none else m.get k' := by
  have hmem : ∀ v, (m.delete k).get k' = some v ↔ k' ≠ k ∧ m.get k' = some v := by
    intro v
    rw [get_eq_some_iff, get_eq_some_iff, delete, List.mem_filter, decide_eq_true_eq, and_comm]
  split
  · rename_i h
    rw [Option.eq_none_iff_forall_ne_some]
    intro v hv
    exact ((hmem v).mp hv).1 h
  · rename_i h
    apply Option.ext
    intro v
    rw [hmem v]
    exact and_iff_right h

/-! ## Values and amounts -/

def values (m : InsertionMap κ ν) : List ν := m.entries.map Prod.snd

def total (amount : ν → Int) (m : InsertionMap κ ν) : Int := Totals.total amount m.values

omit [DecidableEq κ] in
@[simp]
theorem values_empty : (empty : InsertionMap κ ν).values = [] := rfl

theorem mem_values : v ∈ m.values ↔ ∃ k, m.get k = some v := by
  simp only [values, List.mem_map, get_eq_some_iff]
  constructor
  · rintro ⟨e, he, rfl⟩
    exact ⟨e.1, he⟩
  · rintro ⟨k, hk⟩
    exact ⟨(k, v), hk, rfl⟩

theorem setEntry_of_notMem (h : k ∉ l.map Prod.fst) (v : ν) : setEntry k v l = l ++ [(k, v)] := by
  induction l with
  | nil => rfl
  | cons e rest ih =>
    rw [List.map_cons, List.mem_cons, not_or] at h
    rw [setEntry, if_neg (Ne.symm h.1), ih h.2, List.cons_append]

/-- A new key comes last. -/
theorem values_set_of_none (h : m.get k = none) (v : ν) : (m.set k v).values = m.values ++ [v] := by
  have hnot : k ∉ m.entries.map Prod.fst := by
    intro hmem
    obtain ⟨e, he, rfl⟩ := List.mem_map.mp hmem
    rw [(get_eq_some_iff (v := e.2)).mpr he] at h
    cases h
  show (setEntry k v m.entries).map Prod.snd = m.entries.map Prod.snd ++ [v]
  rw [setEntry_of_notMem hnot, List.map_append, List.map_singleton]

theorem length_setEntry_of_lookup (h : l.lookup k = some v) (v' : ν) :
    (setEntry k v' l).length = l.length := by
  induction l with
  | nil => cases h
  | cons e rest ih =>
    rw [setEntry]
    split
    · rfl
    · next hne =>
      rw [List.lookup_cons, beq_false_of_ne (Ne.symm hne)] at h
      rw [List.length_cons, List.length_cons, ih h]

/-- A key that is there gets no second value. -/
theorem length_values_set_of_some (h : m.get k = some v) (v' : ν) :
    (m.set k v').values.length = m.values.length := by
  show ((setEntry k v' m.entries).map Prod.snd).length = (m.entries.map Prod.snd).length
  rw [List.length_map, List.length_map, length_setEntry_of_lookup h]

theorem total_setEntry (amount : ν → Int) (k : κ) (v : ν) (l : List (κ × ν)) :
    Totals.total amount ((setEntry k v l).map Prod.snd) =
      Totals.total amount (l.map Prod.snd) - ((l.lookup k).map amount).getD 0 + amount v := by
  induction l with
  | nil => simp [setEntry]
  | cons e rest ih =>
    by_cases he : e.1 = k
    · have hlookup : (e :: rest).lookup k = some e.2 := by
        rw [List.lookup_cons, he, beq_self_eq_true]
      rw [setEntry, if_pos he, hlookup]
      simp only [List.map_cons, Totals.total_cons, Option.map_some, Option.getD_some]
      omega
    · have hlookup : (e :: rest).lookup k = rest.lookup k := by
        rw [List.lookup_cons, beq_false_of_ne (Ne.symm he)]
      rw [setEntry, if_neg he, hlookup]
      simp only [List.map_cons, Totals.total_cons, ih]
      omega

theorem total_set (amount : ν → Int) (m : InsertionMap κ ν) (k : κ) (v : ν) :
    (m.set k v).total amount = m.total amount - ((m.get k).map amount).getD 0 + amount v :=
  total_setEntry amount k v m.entries

theorem total_filter {amount : ν → Int} (h : (l.map Prod.fst).Nodup) (k : κ) :
    Totals.total amount ((l.filter fun e => e.1 ≠ k).map Prod.snd) =
      Totals.total amount (l.map Prod.snd) - ((l.lookup k).map amount).getD 0 := by
  induction l with
  | nil => simp
  | cons e rest ih =>
    rw [List.map_cons, List.nodup_cons] at h
    by_cases he : e.1 = k
    · have hrest : (rest.filter fun e => e.1 ≠ k) = rest := by
        refine List.filter_eq_self.mpr fun other hother => decide_eq_true ?_
        rintro rfl
        exact h.1 (he ▸ List.mem_map_of_mem hother)
      rw [List.filter_cons_of_neg (by simp [he]), hrest, List.lookup_cons, he, beq_self_eq_true]
      simp
    · rw [List.filter_cons_of_pos (by simp [he]), List.lookup_cons, beq_false_of_ne (Ne.symm he)]
      simp only [List.map_cons, Totals.total_cons, ih h.2]
      omega

theorem total_delete (amount : ν → Int) (m : InsertionMap κ ν) (k : κ) :
    (m.delete k).total amount = m.total amount - ((m.get k).map amount).getD 0 :=
  total_filter m.distinct k

theorem le_total {amount : ν → Int} (hamount : ∀ v, 0 ≤ amount v) (h : m.get k = some v) :
    amount v ≤ m.total amount :=
  Totals.le_total (fun v _ => hamount v) (mem_values.mpr ⟨k, h⟩)

end InsertionMap
