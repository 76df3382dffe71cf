import ContextStore.Foundation.KeyValue
import Mathlib.Data.List.Lex

/-! # Scans in key order

A database returns the stored pairs of a range in the order of their encoded keys, and a caller
pages through a range by asking for what comes after the last key it has seen. When no two stored
keys have one encoding, such a list is determined by its members, so resuming after a key gives
what is left of the list behind it, whatever was removed before that key. -/

namespace KeyValue

variable {κ : Type} [DecidableEq κ] {ρ : κ → Type} {β : Type} [LinearOrder β]

namespace Store

/-- The stored pairs whose key is in the range and comes after `after`, in the order of `bytes`. -/
def entriesAfter (s : Store ρ) (bytes : κ → β) (inRange : κ → Bool) (after : Option κ) :
    List (Sigma ρ) :=
  s.scan (fun k v => if inRange k && after.all fun a => decide (bytes a < bytes k)
    then some ⟨k, v⟩ else none) fun a b => bytes a.1 ≤ bytes b.1

def KeysDistinct (s : Store ρ) (bytes : κ → β) : Prop :=
  ∀ k k' v v', s.get k = some v → s.get k' = some v' → bytes k = bytes k' → k = k'

variable {s : Store ρ} {bytes : κ → β} {inRange : κ → Bool} {after : Option κ}

theorem mem_entriesAfter {e : Sigma ρ} : e ∈ s.entriesAfter bytes inRange after ↔
    s.get e.1 = some e.2 ∧ inRange e.1 = true ∧ ∀ a, after = some a → bytes a < bytes e.1 := by
  obtain ⟨k, v⟩ := e
  simp only [entriesAfter, mem_scan, Option.ite_none_right_eq_some, Option.some.injEq,
    Bool.and_eq_true, Option.all_eq_true, decide_eq_true_eq]
  constructor
  · rintro ⟨k', v', hget, ⟨hrange, hafter⟩, heq⟩
    cases heq
    exact ⟨hget, hrange, hafter⟩
  · rintro ⟨hget, hrange, hafter⟩
    exact ⟨k, v, hget, ⟨hrange, hafter⟩, rfl⟩

/-- Ascending in the encoding of the key. -/
def Ascending (bytes : κ → β) (l : List (Sigma ρ)) : Prop :=
  l.Pairwise fun a b => bytes a.1 < bytes b.1

/-- A scan whose results tell their keys apart ascends strictly. -/
theorem pairwise_scan_lt {α γ : Type} [LinearOrder γ] (order : α → γ)
    {select : (k : κ) → ρ k → Option α}
    (h : ∀ k v k' v' a a', s.get k = some v → s.get k' = some v' → select k v = some a →
      select k' v' = some a' → order a = order a' → k = k') :
    (s.scan select fun a b => order a ≤ order b).Pairwise fun a b => order a < order b := by
  have hsorted : (s.scan select fun a b => order a ≤ order b).Pairwise
      fun a b => order a ≤ order b := by
    have : Std.Total fun a b : α => order a ≤ order b := ⟨fun a b => le_total (order a) (order b)⟩
    have : IsTrans α fun a b => order a ≤ order b := ⟨fun _ _ _ => le_trans⟩
    exact List.pairwise_insertionSort _ _
  -- Two results with one key come from one stored pair, and that pair is listed once.
  have hdistinct : ((AList.entries s).filterMap fun e => select e.1 e.2).Pairwise
      fun a b => order a ≠ order b := by
    rw [List.pairwise_filterMap]
    refine (AList.nodupKeys s).nodup.imp_of_mem fun {e e'} he he' hne a ha a' ha' heq => hne ?_
    obtain ⟨k, v⟩ := e
    obtain ⟨k', v'⟩ := e'
    have hget : s.get k = some v := AList.mem_lookup_iff.mpr he
    have hget' : s.get k' = some v' := AList.mem_lookup_iff.mpr he'
    obtain rfl : k = k' := h _ _ _ _ _ _ hget hget' ha ha' heq
    obtain rfl : v = v' := Option.some.inj (hget.symm.trans hget')
    rfl
  have hperm : (s.scan select fun a b => order a ≤ order b).Pairwise
      fun a b => order a ≠ order b :=
    ((List.perm_insertionSort _ _).pairwise_iff fun hne => Ne.symm hne).mpr hdistinct
  exact (hsorted.and hperm).imp fun ⟨hle, hne⟩ => lt_of_le_of_ne hle hne

/-- Keys being told apart by their encoding, a scan in their order ascends. -/
theorem ascending_entriesAfter (h : s.KeysDistinct bytes) :
    Ascending bytes (s.entriesAfter bytes inRange after) := by
  refine pairwise_scan_lt (fun e : Sigma ρ => bytes e.1) ?_
  intro k v k' v' a a' hget hget' ha ha' heq
  simp only [Option.ite_none_right_eq_some, Option.some.injEq] at ha ha'
  rw [← ha.2, ← ha'.2] at heq
  exact h _ _ _ _ hget hget' heq

omit [DecidableEq κ] in
theorem Ascending.eq_of_mem_iff {l l' : List (Sigma ρ)} (h : Ascending bytes l)
    (h' : Ascending bytes l') (hmem : ∀ e, e ∈ l ↔ e ∈ l') : l = l' := by
  have : Std.Irrefl fun a b : Sigma ρ => bytes a.1 < bytes b.1 := ⟨fun a => lt_irrefl (bytes a.1)⟩
  have : Std.Asymm fun a b : Sigma ρ => bytes a.1 < bytes b.1 :=
    ⟨fun a b => fun hab hba => lt_asymm hab hba⟩
  exact List.Pairwise.eq_of_mem_iff h h' hmem

/-- What comes after one of the listed keys is the rest of the list, in any store that has kept the
    pairs from there on. -/
theorem entriesAfter_eq_rest {s' : Store ρ} (h : s.KeysDistinct bytes)
    (h' : s'.KeysDistinct bytes) {pre post : List (Sigma ρ)} {e : Sigma ρ}
    (hlist : s.entriesAfter bytes inRange after = pre ++ e :: post)
    (hkept : ∀ k v, bytes e.1 < bytes k → (s'.get k = some v ↔ s.get k = some v)) :
    s'.entriesAfter bytes inRange (some e.1) = post := by
  have hasc : Ascending bytes (s.entriesAfter bytes inRange after) := ascending_entriesAfter h
  rw [hlist] at hasc
  obtain ⟨-, hpost, hpre⟩ := List.pairwise_append.mp hasc
  obtain ⟨hfirst, hrest⟩ := List.pairwise_cons.mp hpost
  refine (ascending_entriesAfter h').eq_of_mem_iff hrest fun d => ?_
  rw [mem_entriesAfter]
  constructor
  · rintro ⟨hget, hrange, hafter⟩
    have hlt := hafter e.1 rfl
    have he : e ∈ s.entriesAfter bytes inRange after := by
      rw [hlist]
      exact List.mem_append_right _ List.mem_cons_self
    have hd : d ∈ s.entriesAfter bytes inRange after :=
      mem_entriesAfter.mpr ⟨(hkept _ _ hlt).mp hget, hrange, fun a ha =>
        lt_trans ((mem_entriesAfter.mp he).2.2 a ha) hlt⟩
    rw [hlist, List.mem_append, List.mem_cons] at hd
    rcases hd with hd | rfl | hd
    · exact absurd (hpre d hd e List.mem_cons_self) (lt_asymm hlt)
    · exact absurd hlt (lt_irrefl _)
    · exact hd
  · intro hd
    have hmem : d ∈ s.entriesAfter bytes inRange after := by
      rw [hlist]
      exact List.mem_append_right _ (List.mem_cons_of_mem _ hd)
    obtain ⟨hget, hrange, -⟩ := mem_entriesAfter.mp hmem
    refine ⟨(hkept _ _ (hfirst d hd)).mpr hget, hrange, ?_⟩
    rintro a ⟨⟩
    exact hfirst d hd

end Store

end KeyValue
