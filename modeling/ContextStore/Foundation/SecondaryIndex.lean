import ContextStore.Foundation.KeyValue

/-! # Secondary indexes

An owner keeps one primary record and any number of index records that repeat parts of it under
other keys. A `SecondaryIndex` says which keys are an owner's and what its primary record puts under
each of them; `Matches` says that the owner's keys hold exactly that: no index record without its
primary record, none left out, none that repeats an earlier version. The rules say when a store
still matches after a write. A store is given by its `get`, so that they apply to whatever carries
one. -/

namespace KeyValue

variable {κ ι : Type} {ρ : κ → Type}

structure SecondaryIndex (ρ : κ → Type) (ι : Type) where
  owner : κ → Option ι
  primary : ι → κ
  content : (o : ι) → ρ (primary o) → (k : κ) → Option (ρ k)
  owner_primary : ∀ o, owner (primary o) = some o
  content_primary : ∀ o v, content o v (primary o) = some v

namespace SecondaryIndex

variable (index : SecondaryIndex ρ ι) {get get' : (k : κ) → Option (ρ k)} {o : ι}

/-- The keys of an owner hold exactly what its primary record puts there. -/
def Matches (get : (k : κ) → Option (ρ k)) (o : ι) : Prop :=
  ∀ k, index.owner k = some o → get k = (get (index.primary o)).bind fun v => index.content o v k

namespace Matches

variable {index}

theorem get_eq (h : index.Matches get o) {v : ρ (index.primary o)}
    (hv : get (index.primary o) = some v) {k : κ} (hk : index.owner k = some o) :
    get k = index.content o v k := by
  rw [h k hk, hv, Option.bind_some]

theorem get_of_absent (h : index.Matches get o) (hv : get (index.primary o) = none) {k : κ}
    (hk : index.owner k = some o) : get k = none := by
  rw [h k hk, hv, Option.bind_none]

/-- No index record stands without a primary record that puts it there. -/
theorem exists_primary (h : index.Matches get o) {k : κ} (hk : index.owner k = some o) {r : ρ k}
    (hr : get k = some r) :
    ∃ v, get (index.primary o) = some v ∧ index.content o v k = some r := by
  rw [h k hk] at hr
  exact Option.bind_eq_some_iff.mp hr

/-- An owner none of whose keys is written still matches. -/
theorem congr (h : index.Matches get o)
    (hframe : ∀ k, index.owner k = some o → get' k = get k) : index.Matches get' o := by
  intro k hk
  rw [hframe k hk, hframe _ (index.owner_primary o)]
  exact h k hk

/-- An owner whose keys hold what one primary record puts there matches. -/
theorem of_content (index : SecondaryIndex ρ ι) (v : ρ (index.primary o))
    (h : ∀ k, index.owner k = some o → get k = index.content o v k) : index.Matches get o := by
  intro k hk
  have hv : get (index.primary o) = some v :=
    (h _ (index.owner_primary o)).trans (index.content_primary o v)
  rw [h k hk, hv, Option.bind_some]

theorem of_absent (h : ∀ k, index.owner k = some o → get k = none) : index.Matches get o := by
  intro k hk
  rw [h k hk, h _ (index.owner_primary o), Option.bind_none]

end Matches

end SecondaryIndex

end KeyValue
