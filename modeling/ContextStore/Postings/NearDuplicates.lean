import ContextStore.Foundation.Outcomes
import ContextStore.Foundation.Unicode
import Mathlib.Algebra.BigOperators.Group.List.Basic

/-! # Near duplicates

Of a ranked list only the first item of every cluster is kept, and it counts the items that it
stands for. Items without a signature are never clustered. -/

namespace ContextStore.NearDuplicates

open Unicode Outcomes
open Concurrent (bind_ok_iff)

/-- A failure is the message of a `TypeError`. -/
abbrev Outcome (α : Type) : Type := Except String α

def SIMHASH_BITS : Nat := 64

def SIGNATURE_HEX_LENGTH : Nat := SIMHASH_BITS / 4

/-! ## Signatures -/

def isHexDigit (unit : UInt16) : Bool :=
  (0x30 ≤ unit && unit ≤ 0x39) || (0x61 ≤ unit && unit ≤ 0x66)

/-- `/^[0-9a-f]{16}$/u` -/
def isSignature (value : Text) : Bool :=
  value.length = SIGNATURE_HEX_LENGTH && value.all isHexDigit

def hexDigit (unit : UInt16) : Nat :=
  if unit ≤ 0x39 then unit.toNat - 0x30 else unit.toNat - 0x61 + 10

/-- The number that a signature is read as. -/
def hexValue (value : Text) : Nat := value.foldl (fun sum unit => sum * 16 + hexDigit unit) 0

def requireSignature (value : Text) (label : String) : Outcome Text :=
  if isSignature value then .ok value
  else .error (label ++ " must be a 16-character lowercase hex SimHash.")

/-- The loop over the bits of a difference, of which there are no more than the first argument. -/
def countBits : Nat → Nat → Nat
  | 0, _ => 0
  | bits + 1, difference =>
    if 0 < difference then difference % 2 + countBits bits (difference / 2) else 0

def hammingDistance (left right : Text) : Outcome Nat := do
  let left ← requireSignature left "left"
  let right ← requireSignature right "right"
  return countBits SIMHASH_BITS (hexValue left ^^^ hexValue right)

/-! ## Selection -/

structure Representative (α : Type) where
  item : α
  signature : Option Text
  nearDuplicates : Nat

section Selection

variable {α : Type}

def Representative.isNear (representative : Representative α) (maxHammingDistance : Nat)
    (signature : Text) : Outcome Bool :=
  match representative.signature with
  | none => .ok false
  | some own => do
    let distance ← hammingDistance own signature
    return distance ≤ maxHammingDistance

/-- The loop over the representatives: the first that is near stands for the item. -/
def absorb (maxHammingDistance : Nat) (signature : Text) (weight : Nat) :
    List (Representative α) → Outcome (Option (List (Representative α)))
  | [] => .ok none
  | representative :: rest => do
    let near ← representative.isNear maxHammingDistance signature
    if near then
      return some ({ representative with
        nearDuplicates := representative.nearDuplicates + weight } :: rest)
    else
      let absorbed ← absorb maxHammingDistance signature weight rest
      return absorbed.map (representative :: ·)

variable (maxHammingDistance : Nat) (signatureOf : α → Option Text) (priorCount : α → Nat)

/-- The representatives with the item absorbed, where it is. -/
def absorbItem (representatives : List (Representative α)) (item : α) :
    Outcome (Option (List (Representative α))) :=
  match signatureOf item with
  | none => .ok none
  | some signature => absorb maxHammingDistance signature (1 + priorCount item) representatives

/-- One round of the loop over the items. -/
def selectItem (representatives : List (Representative α)) (item : α) :
    Outcome (List (Representative α)) := do
  let absorbed ← absorbItem maxHammingDistance signatureOf priorCount representatives item
  return absorbed.getD (representatives ++ [⟨item, signatureOf item, priorCount item⟩])

def selectNearDuplicateRepresentatives (items : List α) : Outcome (List (Representative α)) :=
  items.foldlM (selectItem maxHammingDistance signatureOf priorCount) []

end Selection

/-! ## One item more -/

/-- Two signatures are within the bound of each other. -/
def Within (maxHammingDistance : Nat) (left right : Text) : Prop :=
  ∃ distance, hammingDistance left right = .ok distance ∧ distance ≤ maxHammingDistance

theorem requireSignature_eq_ok {value checked : Text} {label : String} :
    requireSignature value label = .ok checked ↔ isSignature value = true ∧ checked = value := by
  rw [requireSignature]
  split
  · rename_i h
    simp [h, eq_comm]
  · rename_i h
    simp [h]

theorem hammingDistance_eq_ok {left right : Text} {distance : Nat} :
    hammingDistance left right = .ok distance ↔ isSignature left = true ∧ isSignature right = true ∧
        distance = countBits SIMHASH_BITS (hexValue left ^^^ hexValue right) := by
  simp only [hammingDistance, bind_ok_iff, requireSignature_eq_ok]
  constructor
  · rintro ⟨_, ⟨hleft, rfl⟩, _, ⟨hright, rfl⟩, h⟩
    exact ⟨hleft, hright, (Except.ok.inj h).symm⟩
  · rintro ⟨hleft, hright, rfl⟩
    exact ⟨left, ⟨hleft, rfl⟩, right, ⟨hright, rfl⟩, rfl⟩

section Step

variable {α : Type} {maxHammingDistance : Nat}
  {representatives : List (Representative α)} {signature : Text}

theorem Representative.isNear_eq_ok {representative : Representative α} {near : Bool}
    (h : representative.isNear maxHammingDistance signature = .ok near) :
    near = true ↔
      ∃ own, representative.signature = some own ∧ Within maxHammingDistance own signature := by
  rw [Representative.isNear] at h
  cases hown : representative.signature with
  | none =>
    rw [hown] at h
    cases h
    simp
  | some own =>
    rw [hown] at h
    obtain ⟨distance, hdistance, h⟩ := bind_ok_iff.mp h
    cases h
    simp [Within, hdistance]

theorem absorb_cases {weight : Nat} {absorbed : Option (List (Representative α))}
    (h : absorb maxHammingDistance signature weight representatives = .ok absorbed) :
    (absorbed = none ∧ ∀ representative ∈ representatives, ∀ own,
      representative.signature = some own → ¬ Within maxHammingDistance own signature) ∨
    ∃ before representative after own, representatives = before ++ representative :: after ∧
      representative.signature = some own ∧ Within maxHammingDistance own signature ∧
      absorbed = some (before ++ { representative with
        nearDuplicates := representative.nearDuplicates + weight } :: after) := by
  induction representatives generalizing absorbed with
  | nil =>
    cases h
    simp
  | cons representative rest ih =>
    rw [absorb] at h
    obtain ⟨near, hnear, h⟩ := bind_ok_iff.mp h
    have hiff := Representative.isNear_eq_ok hnear
    split at h
    · rename_i htrue
      cases h
      obtain ⟨own, hown, hwithin⟩ := hiff.mp htrue
      exact .inr ⟨[], representative, rest, own, rfl, hown, hwithin, rfl⟩
    · rename_i hfalse
      obtain ⟨found, hfound, h⟩ := bind_ok_iff.mp h
      cases h
      rcases ih hfound with ⟨rfl, hfar⟩ | ⟨before, one, after, own, rfl, hown, hwithin, rfl⟩
      · refine .inl ⟨rfl, fun other hother own hown hwithin => ?_⟩
        rcases List.mem_cons.mp hother with rfl | hother
        · exact hfalse (hiff.mpr ⟨own, hown, hwithin⟩)
        · exact hfar other hother own hown hwithin
      · exact .inr ⟨representative :: before, one, after, own, rfl, hown, hwithin, rfl⟩

theorem exists_absorb (maxHammingDistance : Nat)
    (hsignature : isSignature signature = true) (weight : Nat)
    (h : ∀ representative ∈ representatives, ∀ own, representative.signature = some own →
      isSignature own = true) :
    ∃ absorbed, absorb maxHammingDistance signature weight representatives = .ok absorbed := by
  induction representatives with
  | nil => exact ⟨none, rfl⟩
  | cons representative rest ih =>
    obtain ⟨absorbed, habsorbed⟩ := ih fun other hother => h other (List.mem_cons_of_mem _ hother)
    have hnear : ∃ near, representative.isNear maxHammingDistance signature = .ok near := by
      rw [Representative.isNear]
      cases hown : representative.signature with
      | none => exact ⟨false, rfl⟩
      | some own =>
        have hdistance := hammingDistance_eq_ok.mpr
          ⟨h representative List.mem_cons_self own hown, hsignature, rfl⟩
        exact ⟨_, bind_ok_iff.mpr ⟨_, hdistance, rfl⟩⟩
    obtain ⟨near, hnear⟩ := hnear
    rw [absorb, hnear, habsorbed]
    cases near with
    | true => exact ⟨_, rfl⟩
    | false => exact ⟨_, rfl⟩

end Step

/-! ## What is selected -/

def chosen {α : Type} (choice : List Bool) (items : List α) : List α :=
  ((items.zip choice).filter fun one => one.2).map Prod.fst

/-- Of the items those that are chosen are kept: all without a signature, and of the others as many
that each of the rest is near to an earlier one and no two of them are near. Nothing is lost in the
counts. -/
structure Selected {α : Type} (maxHammingDistance : Nat) (signatureOf : α → Option Text)
    (priorCount : α → Nat) (items : List α) (choice : List Bool)
    (kept : List (Representative α)) : Prop where
  length : choice.length = items.length
  eq : kept.map Representative.item = chosen choice items
  signature : ∀ one ∈ kept, one.signature = signatureOf one.item
  unsigned : ∀ (i : Nat) item, items[i]? = some item → signatureOf item = none →
    choice[i]? = some true
  far : kept.Pairwise fun one other => ∀ left right, one.signature = some left →
    other.signature = some right → ¬ Within maxHammingDistance left right
  dropped : ∀ (i : Nat) item, items[i]? = some item → choice[i]? = some false →
    ∃ (j : Nat) (earlier : α) (left right : Text), j < i ∧ items[j]? = some earlier ∧
      choice[j]? = some true ∧ signatureOf earlier = some left ∧ signatureOf item = some right ∧
      Within maxHammingDistance left right
  counted : (kept.map fun one => 1 + one.nearDuplicates).sum =
    (items.map fun item => 1 + priorCount item).sum

section Run

variable {α : Type} {maxHammingDistance : Nat} {signatureOf : α → Option Text}
  {priorCount : α → Nat} {items : List α} {choice : List Bool} {kept : List (Representative α)}

theorem chosen_append (hlength : choice.length = items.length) (item : α) (keep : Bool) :
    chosen (choice ++ [keep]) (items ++ [item]) =
      chosen choice items ++ if keep then [item] else [] := by
  rw [chosen, List.zip_append hlength.symm, List.filter_append, List.map_append]
  cases keep <;> rfl

theorem exists_chosen {one : α} (h : one ∈ chosen choice items) :
    ∃ j, j < items.length ∧ items[j]? = some one ∧ choice[j]? = some true := by
  obtain ⟨placed, hplaced, rfl⟩ := List.mem_map.mp h
  obtain ⟨hmem, htrue⟩ := List.mem_filter.mp hplaced
  obtain ⟨j, hj⟩ := List.mem_iff_getElem?.mp hmem
  obtain ⟨hitem, hchoice⟩ := List.getElem?_zip_eq_some.mp hj
  have hlt : j < items.length := (List.getElem?_eq_some_iff.mp hitem).1
  exact ⟨j, hlt, hitem, by rw [hchoice, htrue]⟩

theorem Selected.nil : Selected maxHammingDistance signatureOf priorCount [] [] [] where
  length := rfl
  eq := rfl
  signature := by simp
  unsigned := by simp
  far := .nil
  dropped := by simp
  counted := rfl

/-- What is at a position of a list with one item more. -/
theorem getElem?_snoc {β : Type} {list : List β} {last one : β} {i : Nat}
    (h : (list ++ [last])[i]? = some one) :
    list[i]? = some one ∨ (i = list.length ∧ one = last) := by
  rcases Nat.lt_trichotomy i list.length with hlt | heq | hgt
  · rw [List.getElem?_append_left hlt] at h
    exact .inl h
  · subst heq
    rw [List.getElem?_append_right (Nat.le_refl _), Nat.sub_self] at h
    exact .inr ⟨rfl, (Option.some.inj h).symm⟩
  · rw [List.getElem?_eq_none (by simp; omega)] at h
    cases h

theorem getElem?_snoc_of_some {β : Type} {list : List β} {one : β} {i : Nat} (last : β)
    (h : list[i]? = some one) : (list ++ [last])[i]? = some one := by
  rw [List.getElem?_append_left (List.getElem?_eq_some_iff.mp h).1, h]

theorem Selected.keep (h : Selected maxHammingDistance signatureOf priorCount items choice kept)
    {item : α} (hfar : ∀ one ∈ kept, ∀ left right, one.signature = some left →
      signatureOf item = some right → ¬ Within maxHammingDistance left right) :
    Selected maxHammingDistance signatureOf priorCount (items ++ [item]) (choice ++ [true])
      (kept ++ [⟨item, signatureOf item, priorCount item⟩]) where
  length := by simp [h.length]
  eq := by
    rw [chosen_append h.length, List.map_append, h.eq]
    rfl
  signature := by
    intro one hone
    rcases List.mem_append.mp hone with hone | hone
    · exact h.signature one hone
    · rw [List.mem_singleton.mp hone]
  unsigned := by
    intro i one hone hnone
    rcases getElem?_snoc hone with hone | ⟨hi, -⟩
    · exact getElem?_snoc_of_some true (h.unsigned i one hone hnone)
    · rw [hi, ← h.length]
      simp
  far := by
    refine List.pairwise_append.mpr ⟨h.far, List.pairwise_singleton _ _, ?_⟩
    intro one hone other hother left right hleft hright
    rw [List.mem_singleton.mp hother] at hright
    exact hfar one hone left right hleft hright
  dropped := by
    intro i one hone hfalse
    rcases getElem?_snoc hfalse with hfalse | ⟨-, hcontra⟩
    · rcases getElem?_snoc hone with hone | ⟨hi, -⟩
      · obtain ⟨j, earlier, left, right, hj, hearlier, hchoice, hrest⟩ :=
          h.dropped i one hone hfalse
        exact ⟨j, earlier, left, right, hj, getElem?_snoc_of_some item hearlier,
          getElem?_snoc_of_some true hchoice, hrest⟩
      · have hlt := (List.getElem?_eq_some_iff.mp hfalse).1
        rw [h.length, hi] at hlt
        exact absurd hlt (Nat.lt_irrefl _)
    · cases hcontra
  counted := by
    rw [List.map_append, List.map_append, List.sum_append, List.sum_append, h.counted]
    rfl

theorem Selected.drop {before after : List (Representative α)} {representative : Representative α}
    (h : Selected maxHammingDistance signatureOf priorCount items choice
      (before ++ representative :: after))
    {item : α} {left right : Text} (hleft : representative.signature = some left)
    (hright : signatureOf item = some right) (hwithin : Within maxHammingDistance left right) :
    Selected maxHammingDistance signatureOf priorCount (items ++ [item]) (choice ++ [false])
      (before ++ { representative with
        nearDuplicates := representative.nearDuplicates + (1 + priorCount item) } :: after) where
  length := by simp [h.length]
  eq := by
    have hchosen := h.eq
    rw [chosen_append h.length, ← hchosen]
    simp
  signature := by
    intro one hone
    rcases List.mem_append.mp hone with hone | hone
    · exact h.signature one (List.mem_append_left _ hone)
    · rcases List.mem_cons.mp hone with rfl | hone
      · exact h.signature representative (List.mem_append_right _ List.mem_cons_self)
      · exact h.signature one (List.mem_append_right _ (List.mem_cons_of_mem _ hone))
  unsigned := by
    intro i one hone hnone
    rcases getElem?_snoc hone with hone | ⟨-, rfl⟩
    · exact getElem?_snoc_of_some false (h.unsigned i one hone hnone)
    · rw [hright] at hnone
      cases hnone
  far := by
    have hfar := h.far
    rw [List.pairwise_append, List.pairwise_cons] at hfar ⊢
    obtain ⟨hbefore, ⟨hfirst, hafter⟩, hacross⟩ := hfar
    refine ⟨hbefore, ⟨hfirst, hafter⟩, fun one hone other hother => ?_⟩
    rcases List.mem_cons.mp hother with rfl | hother
    · exact hacross one hone representative List.mem_cons_self
    · exact hacross one hone other (List.mem_cons_of_mem _ hother)
  dropped := by
    intro i one hone hfalse
    rcases getElem?_snoc hone with hone | ⟨rfl, rfl⟩
    · have hlt := (List.getElem?_eq_some_iff.mp hone).1
      rcases getElem?_snoc hfalse with hfalse | ⟨hi, -⟩
      · obtain ⟨j, earlier, left, right, hj, hearlier, hchoice, hrest⟩ :=
          h.dropped i one hone hfalse
        exact ⟨j, earlier, left, right, hj, getElem?_snoc_of_some item hearlier,
          getElem?_snoc_of_some false hchoice, hrest⟩
      · rw [hi, h.length] at hlt
        exact absurd hlt (Nat.lt_irrefl _)
    · have hmem : representative.item ∈ chosen choice items := by
        rw [← h.eq]
        exact List.mem_map_of_mem (List.mem_append_right _ List.mem_cons_self)
      obtain ⟨j, hj, hearlier, hchoice⟩ := exists_chosen hmem
      have hsigned := h.signature representative (List.mem_append_right _ List.mem_cons_self)
      exact ⟨j, representative.item, left, right, hj, getElem?_snoc_of_some one hearlier,
        getElem?_snoc_of_some false hchoice, hsigned.symm.trans hleft, hright, hwithin⟩
  counted := by
    have hcounted := h.counted
    simp only [List.map_append, List.map_cons, List.sum_append, List.sum_cons, List.map_nil,
      List.sum_nil] at hcounted ⊢
    omega

theorem Selected.item (h : Selected maxHammingDistance signatureOf priorCount items choice kept)
    {item : α} {next : List (Representative α)}
    (hok : selectItem maxHammingDistance signatureOf priorCount kept item = .ok next) :
    ∃ keep, Selected maxHammingDistance signatureOf priorCount (items ++ [item])
      (choice ++ [keep]) next := by
  rw [selectItem] at hok
  obtain ⟨absorbed, habsorbed, hok⟩ := bind_ok_iff.mp hok
  cases hok
  unfold absorbItem at habsorbed
  cases hsignature : signatureOf item with
  | none =>
    rw [hsignature] at habsorbed
    cases habsorbed
    refine ⟨true, ?_⟩
    rw [Option.getD_none, ← hsignature]
    refine h.keep fun one _ left right _ hright => ?_
    rw [hsignature] at hright
    cases hright
  | some signature =>
    rw [hsignature] at habsorbed
    rcases absorb_cases habsorbed with
      ⟨rfl, hfar⟩ | ⟨before, one, after, own, rfl, hown, hwithin, rfl⟩
    · refine ⟨true, ?_⟩
      rw [Option.getD_none, ← hsignature]
      refine h.keep fun one hone left right hleft hright => ?_
      rw [hsignature] at hright
      cases hright
      exact hfar one hone left hleft
    · exact ⟨false, h.drop hown hsignature hwithin⟩

theorem selected_of_ok
    (hok : selectNearDuplicateRepresentatives maxHammingDistance signatureOf priorCount items =
      .ok kept) :
    ∃ choice, Selected maxHammingDistance signatureOf priorCount items choice kept := by
  have hround : ∀ (done : List α) item kept next,
      (∃ choice, Selected maxHammingDistance signatureOf priorCount done choice kept) →
      selectItem maxHammingDistance signatureOf priorCount kept item = .ok next →
      ∃ choice, Selected maxHammingDistance signatureOf priorCount (done ++ [item]) choice
        next := by
    intro done item kept next hinv hstep
    obtain ⟨choice, hselected⟩ := hinv
    obtain ⟨keep, hnext⟩ := hselected.item hstep
    exact ⟨choice ++ [keep], hnext⟩
  have hempty : ∃ choice, Selected maxHammingDistance signatureOf priorCount [] choice [] :=
    ⟨[], .nil⟩
  exact foldlM_invariant _ hround hempty hok

theorem Selected.exists_item
    (h : Selected maxHammingDistance signatureOf priorCount items choice kept) {item : α}
    (hsigned : ∀ one ∈ items ++ [item], ∀ signature, signatureOf one = some signature →
      isSignature signature = true) :
    ∃ next, selectItem maxHammingDistance signatureOf priorCount kept item = .ok next := by
  have hkept : ∀ one ∈ kept, ∀ own, one.signature = some own → isSignature own = true := by
    intro one hone own hown
    have hmem : one.item ∈ chosen choice items := by
      rw [← h.eq]
      exact List.mem_map_of_mem hone
    obtain ⟨j, -, hitem, -⟩ := exists_chosen hmem
    exact hsigned one.item (List.mem_append_left _ (List.mem_of_getElem? hitem)) own
      ((h.signature one hone).symm.trans hown)
  cases hsignature : signatureOf item with
  | none =>
    rw [selectItem, absorbItem, hsignature]
    exact ⟨_, rfl⟩
  | some signature =>
    have hitem := hsigned item (List.mem_append_right _ List.mem_cons_self) signature hsignature
    obtain ⟨absorbed, habsorbed⟩ :=
      exists_absorb maxHammingDistance hitem (1 + priorCount item) hkept
    rw [selectItem, absorbItem, hsignature]
    exact ⟨_, bind_ok_iff.mpr ⟨absorbed, habsorbed, rfl⟩⟩

/-- With signatures of the form that is stored, the selection comes to its end. -/
theorem Selected.exists_selection {rest : List α}
    (h : Selected maxHammingDistance signatureOf priorCount items choice kept)
    (hsigned : ∀ one ∈ items ++ rest, ∀ signature, signatureOf one = some signature →
      isSignature signature = true) :
    ∃ last, rest.foldlM (selectItem maxHammingDistance signatureOf priorCount) kept = .ok last := by
  induction rest generalizing items choice kept with
  | nil => exact ⟨kept, rfl⟩
  | cons item rest ih =>
    rw [← List.singleton_append, ← List.append_assoc] at hsigned
    obtain ⟨next, hnext⟩ := h.exists_item fun one hone => hsigned one (List.mem_append_left _ hone)
    obtain ⟨keep, hselected⟩ := h.item hnext
    obtain ⟨last, hlast⟩ := ih hselected hsigned
    refine ⟨last, ?_⟩
    rw [List.foldlM_cons]
    exact bind_ok_iff.mpr ⟨next, hnext, hlast⟩

end Run

end ContextStore.NearDuplicates
