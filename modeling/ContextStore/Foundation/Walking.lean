import Mathlib.Data.List.Perm.Basic

/-! # Walking along an order

Items are compared by an order in which different ones may stand at one place. A page has the
nearest items beyond an anchor, and a walk takes the last item of each page as the next anchor. Items
that stand with the last item of a page, but not on the page, are never beyond an anchor again: the
walk comes by every item just where no page ends between two such items (`walk_perm_iff`). -/

namespace Walking

variable {α : Type} (le : α → α → Bool)

/-- An order in which different items may stand at one place. -/
structure Order : Prop where
  total : ∀ a b, (le a b || le b a) = true
  trans : ∀ a b c, le a b = true → le b c = true → le a c = true

def beyond (anchor : α) (items : List α) : List α := items.filter fun item => !le item anchor

def page (size : Nat) (items : List α) (anchor : α) : List α :=
  ((beyond le anchor items).mergeSort le).take size

/-- The pages up to the first empty one; `none` where there are more than the fuel. -/
def walk (size : Nat) (items : List α) : Nat → α → Option (List α)
  | 0, _ => none
  | fuel + 1, anchor =>
    match (page le size items anchor).getLast? with
    | none => some []
    | some last => (walk size items fuel last).map (page le size items anchor ++ ·)

def nearer (items : List α) (item : α) : Nat := items.countP fun other => !le item other

def noFarther (items : List α) (item : α) : Nat := items.countP fun other => le other item

/-- In the order of the items, those that stand at one place are on one page. -/
def Aligned (size : Nat) (items : List α) : Prop :=
  ∀ item ∈ items, nearer le items item / size = (noFarther le items item - 1) / size

variable {le} {size : Nat} {items : List α} {anchor : α}

theorem Order.refl (h : Order le) (a : α) : le a a = true := by
  simpa using h.total a a

theorem Order.le_of_not (h : Order le) {a b : α} (hnot : le a b = false) : le b a = true := by
  simpa [hnot] using h.total a b

theorem mem_beyond {item : α} :
    item ∈ beyond le anchor items ↔ item ∈ items ∧ le item anchor = false := by
  rw [beyond, List.mem_filter, Bool.not_eq_true']

theorem Aligned.perm {items' : List α} (h : items.Perm items') :
    Aligned le size items ↔ Aligned le size items' := by
  unfold Aligned nearer noFarther
  simp only [h.countP_eq, h.mem_iff]

theorem beyond_beyond (h : Order le) {last : α} (hlast : le last anchor = false) :
    beyond le last (beyond le anchor items) = beyond le last items := by
  rw [beyond, beyond, List.filter_filter]
  refine List.filter_congr fun item _ => ?_
  cases hitem : le item last with
  | true => rfl
  | false =>
    have hanchor : le item anchor = false := by
      rw [Bool.eq_false_iff]
      intro hle
      have hnot := h.trans _ _ _ (h.le_of_not hitem) hle
      rw [hlast] at hnot
      cases hnot
    rw [hanchor]
    rfl

/-- The pieces into which a page cuts what is beyond the anchor. -/
structure Cut (le : α → α → Bool) (items first rest : List α) : Prop where
  perm : items.Perm (first ++ rest)
  sorted : first.Pairwise fun a b => le a b = true
  nearest : ∀ a ∈ first, ∀ b ∈ rest, le a b = true

theorem cut_page (h : Order le) (size : Nat) (items : List α) (anchor : α) :
    Cut le (beyond le anchor items) (page le size items anchor)
      (((beyond le anchor items).mergeSort le).drop size) := by
  have hsorted := @List.pairwise_mergeSort _ le (fun a b c => h.trans a b c) h.total
    (beyond le anchor items)
  rw [← List.take_append_drop size ((beyond le anchor items).mergeSort le),
    List.pairwise_append] at hsorted
  refine ⟨?_, hsorted.1, hsorted.2.2⟩
  rw [page, List.take_append_drop]
  exact (List.mergeSort_perm _ _).symm

theorem Cut.le_last (h : Order le) {first rest : List α} {last : α} (hcut : Cut le items first rest)
    (hlast : first.getLast? = some last) {item : α} (hitem : item ∈ first) :
    le item last = true := by
  obtain ⟨front, rfl⟩ := List.getLast?_eq_some_iff.mp hlast
  rcases List.mem_append.mp hitem with hfront | hend
  · exact (List.pairwise_append.mp hcut.sorted).2.2 item hfront last (by simp)
  · rw [List.mem_singleton] at hend
    rw [hend]
    exact h.refl last

/-! ## Counting -/

section Counting

variable {first rest : List α} {last : α}

theorem nearer_append (first rest : List α) (item : α) :
    nearer le (first ++ rest) item = nearer le first item + nearer le rest item :=
  List.countP_append

theorem noFarther_append (first rest : List α) (item : α) :
    noFarther le (first ++ rest) item = noFarther le first item + noFarther le rest item :=
  List.countP_append

theorem nearer_eq_zero {item : α} (h : ∀ b ∈ items, le item b = true) :
    nearer le items item = 0 := by
  rw [nearer, List.countP_eq_zero]
  intro b hb
  simp [h b hb]

theorem noFarther_eq_length {item : α} (h : ∀ a ∈ items, le a item = true) :
    noFarther le items item = items.length := by
  rw [noFarther, List.countP_eq_length]
  exact h

theorem nearer_lt (h : Order le) {item : α} (hmem : item ∈ items) :
    nearer le items item < items.length := by
  refine Nat.lt_of_le_of_ne (List.countP_le_length) fun heq => ?_
  have hself := List.countP_eq_length.mp heq item hmem
  rw [h.refl item] at hself
  cases hself

theorem noFarther_pos (h : Order le) {item : α} (hmem : item ∈ items) :
    0 < noFarther le items item :=
  List.countP_pos_iff.mpr ⟨item, hmem, h.refl item⟩

theorem Cut.nearer_last (h : Order le) (hcut : Cut le items first rest)
    (hlast : first.getLast? = some last) : nearer le items last < first.length := by
  have hmem := List.mem_of_getLast? hlast
  have hnearer : nearer le items last = nearer le (first ++ rest) last := hcut.perm.countP_eq _
  rw [hnearer, nearer_append, nearer_eq_zero fun b hb => hcut.nearest last hmem b hb, Nat.add_zero]
  exact nearer_lt h hmem

theorem Cut.noFarther_last (h : Order le) (hcut : Cut le items first rest)
    (hlast : first.getLast? = some last) :
    noFarther le items last = first.length + noFarther le rest last := by
  have hcount : noFarther le items last = noFarther le (first ++ rest) last :=
    hcut.perm.countP_eq _
  rw [hcount, noFarther_append, noFarther_eq_length fun a ha => hcut.le_last h hlast ha]

theorem Cut.aligned_iff (h : Order le) (hcut : Cut le items first rest)
    (hlast : first.getLast? = some last) (hrest : ∀ b ∈ rest, le b last = false)
    (hfirst : first.length ≤ size) (hfull : rest ≠ [] → first.length = size) :
    Aligned le size items ↔ Aligned le size rest := by
  have hpos : 0 < first.length := List.length_pos_iff.mpr (by
    rintro rfl
    cases hlast)
  have hof : ∀ item ∈ rest, nearer le (first ++ rest) item = size + nearer le rest item ∧
      noFarther le (first ++ rest) item = size + noFarther le rest item := by
    intro item hitem
    have hsize := hfull (List.ne_nil_of_mem hitem)
    have hnearer : nearer le first item = first.length := by
      rw [nearer, List.countP_eq_length]
      intro a ha
      rw [Bool.not_eq_true', Bool.eq_false_iff]
      intro hle
      have hnot := h.trans _ _ _ hle (hcut.le_last h hlast ha)
      rw [hrest item hitem] at hnot
      cases hnot
    rw [nearer_append, noFarther_append, hnearer,
      noFarther_eq_length fun a ha => hcut.nearest a ha item hitem, hsize]
    exact ⟨rfl, rfl⟩
  rw [Aligned.perm hcut.perm]
  constructor
  · intro haligned item hitem
    obtain ⟨hnearer, hnoFarther⟩ := hof item hitem
    have heq := haligned item (List.mem_append_right _ hitem)
    have hself := noFarther_pos h hitem
    have hshift : size + noFarther le rest item - 1 = size + (noFarther le rest item - 1) := by
      omega
    rw [hnearer, hnoFarther, hshift, Nat.add_div_left _ (by omega), Nat.add_div_left _ (by omega)]
      at heq
    exact Nat.succ.inj heq
  · intro haligned item hitem
    rcases List.mem_append.mp hitem with hitem | hitem
    · have hnearer := nearer_lt h hitem
      have hbehind : noFarther le rest item = 0 := by
        rw [noFarther, List.countP_eq_zero]
        intro b hb hle
        have hnot := h.trans _ _ _ hle (hcut.le_last h hlast hitem)
        rw [hrest b hb] at hnot
        cases hnot
      have hcount : noFarther le first item ≤ first.length := List.countP_le_length
      have hahead := nearer_eq_zero fun b hb => hcut.nearest item hitem b hb
      rw [nearer_append, noFarther_append, hbehind, hahead, Nat.div_eq_of_lt (by omega),
        Nat.div_eq_of_lt (by omega)]
    · obtain ⟨hnearer, hnoFarther⟩ := hof item hitem
      have hself := noFarther_pos h hitem
      have hshift : size + noFarther le rest item - 1 = size + (noFarther le rest item - 1) := by
        omega
      rw [hnearer, hnoFarther, hshift, Nat.add_div_left _ (by omega),
        Nat.add_div_left _ (by omega), haligned item hitem]

end Counting

/-! ## The walk -/

/-- The walk ends, and it comes by every item beyond the anchor just where the items that stand at
one place are on one page. -/
theorem walk_perm_iff (h : Order le) (hsize : 0 < size) (items : List α) {fuel : Nat}
    (hfuel : (beyond le anchor items).length < fuel) :
    ∃ visited, walk le size items fuel anchor = some visited ∧
      visited.length ≤ (beyond le anchor items).length ∧
      (visited.Perm (beyond le anchor items) ↔ Aligned le size (beyond le anchor items)) := by
  induction fuel generalizing anchor with
  | zero => exact absurd hfuel (Nat.not_lt_zero _)
  | succ fuel ih =>
    have hcut := cut_page h size items anchor
    have hlength := hcut.perm.length_eq
    rw [List.length_append] at hlength
    have hpage : (page le size items anchor).length = min size (beyond le anchor items).length := by
      rw [page, List.length_take, List.length_mergeSort]
    rw [walk]
    generalize hfirst : page le size items anchor = first at *
    generalize hrestEq : ((beyond le anchor items).mergeSort le).drop size = rest at *
    cases hlast : first.getLast? with
    | none =>
      rw [List.getLast?_eq_none_iff] at hlast
      rw [hlast, List.length_nil] at hpage
      have hnil : beyond le anchor items = [] := List.length_eq_zero_iff.mp (by omega)
      rw [hnil]
      refine ⟨[], rfl, Nat.le_refl _, fun _ item hitem => ?_, fun _ => .nil⟩
      cases hitem
    | some last =>
      have hmem := List.mem_of_getLast? hlast
      obtain ⟨-, hbeyond⟩ := mem_beyond.mp (hcut.perm.mem_iff.mpr (List.mem_append_left _ hmem))
      have hpos := List.length_pos_of_mem hmem
      -- what is beyond the last item of the page is what the rest has beyond it
      have hnext : (beyond le last items).Perm (beyond le last rest) := by
        rw [← beyond_beyond h hbeyond]
        refine (hcut.perm.filter _).trans ?_
        have hnone : first.filter (fun item => !le item last) = [] := by
          rw [List.filter_eq_nil_iff]
          intro item hitem
          simp [hcut.le_last h hlast hitem]
        rw [List.filter_append, hnone, List.nil_append]
        exact .refl _
      have hshort : (beyond le last rest).length ≤ rest.length := List.length_filter_le _ _
      obtain ⟨visited, hwalk, hvisited, hiff⟩ := @ih last (by
        rw [hnext.length_eq]
        omega)
      rw [hnext.length_eq] at hvisited
      refine ⟨first ++ visited, ?_, ?_, ?_⟩
      · dsimp only
        rw [hwalk]
        rfl
      · rw [List.length_append]
        omega
      by_cases hapart : ∀ b ∈ rest, le b last = false
      · have hself : beyond le last rest = rest := by
          rw [beyond, List.filter_eq_self]
          intro b hb
          simp [hapart b hb]
        rw [hself] at hnext
        rw [hcut.aligned_iff h hlast hapart (by omega) fun hne => ?_, ← Aligned.perm hnext, ← hiff]
        · constructor
          · intro hperm
            have hrest := (List.perm_append_left_iff first).mp (hperm.trans hcut.perm)
            exact hrest.trans hnext.symm
          · intro hperm
            have hall := (List.perm_append_left_iff first).mpr (hperm.trans hnext)
            exact hall.trans hcut.perm.symm
        · have := List.length_pos_iff.mpr hne
          omega
      · obtain ⟨b, hb, hstands⟩ : ∃ b ∈ rest, le b last = true := by
          simpa using hapart
        have hmissing : (beyond le last rest).length < rest.length := by
          refine Nat.lt_of_le_of_ne hshort fun heq => ?_
          have hall := List.filter_eq_self.mp (List.filter_sublist.eq_of_length heq) b hb
          rw [hstands] at hall
          cases hall
        have hfull : first.length = size := by
          have := List.length_pos_of_mem hb
          omega
        refine iff_of_false (fun hperm => ?_) fun haligned => ?_
        · have := hperm.length_eq
          rw [List.length_append] at this
          omega
        · have hlastMem := hcut.perm.mem_iff.mpr (List.mem_append_left rest hmem)
          have heq := haligned last hlastMem
          have hnear := hcut.nearer_last h hlast
          have hfar := hcut.noFarther_last h hlast
          have hwith : 0 < noFarther le rest last := List.countP_pos_iff.mpr ⟨b, hb, hstands⟩
          rw [Nat.div_eq_of_lt (by omega)] at heq
          have hpage : size ≤ noFarther le (beyond le anchor items) last - 1 := by omega
          have := Nat.div_pos hpage hsize
          omega

end Walking
