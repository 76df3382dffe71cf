import Mathlib.Data.List.Lex
import Mathlib.Data.List.Infix
import Mathlib.Order.Lattice

/-! # Codes that keep the order

Words over an ordered alphabet are compared from the left. Two words that differ at some position
keep their order whatever is appended to them, so a code whose words always differ so can be
concatenated without separators: the concatenation determines its items, prefixes are prefixes of
items, and the order is the lexicographic order of the items. -/

namespace OrderedCodes

/-- Bytes by their value. -/
scoped instance byteOrder : LinearOrder UInt8 where
  le_refl := UInt8.le_refl
  le_trans _ _ _ := UInt8.le_trans
  le_antisymm _ _ := UInt8.le_antisymm
  le_total := UInt8.le_total
  lt_iff_le_not_ge a b := by
    rw [UInt8.le_iff_toNat_le, UInt8.le_iff_toNat_le, UInt8.lt_iff_toNat_lt]
    omega
  toDecidableLE := inferInstance
  toDecidableLT := inferInstance
  toDecidableEq := inferInstance

variable {α β : Type} [LinearOrder β]

/-! ## Words that differ -/

/-- At the first position where the words differ, `s` has the smaller letter. -/
def Diverges (s t : List β) : Prop :=
  ∃ common a b left right, s = common ++ a :: left ∧ t = common ++ b :: right ∧ a < b

variable {s t : List β}

theorem Diverges.append (h : Diverges s t) (u v : List β) : Diverges (s ++ u) (t ++ v) := by
  obtain ⟨common, a, b, left, right, rfl, rfl, hlt⟩ := h
  exact ⟨common, a, b, left ++ u, right ++ v, by simp, by simp, hlt⟩

theorem Diverges.prepend (h : Diverges s t) (u : List β) : Diverges (u ++ s) (u ++ t) := by
  obtain ⟨common, a, b, left, right, rfl, rfl, hlt⟩ := h
  exact ⟨u ++ common, a, b, left, right, by simp, by simp, hlt⟩

theorem Diverges.cons (h : Diverges s t) (c : β) : Diverges (c :: s) (c :: t) := h.prepend [c]

theorem diverges_of_head_lt {a b : β} (h : a < b) (u v : List β) : Diverges (a :: u) (b :: v) :=
  ⟨[], a, b, u, v, rfl, rfl, h⟩

theorem Diverges.lt (h : Diverges s t) : s < t := by
  obtain ⟨common, a, b, left, right, rfl, rfl, hlt⟩ := h
  exact List.append_left_lt (List.Lex.rel hlt)

theorem Diverges.not_isPrefix (h : Diverges s t) : ¬ s <+: t := by
  obtain ⟨common, a, b, left, right, rfl, rfl, hlt⟩ := h
  rintro ⟨tail, htail⟩
  rw [List.append_assoc, List.append_cancel_left_eq, List.cons_append, List.cons.injEq] at htail
  exact hlt.ne htail.1

theorem Diverges.not_isPrefix_right (h : Diverges s t) : ¬ t <+: s := by
  obtain ⟨common, a, b, left, right, rfl, rfl, hlt⟩ := h
  rintro ⟨tail, htail⟩
  rw [List.append_assoc, List.append_cancel_left_eq, List.cons_append, List.cons.injEq] at htail
  exact hlt.ne' htail.1

theorem le_of_isPrefix (h : s <+: t) : s ≤ t := by
  obtain ⟨u, rfl⟩ := h
  cases u with
  | nil => rw [List.append_nil]
  | cons c u =>
    have hlt : s ++ [] < s ++ c :: u := List.append_left_lt List.Lex.nil
    rw [List.append_nil] at hlt
    exact le_of_lt hlt

/-- Of two words one begins with the other, or they differ somewhere. -/
theorem prefix_or_diverges (s t : List β) : s <+: t ∨ t <+: s ∨ Diverges s t ∨ Diverges t s := by
  induction s generalizing t with
  | nil => exact .inl List.nil_prefix
  | cons a s ih =>
    cases t with
    | nil => exact .inr (.inl List.nil_prefix)
    | cons b t =>
      obtain hlt | rfl | hlt := lt_trichotomy a b
      · exact .inr (.inr (.inl (diverges_of_head_lt hlt s t)))
      · obtain h | h | h | h := ih t
        · exact .inl (List.cons_prefix_cons.mpr ⟨rfl, h⟩)
        · exact .inr (.inl (List.cons_prefix_cons.mpr ⟨rfl, h⟩))
        · exact .inr (.inr (.inl (h.cons a)))
        · exact .inr (.inr (.inr (h.cons a)))
      · exact .inr (.inr (.inr (diverges_of_head_lt hlt t s)))

theorem le_iff : s ≤ t ↔ s <+: t ∨ Diverges s t := by
  constructor
  · intro hle
    obtain h | h | h | h := prefix_or_diverges s t
    · exact .inl h
    · obtain rfl := le_antisymm hle (le_of_isPrefix h)
      exact .inl List.prefix_rfl
    · exact .inr h
    · exact absurd h.lt (not_lt_of_ge hle)
  · rintro (h | h)
    · exact le_of_isPrefix h
    · exact le_of_lt h.lt

theorem diverges_of_lt (h : s < t) (hlength : s.length = t.length) : Diverges s t := by
  obtain hprefix | hdiverges := le_iff.mp (le_of_lt h)
  · exact absurd (List.IsPrefix.eq_of_length hprefix hlength) (ne_of_lt h)
  · exact hdiverges

/-! ## Concatenated words -/

/-- A code for the items of a domain: no word is empty, and two words differ in the order `less` of
their items. -/
structure OrderedOn (domain : α → Prop) (encode : α → List β) (less : α → α → Prop) : Prop where
  nonempty : ∀ a, domain a → encode a ≠ []
  diverges : ∀ a b, domain a → domain b → less a b → Diverges (encode a) (encode b)
  total : ∀ a b, domain a → domain b → less a b ∨ a = b ∨ less b a

namespace OrderedOn

variable {domain : α → Prop} {encode : α → List β} {less : α → α → Prop}

section

variable (code : OrderedOn domain encode less) {s t : List α} (hs : ∀ a ∈ s, domain a)
  (ht : ∀ a ∈ t, domain a)

include code hs ht

theorem lt_of_lex (h : List.Lex less s t) : s.flatMap encode < t.flatMap encode := by
  induction h with
  | nil =>
    rename_i b t
    obtain ⟨letter, word, hword⟩ := List.exists_cons_of_ne_nil
      (code.nonempty b (ht b List.mem_cons_self))
    rw [List.flatMap_nil, List.flatMap_cons, hword, List.cons_append]
    exact List.Lex.nil
  | cons _ ih =>
    rw [List.flatMap_cons, List.flatMap_cons]
    exact List.append_left_lt (ih (fun a ha => hs a (List.mem_cons_of_mem _ ha))
      fun a ha => ht a (List.mem_cons_of_mem _ ha))
  | rel hless =>
    rw [List.flatMap_cons, List.flatMap_cons]
    exact ((code.diverges _ _ (hs _ List.mem_cons_self) (ht _ List.mem_cons_self)
      hless).append _ _).lt

theorem lex_total : List.Lex less s t ∨ s = t ∨ List.Lex less t s := by
  induction s generalizing t with
  | nil =>
    cases t with
    | nil => exact .inr (.inl rfl)
    | cons b t => exact .inl List.Lex.nil
  | cons a s ih =>
    cases t with
    | nil => exact .inr (.inr List.Lex.nil)
    | cons b t =>
      obtain h | rfl | h := code.total a b (hs a List.mem_cons_self) (ht b List.mem_cons_self)
      · exact .inl (List.Lex.rel h)
      · obtain h | rfl | h := ih (fun a ha => hs a (List.mem_cons_of_mem _ ha))
          (t := t) fun a ha => ht a (List.mem_cons_of_mem _ ha)
        · exact .inl (List.Lex.cons h)
        · exact .inr (.inl rfl)
        · exact .inr (.inr (List.Lex.cons h))
      · exact .inr (.inr (List.Lex.rel h))

/-- The concatenations are ordered as the lists of items are. -/
theorem flatMap_lt_iff : s.flatMap encode < t.flatMap encode ↔ List.Lex less s t := by
  constructor
  · intro hlt
    obtain h | rfl | h := code.lex_total hs ht
    · exact h
    · exact absurd hlt (lt_irrefl _)
    · exact absurd (code.lt_of_lex ht hs h) (lt_asymm hlt)
  · exact code.lt_of_lex hs ht

/-- A concatenation begins with another only where the list of items does. -/
theorem flatMap_prefix_iff : s.flatMap encode <+: t.flatMap encode ↔ s <+: t := by
  constructor
  · intro hprefix
    induction s generalizing t with
    | nil => exact List.nil_prefix
    | cons a s ih =>
      cases t with
      | nil =>
        rw [List.flatMap_nil, List.prefix_nil, List.flatMap_cons, List.append_eq_nil_iff]
          at hprefix
        exact absurd hprefix.1 (code.nonempty a (hs a List.mem_cons_self))
      | cons b t =>
        rw [List.flatMap_cons, List.flatMap_cons] at hprefix
        have ha := hs a List.mem_cons_self
        have hb := ht b List.mem_cons_self
        obtain h | rfl | h := code.total a b ha hb
        · exact absurd hprefix ((code.diverges a b ha hb h).append _ _).not_isPrefix
        · rw [List.prefix_append_right_inj] at hprefix
          exact List.cons_prefix_cons.mpr ⟨rfl, ih
            (fun a ha => hs a (List.mem_cons_of_mem _ ha))
            (fun a ha => ht a (List.mem_cons_of_mem _ ha)) hprefix⟩
        · exact absurd hprefix ((code.diverges b a hb ha h).append _ _).not_isPrefix_right
  · rintro ⟨u, rfl⟩
    rw [List.flatMap_append]
    exact List.prefix_append _ _

end

end OrderedOn

/-! ## The words that begin with a word -/

/-- `q` is `p` with its last letter that is not the greatest replaced by the next letter, and what
follows it dropped. -/
def IsSuccessor (p q : List β) : Prop :=
  ∃ head b next tail, p = head ++ b :: tail ∧ q = head ++ [next] ∧ b < next ∧
    (∀ c, b < c → next ≤ c) ∧ ∀ c ∈ tail, ∀ d, ¬ c < d

/-- A word with a greater letter at the last position of the successor is not below it. -/
theorem not_lt_successor {b y next : β} (hnext : ∀ c, b < c → next ≤ c) (hy : b < y)
    (head right : List β) : ¬ head ++ y :: right < head ++ [next] := by
  obtain hlt | rfl := (hnext y hy).lt_or_eq
  · exact lt_asymm ((diverges_of_head_lt hlt [] right).prepend head).lt
  · exact not_lt_of_ge (le_of_isPrefix ⟨right, by simp⟩)

/-- The words from `p` up to its successor are those that begin with `p`. -/
theorem IsSuccessor.range_iff {p q k : List β} (h : IsSuccessor p q) : p ≤ k ∧ k < q ↔ p <+: k := by
  obtain ⟨head, b, next, tail, rfl, rfl, hb, hnext, htail⟩ := h
  constructor
  · rintro ⟨hle, hlt⟩
    obtain hprefix | ⟨common, x, y, left, right, hp, rfl, hxy⟩ := le_iff.mp hle
    · exact hprefix
    · exfalso
      rw [List.append_eq_append_iff] at hp
      obtain ⟨mid, rfl, hmid⟩ | ⟨mid, rfl, hmid⟩ := hp
      · cases mid with
        | nil =>
          rw [List.nil_append, List.cons.injEq] at hmid
          obtain ⟨rfl, rfl⟩ := hmid
          rw [List.append_nil] at hlt
          exact not_lt_successor hnext hxy head right hlt
        | cons c mid =>
          -- The position lies in the tail, where no letter is below another.
          rw [List.cons_append, List.cons.injEq] at hmid
          obtain ⟨-, rfl⟩ := hmid
          exact htail x (by simp) y hxy
      · cases mid with
        | nil =>
          rw [List.nil_append, List.cons.injEq] at hmid
          obtain ⟨rfl, rfl⟩ := hmid
          rw [List.append_nil] at hlt
          exact not_lt_successor hnext hxy common right hlt
        | cons c mid =>
          -- The successor has the letter of `p` there.
          rw [List.cons_append, List.cons.injEq] at hmid
          obtain ⟨rfl, rfl⟩ := hmid
          exact lt_asymm hlt
            (Diverges.lt ⟨common, x, y, mid ++ [next], right, by simp, rfl, hxy⟩)
  · rintro ⟨u, rfl⟩
    refine ⟨le_of_isPrefix (List.prefix_append _ _), Diverges.lt ?_⟩
    exact ⟨head, b, next, tail ++ u, [], by simp, rfl, hb⟩

theorem IsSuccessor.length_le {p q : List β} (h : IsSuccessor p q) : q.length ≤ p.length := by
  obtain ⟨head, b, next, tail, rfl, rfl, -⟩ := h
  simp

/-! ## The neighbours of a word -/

/-- Behind a word comes the word followed by the least letter. -/
theorem append_least_le_iff {least : β} (hleast : ∀ c, least ≤ c) {k : List β} :
    s ++ [least] ≤ k ↔ s < k := by
  constructor
  · intro h
    have hlt : s ++ [] < s ++ [least] := List.append_left_lt List.Lex.nil
    rw [List.append_nil] at hlt
    exact lt_of_lt_of_le hlt h
  · intro h
    obtain ⟨u, rfl⟩ | hdiverges := le_iff.mp (le_of_lt h)
    · cases u with
      | nil => simp at h
      | cons c u =>
        obtain rfl | hlt := (hleast c).eq_or_lt
        · exact le_of_isPrefix ⟨u, by simp⟩
        · exact le_of_lt ((diverges_of_head_lt hlt [] u).prepend s).lt
    · have := hdiverges.append [least] []
      rw [List.append_nil] at this
      exact le_of_lt this.lt

/-- Between a word that ends in least letters and the word below it, padded with greatest ones, there
is only what begins with the padded word, and the word without some of the least letters. -/
theorem between_padded {head tail pad k : List β} {b prev : β} (hprev : ∀ c, c < b → c ≤ prev)
    (htail : ∀ c ∈ tail, ∀ d, ¬ d < c) (hpad : ∀ c ∈ pad, ∀ d, ¬ c < d)
    (hlow : head ++ prev :: pad < k) (hhigh : k < head ++ b :: tail) :
    head ++ prev :: pad <+: k ∨ ∃ rest, k = head ++ b :: rest ∧ rest <+: tail := by
  obtain hprefix | ⟨common, x, y, left, right, hlower, rfl, hxy⟩ := le_iff.mp (le_of_lt hlow)
  · exact .inl hprefix
  · refine .inr ?_
    have hposition : (∃ mid, head = common ++ x :: mid) ∨ (common = head ∧ x = prev) ∨
        ∃ mid, pad = mid ++ x :: left := by
      rw [List.append_eq_append_iff] at hlower
      obtain ⟨mid, rfl, hmid⟩ | ⟨mid, rfl, hmid⟩ := hlower
      · cases mid with
        | nil =>
          rw [List.nil_append, List.cons.injEq] at hmid
          exact .inr (.inl ⟨List.append_nil _, hmid.1.symm⟩)
        | cons c mid =>
          rw [List.cons_append, List.cons.injEq] at hmid
          exact .inr (.inr ⟨mid, hmid.2⟩)
      · cases mid with
        | nil =>
          rw [List.nil_append, List.cons.injEq] at hmid
          exact .inr (.inl ⟨(List.append_nil _).symm, hmid.1⟩)
        | cons c mid =>
          rw [List.cons_append, List.cons.injEq] at hmid
          exact .inl ⟨mid, by rw [hmid.1]⟩
    obtain ⟨mid, rfl⟩ | ⟨rfl, rfl⟩ | ⟨mid, rfl⟩ := hposition
    · -- The word has the smaller letter there, too.
      refine absurd hhigh (lt_asymm (Diverges.lt ?_))
      exact ⟨common, x, y, mid ++ b :: tail, right, by simp, rfl, hxy⟩
    · obtain hlt | rfl | hlt := lt_trichotomy y b
      · exact absurd (hprev y hlt) (not_le_of_gt hxy)
      · refine ⟨right, rfl, ?_⟩
        have hright : right ≤ tail := by
          by_contra hnot
          exact lt_asymm hhigh (List.append_left_lt (List.Lex.cons (not_le.mp hnot)))
        obtain hprefix | ⟨common', x', y', left', right', rfl, rfl, hxy'⟩ := le_iff.mp hright
        · exact hprefix
        · exact absurd hxy' (htail y' (by simp) x')
      · exact absurd hhigh (lt_asymm ((diverges_of_head_lt hlt tail right).prepend common).lt)
    · exact absurd hxy (hpad x (by simp) y)

end OrderedCodes
