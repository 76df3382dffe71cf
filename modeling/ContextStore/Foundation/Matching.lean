import Mathlib.Data.List.GetD

/-! # Finding a word in a text

The search of Knuth, Morris and Pratt goes through the text once and keeps how much of the word has
just been read: the longest beginning of the word that the text so far ends in (`Longest`). Where a
symbol does not go on with it, a table tells the next shorter one. -/

namespace Matching

variable {α : Type} [DecidableEq α]

/-! ## The search -/

section Search

variable (needle : List α) (table : List Nat)

/-- `while (matched > 0 && symbol !== needle[matched]) matched = table[matched - 1]`; each round
makes `matched` smaller, so that it is fuel enough. -/
def fallBack (symbol : α) : Nat → Nat → Nat
  | 0, matched => matched
  | fuel + 1, matched =>
    if 0 < matched ∧ needle[matched]? ≠ some symbol then
      fallBack symbol fuel (table.getD (matched - 1) 0)
    else matched

/-- How much of the needle is read with one symbol more. -/
def advance (matched : Nat) (symbol : α) : Nat :=
  let shorter := fallBack needle table symbol matched matched
  if needle[shorter]? = some symbol then shorter + 1 else shorter

end Search

/-- The loop over a text, which ends behind the first occurrence. -/
def find (needle : List α) (table : List Nat) : List α → Nat → Nat → Option Nat
  | [], _, _ => none
  | symbol :: rest, index, matched =>
    let matched := advance needle table matched symbol
    if 0 < matched ∧ matched = needle.length then some (index + 1)
    else find needle table rest (index + 1) matched

/-- The loop that fills the table. -/
def tableFrom (needle : List α) : List α → List Nat → Nat → List Nat
  | [], table, _ => table
  | symbol :: rest, table, matched =>
    let matched := advance needle table matched symbol
    tableFrom needle rest (table ++ [matched]) matched

def prefixTable (needle : List α) : List Nat :=
  match needle with
  | [] => []
  | _ :: rest => tableFrom needle rest [0] 0

/-! ## The longest beginning -/

/-- Of the beginnings of the needle that the text ends in, the longest has this length. -/
structure Longest (needle text : List α) (matched : Nat) : Prop where
  le : matched ≤ needle.length
  suffix : needle.take matched <:+ text
  max : ∀ k, k ≤ needle.length → needle.take k <:+ text → k ≤ matched

variable {needle text : List α} {table : List Nat} {matched : Nat} {symbol : α}

omit [DecidableEq α] in
theorem Longest.nil (needle : List α) : Longest needle [] 0 where
  le := Nat.zero_le _
  suffix := by simp
  max := by
    intro k hk hsuffix
    have hlength := hsuffix.length_le
    rw [List.length_take, List.length_nil] at hlength
    omega

omit [DecidableEq α] in
theorem take_suffix_snoc {k : Nat} (hk : k < needle.length) :
    needle.take (k + 1) <:+ text ++ [symbol] ↔
      needle[k]? = some symbol ∧ needle.take k <:+ text := by
  rw [List.take_add_one, List.getElem?_eq_getElem hk, Option.toList_some]
  constructor
  · rintro ⟨before, hbefore⟩
    rw [← List.append_assoc] at hbefore
    obtain ⟨htext, hsymbol⟩ := List.append_inj' hbefore rfl
    rw [List.singleton_inj] at hsymbol
    exact ⟨congrArg some hsymbol, before, htext⟩
  · rintro ⟨hsymbol, before, rfl⟩
    rw [Option.some.inj hsymbol]
    exact ⟨before, by rw [List.append_assoc]⟩

/-- The table tells of each of its positions how much of the needle its own tail ends in there. -/
structure Tabulates (needle : List α) (table : List Nat) (size : Nat) : Prop where
  length : table.length = size
  longest : ∀ i, i < size → Longest needle (needle.tail.take i) (table.getD i 0)

omit [DecidableEq α] in
/-- The next shorter beginning that the text may end in. -/
theorem Tabulates.shorter {size k : Nat} (h : Tabulates needle table size) (hpos : 0 < matched)
    (hsize : matched ≤ size) (hle : matched ≤ needle.length) :
    table.getD (matched - 1) 0 < matched ∧
      needle.take (table.getD (matched - 1) 0) <:+ needle.take matched ∧
      (needle.take k <:+ needle.take matched → k < matched → k ≤ table.getD (matched - 1) 0) := by
  have hlongest := h.longest (matched - 1) (by omega)
  have htail : needle.take matched = needle.take 1 ++ needle.tail.take (matched - 1) := by
    cases needle with
    | nil => simp
    | cons first rest =>
      obtain ⟨m, rfl⟩ : ∃ m, matched = m + 1 := ⟨matched - 1, by omega⟩
      simp
  have hlength : (needle.tail.take (matched - 1)).length = matched - 1 := by
    rw [List.length_take, List.length_tail]
    omega
  have hshort : table.getD (matched - 1) 0 ≤ matched - 1 := by
    have := hlongest.suffix.length_le
    have hle' := hlongest.le
    rw [hlength, List.length_take] at this
    omega
  refine ⟨by omega, ?_, fun hsuffix hk => hlongest.max k (by omega) ?_⟩
  · rw [htail]
    exact hlongest.suffix.trans (List.suffix_append _ _)
  · rw [htail] at hsuffix
    refine List.suffix_of_suffix_length_le hsuffix (List.suffix_append _ _) ?_
    rw [hlength, List.length_take]
    omega

/-- What the loop falls back to: the longest beginning with which the symbol goes on, if there is
one. -/
theorem Tabulates.fallBack {size : Nat} (h : Tabulates needle table size) (symbol : α)
    (fuel : Nat) (hfuel : matched ≤ fuel) (hsize : matched ≤ size)
    (hle : matched ≤ needle.length) :
    fallBack needle table symbol fuel matched ≤ matched ∧
      needle.take (fallBack needle table symbol fuel matched) <:+ needle.take matched ∧
      (fallBack needle table symbol fuel matched = 0 ∨
        needle[fallBack needle table symbol fuel matched]? = some symbol) ∧
      ∀ k, k ≤ matched → needle.take k <:+ needle.take matched → needle[k]? = some symbol →
        k ≤ fallBack needle table symbol fuel matched := by
  induction fuel generalizing matched with
  | zero =>
    obtain rfl : matched = 0 := by omega
    exact ⟨Nat.le_refl _, List.suffix_refl _, .inl rfl, fun k hk _ _ => hk⟩
  | succ fuel ih =>
    rw [Matching.fallBack]
    split
    · rename_i hcond
      obtain ⟨hlt, hsuffix, -⟩ := h.shorter (k := 0) hcond.1 hsize hle
      obtain ⟨hless, hshort, hgoes, hmax⟩ := ih (Nat.le_of_lt_succ (Nat.lt_of_lt_of_le hlt hfuel))
        (Nat.le_trans (Nat.le_of_lt hlt) hsize) (Nat.le_trans (Nat.le_of_lt hlt) hle)
      refine ⟨by omega, hshort.trans hsuffix, hgoes, fun k hk hborder hsymbol => ?_⟩
      have hne : k ≠ matched := by
        rintro rfl
        exact hcond.2 hsymbol
      obtain ⟨-, -, hbelow⟩ := h.shorter (k := k) hcond.1 hsize hle
      have hk' := hbelow hborder (by omega)
      refine hmax k hk' ?_ hsymbol
      refine List.suffix_of_suffix_length_le hborder hsuffix ?_
      rw [List.length_take, List.length_take]
      omega
    · rename_i hcond
      refine ⟨Nat.le_refl _, List.suffix_refl _, ?_, fun k hk _ _ => hk⟩
      by_cases hzero : matched = 0
      · exact .inl hzero
      · exact .inr (not_not.mp fun hne => hcond ⟨by omega, hne⟩)

/-- With one symbol more it is still the longest beginning that is kept. -/
theorem Longest.advance {size : Nat} (h : Longest needle text matched)
    (htable : Tabulates needle table size) (hsize : matched ≤ size) (symbol : α) :
    Longest needle (text ++ [symbol]) (advance needle table matched symbol) := by
  obtain ⟨hle, hsuffix, hgoes, hmax⟩ :=
    htable.fallBack symbol matched (Nat.le_refl _) hsize h.le
  have hlongest : ∀ k, k < needle.length → needle.take (k + 1) <:+ text ++ [symbol] →
      needle[k]? = some symbol ∧ k ≤ Matching.fallBack needle table symbol matched matched := by
    intro k hk hnext
    obtain ⟨hsymbol, htext⟩ := (take_suffix_snoc hk).mp hnext
    have hkm := h.max k (by omega) htext
    refine ⟨hsymbol, hmax k hkm ?_ hsymbol⟩
    refine List.suffix_of_suffix_length_le htext h.suffix ?_
    rw [List.length_take, List.length_take]
    omega
  simp only [Matching.advance]
  split
  · rename_i hsymbol
    have hlt := (List.getElem?_eq_some_iff.mp hsymbol).1
    refine ⟨hlt, (take_suffix_snoc hlt).mpr ⟨hsymbol, hsuffix.trans h.suffix⟩, ?_⟩
    intro k hk hnext
    cases k with
    | zero => exact Nat.zero_le _
    | succ k => exact Nat.succ_le_succ (hlongest k (by omega) hnext).2
  · rename_i hsymbol
    rcases hgoes with hzero | hgoes
    · rw [hzero] at hsymbol ⊢
      refine ⟨Nat.zero_le _, by simp, fun k hk hnext => ?_⟩
      cases k with
      | zero => exact Nat.le_refl _
      | succ k =>
        obtain ⟨hk', hle'⟩ := hlongest k (by omega) hnext
        rw [hzero, Nat.le_zero] at hle'
        rw [hle'] at hk'
        exact absurd hk' hsymbol
    · exact absurd hgoes hsymbol

/-! ## The table -/

theorem tabulates_tableFrom (done : List α) {rest : List α} (hneedle : needle.tail = done ++ rest)
    (hne : needle ≠ []) (htable : Tabulates needle table (done.length + 1))
    (hlongest : Longest needle done matched) :
    Tabulates needle (tableFrom needle rest table matched) needle.length := by
  induction rest generalizing done table matched with
  | nil =>
    have hlength : needle.length = done.length + 1 := by
      have := congrArg List.length hneedle
      rw [List.length_tail, List.append_nil] at this
      have := List.length_pos_iff.mpr hne
      omega
    rw [tableFrom, hlength]
    exact htable
  | cons symbol rest ih =>
    have hsize : matched ≤ done.length + 1 := by
      have := hlongest.suffix.length_le
      have hle := hlongest.le
      rw [List.length_take] at this
      omega
    have hnext := hlongest.advance htable hsize symbol
    rw [tableFrom]
    refine ih (done ++ [symbol]) ?_ ⟨?_, fun i hi => ?_⟩ hnext
    · rw [hneedle, List.append_assoc, List.singleton_append]
    · rw [List.length_append, htable.length, List.length_append]
      rfl
    · rw [List.length_append, List.length_singleton] at hi
      by_cases hlast : i = done.length + 1
      · have htake : needle.tail.take i = done ++ [symbol] := by
          rw [hneedle, hlast, ← List.singleton_append, ← List.append_assoc]
          exact List.take_left' (by simp)
        have hsize : table.length ≤ i := Nat.le_of_eq (htable.length.trans hlast.symm)
        rw [htake, List.getD_append_right _ _ _ _ hsize, htable.length, hlast, Nat.sub_self]
        exact hnext
      · rw [List.getD_append _ _ _ _ (by rw [htable.length]; omega)]
        exact htable.longest i (by omega)

theorem tabulates_prefixTable (needle : List α) :
    Tabulates needle (prefixTable needle) needle.length := by
  cases needle with
  | nil => exact ⟨rfl, fun i hi => absurd hi (Nat.not_lt_zero _)⟩
  | cons first rest =>
    refine tabulates_tableFrom [] rfl (List.cons_ne_nil _ _) ⟨rfl, fun i hi => ?_⟩
      (.nil _)
    obtain rfl : i = 0 := by simpa using hi
    exact .nil _

/-! ## Occurrences -/

/-- The first occurrence of the needle is at the position. -/
def Leftmost (needle text : List α) (position : Nat) : Prop :=
  needle <+: text.drop position ∧ ∀ q, q < position → ¬ needle <+: text.drop q

omit [DecidableEq α] in
theorem Leftmost.unique {p q : Nat} (hp : Leftmost needle text p) (hq : Leftmost needle text q) :
    p = q := by
  rcases Nat.lt_trichotomy p q with hlt | heq | hgt
  · exact absurd hp.1 (hq.2 p hlt)
  · exact heq
  · exact absurd hq.1 (hp.2 q hgt)

omit [DecidableEq α] in
theorem exists_leftmost {p : Nat} (h : needle <+: text.drop p) :
    ∃ q, q ≤ p ∧ Leftmost needle text q := by
  induction p using Nat.strongRecOn with
  | ind p ih =>
    by_cases hfirst : ∃ q, q < p ∧ needle <+: text.drop q
    · obtain ⟨q, hq, hoccurs⟩ := hfirst
      obtain ⟨r, hr, hleftmost⟩ := ih q hq hoccurs
      exact ⟨r, by omega, hleftmost⟩
    · exact ⟨p, Nat.le_refl _, h, fun q hq hoccurs => hfirst ⟨q, hq, hoccurs⟩⟩

omit [DecidableEq α] in
theorem Longest.eq_length_iff (h : Longest needle text matched) :
    matched = needle.length ↔ needle <:+ text := by
  constructor
  · intro heq
    have hsuffix := h.suffix
    rwa [heq, List.take_length] at hsuffix
  · intro hsuffix
    have hle := h.max needle.length (Nat.le_refl _) (by rwa [List.take_length])
    exact Nat.le_antisymm h.le hle

omit [DecidableEq α] in
theorem suffix_take_iff {stop : Nat} (hstop : stop ≤ text.length) :
    needle <:+ text.take stop ↔
      needle.length ≤ stop ∧ needle <+: text.drop (stop - needle.length) := by
  constructor
  · rintro ⟨before, hbefore⟩
    have hlength := congrArg List.length hbefore
    rw [List.length_append, List.length_take, Nat.min_eq_left hstop] at hlength
    have htext : text = before ++ (needle ++ text.drop stop) := by
      rw [← List.append_assoc, hbefore, List.take_append_drop]
    have hdrop : text.drop before.length = needle ++ text.drop stop :=
      (congrArg (List.drop before.length) htext).trans List.drop_left
    have hstart : stop - needle.length = before.length := by omega
    rw [hstart, hdrop]
    exact ⟨by omega, List.prefix_append _ _⟩
  · rintro ⟨hle, hoccurs⟩
    have htake : text.take stop = text.take (stop - needle.length) ++
        (text.drop (stop - needle.length)).take needle.length := by
      rw [← List.take_add]
      congr 1
      omega
    rw [htake, ← List.prefix_iff_eq_take.mp hoccurs]
    exact List.suffix_append _ _

/-- The search goes on to the first place at which the text ends in the needle. -/
theorem find_cases (size : Nat) (htable : Tabulates needle table needle.length)
    (hne : needle ≠ []) (rest : List α) (index : Nat) (hlongest : Longest needle text matched)
    (hsize : size = text.length + rest.length) :
    (find needle table rest index matched = none ∧
      ∀ stop, text.length < stop → stop ≤ size → ¬ needle <:+ (text ++ rest).take stop) ∨
    ∃ stop, find needle table rest index matched = some (index + (stop - text.length)) ∧
      text.length < stop ∧ stop ≤ size ∧ needle <:+ (text ++ rest).take stop ∧
      ∀ earlier, text.length < earlier → earlier < stop →
        ¬ needle <:+ (text ++ rest).take earlier := by
  induction rest generalizing text index matched with
  | nil =>
    refine .inl ⟨rfl, fun stop hlt hle => ?_⟩
    rw [List.length_nil] at hsize
    omega
  | cons symbol rest ih =>
    have hnext := hlongest.advance htable hlongest.le symbol
    have happend : text ++ symbol :: rest = text ++ [symbol] ++ rest := by simp
    have hlength : (text ++ [symbol]).length = text.length + 1 := by simp
    have htake : (text ++ [symbol] ++ rest).take (text.length + 1) = text ++ [symbol] :=
      List.take_left' hlength
    rw [List.length_cons] at hsize
    rw [find, happend]
    split
    · rename_i hfound
      refine .inr ⟨text.length + 1, ?_, by omega, by omega, ?_, fun earlier hlt hless => by omega⟩
      · congr 1
        omega
      · rw [htake]
        exact hnext.eq_length_iff.mp hfound.2
    · rename_i hgoes
      have hno : ¬ needle <:+ text ++ [symbol] := by
        intro hsuffix
        have heq := hnext.eq_length_iff.mpr hsuffix
        have hpos := List.length_pos_iff.mpr hne
        exact hgoes ⟨by omega, heq⟩
      rcases ih (index + 1) hnext (by rw [hlength]; omega) with
        ⟨hnone, hall⟩ | ⟨stop, hsome, hlt, hle, hoccurs, hfirst⟩
      · refine .inl ⟨hnone, fun stop hlt hle => ?_⟩
        by_cases hstop : stop = text.length + 1
        · rwa [hstop, htake]
        · exact hall stop (by omega) hle
      · refine .inr ⟨stop, ?_, by omega, hle, hoccurs, fun earlier hafter hbefore => ?_⟩
        · rw [hsome, hlength]
          congr 1
          omega
        · by_cases hstop : earlier = text.length + 1
          · rwa [hstop, htake]
          · exact hfirst earlier (by omega) hbefore

/-- The search finds the first occurrence, and finds none only where there is none. -/
theorem find_prefixTable (hne : needle ≠ []) (text : List α) (index : Nat) :
    (find needle (prefixTable needle) text index 0 = none ∧ ∀ p, ¬ needle <+: text.drop p) ∨
    ∃ p, find needle (prefixTable needle) text index 0 = some (index + p + needle.length) ∧
      Leftmost needle text p := by
  have hends : ∀ {p : Nat}, needle <+: text.drop p →
      p + needle.length ≤ text.length ∧ needle <:+ text.take (p + needle.length) := by
    intro p hoccurs
    have hlength := hoccurs.length_le
    have hpos := List.length_pos_iff.mpr hne
    rw [List.length_drop] at hlength
    have hle : p + needle.length ≤ text.length := by omega
    refine ⟨hle, (suffix_take_iff hle).mpr ⟨by omega, ?_⟩⟩
    rwa [Nat.add_sub_cancel]
  have hpos := List.length_pos_iff.mpr hne
  have hcases := find_cases text.length (tabulates_prefixTable needle) hne text index (.nil needle)
    (by simp)
  rw [List.nil_append, List.length_nil] at hcases
  rcases hcases with ⟨hnone, hall⟩ | ⟨stop, hsome, -, hle, hoccurs, hfirst⟩
  · refine .inl ⟨hnone, fun p hoccurs => ?_⟩
    obtain ⟨hle, hsuffix⟩ := hends hoccurs
    exact hall _ (by omega) hle hsuffix
  · obtain ⟨hlength, hat⟩ := (suffix_take_iff hle).mp hoccurs
    refine .inr ⟨stop - needle.length, ?_, hat, fun q hq hearlier => ?_⟩
    · rw [hsome]
      congr 1
      omega
    · obtain ⟨-, hsuffix⟩ := hends hearlier
      exact hfirst _ (by omega) (by omega) hsuffix

end Matching
