import Mathlib.Data.List.Count
import Mathlib.Data.List.Nodup

/-! # Segments of a list

A list is cut into segments of a size, the last of which holds what is left. Items that are fewer
than the last segment holds cannot fill any segment on their own (`exists_mem_of_countP_lt`). -/

namespace Segments

variable {α : Type}

/-- How many segments of a size hold so many items? -/
def number (size count : Nat) : Nat := (count + size - 1) / size

def segment (size : Nat) (l : List α) (i : Nat) : List α := (l.drop (i * size)).take size

def segments (size : Nat) (l : List α) : List (List α) :=
  (List.range (number size l.length)).map (segment size l)

/-- How many items does the last segment hold? -/
def lastSize (size count : Nat) : Nat := (count - 1) % size + 1

variable {size : Nat} {l : List α}

/-! ## How many there are -/

theorem number_eq {count k : Nat} (hlt : k * size < count + size) (hle : count ≤ k * size) :
    number size count = k := by
  have hmul : (k + 1) * size = k * size + size := Nat.succ_mul k size
  exact Nat.div_eq_of_lt_le (by omega) (by omega)

@[simp]
theorem number_zero (hsize : 0 < size) : number size 0 = 0 := number_eq (by omega) (by omega)

/-- One more item starts a segment when the segments before it are full. -/
theorem number_succ (hsize : 0 < size) (count : Nat) :
    number size (count + 1) = number size count + if count % size = 0 then 1 else 0 := by
  have hsplit := Nat.div_add_mod' count size
  have hmod := Nat.mod_lt count hsize
  have hmul : (count / size + 1) * size = count / size * size + size := Nat.succ_mul _ _
  have hnext : number size (count + 1) = count / size + 1 := number_eq (by omega) (by omega)
  rw [hnext]
  split
  · rw [number_eq (k := count / size) (by omega) (by omega)]
  · rw [number_eq (k := count / size + 1) (by omega) (by omega)]

theorem number_of_pos {count : Nat} (hsize : 0 < size) (hpos : 0 < count) :
    number size count = number size (count - size) + 1 := by
  have hadd : count + size - 1 = count - 1 + size := by omega
  rw [number, hadd, Nat.add_div_right _ hsize, number]
  rcases Nat.lt_or_ge count size with hlt | hge
  · rw [Nat.div_eq_of_lt (by omega), Nat.div_eq_of_lt (by omega)]
  · congr 2
    omega

/-! ## How long the last one is -/

theorem lastSize_pos (count : Nat) : 0 < lastSize size count := Nat.succ_pos _

theorem lastSize_le (hsize : 0 < size) (count : Nat) : lastSize size count ≤ size :=
  Nat.mod_lt _ hsize

theorem lastSize_of_le {count : Nat} (hpos : 0 < count) (hle : count ≤ size) :
    lastSize size count = count := by
  rw [lastSize, Nat.mod_eq_of_lt (by omega)]
  omega

theorem lastSize_add (count : Nat) (hpos : 0 < count) :
    lastSize size (count + size) = lastSize size count := by
  rw [lastSize, Nat.sub_add_comm hpos, Nat.add_mod_right, lastSize]

/-- An item that starts no segment makes the last one longer. -/
theorem lastSize_succ (hsize : 0 < size) {count : Nat} (hmod : count % size ≠ 0) :
    lastSize size (count + 1) = lastSize size count + 1 := by
  -- such an item is not the first of its segment, so its place follows that of the one before it
  have hsplit := Nat.div_add_mod count size
  have hlt := Nat.mod_lt count hsize
  have hbefore : count - 1 = size * (count / size) + (count % size - 1) := by omega
  have hlast : (count - 1) % size = count % size - 1 := by
    rw [hbefore, Nat.mul_add_mod, Nat.mod_eq_of_lt (by omega)]
  rw [lastSize, lastSize, Nat.add_sub_cancel, hlast]
  omega

/-! ## What they hold -/

@[simp]
theorem segments_nil (hsize : 0 < size) : segments size ([] : List α) = [] := by
  simp [segments, hsize]

/-- The first segment, and those of the rest. -/
theorem segments_of_ne_nil (hsize : 0 < size) (hne : l ≠ []) :
    segments size l = l.take size :: segments size (l.drop size) := by
  have hnumber : number size l.length = number size (l.drop size).length + 1 := by
    rw [List.length_drop, ← number_of_pos hsize (List.length_pos_iff.mpr hne)]
  rw [segments, hnumber, List.range_succ_eq_map, List.map_cons, List.map_map, segments]
  congr 1
  · simp [segment]
  · apply List.map_congr_left
    intro i _
    simp [segment, List.drop_drop, Nat.succ_mul, Nat.add_comm]

theorem length_segments : (segments size l).length = number size l.length := by
  simp [segments]

/-- A property of lists that is shown for a list when it holds of what is left behind its first
segment. -/
theorem drop_induction {motive : List α → Prop} (hsize : 0 < size) (nil : motive [])
    (drop : ∀ l, l ≠ [] → motive (l.drop size) → motive l) (l : List α) : motive l := by
  by_cases hne : l = []
  · rw [hne]
    exact nil
  · exact drop l hne (drop_induction hsize nil drop (l.drop size))
termination_by l.length
decreasing_by
  have hpos := List.length_pos_iff.mpr hne
  rw [List.length_drop]
  omega

theorem flatten_segments (hsize : 0 < size) (l : List α) : (segments size l).flatten = l := by
  induction l using drop_induction hsize with
  | nil => simp [hsize]
  | drop l hne ih => rw [segments_of_ne_nil hsize hne, List.flatten_cons, ih, List.take_append_drop]

theorem exists_mem_segments (hsize : 0 < size) {a : α} (h : a ∈ l) : ∃ s ∈ segments size l, a ∈ s := by
  rw [← flatten_segments hsize l] at h
  exact List.mem_flatten.mp h

theorem sublist_of_mem_segments {s : List α} (h : s ∈ segments size l) : s.Sublist l := by
  obtain ⟨i, -, rfl⟩ := List.mem_map.mp h
  exact (List.take_sublist _ _).trans (List.drop_sublist _ _)

theorem length_le_of_mem_segments {s : List α} (h : s ∈ segments size l) : s.length ≤ size := by
  obtain ⟨i, -, rfl⟩ := List.mem_map.mp h
  exact List.length_take_le _ _

theorem lastSize_le_length (hsize : 0 < size) {s : List α} (h : s ∈ segments size l) :
    lastSize size l.length ≤ s.length := by
  induction l using drop_induction hsize with
  | nil => simp [hsize] at h
  | drop l hne ih =>
    have hpos := List.length_pos_iff.mpr hne
    rw [segments_of_ne_nil hsize hne, List.mem_cons] at h
    rcases Nat.lt_or_ge size l.length with hlt | hle
    · have hlast : lastSize size l.length = lastSize size (l.drop size).length := by
        rw [List.length_drop, ← lastSize_add (l.length - size) (by omega),
          Nat.sub_add_cancel (by omega)]
      rw [hlast]
      rcases h with rfl | h
      · rw [List.length_take, Nat.min_eq_left (by omega)]
        exact lastSize_le hsize _
      · exact ih h
    · rw [List.drop_eq_nil_of_le hle, segments_nil hsize] at h
      obtain rfl : s = l.take size := by simpa using h
      rw [lastSize_of_le hpos hle, List.length_take]
      omega

/-- Items that are fewer than the last segment holds leave room for another in every segment. -/
theorem exists_mem_of_countP_lt (hsize : 0 < size) {p : α → Bool} {s : List α}
    (hcount : l.countP p < lastSize size l.length) (h : s ∈ segments size l) :
    ∃ a ∈ s, p a = false := by
  by_contra hnone
  have hall : s.countP p = s.length := by
    rw [List.countP_eq_length]
    intro a ha
    by_contra hp
    exact hnone ⟨a, ha, by simpa using hp⟩
  have hle := (sublist_of_mem_segments h).countP_le (p := p)
  have hlong := lastSize_le_length hsize h
  omega

end Segments
