import LeastLoad.Choice.Partition
import Mathlib.Algebra.BigOperators.Group.List.Basic
import Mathlib.Algebra.GroupWithZero.Nat
import Mathlib.Algebra.Order.Floor.Div
import Mathlib.Algebra.Order.Group.Nat

/-! # Groups that make up the row

The groups of a partition, put one behind another, are the row that was divided. They are as few
as the largest size allows, none of them is empty, and their sizes fall by one at most. -/

namespace LeastLoad

variable {α : Type} {len maxGroup i : Nat} {xs : List α} {s : Span} {sizes : List Nat}

namespace Span

instance : Membership Nat Span where
  mem s i := s.start ≤ i ∧ i < s.stop

instance (s : Span) (i : Nat) : Decidable (i ∈ s) :=
  inferInstanceAs (Decidable (s.start ≤ i ∧ i < s.stop))

theorem mem_def : i ∈ s ↔ s.start ≤ i ∧ i < s.stop := Iff.rfl

end Span

theorem sum_evenSizes {groups : Nat} (h : 0 < groups) : (evenSizes len groups).sum = len := by
  have hsum : ∀ n, ((List.range n).map fun g =>
      len / groups + if g < len % groups then 1 else 0).sum =
        n * (len / groups) + min n (len % groups) := by
    intro n
    induction n with
    | zero => simp
    | succ n ih =>
      rw [List.range_succ, List.map_append, List.sum_append, ih, List.map_singleton,
        List.sum_singleton, Nat.succ_mul]
      split <;> omega
  rw [evenSizes, hsum, Nat.min_eq_right (Nat.mod_lt _ h).le]
  exact Nat.div_add_mod len groups

theorem pos_of_mem_evenSizes {groups size : Nat} (h : groups ≤ len)
    (hs : size ∈ evenSizes len groups) : 0 < size := by
  obtain ⟨g, hg, rfl⟩ := List.mem_map.1 hs
  have hgroups : 0 < groups := Nat.zero_lt_of_lt (List.mem_range.1 hg)
  exact Nat.add_pos_left (Nat.div_pos h hgroups) _

theorem le_of_mem_evenSizes {groups size : Nat} (h : len ≤ groups * maxGroup)
    (hs : size ∈ evenSizes len groups) : size ≤ maxGroup := by
  obtain ⟨g, hg, rfl⟩ := List.mem_map.1 hs
  have hgroups : 0 < groups := Nat.zero_lt_of_lt (List.mem_range.1 hg)
  have hlen := Nat.div_add_mod len groups
  split
  · next hextra =>
    have hlt : groups * (len / groups) < groups * maxGroup := by omega
    exact Nat.lt_of_mul_lt_mul_left hlt
  · have hle : groups * (len / groups) ≤ groups * maxGroup := by omega
    exact Nat.le_of_mul_le_mul_left hle hgroups

theorem pairwise_evenSizes (len groups : Nat) : (evenSizes len groups).Pairwise (· ≥ ·) := by
  refine List.pairwise_map.2 (List.pairwise_lt_range.imp fun {g g'} hlt => ?_)
  split <;> split <;> omega

theorem le_succ_of_mem_evenSizes {groups size size' : Nat} (h : size ∈ evenSizes len groups)
    (h' : size' ∈ evenSizes len groups) : size ≤ size' + 1 := by
  obtain ⟨g, -, rfl⟩ := List.mem_map.1 h
  obtain ⟨g', -, rfl⟩ := List.mem_map.1 h'
  split <;> split <;> omega

theorem map_size_consecutive (start : Nat) (sizes : List Nat) :
    (consecutive start sizes).map Span.size = sizes := by
  induction sizes generalizing start with
  | nil => rfl
  | cons size sizes ih => simp [consecutive, ih, Span.size]

theorem stop_le_of_mem_consecutive {start : Nat} {sizes : List Nat}
    (h : s ∈ consecutive start sizes) : s.stop ≤ start + sizes.sum := by
  induction sizes generalizing start with
  | nil => cases h
  | cons size sizes ih =>
    rw [List.sum_cons]
    rcases List.mem_cons.1 h with rfl | h
    · exact Nat.add_le_add_left (Nat.le_add_right _ _) _
    · exact (ih h).trans (Nat.add_assoc _ _ _).le

theorem start_head?_consecutive (start : Nat) (h : sizes ≠ []) :
    (consecutive start sizes).head?.map Span.start = some start := by
  cases sizes with
  | nil => exact absurd rfl h
  | cons size sizes => rfl

theorem stop_getLast?_consecutive (start : Nat) (h : sizes ≠ []) :
    (consecutive start sizes).getLast?.map Span.stop = some (start + sizes.sum) := by
  induction sizes generalizing start with
  | nil => exact absurd rfl h
  | cons size sizes ih =>
    cases sizes with
    | nil => rfl
    | cons next sizes =>
      rw [consecutive, List.sum_cons, ← Nat.add_assoc, ← ih (start + size) (by simp)]
      rfl

theorem isChain_consecutive (start : Nat) (sizes : List Nat) :
    (consecutive start sizes).IsChain (·.stop = ·.start) := by
  induction sizes generalizing start with
  | nil => exact .nil
  | cons size sizes ih =>
    cases sizes with
    | nil => exact .singleton _
    | cons next sizes => exact .cons_cons rfl (ih _)

/-- Each position is in one of the spans, and in no other. -/
theorem countP_mem_consecutive (start i : Nat) (sizes : List Nat) :
    (consecutive start sizes).countP (i ∈ ·) =
      if start ≤ i ∧ i < start + sizes.sum then 1 else 0 := by
  induction sizes generalizing start with
  | nil =>
    simp [consecutive]
  | cons size sizes ih =>
    rw [consecutive, List.countP_cons, ih, List.sum_cons]
    simp only [Span.mem_def, decide_eq_true_eq]
    split <;> split <;> split <;> omega

theorem flatten_slices_consecutive (start : Nat) (sizes : List Nat) :
    ((consecutive start sizes).map (·.slice xs)).flatten = (xs.drop start).take sizes.sum := by
  induction sizes generalizing start with
  | nil => simp [consecutive]
  | cons size sizes ih =>
    rw [consecutive, List.map_cons, List.flatten_cons, ih, List.sum_cons, List.take_add,
      List.drop_drop, Span.slice, Span.size, Nat.add_sub_cancel_left]

def groupCount (len maxGroup : Nat) : Nat := (len + maxGroup - 1) / maxGroup

theorem groupCount_le (h : 0 < maxGroup) : groupCount len maxGroup ≤ len := by
  refine Nat.le_of_lt_succ (Nat.div_lt_of_lt_mul ?_)
  have hle : len ≤ maxGroup * len := Nat.le_mul_of_pos_left len h
  rw [Nat.mul_succ]
  omega

theorem groupCount_pos (hlen : 0 < len) (h : 0 < maxGroup) : 0 < groupCount len maxGroup :=
  Nat.div_pos (by omega) h

theorem le_groupCount_mul (h : 0 < maxGroup) : len ≤ groupCount len maxGroup * maxGroup := by
  have hcount := Nat.div_add_mod (len + maxGroup - 1) maxGroup
  have hmod := Nat.mod_lt (len + maxGroup - 1) h
  rw [groupCount, Nat.mul_comm]
  omega

theorem partition_eq (h : 0 < maxGroup) :
    partition len maxGroup = consecutive 0 (evenSizes len (groupCount len maxGroup)) :=
  if_neg (Nat.ne_of_gt h)

theorem map_size_partition (h : 0 < maxGroup) :
    (partition len maxGroup).map Span.size = evenSizes len (groupCount len maxGroup) := by
  rw [partition_eq h, map_size_consecutive]

theorem length_partition (h : 0 < maxGroup) :
    (partition len maxGroup).length = len ⌈/⌉ maxGroup := by
  rw [← List.length_map (f := Span.size), map_size_partition h, evenSizes, List.length_map,
    List.length_range, Nat.ceilDiv_eq_add_pred_div]
  rfl

theorem maxGroup_pos_of_mem_partition (hs : s ∈ partition len maxGroup) : 0 < maxGroup := by
  refine Nat.pos_of_ne_zero fun hz => ?_
  rw [partition, if_pos hz] at hs
  cases hs

theorem size_mem_evenSizes (hs : s ∈ partition len maxGroup) :
    s.size ∈ evenSizes len (groupCount len maxGroup) := by
  rw [← map_size_partition (maxGroup_pos_of_mem_partition hs)]
  exact List.mem_map_of_mem hs

theorem size_pos_of_mem_partition (hs : s ∈ partition len maxGroup) : 0 < s.size :=
  pos_of_mem_evenSizes (groupCount_le (maxGroup_pos_of_mem_partition hs)) (size_mem_evenSizes hs)

theorem size_le_of_mem_partition (hs : s ∈ partition len maxGroup) : s.size ≤ maxGroup :=
  le_of_mem_evenSizes (le_groupCount_mul (maxGroup_pos_of_mem_partition hs)) (size_mem_evenSizes hs)

theorem sum_evenSizes_groupCount (h : 0 < maxGroup) :
    (evenSizes len (groupCount len maxGroup)).sum = len := by
  rcases Nat.eq_zero_or_pos len with rfl | hlen
  · have hz : groupCount 0 maxGroup = 0 := Nat.le_zero.1 (groupCount_le h)
    rw [hz]
    rfl
  · exact sum_evenSizes (groupCount_pos hlen h)

theorem sum_sizes_partition (h : 0 < maxGroup) :
    ((partition len maxGroup).map Span.size).sum = len := by
  rw [map_size_partition h, sum_evenSizes_groupCount h]

theorem mem_of_mem_slice {x : α} (h : x ∈ s.slice xs) : x ∈ xs :=
  List.mem_of_mem_drop (List.mem_of_mem_take h)

theorem length_slice (hs : s ∈ partition xs.length maxGroup) :
    (s.slice xs).length = s.size := by
  have h := maxGroup_pos_of_mem_partition hs
  rw [partition_eq h] at hs
  have hstop := stop_le_of_mem_consecutive hs
  rw [sum_evenSizes_groupCount h] at hstop
  simp only [Span.slice, Span.size, List.length_take, List.length_drop]
  omega

theorem slice_ne_nil (hs : s ∈ partition xs.length maxGroup) : s.slice xs ≠ [] := by
  have hpos := size_pos_of_mem_partition hs
  rw [← length_slice hs] at hpos
  exact List.ne_nil_of_length_pos hpos

theorem flatten_slices_partition (xs : List α) (h : 0 < maxGroup) :
    ((partition xs.length maxGroup).map (·.slice xs)).flatten = xs := by
  rw [partition_eq h, flatten_slices_consecutive, sum_evenSizes_groupCount h, List.drop_zero,
    List.take_length]

theorem slices_partition_of_le (hne : xs ≠ []) (h : xs.length ≤ maxGroup) :
    (partition xs.length maxGroup).map (·.slice xs) = [xs] := by
  have hlen := List.length_pos_iff.2 hne
  have hcount : groupCount xs.length maxGroup = 1 :=
    Nat.div_eq_of_lt_le (by omega) (by omega)
  rw [partition_eq (hlen.trans_le h), hcount]
  simp [evenSizes, consecutive, Span.slice, Span.size, Nat.mod_one]

theorem map_slice {β : Type} (f : α → β) (s : Span) (xs : List α) :
    (s.slice xs).map f = s.slice (xs.map f) := by
  simp [Span.slice, List.map_take, List.map_drop]

end LeastLoad
