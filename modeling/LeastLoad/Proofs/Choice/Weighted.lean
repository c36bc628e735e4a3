import LeastLoad.Choice.Weighted
import Mathlib.Algebra.BigOperators.Group.List.Basic
import Mathlib.Algebra.GroupWithZero.Nat
import Mathlib.Algebra.Order.Group.Nat
import Mathlib.Data.List.Induction
import Mathlib.Order.Interval.Finset.Nat

/-! # Every ticket has an owner

The running total is the sum of the weights, cut to the largest number. Whatever ticket is drawn
below it belongs to one of the items, so a choice fails only if there is no weight at all. The
tickets of an item lie between the sums of the weights before it and with it, so it has as many of
them as its weight says. -/

namespace LeastLoad

namespace Weighted

variable {α σ : Type} [WordSource σ] {c : Weighted α} {xs : List (α × Nat)} {j k ticket : Nat}

@[simp] theorem items_add (item : α) (weight : Nat) :
    (c.add item weight).items = c.items ++ [item] := by
  simp [add, items]

@[simp] theorem total_add (item : α) (weight : Nat) :
    (c.add item weight).total = min (c.total + weight) ceiling := by
  simp [add, total]

theorem items_ofList (xs : List (α × Nat)) : (ofList xs).items = xs.map (·.1) := by
  have hfold : ∀ c : Weighted α, (xs.foldl (fun c x => c.add x.1 x.2) c).items =
      c.items ++ xs.map (·.1) := by
    induction xs with
    | nil => simp
    | cons x xs ih => simp [ih]
  exact (hfold {}).trans (List.nil_append _)

theorem total_ofList (xs : List (α × Nat)) :
    (ofList xs).total = min (xs.map (·.2)).sum ceiling := by
  have hfold : ∀ c : Weighted α, c.total ≤ ceiling →
      (xs.foldl (fun c x => c.add x.1 x.2) c).total =
        min (c.total + (xs.map (·.2)).sum) ceiling := by
    induction xs with
    | nil => exact fun c hc => (Nat.min_eq_left hc).symm
    | cons x xs ih =>
      intro c hc
      have hcut : (c.add x.1 x.2).total ≤ ceiling := by
        rw [total_add]
        exact Nat.min_le_right _ _
      rw [List.foldl_cons, ih _ hcut, List.map_cons, List.sum_cons, total_add]
      omega
  rw [ofList, hfold {} (Nat.zero_le _)]
  exact congrArg (min · ceiling) (Nat.zero_add _)

theorem owner?_of_lt {ticket : Nat} (h : ticket < c.total) :
    ∃ x ∈ c.items, c.owner? ticket = some x := by
  have hsome : (c.entries.find? (ticket < ·.2)).isSome := by
    rw [Array.find?_isSome]
    rw [total] at h
    cases hlast : c.entries.back? with
    | none =>
      rw [hlast] at h
      cases h
    | some last =>
      rw [hlast] at h
      exact ⟨last, Array.mem_of_back? hlast, decide_eq_true h⟩
  obtain ⟨x, hx⟩ := Option.isSome_iff_exists.1 hsome
  refine ⟨x.1, List.mem_map_of_mem (Array.mem_toList_iff.2 (Array.mem_of_find?_eq_some hx)), ?_⟩
  rw [owner?, hx]
  rfl

theorem mem_of_select {s : σ} {x : α} (h : (c.select s).1 = some x) : x ∈ c.items := by
  rw [select] at h
  split at h
  · cases h
  · obtain ⟨entry, hentry, rfl⟩ := Option.map_eq_some_iff.1 h
    exact List.mem_map_of_mem (Array.mem_toList_iff.2 (Array.mem_of_find?_eq_some hentry))

theorem select_of_total_eq_zero (h : c.total = 0) (s : σ) : c.select s = (none, s) := if_pos h

theorem select_of_total_pos (h : 0 < c.total) (s : σ) : ∃ x ∈ c.items, (c.select s).1 = some x := by
  rw [select, if_neg (Nat.ne_of_gt h)]
  exact owner?_of_lt (Random.uniform_lt h s)

def place? (c : Weighted α) (ticket : Nat) : Option Nat := c.entries.findIdx? (ticket < ·.2)

theorem owner?_eq (c : Weighted α) (ticket : Nat) :
    c.owner? ticket = (c.place? ticket).bind (c.items[·]?) := by
  rw [owner?, Array.find?_eq_bind_findIdx?_getElem?, Option.map_bind]
  refine Option.bind_congr fun k _ => ?_
  simp [items]

/-- The sum of the first `k` weights, cut to the largest total. -/
def bound (xs : List (α × Nat)) (k : Nat) : Nat := min ((xs.take k).map (·.2)).sum ceiling

theorem sum_take_mono (xs : List (α × Nat)) (h : j ≤ k) :
    ((xs.take j).map (·.2)).sum ≤ ((xs.take k).map (·.2)).sum := by
  obtain ⟨d, rfl⟩ := Nat.exists_eq_add_of_le h
  rw [List.take_add, List.map_append, List.sum_append]
  exact Nat.le_add_right _ _

theorem bound_mono (xs : List (α × Nat)) (h : j ≤ k) : bound xs j ≤ bound xs k :=
  min_le_min_right _ (sum_take_mono xs h)

theorem lt_length_of_bound_lt (h : bound xs k < bound xs (k + 1)) : k < xs.length := by
  by_contra hge
  rw [bound, bound, List.take_of_length_le (by omega), List.take_of_length_le (by omega)] at h
  exact h.false

theorem total_eq_bound (xs : List (α × Nat)) : (ofList xs).total = bound xs xs.length := by
  rw [total_ofList, bound, List.take_length]

theorem bound_append (xs ys : List (α × Nat)) (h : k ≤ xs.length) :
    bound (xs ++ ys) k = bound xs k := by
  rw [bound, List.take_append_of_le_length h, bound]

theorem ofList_concat (xs : List (α × Nat)) (x : α × Nat) :
    ofList (xs ++ [x]) = (ofList xs).add x.1 x.2 := by
  rw [ofList, List.foldl_concat]
  rfl

theorem size_entries_ofList (xs : List (α × Nat)) : (ofList xs).entries.size = xs.length := by
  simpa [items] using congrArg List.length (items_ofList xs)

theorem entries_ofList (xs : List (α × Nat)) (k : Nat) :
    (ofList xs).entries[k]? = xs[k]?.map fun x => (x.1, bound xs (k + 1)) := by
  induction xs using List.reverseRecOn with
  | nil => rfl
  | append_singleton xs x ih =>
    rw [ofList_concat, add, Array.getElem?_push, size_entries_ofList]
    split
    · next hk =>
      have hall : bound (xs ++ [x]) (xs.length + 1) = min ((ofList xs).total + x.2) ceiling := by
        rw [← total_add x.1, ← ofList_concat, total_eq_bound, List.length_append,
          List.length_singleton]
      rw [hk, List.getElem?_concat_length, Option.map_some, hall]
    · next hk =>
      rw [ih]
      rcases Nat.lt_or_gt_of_ne hk with hlt | hgt
      · rw [List.getElem?_append_left hlt, bound_append xs [x] hlt]
      · have hend : (xs ++ [x]).length ≤ k := by simpa using Nat.succ_le_of_lt hgt
        rw [List.getElem?_eq_none hgt.le, List.getElem?_eq_none hend]
        rfl

theorem running_total (h : k < (ofList xs).entries.size) :
    ((ofList xs).entries[k]).2 = bound xs (k + 1) := by
  have hk := entries_ofList xs k
  rw [Array.getElem?_eq_getElem h, eq_comm, Option.map_eq_some_iff] at hk
  obtain ⟨x, -, hx⟩ := hk
  rw [← hx]

/-- An item owns the tickets from the sum of the weights before it up to the sum with its own. -/
theorem place?_ofList : (ofList xs).place? ticket = some k ↔
    bound xs k ≤ ticket ∧ ticket < bound xs (k + 1) := by
  rw [place?, Array.findIdx?_eq_some_iff_getElem]
  constructor
  · rintro ⟨hk, hlt, hbefore⟩
    rw [decide_eq_true_eq, running_total] at hlt
    refine ⟨?_, hlt⟩
    cases k with
    | zero => exact (Nat.zero_min _).trans_le (Nat.zero_le _)
    | succ k =>
      have hle := hbefore k (Nat.lt_succ_self k)
      rwa [decide_eq_true_eq, running_total, Nat.not_lt] at hle
  · rintro ⟨hle, hlt⟩
    have hk : k < (ofList xs).entries.size := by
      rw [size_entries_ofList]
      exact lt_length_of_bound_lt (hle.trans_lt hlt)
    refine ⟨hk, ?_, fun j hj => ?_⟩
    · rwa [decide_eq_true_eq, running_total]
    · rw [decide_eq_true_eq, running_total, Nat.not_lt]
      exact (bound_mono xs hj).trans hle

theorem exists_place? (h : ticket < (ofList xs).total) :
    ∃ k, (ofList xs).place? ticket = some k := by
  obtain ⟨x, -, hx⟩ := owner?_of_lt h
  rw [owner?_eq, Option.bind_eq_some_iff] at hx
  obtain ⟨k, hk, -⟩ := hx
  exact ⟨k, hk⟩

theorem card_tickets (xs : List (α × Nat)) (k : Nat) :
    ((Finset.range (ofList xs).total).filter fun ticket =>
      (ofList xs).place? ticket = some k).card = bound xs (k + 1) - bound xs k := by
  have hle : bound xs (k + 1) ≤ (ofList xs).total := by
    rw [total_eq_bound]
    rcases Nat.le_total (k + 1) xs.length with h | h
    · exact bound_mono xs h
    · rw [bound, List.take_of_length_le h, bound, List.take_length]
  have htickets : ((Finset.range (ofList xs).total).filter fun ticket =>
      (ofList xs).place? ticket = some k) = Finset.Ico (bound xs k) (bound xs (k + 1)) := by
    ext ticket
    rw [Finset.mem_filter, Finset.mem_range, place?_ofList, Finset.mem_Ico, and_iff_right_iff_imp]
    exact fun h => h.2.trans_le hle
  rw [htickets, Nat.card_Ico]

theorem select_eq_none_iff (s : σ) : (c.select s).1 = none ↔ c.total = 0 := by
  refine ⟨fun hnone => ?_, fun hz => by rw [select_of_total_eq_zero hz]⟩
  by_contra hne
  obtain ⟨x, -, hx⟩ := select_of_total_pos (Nat.pos_of_ne_zero hne) s
  rw [hnone] at hx
  cases hx

/-- The running totals never fall, as a search by halving asks. -/
theorem pairwise_entries (xs : List (α × Nat)) :
    (ofList xs).entries.toList.Pairwise fun a b => a.2 ≤ b.2 := by
  refine List.pairwise_iff_getElem.2 fun j k hj hk hjk => ?_
  rw [Array.getElem_toList, Array.getElem_toList, running_total, running_total]
  exact bound_mono xs (Nat.succ_le_succ hjk.le)

/-- A choice fails exactly if there is no weight. Otherwise a ticket below the total is drawn, and
the tickets of an item are those from the sum of the weights before it up to the sum with its own:
each ticket belongs to one item, none to an item without weight or behind the largest total, and as
many to an item as its weight as long as the sum of all is not cut. -/
theorem tickets_by_weight (xs : List (α × Nat)) :
    let c : Weighted α := ofList xs
    c.total = min (xs.map (·.2)).sum ceiling ∧
    (∀ {σ : Type} [WordSource σ] (s : σ), ((c.select s).1 = none ↔ c.total = 0) ∧
      (c.total ≠ 0 → (Random.uniform c.total s).1 < c.total ∧
        (c.select s).1 = c.owner? (Random.uniform c.total s).1)) ∧
    c.entries.toList.Pairwise (fun a b => a.2 ≤ b.2) ∧
    (∀ ticket, c.owner? ticket = (c.place? ticket).bind fun k => xs[k]?.map (·.1)) ∧
    (∀ ticket k, c.place? ticket = some k ↔
      bound xs k ≤ ticket ∧ ticket < bound xs (k + 1)) ∧
    (∀ ticket < c.total, ∃! k, k < xs.length ∧ bound xs k ≤ ticket ∧ ticket < bound xs (k + 1)) ∧
    (∀ k item, xs[k]? = some (item, 0) → ∀ ticket, c.place? ticket ≠ some k) ∧
    (∀ k, ceiling ≤ ((xs.take k).map (·.2)).sum → ∀ ticket, c.place? ticket ≠ some k) ∧
    ((xs.map (·.2)).sum ≤ ceiling → ∀ k item weight, xs[k]? = some (item, weight) →
      ((Finset.range c.total).filter fun ticket => c.place? ticket = some k).card = weight) := by
  have hsum : ∀ {k item weight}, xs[k]? = some (item, weight) →
      ((xs.take (k + 1)).map (·.2)).sum = ((xs.take k).map (·.2)).sum + weight := by
    intro k item weight h
    rw [List.take_add_one, h, Option.toList_some, List.map_append, List.sum_append,
      List.map_singleton, List.sum_singleton]
  refine ⟨total_ofList xs, fun s => ⟨select_eq_none_iff s, fun hne => ?_⟩, pairwise_entries xs,
    fun ticket => ?_, fun ticket k => place?_ofList, fun ticket hlt => ?_,
    fun k item hk ticket hplace => ?_, fun k hk ticket hplace => ?_,
    fun hfit k item weight hk => ?_⟩
  · refine ⟨Random.uniform_lt (Nat.pos_of_ne_zero hne) s, ?_⟩
    rw [select, if_neg hne]
  · rw [owner?_eq, items_ofList]
    simp only [List.getElem?_map]
  · obtain ⟨k, hk⟩ := exists_place? hlt
    obtain ⟨hle, hlt⟩ := place?_ofList.1 hk
    refine ⟨k, ⟨lt_length_of_bound_lt (hle.trans_lt hlt), hle, hlt⟩, fun k' hk' => ?_⟩
    exact Option.some.inj ((place?_ofList.2 hk'.2).symm.trans hk)
  · have hbound := place?_ofList.1 hplace
    rw [bound, bound, hsum hk] at hbound
    omega
  · have hbound := place?_ofList.1 hplace
    rw [bound, bound, Nat.min_eq_right hk] at hbound
    omega
  · have hle := sum_take_mono xs (List.getElem?_eq_some_iff.1 hk).1
    rw [List.take_length, hsum hk] at hle
    rw [card_tickets, bound, bound, hsum hk]
    omega

example : (List.range 5).map (ofList [('a', 3), ('b', 0), ('c', 1)]).owner? =
    [some 'a', some 'a', some 'a', some 'c', none] := by decide

end Weighted

end LeastLoad
