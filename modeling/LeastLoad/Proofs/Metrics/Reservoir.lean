import LeastLoad.Metrics.Reservoir
import Mathlib.Algebra.BigOperators.Fin
import Mathlib.Algebra.BigOperators.Intervals
import Mathlib.Algebra.Field.Rat
import Mathlib.Algebra.Order.Ring.Unbundled.Rat
import Mathlib.Data.Fintype.BigOperators
import Mathlib.Data.Fintype.Fin
import Mathlib.Data.List.Induction
import Mathlib.Data.List.Nodup

/-! # Every item has the same chance

What is kept of a stream depends on the generator only through the positions that it draws, one for
each item that finds no room. `offerAll` takes a stream with whatever comes out, and `Draws` are all
ways in which the draws can come out. Each of them keeps items from different positions, and counted
over all of them, no position of the stream is kept more often than another. -/

namespace LeastLoad

namespace Reservoir

variable {α : Type} {r : Reservoir α} {x : α} {xs : List α} {draw draw' : Nat → Nat} {c m n p : Nat}

def offer (r : Reservoir α) (i : Nat) (x : α) : Reservoir α :=
  if r.hasRoom then r.keep x else r.replace i x

def nextSlot (r : Reservoir α) : Nat := (Random.uniform (r.seen + 1) r.generator).1

theorem sample_eq (r : Reservoir α) (x : α) :
    r.sample x = { r.offer r.nextSlot x with generator := (r.sample x).generator } := by
  rw [sample, offer]
  split <;> rfl

/-- Takes the items of a stream, where `draw k` comes out for the item that finds `k` before it. -/
def offerAll (r : Reservoir α) (draw : Nat → Nat) (xs : List α) : Reservoir α :=
  xs.foldl (fun r x => r.offer (draw r.seen) x) r

@[simp] theorem seen_offer (r : Reservoir α) (i : Nat) (x : α) :
    (r.offer i x).seen = r.seen + 1 := by
  rw [offer]
  split <;> rfl

@[simp] theorem capacity_offer (r : Reservoir α) (i : Nat) (x : α) :
    (r.offer i x).capacity = r.capacity := by
  rw [offer]
  split <;> rfl

theorem offerAll_concat (r : Reservoir α) (draw : Nat → Nat) (xs : List α) (x : α) :
    r.offerAll draw (xs ++ [x]) =
      (r.offerAll draw xs).offer (draw (r.offerAll draw xs).seen) x := by
  rw [offerAll, List.foldl_concat]
  rfl

theorem seen_offerAll (r : Reservoir α) (draw : Nat → Nat) (xs : List α) :
    (r.offerAll draw xs).seen = r.seen + xs.length := by
  induction xs using List.reverseRecOn with
  | nil => rfl
  | append_singleton xs x ih =>
    rw [offerAll_concat, seen_offer, ih, List.length_append]
    rfl

theorem capacity_offerAll (r : Reservoir α) (draw : Nat → Nat) (xs : List α) :
    (r.offerAll draw xs).capacity = r.capacity := by
  induction xs using List.reverseRecOn with
  | nil => rfl
  | append_singleton xs x ih => rw [offerAll_concat, capacity_offer, ih]

/-- Where in the stream the items stood that are kept of its first `n`. -/
def positions (c n : Nat) (draw : Nat → Nat) : List Nat :=
  ((Reservoir.mk c 0 #[] (.ofSeed 0)).offerAll draw (List.range n)).items.toList

theorem toList_items_offer (r : Reservoir α) (i : Nat) (x : α) :
    (r.offer i x).items.toList =
      if r.items.toList.length < r.capacity then r.items.toList ++ [x]
      else r.items.toList.set i x := by
  simp only [offer, hasRoom, decide_eq_true_eq, Array.length_toList]
  split
  · exact Array.toList_push
  · exact Array.toList_setIfInBounds

theorem positions_succ (c n : Nat) (draw : Nat → Nat) :
    positions c (n + 1) draw =
      if (positions c n draw).length < c then positions c n draw ++ [n]
      else (positions c n draw).set (draw n) n := by
  rw [positions, List.range_succ, offerAll_concat, toList_items_offer, seen_offerAll,
    capacity_offerAll, List.length_range, Nat.zero_add]
  rfl

theorem length_positions (c n : Nat) (draw : Nat → Nat) :
    (positions c n draw).length = min n c := by
  induction n with
  | zero => exact (Nat.zero_min c).symm
  | succ n ih =>
    rw [positions_succ]
    split
    · rw [List.length_append, ih, List.length_singleton]
      omega
    · rw [List.length_set, ih]
      omega

theorem positions_of_lt (h : n < c) (draw : Nat → Nat) :
    positions c (n + 1) draw = positions c n draw ++ [n] := by
  rw [positions_succ, length_positions, if_pos (by omega)]

theorem positions_of_le (h : c ≤ n) (draw : Nat → Nat) :
    positions c (n + 1) draw = (positions c n draw).set (draw n) n := by
  rw [positions_succ, length_positions, if_neg (by omega)]

theorem lt_of_mem_positions (h : p ∈ positions c n draw) : p < n := by
  induction n with
  | zero => cases h
  | succ n ih =>
    rcases Nat.lt_or_ge n c with hn | hn
    · rw [positions_of_lt hn, List.mem_append, List.mem_singleton] at h
      rcases h with h | rfl
      · exact (ih h).trans (Nat.lt_succ_self n)
      · exact Nat.lt_succ_self p
    · rw [positions_of_le hn] at h
      rcases List.mem_or_eq_of_mem_set h with h | rfl
      · exact (ih h).trans (Nat.lt_succ_self n)
      · exact Nat.lt_succ_self p

theorem nodup_positions (c n : Nat) (draw : Nat → Nat) : (positions c n draw).Nodup := by
  induction n with
  | zero => exact List.nodup_nil
  | succ n ih =>
    have hnew : n ∉ positions c n draw := fun h => (lt_of_mem_positions h).false
    rcases Nat.lt_or_ge n c with hn | hn
    · rw [positions_of_lt hn]
      rw [← List.concat_eq_append]
      exact ih.concat hnew
    · rw [positions_of_le hn]
      exact ih.set hnew

theorem positions_eq_range (h : n ≤ c) (draw : Nat → Nat) :
    positions c n draw = List.range n := by
  induction n with
  | zero => rfl
  | succ n ih => rw [positions_of_lt h, ih (Nat.le_of_succ_le h), List.range_succ]

theorem positions_congr (h : ∀ k, c ≤ k → k < n → draw k = draw' k) :
    positions c n draw = positions c n draw' := by
  induction n with
  | zero => rfl
  | succ n ih =>
    have hrest := ih fun k hc hk => h k hc (hk.trans (Nat.lt_succ_self n))
    rcases Nat.lt_or_ge n c with hn | hn
    · rw [positions_of_lt hn, positions_of_lt hn, hrest]
    · rw [positions_of_le hn, positions_of_le hn, hrest, h n hn (Nat.lt_succ_self n)]

/-- A sample holds the items that stand at its positions in the stream. -/
theorem map_items_offerAll (hseen : r.seen = 0) (hnone : r.items = #[]) (draw : Nat → Nat)
    (xs : List α) :
    (r.offerAll draw xs).items.toList.map some =
      (positions r.capacity xs.length draw).map (xs[·]?) := by
  induction xs using List.reverseRecOn with
  | nil => simp [offerAll, hnone, positions]
  | append_singleton xs x ih =>
    have hlen := congrArg List.length ih
    rw [List.length_map, List.length_map] at hlen
    have hold : (positions r.capacity xs.length draw).map ((xs ++ [x])[·]?) =
        (positions r.capacity xs.length draw).map (xs[·]?) :=
      List.map_congr_left fun p hp => List.getElem?_append_left (lt_of_mem_positions hp)
    rw [offerAll_concat, toList_items_offer, capacity_offerAll, seen_offerAll, hseen, Nat.zero_add,
      hlen, List.length_append, List.length_singleton, positions_succ]
    split
    · rw [List.map_append, List.map_append, hold, ih, List.map_singleton, List.map_singleton,
        List.getElem?_concat_length]
    · rw [List.map_set, List.map_set, hold, ih, List.getElem?_concat_length]

/-- All ways in which the draws for the `m` items after the first `c` can come out: for each one of
the positions of the items up to it. -/
abbrev Draws (c m : Nat) : Type := (i : Fin m) → Fin (c + i + 1)

namespace Draws

def slot (d : Draws c m) (k : Nat) : Nat := if h : k - c < m then d ⟨k - c, h⟩ else 0

theorem slot_snoc_of_lt (d : Draws c m) (j : Fin (c + m + 1)) {k : Nat} (hc : c ≤ k)
    (hk : k < c + m) : slot (Fin.snoc d j : Draws c (m + 1)) k = slot d k := by
  have hm : k - c < m := by omega
  rw [slot, slot, dif_pos hm, dif_pos (hm.trans (Nat.lt_succ_self m))]
  exact congrArg Fin.val
    (Fin.snoc_castSucc (α := fun i : Fin (m + 1) => Fin (c + i + 1)) j d ⟨k - c, hm⟩)

theorem slot_snoc_last (d : Draws c m) (j : Fin (c + m + 1)) :
    slot (Fin.snoc d j : Draws c (m + 1)) (c + m) = j := by
  have hlast : ∀ i : Fin (m + 1), i = Fin.last m →
      ((Fin.snoc d j : Draws c (m + 1)) i).val = j.val := by
    rintro _ rfl
    exact congrArg Fin.val (Fin.snoc_last (α := fun i : Fin (m + 1) => Fin (c + i + 1)) j d)
  rw [slot, dif_pos (by omega)]
  exact hlast _ (Fin.ext (Nat.add_sub_cancel_left c m))

theorem positions_snoc (d : Draws c m) (j : Fin (c + m + 1)) :
    positions c (c + m + 1) (slot (Fin.snoc d j : Draws c (m + 1))) =
      (positions c (c + m) (slot d)).set j (c + m) := by
  rw [positions_of_le (Nat.le_add_right c m), slot_snoc_last,
    positions_congr fun k hc hk => slot_snoc_of_lt d j hc hk]

theorem card_draws (c m : Nat) : Fintype.card (Draws c m) = ∏ k ∈ Finset.Ioc c (c + m), k := by
  rw [Fintype.card_pi]
  simp only [Fintype.card_fin]
  induction m with
  | zero => simp
  | succ m ih =>
    rw [Fin.prod_univ_castSucc, ← Nat.add_assoc, Finset.prod_Ioc_succ_top (Nat.le_add_right c m),
      ← ih]
    rfl

end Draws

theorem mem_set_iff_of_ne {l : List Nat} (hl : l.Nodup) {i : Nat} (hi : i < l.length) {q : Nat}
    (hne : l[i] ≠ q) (j : Nat) : l[i] ∈ l.set j q ↔ j ≠ i := by
  rw [List.mem_iff_getElem?]
  constructor
  · rintro ⟨i', hi'⟩ rfl
    rw [List.getElem?_set] at hi'
    split at hi'
    · exact hne (Option.some.inj hi').symm
    · next hji =>
      obtain ⟨h, heq⟩ := List.getElem?_eq_some_iff.1 hi'
      exact hji (hl.getElem_inj_iff.1 heq).symm
  · intro hji
    exact ⟨i, by rw [List.getElem?_set_ne hji, List.getElem?_eq_getElem hi]⟩

theorem card_staying {l : List Nat} {k q : Nat} (hl : l.Nodup) (hlen : l.length ≤ k + 1)
    (hp : p ∈ l) (hne : p ≠ q) :
    (Finset.univ.filter fun j : Fin (k + 1) => p ∈ l.set j q).card = k := by
  obtain ⟨i, hi, rfl⟩ := List.mem_iff_getElem.1 hp
  have hset : (Finset.univ.filter fun j : Fin (k + 1) => l[i] ∈ l.set j q) =
      Finset.univ.erase ⟨i, hi.trans_le hlen⟩ := by
    ext j
    rw [Finset.mem_filter_univ, Finset.mem_erase, and_iff_left (Finset.mem_univ j), ne_eq,
      Fin.ext_iff]
    exact mem_set_iff_of_ne hl hi hne j
  rw [hset, Finset.card_erase_of_mem (Finset.mem_univ _), Finset.card_univ, Fintype.card_fin]
  rfl

theorem card_entering {l : List Nat} {k q : Nat} (hlen : l.length ≤ k + 1) (hq : q ∉ l) :
    (Finset.univ.filter fun j : Fin (k + 1) => q ∈ l.set j q).card = l.length := by
  have hmem : ∀ j : Fin (k + 1), q ∈ l.set j q ↔ j.val < l.length := by
    refine fun j => ⟨fun h => ?_, fun hj => List.mem_set hj q⟩
    by_contra hj
    rw [List.set_eq_of_length_le (Nat.not_lt.1 hj)] at h
    exact hq h
  simp only [hmem]
  rw [Fin.card_filter_val_lt, Nat.min_eq_right hlen]

namespace Draws

def keeping (c m p : Nat) : Nat :=
  (Finset.univ.filter fun d : Draws c m => p ∈ positions c (c + m) (slot d)).card

theorem keeping_zero (h : p < c) : keeping c 0 p = 1 := by
  have hall : ∀ d : Draws c 0, p ∈ positions c (c + 0) (slot d) := fun d => by
    rw [Nat.add_zero, positions_eq_range le_rfl]
    exact List.mem_range.2 h
  rw [keeping, Finset.filter_true_of_mem fun d _ => hall d, Finset.card_univ, card_draws]
  simp

theorem keeping_succ (c m p : Nat) :
    keeping c (m + 1) p = ∑ d : Draws c m, (Finset.univ.filter fun j : Fin (c + m + 1) =>
      p ∈ (positions c (c + m) (slot d)).set j (c + m)).card := by
  rw [keeping, Finset.card_filter,
    ← (Fin.snocEquiv fun i : Fin (m + 1) => Fin (c + i + 1)).sum_comp, Fintype.sum_prod_type_right]
  refine Finset.sum_congr rfl fun d _ => ?_
  rw [Finset.card_filter]
  refine Finset.sum_congr rfl fun j _ => ?_
  rw [← positions_snoc]
  rfl

theorem keeping_succ_of_lt (h : p < c + m) : keeping c (m + 1) p = keeping c m p * (c + m) := by
  rw [keeping_succ, keeping, Finset.card_filter, Finset.sum_mul]
  refine Finset.sum_congr rfl fun d _ => ?_
  have hlen : (positions c (c + m) (slot d)).length ≤ c + m + 1 := by
    rw [length_positions]
    omega
  split
  · next hp => rw [card_staying (nodup_positions _ _ _) hlen hp h.ne, Nat.one_mul]
  · next hp =>
    have hnone : ∀ j : Fin (c + m + 1), p ∉ (positions c (c + m) (slot d)).set j (c + m) :=
      fun j hj => (List.mem_or_eq_of_mem_set hj).elim hp h.ne
    rw [Finset.filter_false_of_mem fun j _ => hnone j, Finset.card_empty, Nat.zero_mul]

theorem keeping_succ_self (c m : Nat) :
    keeping c (m + 1) (c + m) = c * Fintype.card (Draws c m) := by
  have heach : ∀ d : Draws c m, (Finset.univ.filter fun j : Fin (c + m + 1) =>
      c + m ∈ (positions c (c + m) (slot d)).set j (c + m)).card = c := by
    intro d
    have hlen : (positions c (c + m) (slot d)).length = c := by
      rw [length_positions]
      omega
    rw [card_entering (by omega) fun h => (lt_of_mem_positions h).false, hlen]
  rw [keeping_succ, Finset.sum_congr rfl fun d _ => heach d, Finset.sum_const, Finset.card_univ,
    smul_eq_mul, Nat.mul_comm]

theorem card_draws_succ (c m : Nat) :
    Fintype.card (Draws c (m + 1)) = Fintype.card (Draws c m) * (c + (m + 1)) := by
  rw [card_draws, card_draws, ← Nat.add_assoc, Finset.prod_Ioc_succ_top (Nat.le_add_right c m)]

/-- An item is kept in the share `c / (c + m)` of all outcomes. -/
theorem keeping_mul (h : p < c + m) :
    keeping c m p * (c + m) = c * Fintype.card (Draws c m) := by
  induction m with
  | zero =>
    rw [keeping_zero (c := c) h, card_draws]
    simp
  | succ m ih =>
    -- the newest item enters as often as each of the others stays
    have hshare : keeping c (m + 1) p = c * Fintype.card (Draws c m) := by
      rcases Nat.lt_succ_iff_lt_or_eq.1 h with hlt | heq
      · rw [keeping_succ_of_lt hlt, ih hlt]
      · subst heq
        exact keeping_succ_self c m
    rw [hshare, card_draws_succ, Nat.mul_assoc]

end Draws

theorem seen_foldl_sample (r : Reservoir α) (xs : List α) :
    (xs.foldl sample r).seen = r.seen + xs.length := by
  induction xs generalizing r with
  | nil => rfl
  | cons x xs ih =>
    rw [List.foldl_cons, ih, sample_eq, List.length_cons]
    change (r.offer r.nextSlot x).seen + xs.length = _
    rw [seen_offer]
    omega

theorem size_items_offerAll (hseen : r.seen = 0) (hnone : r.items = #[]) (draw : Nat → Nat)
    (xs : List α) : (r.offerAll draw xs).items.size = min xs.length r.capacity := by
  have hlen := congrArg List.length (map_items_offerAll hseen hnone draw xs)
  rwa [List.length_map, List.length_map, length_positions, Array.length_toList] at hlen

/-- Sampling is taking the items with the positions that the generator draws. -/
theorem foldl_sample (r : Reservoir α) (xs : List α) {draw : Nat → Nat}
    (h : ∀ k, r.capacity ≤ k → k < xs.length →
      draw k = ((xs.take k).foldl sample r.reset).nextSlot) :
    xs.foldl sample r.reset =
      { r.reset.offerAll draw xs with generator := (xs.foldl sample r.reset).generator } := by
  induction xs using List.reverseRecOn with
  | nil => rfl
  | append_singleton xs x ih =>
    have hrest := ih fun k hc hk => by
      rw [h k hc (by rw [List.length_append]; omega), List.take_append_of_le_length hk.le]
    have hsize := size_items_offerAll (r := r.reset) rfl rfl draw xs
    have hseen : (r.reset.offerAll draw xs).seen = xs.length :=
      (seen_offerAll _ _ _).trans (Nat.zero_add _)
    have hcapacity := capacity_offerAll r.reset draw xs
    have hlast : r.capacity ≤ xs.length → draw xs.length = (xs.foldl sample r.reset).nextSlot := by
      intro hc
      rw [h _ hc (by simp), List.take_left]
    rw [List.foldl_concat, sample_eq, offerAll_concat, hseen]
    generalize xs.foldl sample r.reset = s at hrest hlast
    generalize r.reset.offerAll draw xs = s' at hrest hsize hcapacity
    have hroom : s.hasRoom = s'.hasRoom := by rw [hrest]; rfl
    rw [offer, offer, hroom]
    split
    · rw [hrest]
      rfl
    · next hfull =>
      -- without room, the position drawn for the newest item is the one that replaces
      have hc : r.capacity ≤ xs.length := by
        rw [hasRoom, decide_eq_true_eq, hsize, hcapacity] at hfull
        change ¬min xs.length r.capacity < r.capacity at hfull
        omega
      rw [hlast hc, hrest]
      rfl

theorem nextSlot_lt (r : Reservoir α) : r.nextSlot < r.seen + 1 :=
  Random.uniform_lt (Nat.succ_pos _) _

theorem exists_draws (r : Reservoir α) (xs : List α) :
    ∃ d : Draws r.capacity (xs.length - r.capacity),
      (∀ i, (d i).val = ((xs.take (r.capacity + i)).foldl sample r.reset).nextSlot) ∧
        xs.foldl sample r.reset =
          { r.reset.offerAll (Draws.slot d) xs with
            generator := (xs.foldl sample r.reset).generator } := by
  have hlt : ∀ i : Fin (xs.length - r.capacity),
      ((xs.take (r.capacity + i)).foldl sample r.reset).nextSlot < r.capacity + i + 1 := by
    intro i
    have hseen : ((xs.take (r.capacity + i)).foldl sample r.reset).seen = r.capacity + i := by
      rw [seen_foldl_sample, List.length_take, Nat.min_eq_left (by omega)]
      exact Nat.zero_add _
    have hdrawn := nextSlot_lt ((xs.take (r.capacity + i)).foldl sample r.reset)
    rwa [hseen] at hdrawn
  refine ⟨fun i => ⟨_, hlt i⟩, fun i => rfl, foldl_sample r xs fun k hc hk => ?_⟩
  rw [Draws.slot, dif_pos (by omega)]
  simp only [Nat.add_sub_cancel' hc]

/-- After a reset, sampling a stream is taking it with the positions drawn. Whatever these are, all
items are counted and as many as fit are kept, from different positions of the stream, and in its
order as long as all fit. Of all ways in which the draws can come out, the capacity over the number
of items is the share of those that keep an item, wherever in the stream it stood. -/
theorem sample_uniform (r : Reservoir α) (xs : List α) :
    let c := r.capacity
    let n := xs.length
    let s := xs.foldl sample r.reset
    (∃ d : Draws c (n - c),
      (∀ i, (d i).val = ((xs.take (c + i)).foldl sample r.reset).nextSlot) ∧
        s = { r.reset.offerAll (Draws.slot d) xs with generator := s.generator }) ∧
    (∀ d : Draws c (n - c),
      let kept := r.reset.offerAll (Draws.slot d) xs
      let places := positions c n (Draws.slot d)
      kept.seen = n ∧ kept.items.toList.map some = places.map (xs[·]?) ∧
        places.length = min n c ∧ places.Nodup ∧ (∀ p ∈ places, p < n) ∧
        (n ≤ c → places = List.range n)) ∧
    Fintype.card (Draws c (n - c)) = ∏ k ∈ Finset.Ioc c n, k ∧
    (c < n → ∀ p < n,
      ((Finset.univ.filter fun d : Draws c (n - c) => p ∈ positions c n (Draws.slot d)).card : ℚ) /
        Fintype.card (Draws c (n - c)) = c / n) := by
  refine ⟨exists_draws r xs, fun d => ⟨?_, map_items_offerAll rfl rfl _ _, length_positions _ _ _,
    nodup_positions _ _ _, fun p hp => lt_of_mem_positions hp, fun h => positions_eq_range h _⟩,
    ?_, fun hlt p hp => ?_⟩
  · exact (seen_offerAll _ _ _).trans (Nat.zero_add _)
  · rw [Draws.card_draws]
    rcases Nat.le_total r.capacity xs.length with h | h
    · rw [Nat.add_sub_of_le h]
    · rw [Nat.sub_eq_zero_of_le h, Nat.add_zero, Finset.Ioc_self, Finset.Ioc_eq_empty_of_le h]
  · have hn : r.capacity + (xs.length - r.capacity) = xs.length := Nat.add_sub_of_le hlt.le
    have hshare := Draws.keeping_mul (hp.trans_eq hn.symm)
    rw [Draws.keeping, hn] at hshare
    have hall : (Fintype.card (Draws r.capacity (xs.length - r.capacity)) : ℚ) ≠ 0 :=
      Nat.cast_ne_zero.2 Fintype.card_ne_zero
    have hlen : (xs.length : ℚ) ≠ 0 := Nat.cast_ne_zero.2 (Nat.zero_lt_of_lt hlt).ne'
    rw [div_eq_div_iff hall hlen]
    exact_mod_cast hshare

example : positions 2 5 (fun k => if k = 3 then 0 else 1) = [3, 4] := by decide

end Reservoir
end LeastLoad
