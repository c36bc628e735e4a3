import LeastLoad.Proofs.Expiry.Conserved
import Mathlib.Algebra.BigOperators.Intervals

/-! # Where each addition is

A ring keeps sums, not the additions behind them. Every addition is nevertheless at one place at a
time: it goes to a slot or to the backlog, from a slot to the backlog once that is drained or taken
over, and from the backlog to the purge that hands it back, whole and only once. The sums are those
of the additions at each place, as numbers that wrap.

No reading of the clock matters for that, and a clock that is moved back leads to no addition being
handed back before the clock has once reached its instant: what puts it into the backlog is always
the cursor or a window a whole turn ahead, and neither is ahead of the highest reading. -/

namespace LeastLoad

inductive Place where
  /-- The event is yet to come, or adds nothing. -/
  | nowhere
  | slot (i : Nat)
  | backlog
  /-- Handed back by the purge of that number among the events. -/
  | handed (purge : Nat)
deriving DecidableEq

def sumAt (count : Nat → Int) (place : Nat → Place) (m : Nat) (x : Place) : Int :=
  ∑ i ∈ Finset.range m, if place i = x then count i else 0

section Moves

variable {count : Nat → Int} {place : Nat → Place} {i m : Nat} {a b x : Place}

def moved (place : Nat → Place) (a b : Place) (i : Nat) : Place :=
  if place i = a then b else place i

theorem moved_cases (place : Nat → Place) (a b : Place) (i : Nat) :
    place i = a ∧ moved place a b i = b ∨ place i ≠ a ∧ moved place a b i = place i := by
  by_cases h : place i = a
  · exact Or.inl ⟨h, if_pos h⟩
  · exact Or.inr ⟨h, if_neg h⟩

theorem eq_of_moved_eq (h : moved place a b i = x) (hx : x ≠ b) : place i = x ∧ x ≠ a := by
  rcases moved_cases place a b i with ⟨-, hm⟩ | ⟨hne, hm⟩
  · exact absurd (h.symm.trans hm) hx
  · rw [hm] at h
    exact ⟨h, h ▸ hne⟩

theorem sumAt_moved_source (hab : a ≠ b) : sumAt count (moved place a b) m a = 0 :=
  Finset.sum_eq_zero fun _ _ => if_neg fun h => (eq_of_moved_eq h hab).2 rfl

theorem sumAt_moved_target (hab : a ≠ b) :
    sumAt count (moved place a b) m b = sumAt count place m b + sumAt count place m a := by
  rw [sumAt, sumAt, sumAt, ← Finset.sum_add_distrib]
  refine Finset.sum_congr rfl fun i _ => ?_
  by_cases h : place i = a
  · simp [moved, h, hab]
  · simp [moved, h]

theorem sumAt_moved_of_ne (ha : x ≠ a) (hb : x ≠ b) :
    sumAt count (moved place a b) m x = sumAt count place m x := by
  refine Finset.sum_congr rfl fun i _ => ?_
  by_cases h : place i = a
  · simp [moved, h, ha.symm, hb.symm]
  · simp [moved, h]

theorem sumAt_update :
    sumAt count (Function.update place m a) (m + 1) x =
      sumAt count place m x + if a = x then count m else 0 := by
  rw [sumAt, Finset.sum_range_succ, Function.update_self]
  congr 1
  refine Finset.sum_congr rfl fun i hi => ?_
  rw [Function.update_of_ne (Finset.mem_range.1 hi).ne]

theorem sumAt_succ_of_ne (h : place m ≠ x) :
    sumAt count place (m + 1) x = sumAt count place m x := by
  rw [sumAt, Finset.sum_range_succ, if_neg h, Int.add_zero, sumAt]

theorem sumAt_eq_of_le {n : Nat} (hmn : m ≤ n) (h : ∀ i, m ≤ i → place i ≠ x) :
    sumAt count place n x = sumAt count place m x := by
  induction n, hmn using Nat.le_induction with
  | base => rfl
  | succ n hn ih => rw [sumAt_succ_of_ne (h n hn), ih]

end Moves

theorem sum_map_ofInt (g : Nat → Int) (n : Nat) :
    ((List.range n).map fun k => Int64.ofInt (g k)).sum =
      .ofInt (∑ k ∈ Finset.range n, g k) := by
  rw [sum_eq_ofInt]
  induction n with
  | zero => rfl
  | succ n ih =>
    rw [List.range_succ, List.map_append, List.map_append, List.sum_append, Int64.ofInt_add, ih,
      Finset.sum_range_succ, Int64.ofInt_add, List.map_singleton, List.map_singleton,
      List.sum_singleton, Int64.ofInt_toInt]

namespace ExpiryRing

variable {r : ExpiryRing} {count : Nat → Int} {due : Nat → Nat} {i k m now top w upTo : Nat}
  {place place' : Nat → Place} {own : Nat → Prop}

/-- What a ring holds of the first `m` events, if no reading of its clock was above `top`: each sum
in it is that of the additions which are there, those in a slot fall due with its window, and those
in the backlog have been reached. -/
structure Holds (r : ExpiryRing) (count : Nat → Int) (due : Nat → Nat) (top m : Nat)
    (place : Nat → Place) : Prop where
  timely : r.Timely top
  backlog : r.backlog = .ofInt (sumAt count place m .backlog)
  slot : ∀ k, (r.bucket k).count = .ofInt (sumAt count place m (.slot k))
  ahead : ∀ i k, place i = .slot k →
    0 < r.width ∧ r.cursor < (r.bucket k).window ∧ due i = (r.bucket k).window * r.width
  reached : ∀ i, place i = .backlog → due i ≤ top
  handed : ∀ i j, place i = .handed j → i < j ∧ j < m
  fresh : ∀ i, m ≤ i → place i = .nowhere

/-- What an event may do: what was handed back stays so, nothing is lost, and the event hands more
back only under its own number. -/
structure Follows (own : Nat → Prop) (place place' : Nat → Place) : Prop where
  kept : ∀ i j, place i = .handed j → place' i = .handed j
  new : ∀ i j, place' i = .handed j → place i = .handed j ∨ own j
  present : ∀ i, place i ≠ .nowhere → place' i ≠ .nowhere

def settled (r : ExpiryRing) (upTo : Nat) (place : Nat → Place) (i : Nat) : Place :=
  match place i with
  | .slot k => if (r.bucket k).window ≤ upTo then .backlog else .slot k
  | x => x

theorem settled_of_slot (h : place i = .slot k) :
    r.settled upTo place i = if (r.bucket k).window ≤ upTo then .backlog else .slot k := by
  rw [settled, h]

theorem settled_of_ne_slot (h : ∀ k, place i ≠ .slot k) : r.settled upTo place i = place i := by
  rw [settled]
  split
  · next k hk => exact absurd hk (h k)
  · rfl

theorem settled_eq_slot :
    r.settled upTo place i = .slot k ↔ place i = .slot k ∧ upTo < (r.bucket k).window := by
  by_cases h : ∃ k', place i = .slot k'
  · obtain ⟨k', hk⟩ := h
    rw [settled_of_slot hk, hk]
    by_cases hle : (r.bucket k').window ≤ upTo
    · rw [if_pos hle]
      refine ⟨nofun, fun ⟨heq, hlt⟩ => ?_⟩
      obtain rfl := Place.slot.inj heq
      exact absurd hlt (Nat.not_lt.2 hle)
    · rw [if_neg hle]
      refine ⟨fun heq => ⟨heq, ?_⟩, And.left⟩
      obtain rfl := Place.slot.inj heq
      exact Nat.lt_of_not_le hle
  · have hne := not_exists.1 h
    rw [settled_of_ne_slot hne]
    exact ⟨fun heq => absurd heq (hne k), And.left⟩

theorem settled_eq_backlog (h : r.settled upTo place i = .backlog) :
    place i = .backlog ∨ ∃ k, place i = .slot k ∧ (r.bucket k).window ≤ upTo := by
  by_cases hslot : ∃ k, place i = .slot k
  · obtain ⟨k, hk⟩ := hslot
    rw [settled_of_slot hk] at h
    split at h
    · next hle => exact Or.inr ⟨k, hk, hle⟩
    · cases h
  · rw [settled_of_ne_slot (not_exists.1 hslot)] at h
    exact Or.inl h

theorem settled_eq_handed {j : Nat} :
    r.settled upTo place i = .handed j ↔ place i = .handed j := by
  by_cases h : ∃ k, place i = .slot k
  · obtain ⟨k, hk⟩ := h
    rw [settled_of_slot hk, hk]
    split <;> exact ⟨nofun, nofun⟩
  · rw [settled_of_ne_slot (not_exists.1 h)]

theorem settled_eq_nowhere : r.settled upTo place i = .nowhere ↔ place i = .nowhere := by
  by_cases h : ∃ k, place i = .slot k
  · obtain ⟨k, hk⟩ := h
    rw [settled_of_slot hk, hk]
    split <;> exact ⟨nofun, nofun⟩
  · rw [settled_of_ne_slot (not_exists.1 h)]

theorem sumAt_settled_slot (k : Nat) :
    sumAt count (r.settled upTo place) m (.slot k) =
      if (r.bucket k).window ≤ upTo then 0 else sumAt count place m (.slot k) := by
  rw [sumAt]
  split
  · next hle =>
    exact Finset.sum_eq_zero fun i _ => if_neg fun h => Nat.not_lt.2 hle (settled_eq_slot.1 h).2
  · next hlt =>
    refine Finset.sum_congr rfl fun i _ => ?_
    simp only [settled_eq_slot, Nat.lt_of_not_le hlt, and_true]

theorem sumAt_settled_backlog (hslot : ∀ i k, place i = .slot k → k < r.windows + 2) :
    sumAt count (r.settled upTo place) m .backlog = sumAt count place m .backlog +
      ∑ k ∈ Finset.range (r.windows + 2),
        if (r.bucket k).window ≤ upTo then sumAt count place m (.slot k) else 0 := by
  have hflat : ∀ k, (if (r.bucket k).window ≤ upTo then sumAt count place m (.slot k) else 0) =
      ∑ i ∈ Finset.range m,
        if (r.bucket k).window ≤ upTo ∧ place i = .slot k then count i else 0 := by
    intro k
    by_cases h : (r.bucket k).window ≤ upTo
    · simp only [h, if_true, true_and, sumAt]
    · simp only [h, if_false, false_and, Finset.sum_const_zero]
  simp only [hflat]
  rw [Finset.sum_comm, sumAt, sumAt, ← Finset.sum_add_distrib]
  refine Finset.sum_congr rfl fun i _ => ?_
  cases hp : place i with
  | nowhere | handed | backlog => simp [settled, hp]
  | slot k =>
    rw [Finset.sum_eq_single k]
    · by_cases h : (r.bucket k).window ≤ upTo <;> simp [settled, hp, h]
    · intro k' _ hne
      simp [hne.symm]
    · exact fun h => absurd (Finset.mem_range.2 (hslot i k hp)) h

theorem stored_eq_sum (r : ExpiryRing) (upTo : Nat) :
    r.stored upTo =
      r.backlog + ((List.range (r.windows + 2)).map fun k => (r.bucket k).due upTo).sum := by
  rw [stored]
  congr 2
  refine List.ext_getElem (by simp) fun k hk _ => ?_
  simp only [List.length_map, Vector.length_toList] at hk
  rw [List.getElem_map, List.getElem_map, List.getElem_range, Vector.getElem_toList,
    getElem_slots r hk]

namespace Holds

theorem placed (h : r.Holds count due top m place) : r.Placed := h.timely.placed

theorem lt_of_slot (h : r.Holds count due top m place) (hi : place i = .slot k) :
    k < r.windows + 2 := by
  by_contra hk
  have hempty : r.bucket k = {} := by
    rw [bucket, List.getD_eq_getElem?_getD, List.getElem?_eq_none (by simpa using hk)]
    rfl
  obtain ⟨-, hlt, -⟩ := h.ahead i k hi
  rw [hempty] at hlt
  exact Nat.not_lt_zero _ hlt

theorem stored (h : r.Holds count due top m place) (upTo : Nat) :
    r.stored upTo = .ofInt (sumAt count (r.settled upTo place) m .backlog) := by
  have hdue : ∀ k, (r.bucket k).due upTo =
      .ofInt (if (r.bucket k).window ≤ upTo then sumAt count place m (.slot k) else 0) := by
    intro k
    rw [Bucket.due, h.slot]
    split <;> rfl
  simp only [stored_eq_sum, hdue, sum_map_ofInt, h.backlog,
    sumAt_settled_backlog fun i k => h.lt_of_slot, Int64.ofInt_add]

theorem sumAt_succ (h : r.Holds count due top m place) {x : Place} (hx : x ≠ .nowhere) :
    sumAt count place (m + 1) x = sumAt count place m x :=
  sumAt_succ_of_ne fun hm => hx (hm.symm.trans (h.fresh m le_rfl))

theorem skip (h : r.Holds count due top m place) : r.Holds count due top (m + 1) place := by
  refine ⟨h.timely, ?_, fun k => ?_, h.ahead, h.reached, fun i j hj => ?_, fun i hi => ?_⟩
  · rw [h.sumAt_succ Place.noConfusion, h.backlog]
  · rw [h.sumAt_succ Place.noConfusion, h.slot]
  · obtain ⟨hij, hjm⟩ := h.handed i j hj
    exact ⟨hij, Nat.lt_succ_of_lt hjm⟩
  · exact h.fresh i (Nat.le_of_succ_le hi)

theorem later (h : r.Holds count due top m place) {top' : Nat} (htop : top ≤ top') :
    r.Holds count due top' m place :=
  ⟨h.timely.later htop, h.backlog, h.slot, h.ahead, fun i hi => (h.reached i hi).trans htop,
    h.handed, h.fresh⟩

theorem put_cases {x y : Place} (hi : Function.update place m x i = y) :
    i = m ∧ x = y ∨ i ≠ m ∧ place i = y := by
  by_cases him : i = m
  · rw [him, Function.update_self] at hi
    exact Or.inl ⟨him, hi⟩
  · rw [Function.update_of_ne him] at hi
    exact Or.inr ⟨him, hi⟩

theorem put_handed (h : r.Holds count due top m place) {x : Place} (hx : ∀ j, x ≠ .handed j)
    {j : Nat} (hj : Function.update place m x i = .handed j) : i < j ∧ j < m + 1 := by
  rcases put_cases hj with ⟨-, hj⟩ | ⟨-, hj⟩
  · exact absurd hj (hx j)
  · obtain ⟨hij, hjm⟩ := h.handed i j hj
    exact ⟨hij, Nat.lt_succ_of_lt hjm⟩

theorem put_fresh (h : r.Holds count due top m place) {x : Place} (hi : m + 1 ≤ i) :
    Function.update place m x i = .nowhere := by
  rw [Function.update_of_ne (by omega), h.fresh i (by omega)]

theorem toBacklog (h : r.Holds count due top m place) {n : Int64} (hn : count m = n.toInt)
    (hdue : due m ≤ top) :
    ({ r with backlog := r.backlog + n } : ExpiryRing).Holds count due top (m + 1)
      (Function.update place m .backlog) := by
  refine ⟨h.timely.backlog _, ?_, fun k => ?_, fun i k hi => ?_, fun i hi => ?_,
    fun i j hj => h.put_handed (fun _ => Place.noConfusion) hj, fun i => h.put_fresh⟩
  · rw [sumAt_update, if_pos rfl, Int64.ofInt_add, ← h.backlog, hn, Int64.ofInt_toInt]
  · rw [sumAt_update, if_neg Place.noConfusion, Int.add_zero, ← h.slot]
    rfl
  · rcases put_cases hi with ⟨-, hi⟩ | ⟨-, hi⟩
    · cases hi
    · exact h.ahead i k hi
  · rcases put_cases hi with ⟨rfl, -⟩ | ⟨-, hi⟩
    · exact hdue
    · exact h.reached i hi

end Holds

theorem write_write (r : ExpiryRing) (k k' : Int64) (i : Fin (r.windows + 2)) (b b' : Bucket) :
    (r.write k i b).write k' i b' = r.write (k + k') i b' := by
  simp [write, Int64.add_assoc]

theorem Placed.write (hr : r.Placed) (k : Int64) {i : Fin (r.windows + 2)} {b : Bucket}
    (hown : b.window % (r.windows + 2) = i.val) (hahead : r.cursor < b.window) :
    (r.write k i b).Placed := by
  constructor
  · intro j
    rw [bucket_write]
    split
    · next hij => exact Or.inr (hown.trans hij)
    · exact hr.own j
  · intro j
    rw [bucket_write]
    split
    · exact Or.inr hahead
    · exact hr.ahead j

theorem Timely.write (h : r.Timely top) (k : Int64) {i : Fin (r.windows + 2)} {b : Bucket}
    (hown : b.window % (r.windows + 2) = i.val) (hahead : r.cursor < b.window)
    (hnear : b.window ≤ top / r.width + r.windows + 1) : (r.write k i b).Timely top := by
  refine ⟨h.placed.write k hown hahead, h.cursor_le, fun j => ?_⟩
  rw [bucket_write]
  split
  · exact hnear
  · exact h.near j

/-- Of two windows that share a slot, the older one has been reached, since neither is further ahead
than the longest lifespan. -/
theorem mul_width_le_of_modEq {v : Nat} (hmod : v ≡ w [MOD r.windows + 2]) (hlt : v < w)
    (hw : w ≤ top / r.width + r.windows + 1) : v * r.width ≤ top := by
  have hturn := hmod.add_le_of_lt hlt
  exact Nat.mul_le_of_le_div _ _ _ (by omega)

namespace Holds

/-- A window ahead takes over its slot, and what was there goes to the backlog. -/
theorem takeover (h : r.Holds count due top m place) (hw : r.cursor < w)
    (hold : (r.bucket (r.slotOf w).val).window < w) (hnear : w ≤ top / r.width + r.windows + 1) :
    (r.write (r.bucket (r.slotOf w).val).count (r.slotOf w) ⟨w, 0⟩).Holds count due top m
      (moved place (.slot (r.slotOf w).val) .backlog) := by
  refine ⟨h.timely.write _ rfl hw hnear, ?_, fun k => ?_, fun i k hi => ?_, fun i hi => ?_,
    fun i j hj => ?_, fun i hi => ?_⟩
  · rw [sumAt_moved_target Place.noConfusion, Int64.ofInt_add, ← h.backlog, ← h.slot]
    rfl
  · rw [bucket_write]
    split
    · next hk => rw [← hk, sumAt_moved_source Place.noConfusion]; rfl
    · next hk =>
      rw [sumAt_moved_of_ne (fun heq => hk (Place.slot.inj heq).symm) Place.noConfusion, h.slot]
  · obtain ⟨hi, hne⟩ := eq_of_moved_eq hi Place.noConfusion
    rw [bucket_write, if_neg fun heq => hne (congrArg Place.slot heq.symm)]
    exact h.ahead i k hi
  · rcases moved_cases place (.slot (r.slotOf w).val) .backlog i with ⟨hslot, -⟩ | ⟨-, heq⟩
    · obtain ⟨-, hlt, hdue⟩ := h.ahead i _ hslot
      have hown := (h.placed.own (r.slotOf w).val).resolve_left (by omega)
      rw [hdue]
      exact mul_width_le_of_modEq hown hold hnear
    · exact h.reached i (heq.symm.trans hi)
  · exact h.handed i j (eq_of_moved_eq hj Place.noConfusion).1
  · rw [moved, h.fresh i hi]
    rfl

theorem fill (h : r.Holds count due top m place) {n : Int64} (hn : count m = n.toInt)
    (hpos : 0 < r.width) (hw : r.cursor < w) (hsame : (r.bucket (r.slotOf w).val).window = w)
    (hnear : w ≤ top / r.width + r.windows + 1) (hdue : due m = w * r.width) :
    (r.write 0 (r.slotOf w) ⟨w, (r.bucket (r.slotOf w).val).count + n⟩).Holds count due top (m + 1)
      (Function.update place m (.slot (r.slotOf w).val)) := by
  refine ⟨h.timely.write _ rfl hw hnear, ?_, fun k => ?_, fun i k hi => ?_, fun i hi => ?_,
    fun i j hj => h.put_handed (fun _ => Place.noConfusion) hj, fun i => h.put_fresh⟩
  · rw [sumAt_update, if_neg Place.noConfusion, Int.add_zero, ← h.backlog]
    exact Int64.add_zero _
  · rw [bucket_write, sumAt_update]
    split
    · next hk =>
      rw [if_pos (congrArg Place.slot hk), Int64.ofInt_add, ← h.slot, hn, Int64.ofInt_toInt, hk]
    · next hk => rw [if_neg fun heq => hk (Place.slot.inj heq), Int.add_zero, h.slot]
  · rw [bucket_write]
    rcases put_cases hi with ⟨him, hx⟩ | ⟨-, hi⟩
    · rw [if_pos (Place.slot.inj hx), him]
      exact ⟨hpos, hw, hdue⟩
    · have hold := h.ahead i k hi
      split
      · next hk =>
        rw [← hk, hsame] at hold
        exact hold
      · exact hold
  · rcases put_cases hi with ⟨-, hi⟩ | ⟨-, hi⟩
    · cases hi
    · exact h.reached i hi

end Holds

namespace Follows

theorem refl (place : Nat → Place) : Follows own place place :=
  ⟨fun _ _ => id, fun _ _ => Or.inl, fun _ => id⟩

theorem trans {place'' : Nat → Place} (h : Follows own place place')
    (h' : Follows own place' place'') : Follows own place place'' :=
  ⟨fun i j hi => h'.kept i j (h.kept i j hi),
    fun i j hi => (h'.new i j hi).elim (h.new i j) Or.inr,
    fun i hi => h'.present i (h.present i hi)⟩

theorem update (hm : place m = .nowhere) {x : Place} (hx : ∀ j, x ≠ .handed j) :
    Follows own place (Function.update place m x) := by
  have hne : ∀ i, place i ≠ .nowhere → Function.update place m x i = place i := by
    rintro i hi
    refine Function.update_of_ne ?_ _ _
    rintro rfl
    exact hi hm
  refine ⟨fun i j hi => ?_, fun i j hi => ?_, fun i hi => ?_⟩
  · rw [hne i (by rw [hi]; exact Place.noConfusion), hi]
  · by_cases him : i = m
    · rw [him, Function.update_self] at hi
      exact absurd hi (hx j)
    · rw [Function.update_of_ne him] at hi
      exact Or.inl hi
  · rw [hne i hi]
    exact hi

theorem moved (a : Place) {b : Place} (ha : ∀ j, a ≠ .handed j) (hb : ∀ j, b = .handed j → own j)
    (hb' : b ≠ .nowhere) : Follows own place (moved place a b) := by
  refine ⟨fun i j hi => ?_, fun i j hi => ?_, fun i hi => ?_⟩
  · rw [LeastLoad.moved, if_neg (by rw [hi]; exact (ha j).symm), hi]
  · rcases moved_cases place a b i with ⟨-, heq⟩ | ⟨-, heq⟩
    · exact Or.inr (hb j (heq.symm.trans hi))
    · exact Or.inl (heq.symm.trans hi)
  · rcases moved_cases place a b i with ⟨-, heq⟩ | ⟨-, heq⟩
    · rwa [heq]
    · rwa [heq]

theorem settled (r : ExpiryRing) (upTo : Nat) : Follows own place (r.settled upTo place) :=
  ⟨fun _ _ => settled_eq_handed.2, fun _ _ h => Or.inl (settled_eq_handed.1 h),
    fun _ => mt settled_eq_nowhere.1⟩

end Follows

namespace Holds

theorem renew (h : r.Holds count due top m place) {n : Int64} (hn : count m = n.toInt)
    (hpos : 0 < r.width) (hw : r.cursor < w) (hold : (r.bucket (r.slotOf w).val).window < w)
    (hnear : w ≤ top / r.width + r.windows + 1) (hdue : due m = w * r.width) :
    (r.write (r.bucket (r.slotOf w).val).count (r.slotOf w) ⟨w, n⟩).Holds count due top (m + 1)
      (Function.update (moved place (.slot (r.slotOf w).val) .backlog) m
        (.slot (r.slotOf w).val)) := by
  let q := r.write (r.bucket (r.slotOf w).val).count (r.slotOf w) ⟨w, 0⟩
  have hq : q.bucket (q.slotOf w).val = ⟨w, 0⟩ := by
    rw [bucket_write]
    exact if_pos rfl
  have hfill := (h.takeover hw hold hnear).fill hn hpos hw (congrArg Bucket.window hq) hnear hdue
  have heq : q.write 0 (q.slotOf w) ⟨w, (q.bucket (q.slotOf w).val).count + n⟩ =
      r.write (r.bucket (r.slotOf w).val).count (r.slotOf w) ⟨w, n⟩ := by
    rw [hq, Int64.zero_add]
    exact (r.write_write _ 0 _ _ _).trans (by rw [Int64.add_zero])
  exact heq ▸ hfill

/-- What finds its window drained, or a later one in the slot of it, has been reached before. -/
theorem reached_of_past (h : r.Holds count due top m place)
    (hpast : w ≤ r.cursor ∨ w < (r.bucket (r.slotOf w).val).window) : w * r.width ≤ top := by
  rcases hpast with hw | hlt
  · exact Nat.mul_le_of_le_div _ _ _ (hw.trans h.timely.cursor_le)
  · have hown := (h.placed.own (r.slotOf w).val).resolve_left (by omega)
    exact mul_width_le_of_modEq hown.symm hlt (h.timely.near _)

theorem record (h : r.Holds count due top m place) {n : Int64} (hn : count m = n.toInt)
    (hpos : 0 < r.width) (hnear : w ≤ top / r.width + r.windows + 1)
    (hdue : due m = w * r.width) :
    ∃ place', (r.record w n).Holds count due top (m + 1) place' ∧ Follows own place place' ∧
      place' m ≠ .nowhere := by
  have hfresh := h.fresh m le_rfl
  have hput : ∀ (p : Nat → Place) (x : Place), x ≠ .nowhere →
      Function.update p m x m ≠ .nowhere := by
    intro p x hx
    rwa [Function.update_self]
  by_cases hpast : w ≤ r.cursor ∨ w < (r.bucket (r.slotOf w).val).window
  · rw [record_past hpast]
    exact ⟨_, h.toBacklog hn (hdue ▸ h.reached_of_past hpast),
      .update hfresh fun _ => Place.noConfusion, hput _ _ Place.noConfusion⟩
  · obtain ⟨hw, hle⟩ : r.cursor < w ∧ (r.bucket (r.slotOf w).val).window ≤ w := by omega
    rw [record_eq_write n hw hle]
    dsimp only
    split
    · next hold =>
      have hstill := (h.takeover hw hold hnear).fresh m le_rfl
      have hmoved : Follows own place (moved place (.slot (r.slotOf w).val) .backlog) :=
        .moved _ (fun _ => Place.noConfusion) (fun _ => Place.noConfusion) Place.noConfusion
      exact ⟨_, h.renew hn hpos hw hold hnear hdue,
        hmoved.trans (.update hstill fun _ => Place.noConfusion), hput _ _ Place.noConfusion⟩
    · next hsame =>
      exact ⟨_, h.fill hn hpos hw (by omega) hnear hdue,
        .update hfresh fun _ => Place.noConfusion, hput _ _ Place.noConfusion⟩

theorem add (h : r.Holds count due top m place) {n : Int64} (hn : count m = n.toInt)
    (hwindows : 0 < r.windows) (hnow : now ≤ top) {lifespan : Duration}
    (hdue : due m = if r.width = 0 then now else r.windowOf now lifespan * r.width) :
    ∃ place', (r.add now n lifespan).Holds count due top (m + 1) place' ∧
      Follows own place place' ∧ (n ≠ 0 → place' m ≠ .nowhere) := by
  rw [ExpiryRing.add]
  split
  · next hz =>
    rw [if_pos hz] at hdue
    refine ⟨_, h.toBacklog hn (hdue ▸ hnow), .update (h.fresh m le_rfl) fun _ => Place.noConfusion,
      fun _ => ?_⟩
    rw [Function.update_self]
    exact Place.noConfusion
  · next hz =>
    have hpos := Nat.pos_of_ne_zero hz
    rw [if_neg hz] at hdue
    split
    · next hnone => exact ⟨place, h.skip, .refl place, fun hne => absurd hnone hne⟩
    · have hnear : r.windowOf now lifespan ≤ top / r.width + r.windows + 1 := by
        have hle := @windowOf_le r now hwindows hpos lifespan
        have hdiv : now / r.width ≤ top / r.width := Nat.div_le_div_right hnow
        omega
      obtain ⟨place', hholds, hf, hthere⟩ := h.record hn hpos hnear hdue
      exact ⟨place', hholds, hf, fun _ => hthere⟩

end Holds

theorem cursor_drainTo (r : ExpiryRing) (upTo : Nat) :
    (r.drainTo upTo).cursor = max r.cursor upTo := by
  rw [drainTo]
  split
  · next h => exact (Nat.max_eq_right h.le).symm
  · next h => exact (Nat.max_eq_left (Nat.not_lt.1 h)).symm

theorem width_purge (r : ExpiryRing) (now : Nat) : (r.purge now).2.width = r.width :=
  width_congr (maxAge_purge r now) (windows_purge r now)

theorem cursor_purge (r : ExpiryRing) (now : Nat) :
    (r.purge now).2.cursor = max r.cursor (now / r.width) := by
  rw [purge_eq]
  exact cursor_drainTo _ _

theorem Timely.purge_of_le (h : r.Timely top) (hnow : now ≤ top) : (r.purge now).2.Timely top := by
  have hs := h.placed.swept (now / r.width)
  refine ⟨h.placed.purge now, ?_, fun i => ?_⟩
  · rw [width_purge, cursor_purge]
    exact Nat.max_le.2 ⟨h.cursor_le, Nat.div_le_div_right hnow⟩
  · rw [width_purge, windows_purge, bucket_purge, hs.window]
    exact h.near i

def purged (r : ExpiryRing) (now m : Nat) (place : Nat → Place) : Nat → Place :=
  moved (r.settled (now / r.width) place) .backlog (.handed m)

theorem follows_purged : Follows (· = m) place (purged r now m place) :=
  (Follows.settled r _).trans
    (.moved _ (fun _ => Place.noConfusion) (fun _ h => (Place.handed.inj h).symm) Place.noConfusion)

theorem purged_eq_slot (h : purged r now m place i = .slot k) :
    place i = .slot k ∧ now / r.width < (r.bucket k).window :=
  settled_eq_slot.1 (eq_of_moved_eq h Place.noConfusion).1

theorem purged_ne_backlog : purged r now m place i ≠ .backlog :=
  fun h => (eq_of_moved_eq h Place.noConfusion).2 rfl

namespace Holds

theorem settled_fresh (h : r.Holds count due top m place) (hi : m ≤ i) :
    r.settled upTo place i = .nowhere :=
  settled_eq_nowhere.2 (h.fresh i hi)

theorem purge_fst (h : r.Holds count due top m place) (now : Nat) :
    (r.purge now).1 = .ofInt (sumAt count (purged r now m place) (m + 1) (.handed m)) := by
  have hnone : sumAt count (r.settled (now / r.width) place) (m + 1) (.handed m) = 0 :=
    Finset.sum_eq_zero fun i _ =>
      if_neg fun hi => lt_irrefl m (h.handed i m (settled_eq_handed.1 hi)).2
  have hlast : r.settled (now / r.width) place m ≠ .backlog := by
    rw [h.settled_fresh le_rfl]
    nofun
  have hback := (h.placed.swept (now / r.width)).backlog
  rw [purge_eq, purged, sumAt_moved_target Place.noConfusion, hnone, Int.zero_add,
    sumAt_succ_of_ne hlast]
  exact hback.trans (h.stored _)

theorem purge (h : r.Holds count due top m place) (hnow : now ≤ top) :
    (r.purge now).2.Holds count due top (m + 1) (purged r now m place) := by
  have hs := h.placed.swept (now / r.width)
  refine ⟨h.timely.purge_of_le hnow, ?_, fun k => ?_, fun i k hi => ?_,
    fun i hi => absurd hi purged_ne_backlog, fun i j hj => ?_, fun i hi => ?_⟩
  · rw [purged, sumAt_moved_source Place.noConfusion]
    rfl
  · have hlast : r.settled (now / r.width) place m ≠ .slot k := by
      rw [h.settled_fresh le_rfl]
      nofun
    rw [bucket_purge, hs.count, purged, sumAt_moved_of_ne Place.noConfusion Place.noConfusion,
      sumAt_succ_of_ne hlast, sumAt_settled_slot, Bucket.drained]
    split
    · rfl
    · exact h.slot k
  · obtain ⟨hi, hlt⟩ := purged_eq_slot hi
    obtain ⟨hpos, hahead, hdue⟩ := h.ahead i k hi
    rw [width_purge, cursor_purge, bucket_purge, hs.window]
    exact ⟨hpos, Nat.max_lt.2 ⟨hahead, hlt⟩, hdue⟩
  · have hij : i < m := by
      by_contra hge
      have hout : purged r now m place i = .nowhere := by
        rw [purged, moved, h.settled_fresh (Nat.not_lt.1 hge)]
        rfl
      rw [hout] at hj
      cases hj
    rcases follows_purged.new i j hj with hj | rfl
    · obtain ⟨hlt, hjm⟩ := h.handed i j hj
      exact ⟨hlt, Nat.lt_succ_of_lt hjm⟩
    · exact ⟨hij, Nat.lt_succ_self _⟩
  · rw [purged, moved, h.settled_fresh (Nat.le_of_succ_le hi)]
    rfl

theorem lt_due (h : r.Holds count due top m place) (hi : purged r now m place i = .slot k) :
    now < due i := by
  obtain ⟨hi, hlt⟩ := purged_eq_slot hi
  obtain ⟨hpos, -, hdue⟩ := h.ahead i k hi
  rw [hdue]
  exact (Nat.div_lt_iff_lt_mul hpos).1 hlt

theorem due_le (h : r.Holds count due top m place) (hnow : now ≤ top)
    (hi : purged r now m place i = .handed m) : due i ≤ top := by
  rcases moved_cases (r.settled (now / r.width) place) .backlog (.handed m) i with
    ⟨hback, -⟩ | ⟨-, heq⟩
  · rcases settled_eq_backlog hback with hback | ⟨k, hk, hle⟩
    · exact h.reached i hback
    · obtain ⟨-, -, hdue⟩ := h.ahead i k hk
      rw [hdue]
      exact (Nat.mul_le_of_le_div _ _ _ hle).trans hnow
  · have hold := settled_eq_handed.1 (heq.symm.trans hi)
    exact absurd (h.handed i m hold).2 (lt_irrefl m)

end Holds

theorem Follows.sumAt_handed (h : Follows own place place') (hm : place m = .nowhere) {j : Nat}
    (hj : ¬own j) :
    sumAt count place' (m + 1) (.handed j) = sumAt count place m (.handed j) := by
  have hiff : ∀ i, place' i = .handed j ↔ place i = .handed j :=
    fun i => ⟨fun hi => (h.new i j hi).resolve_right hj, h.kept i j⟩
  rw [sumAt_succ_of_ne, sumAt, sumAt]
  · simp only [hiff]
  · rw [Ne, hiff, hm]
    nofun

end ExpiryRing

end LeastLoad
