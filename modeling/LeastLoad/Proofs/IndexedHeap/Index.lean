import LeastLoad.IndexedHeap.Check
import LeastLoad.Proofs.IndexedHeap.Order
import Mathlib.Data.List.Count
import Mathlib.Data.List.Nodup
import Mathlib.Data.List.Perm.Basic

/-! # The index of a heap

The index lists the slots of each element, each slot once, and has no entry for an element that is
not queued. Every operation keeps it so, whatever the comparison answers, since all of them move
elements by exchanging two slots. -/

namespace LeastLoad

theorem replace_perm {α : Type} [DecidableEq α] {l : List α} {a : α} (b : α) (h : a ∈ l) :
    (l.replace a b).Perm (b :: l.erase a) := by
  induction l with
  | nil => simp at h
  | cons x l ih =>
    by_cases hx : x = a
    · subst hx
      simp
    · have ha : a ∈ l := (List.mem_cons.1 h).resolve_left (Ne.symm hx)
      have hxa : (a == x) = false := by simpa using Ne.symm hx
      have hax : (x == a) = false := by simpa using hx
      rw [List.replace_cons, hxa, List.erase_cons, hax]
      exact ((ih ha).cons x).trans (List.Perm.swap b x _)

namespace IndexedHeap

variable {α : Type} [DecidableEq α] [Hashable α] {cmp : α → α → Ordering} {q : IndexedHeap α}
  {pos i j : Nat}

structure Indexed (q : IndexedHeap α) : Prop where
  nodup : ∀ e, (q.slots e).Nodup
  mem_slots : ∀ e p, p ∈ q.slots e ↔ q.heap[p]? = some e
  listed : ∀ e : α, q.index[e]? ≠ some []

theorem slots_eq (q : IndexedHeap α) (e : α) : q.slots e = q.index[e]?.getD [] :=
  Std.HashMap.getD_eq_getD_getElem?

theorem Indexed.contains_iff (h : q.Indexed) (e : α) : q.contains e = true ↔ e ∈ q.heap := by
  rw [contains, Std.HashMap.contains_eq_isSome_getElem?, Array.mem_iff_getElem?]
  constructor
  · intro he
    obtain ⟨l, hl⟩ := Option.isSome_iff_exists.1 he
    obtain ⟨p, hp⟩ := List.exists_mem_of_ne_nil l fun hnil => h.listed e (hl.trans (by rw [hnil]))
    exact ⟨p, (h.mem_slots e p).1 (by rwa [slots_eq, hl])⟩
  · rintro ⟨p, hp⟩
    have hmem := (h.mem_slots e p).2 hp
    cases hl : q.index[e]? with
    | some l => rfl
    | none => simp [slots_eq, hl] at hmem

theorem Indexed.empty : (empty : IndexedHeap α).Indexed := by
  constructor <;> simp [IndexedHeap.empty, slots_eq]

theorem slots_swap (q : IndexedHeap α) (hi : i < q.heap.size) (hj : j < q.heap.size) (e : α) :
    (q.swap i j hi hj).slots e =
      if q.heap[i] = q.heap[j] then q.slots e
      else if e = q.heap[j] then (q.slots e).replace j i
      else if e = q.heap[i] then (q.slots e).replace i j
      else q.slots e := by
  simp only [slots_eq, swap]
  split
  · rfl
  · next hne =>
    rw [Std.HashMap.getElem?_modify, Std.HashMap.getElem?_modify, Std.HashMap.getElem?_modify]
    by_cases hej : e = q.heap[j]
    · subst hej
      cases q.index[q.heap[j]]? <;> simp [hne]
    · by_cases hei : e = q.heap[i]
      · subst hei
        cases q.index[q.heap[i]]? <;> simp [hej, Ne.symm hej]
      · simp [hej, hei, Ne.symm hej, Ne.symm hei]

theorem nodup_mem_replace {l : List Nat} {e : α} (hl : l.Nodup)
    (hmem : ∀ p, p ∈ l ↔ q.heap[p]? = some e) (hi : q.heap[i]? = some e)
    (hj : q.heap[j]? ≠ some e) :
    (l.replace i j).Nodup ∧
      ∀ p, p ∈ l.replace i j ↔ q.heap[Equiv.swap i j p]? = some e := by
  have hperm := replace_perm j ((hmem i).2 hi)
  constructor
  · rw [hperm.nodup_iff, List.nodup_cons]
    exact ⟨fun h => hj ((hmem j).1 (List.mem_of_mem_erase h)), hl.erase i⟩
  · intro p
    rw [hperm.mem_iff, List.mem_cons, hl.mem_erase_iff, hmem, Equiv.swap_apply_def]
    by_cases hpi : p = i
    · have hij : i ≠ j := fun h => hj (h ▸ hi)
      simp [hpi, hij, hj]
    · by_cases hpj : p = j
      · have hji : j ≠ i := hpj ▸ hpi
        simp [hpj, hji, hi]
      · simp [hpi, hpj]

theorem index_swap_ne_nil (h : q.Indexed) (hi : i < q.heap.size) (hj : j < q.heap.size) (e : α) :
    (q.swap i j hi hj).index[e]? ≠ some [] := by
  have hmap : ∀ (o : Option (List Nat)) a b, o ≠ some [] → o.map (·.replace a b) ≠ some [] := by
    intro o a b ho hnil
    obtain ⟨l, rfl, hl⟩ := Option.map_eq_some_iff.1 hnil
    refine ho (congrArg some (List.length_eq_zero_iff.1 ?_))
    rw [← List.length_replace, hl, List.length_nil]
  simp only [swap]
  split
  · exact h.listed e
  · rw [Std.HashMap.getElem?_modify, Std.HashMap.getElem?_modify, Std.HashMap.getElem?_modify]
    split
    · split
      · exact hmap _ _ _ (hmap _ _ _ (h.listed _))
      · exact hmap _ _ _ (h.listed _)
    · split
      · exact hmap _ _ _ (h.listed _)
      · exact h.listed e

theorem Indexed.swap (h : q.Indexed) (hi : i < q.heap.size) (hj : j < q.heap.size) :
    (q.swap i j hi hj).Indexed := by
  have hqi : q.heap[i]? = some q.heap[i] := Array.getElem?_eq_getElem hi
  have hqj : q.heap[j]? = some q.heap[j] := Array.getElem?_eq_getElem hj
  suffices hs : ∀ e, ((q.swap i j hi hj).slots e).Nodup ∧ ∀ p,
      p ∈ (q.swap i j hi hj).slots e ↔ (q.swap i j hi hj).heap[p]? = some e from
    ⟨fun e => (hs e).1, fun e => (hs e).2, index_swap_ne_nil h hi hj⟩
  intro e
  have hmem := h.mem_slots e
  simp only [slots_swap, getElem?_swap]
  split
  · next heq =>
    refine ⟨h.nodup e, fun p => ?_⟩
    rw [hmem, Equiv.swap_apply_def]
    split
    · next hp => rw [hp, hqi, hqj, heq]
    · split
      · next hp => rw [hp, hqi, hqj, heq]
      · rfl
  · next heq =>
    split
    · next he =>
      subst he
      simpa only [Equiv.swap_comm i j] using
        nodup_mem_replace (h.nodup _) hmem hqj (fun hx => heq (Option.some.inj (hqi.symm.trans hx)))
    · next hej =>
      split
      · next he =>
        subst he
        exact nodup_mem_replace (h.nodup _) hmem hqi
          (fun hx => heq (Option.some.inj (hqj.symm.trans hx)).symm)
      · next hei =>
        refine ⟨h.nodup e, fun p => ?_⟩
        rw [hmem, Equiv.swap_apply_def]
        split
        · next hp => simp [hp, hqi, hqj, Ne.symm hei, Ne.symm hej]
        · split
          · next hp => simp [hp, hqi, hqj, Ne.symm hei, Ne.symm hej]
          · rfl

theorem Indexed.length_slots (h : q.Indexed) (e : α) :
    (q.slots e).length = q.toList.count e := by
  have hperm : (q.slots e).Perm
      ((List.range q.toList.length).filter fun p => q.toList[p]? == some e) := by
    refine (List.perm_ext_iff_of_nodup (h.nodup e) (List.nodup_range.filter _)).2 fun p => ?_
    rw [h.mem_slots, List.mem_filter, List.mem_range, beq_iff_eq, toList, Array.getElem?_toList]
    constructor
    · intro hp
      exact ⟨(Array.getElem?_eq_some_iff.1 hp).1, hp⟩
    · exact And.right
  have hmap : q.toList.map some = (List.range q.toList.length).map (q.toList[·]?) := by
    apply List.ext_getElem?
    intro p
    by_cases hp : p < q.toList.length
    · simp [hp]
    · simp [hp]
  rw [hperm.length_eq, ← List.countP_eq_length_filter,
    ← List.count_map_of_injective q.toList some (Option.some_injective α) e, hmap, List.count,
    List.countP_map]
  rfl

theorem slots_append (q : IndexedHeap α) (e e' : α) :
    (IndexedHeap.mk (q.heap.push e)
      (q.index.alter e fun listed => some (listed.getD [] ++ [q.heap.size]))).slots e' =
      if e' = e then q.slots e ++ [q.heap.size] else q.slots e' := by
  simp only [slots_eq, Std.HashMap.getElem?_alter, beq_iff_eq, eq_comm (a := e)]
  split <;> simp

theorem Indexed.append (h : q.Indexed) (e : α) :
    (IndexedHeap.mk (q.heap.push e)
      (q.index.alter e fun listed => some (listed.getD [] ++ [q.heap.size]))).Indexed := by
  have hslots := slots_append q e
  generalize hg : IndexedHeap.mk (q.heap.push e) _ = grown at hslots ⊢
  have hnew : q.heap.size ∉ q.slots e := by
    rw [h.mem_slots, Array.getElem?_eq_none (Nat.le_refl _)]
    simp
  constructor
  · intro e'
    rw [hslots]
    split
    · refine List.nodup_append.2 ⟨h.nodup e, List.nodup_singleton _, fun p hp r hr hpr => hnew ?_⟩
      rwa [← List.mem_singleton.1 hr, ← hpr]
    · exact h.nodup e'
  · intro e' p
    have hheap : grown.heap[p]? = if p = q.heap.size then some e else q.heap[p]? := by
      simp only [← hg, Array.getElem?_push]
    have hold : p = q.heap.size → p ∉ q.slots e' := by
      rintro rfl
      rw [h.mem_slots, Array.getElem?_eq_none (Nat.le_refl _)]
      simp
    rw [hslots, hheap]
    by_cases hp : p = q.heap.size <;> by_cases he : e' = e <;>
      simp_all [h.mem_slots, eq_comm]
  · intro e'
    simp only [← hg, Std.HashMap.getElem?_alter]
    split
    · simp
    · exact h.listed e'

theorem index_dropLast {e : α} (hback : q.heap.back? = some e) (e' : α) :
    q.dropLast.index[e']? =
      if e' = e then
        let kept := (q.slots e).filter (· ≠ q.heap.size - 1)
        if kept = [] then none else some kept
      else q.index[e']? := by
  rw [IndexedHeap.dropLast, hback]
  dsimp only
  rw [Std.HashMap.getElem?_alter]
  by_cases he : e' = e
  · subst he
    rw [if_pos (beq_self_eq_true e'), if_pos rfl, slots_eq]
    generalize List.filter _ (q.index[e']?.getD []) = kept
    cases kept <;> rfl
  · have hne : ¬ (e == e') = true := fun heq => he (eq_of_beq heq).symm
    rw [if_neg hne, if_neg he]

theorem slots_dropLast {e : α} (hback : q.heap.back? = some e) (e' : α) :
    q.dropLast.slots e' =
      if e' = e then (q.slots e).filter (· ≠ q.heap.size - 1) else q.slots e' := by
  rw [slots_eq, index_dropLast hback]
  split
  · dsimp only
    split
    · next hnil => exact hnil.symm
    · rfl
  · rw [slots_eq]

theorem Indexed.dropLast (h : q.Indexed) : q.dropLast.Indexed := by
  cases hback : q.heap.back? with
  | none =>
    rw [IndexedHeap.dropLast, hback]
    exact h
  | some e =>
    constructor
    · intro e'
      rw [slots_dropLast hback]
      split
      · exact (h.nodup e).filter _
      · exact h.nodup e'
    · intro e' p
      rw [slots_dropLast hback, heap_dropLast, Array.getElem?_pop]
      by_cases hp : p < q.heap.size - 1
      · rw [if_pos hp, ← h.mem_slots]
        split
        · next he => simp [he, Nat.ne_of_lt hp]
        · rfl
      · rw [if_neg hp]
        simp only [reduceCtorEq, iff_false]
        have hlast : ∀ e', p ∈ q.slots e' → p = q.heap.size - 1 := by
          intro e' hmem
          have := (Array.getElem?_eq_some_iff.1 ((h.mem_slots e' p).1 hmem)).1
          omega
        split
        · simpa using hlast e
        · next he =>
          intro hmem
          have hpe := (h.mem_slots e' p).1 hmem
          rw [Array.back?_eq_getElem?] at hback
          rw [hlast e' hmem, hback] at hpe
          exact he (Option.some.inj hpe).symm
    · intro e'
      rw [index_dropLast hback]
      split
      · dsimp only
        split
        · simp
        · next hne => exact fun hnil => hne (Option.some.inj hnil)
      · exact h.listed e'

theorem Indexed.siftUp (h : q.Indexed) : (q.siftUp cmp pos).Indexed :=
  siftUp_of_swap (fun _ _ _ hi hj hq => hq.swap hi hj) h

theorem Indexed.reposition (h : q.Indexed) : (q.reposition cmp pos).Indexed :=
  reposition_of_swap (fun _ _ _ hi hj hq => hq.swap hi hj) h

theorem Indexed.push (h : q.Indexed) (e : α) : (q.push cmp e).Indexed :=
  (h.append e).siftUp

theorem Indexed.walk (h : q.Indexed) (e : α) (ks : List Nat) :
    (ks.foldl (repositionNth cmp e) q).Indexed := by
  refine List.foldlRecOn ks _ h fun q hq k _ => ?_
  rw [repositionNth]
  split
  · exact hq.reposition
  · exact hq

theorem Indexed.offer (h : q.Indexed) (e : α) : (q.offer cmp e).2.Indexed := by
  rw [IndexedHeap.offer]
  split
  · exact h.walk e _
  · exact h.push e

theorem Indexed.bringLast (h : q.Indexed) (hpos : pos < q.heap.size) :
    (q.bringLast pos hpos).Indexed := by
  rw [IndexedHeap.bringLast]
  split
  · exact h
  · exact h.swap _ _

theorem Indexed.removeAt (h : q.Indexed) (hpos : pos < q.heap.size) :
    (q.removeAt cmp pos hpos).2.Indexed := by
  rw [IndexedHeap.removeAt]
  dsimp only
  split
  · exact (h.bringLast hpos).dropLast.reposition
  · exact (h.bringLast hpos).dropLast

end IndexedHeap

end LeastLoad
