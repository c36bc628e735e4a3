import LeastLoad.Proofs.IndexedHeap.Index
import Mathlib.Data.Multiset.AddSub

/-! # The contents of a heap

What is queued, as a multiset. Sifting only exchanges slots, so each operation changes the contents
by the one element that it adds or takes, whatever the comparison and even if the heap is not in
order. -/

namespace LeastLoad

namespace IndexedHeap

variable {α : Type} [DecidableEq α] [Hashable α] {cmp : α → α → Ordering} {q : IndexedHeap α}
  {pos i j : Nat}

def contents (q : IndexedHeap α) : Multiset α := q.toList

theorem mem_contents {e : α} : e ∈ q.contents ↔ e ∈ q.heap := by
  simp [contents, toList]

theorem mem_contents_iff_getElem? {e : α} : e ∈ q.contents ↔ ∃ p : Nat, q.heap[p]? = some e := by
  rw [mem_contents, Array.mem_iff_getElem?]

theorem mem_of_slot {e : α} {p : Nat} (h : q.heap[p]? = some e) : e ∈ q.contents :=
  mem_contents_iff_getElem?.2 ⟨p, h⟩

theorem card_contents (q : IndexedHeap α) : q.contents.card = q.heap.size := by
  simp [contents, toList]

theorem count_contents (q : IndexedHeap α) (e : α) : q.contents.count e = q.toList.count e :=
  Multiset.coe_count e q.toList

@[simp] theorem contents_empty : (empty : IndexedHeap α).contents = 0 := rfl

theorem contents_eq_zero : q.contents = 0 ↔ q.heap.size = 0 := by
  rw [← Multiset.card_eq_zero, card_contents]

theorem contents_swap (hi : i < q.heap.size) (hj : j < q.heap.size) :
    (q.swap i j hi hj).contents = q.contents :=
  Multiset.coe_eq_coe.2 (Array.perm_iff_toList_perm.1 (Array.swap_perm hi hj))

theorem contents_siftUp : (q.siftUp cmp pos).contents = q.contents :=
  siftUp_of_swap (P := fun p => p.contents = q.contents)
    (fun _ _ _ hi hj h => (contents_swap hi hj).trans h) rfl

@[simp] theorem contents_reposition : (q.reposition cmp pos).contents = q.contents :=
  reposition_of_swap (P := fun p => p.contents = q.contents)
    (fun _ _ _ hi hj h => (contents_swap hi hj).trans h) rfl

@[simp] theorem contents_push (e : α) : (q.push cmp e).contents = e ::ₘ q.contents := by
  rw [push, contents_siftUp]
  simp only [contents, toList, Array.toList_push]
  exact Multiset.coe_eq_coe.2 (List.perm_append_singleton e _)

theorem contents_repositionNth (e : α) (k : Nat) :
    (repositionNth cmp e q k).contents = q.contents := by
  rw [repositionNth]
  split
  · exact contents_reposition
  · rfl

theorem contents_walk (e : α) (ks : List Nat) :
    (ks.foldl (repositionNth cmp e) q).contents = q.contents :=
  List.foldlRecOn (motive := fun p : IndexedHeap α => p.contents = q.contents) ks _ rfl
    fun _ hp k _ => (contents_repositionNth e k).trans hp

theorem contents_offer (h : q.Indexed) (e : α) :
    (q.offer cmp e).2.contents = if e ∈ q.contents then q.contents else e ::ₘ q.contents := by
  simp only [mem_contents, ← h.contains_iff]
  rw [offer]
  split
  · exact contents_walk e _
  · exact contents_push e

theorem fst_offer (h : q.Indexed) (e : α) :
    (q.offer cmp e).1 = decide (e ∉ q.contents) := by
  simp only [mem_contents, ← h.contains_iff]
  rw [offer]
  split <;> simp_all

theorem contents_dropLast {e : α} (h : q.heap.back? = some e) :
    q.contents = e ::ₘ q.dropLast.contents := by
  have hlist : q.toList.getLast? = some e := by simpa [toList] using h
  have hsplit := List.dropLast_append_getLast? e hlist
  have hdrop : q.dropLast.toList = q.toList.dropLast := by
    rw [toList, heap_dropLast, Array.toList_pop, toList]
  rw [contents, contents, hdrop, Multiset.cons_coe, Multiset.coe_eq_coe]
  exact (List.Perm.of_eq hsplit.symm).trans (List.perm_append_singleton e _)

theorem contents_bringLast (h : pos < q.heap.size) : (q.bringLast pos h).contents = q.contents := by
  rw [bringLast]
  split
  · rfl
  · exact contents_swap _ _

theorem back?_bringLast (h : pos < q.heap.size) :
    (q.bringLast pos h).heap.back? = some q.heap[pos] := by
  rw [Array.back?_eq_getElem?, size_bringLast, ← Array.getElem?_eq_getElem h, bringLast]
  split
  · next hlast => rw [← hlast]
  · rw [getElem?_swap, Equiv.swap_apply_right]

theorem contents_removeAt (cmp : α → α → Ordering) (h : pos < q.heap.size) :
    q.contents = (q.removeAt cmp pos h).1 ::ₘ (q.removeAt cmp pos h).2.contents := by
  have hrest : (q.removeAt cmp pos h).2.contents = (q.bringLast pos h).dropLast.contents := by
    rw [removeAt]
    dsimp only
    split
    · exact contents_reposition
    · rfl
  rw [hrest, ← contents_bringLast h]
  exact contents_dropLast (back?_bringLast h)

theorem peek_mem {a : α} (h : q.peek = some a) : a ∈ q.contents :=
  mem_contents_iff_getElem?.2 ⟨0, h⟩

theorem peek_eq_none : q.peek = none ↔ q.contents = 0 := by
  rw [peek, Array.getElem?_eq_none_iff, contents_eq_zero, Nat.le_zero]

theorem Ordered.peek_le {le : α → α → Prop} (hr : Refines cmp le) (h : q.Ordered le) {a b : α}
    (ha : q.peek = some a) (hb : b ∈ q.contents) : le a b := by
  obtain ⟨p, hp⟩ := mem_contents_iff_getElem?.1 hb
  exact h.top hr p a b ha hp

theorem drain_contents (cmp : α → α → Ordering) (q : IndexedHeap α) :
    (q.drain cmp : Multiset α) = q.contents := by
  fun_induction drain cmp q with
  | case1 q h ih => rw [← Multiset.cons_coe, ih, ← contents_removeAt cmp h]
  | case2 q h => exact (contents_eq_zero.2 (Nat.eq_zero_of_not_pos h)).symm

end IndexedHeap

end LeastLoad
