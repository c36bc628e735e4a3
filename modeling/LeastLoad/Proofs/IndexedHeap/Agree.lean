import LeastLoad.Proofs.IndexedHeap.Contents
import LeastLoad.Proofs.IndexedHeap.Sound

/-! # Comparisons that agree on what is queued

A heap compares only its own elements, so two comparisons that answer alike for these lead to the
same heap. A comparison that is an order on the contents only may thus be exchanged for one that is
an order everywhere. -/

namespace LeastLoad

namespace IndexedHeap

variable {α : Type} [DecidableEq α] [Hashable α] {cmp cmp' : α → α → Ordering}
  {p q : IndexedHeap α} {pos i j : Nat} {e : α}

def AgreeOn (cmp cmp' : α → α → Ordering) (q : IndexedHeap α) : Prop :=
  ∀ a ∈ q.contents, ∀ b ∈ q.contents, cmp a b = cmp' a b

theorem AgreeOn.of_contents (h : q.AgreeOn cmp cmp') (hc : p.contents = q.contents) :
    p.AgreeOn cmp cmp' := by
  simpa only [AgreeOn, hc] using h

theorem AgreeOn.slots (h : q.AgreeOn cmp cmp') (hi : i < q.heap.size) (hj : j < q.heap.size) :
    cmp q.heap[i] q.heap[j] = cmp' q.heap[i] q.heap[j] :=
  h _ (mem_contents.2 (Array.getElem_mem hi)) _ (mem_contents.2 (Array.getElem_mem hj))

theorem AgreeOn.sinkTo? (h : q.AgreeOn cmp cmp') (pos : Nat) :
    q.sinkTo? cmp pos = q.sinkTo? cmp' pos := by
  have hchild : ∀ hlt : 2 * pos + 1 < q.heap.size,
      q.leadingChild cmp pos hlt = q.leadingChild cmp' pos hlt := by
    intro hlt
    simp only [leadingChild]
    split
    · next hr => rw [h.slots hr hlt]
    · rfl
  simp only [IndexedHeap.sinkTo?]
  split
  · next hlt => simp only [hchild hlt, h.slots (q.leadingChild cmp' pos hlt).2.2]
  · rfl

theorem AgreeOn.siftUp (h : q.AgreeOn cmp cmp') (pos : Nat) :
    q.siftUp cmp pos = q.siftUp cmp' pos := by
  fun_induction IndexedHeap.siftUp cmp q pos with
  | case1 q pos hlt hp hc hprec ih =>
    conv_rhs => rw [IndexedHeap.siftUp, dif_pos hlt]
    rw [h.slots hc hp] at hprec
    dsimp only
    rw [if_pos hprec]
    exact ih (h.of_contents (contents_swap hc hp))
  | case2 q pos hlt hp hc hnot =>
    conv_rhs => rw [IndexedHeap.siftUp, dif_pos hlt]
    rw [h.slots hc hp] at hnot
    dsimp only
    rw [if_neg hnot]
  | case3 q pos hnot =>
    conv_rhs => rw [IndexedHeap.siftUp, dif_neg hnot]

theorem AgreeOn.siftDown (h : q.AgreeOn cmp cmp') (pos : Nat) :
    q.siftDown cmp pos = q.siftDown cmp' pos := by
  fun_induction IndexedHeap.siftDown cmp q pos with
  | case1 q pos hnone =>
    rw [IndexedHeap.siftDown, ← h.sinkTo?, hnone]
  | case2 q pos c hc hsome ih =>
    conv_rhs => rw [IndexedHeap.siftDown, ← h.sinkTo?, hsome]
    exact ih (h.of_contents (contents_swap (by omega) hc.2))

theorem AgreeOn.reposition (h : q.AgreeOn cmp cmp') (pos : Nat) :
    q.reposition cmp pos = q.reposition cmp' pos := by
  rw [IndexedHeap.reposition, h.sinkTo?, h.siftDown, h.siftUp]
  rfl

theorem AgreeOn.push (h : ∀ a ∈ e ::ₘ q.contents, ∀ b ∈ e ::ₘ q.contents, cmp a b = cmp' a b) :
    q.push cmp e = q.push cmp' e := by
  refine AgreeOn.siftUp ?_ _
  have hc : (q.push cmp e).contents = e ::ₘ q.contents := contents_push e
  rwa [← hc, IndexedHeap.push, contents_siftUp] at h

theorem AgreeOn.offer (hi : q.Indexed)
    (h : ∀ a ∈ e ::ₘ q.contents, ∀ b ∈ e ::ₘ q.contents, cmp a b = cmp' a b) :
    q.offer cmp e = q.offer cmp' e := by
  have hq : q.AgreeOn cmp cmp' := fun a ha b hb =>
    h a (Multiset.mem_cons_of_mem ha) b (Multiset.mem_cons_of_mem hb)
  have hwalk : ∀ ks : List Nat, ks.foldl (repositionNth cmp e) q =
      ks.foldl (repositionNth cmp' e) q := by
    intro ks
    induction ks generalizing q with
    | nil => rfl
    | cons k ks ih =>
      have hnth : repositionNth cmp e q k = repositionNth cmp' e q k := by
        simp only [repositionNth]
        split
        · exact hq.reposition _
        · rfl
      have hc : (repositionNth cmp e q k).contents = q.contents := contents_repositionNth e k
      rw [List.foldl_cons, List.foldl_cons, ← hnth]
      exact ih (hi.walk e [k]) (by simpa only [hc] using h) (hq.of_contents hc)
  rw [IndexedHeap.offer, IndexedHeap.offer, hwalk, AgreeOn.push h]

theorem AgreeOn.disorder? (h : q.AgreeOn cmp cmp') : q.disorder? cmp = q.disorder? cmp' := by
  simp only [IndexedHeap.disorder?]
  refine congrArg (List.findSome? · _) (funext fun child => ?_)
  split
  · next a b ha hb => rw [h a (mem_of_slot ha) b (mem_of_slot hb)]
  · rfl

theorem AgreeOn.violation? (h : q.AgreeOn cmp cmp') : q.violation? cmp = q.violation? cmp' := by
  rw [IndexedHeap.violation?, h.disorder?]
  rfl

end IndexedHeap

end LeastLoad
