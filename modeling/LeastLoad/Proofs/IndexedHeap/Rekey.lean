import LeastLoad.Proofs.IndexedHeap.Contents

/-! # Changing the key of one element

When the key of an element changes, only the pairs with that element may fall out of order. If the
element is queued at most once, offering it puts the heap in order again, and so does removing it;
until then the old order still relates the element above its slot with those below. -/

namespace LeastLoad

namespace IndexedHeap

variable {α : Type} [DecidableEq α] [Hashable α] {cmp : α → α → Ordering} {le le' : α → α → Prop}
  {q : IndexedHeap α} {pos : Nat} {e : α}

/-- In order but for `e`, which is queued at most once. -/
structure OrderedExcept (le : α → α → Prop) (q : IndexedHeap α) (e : α) : Prop where
  once : q.contents.count e ≤ 1
  absent : e ∉ q.contents → q.Ordered le
  queued : ∀ p : Nat, q.heap[p]? = some e → q.OrderedBut le p

theorem Ordered.orderedExcept (hr : Refines cmp le) (h : q.Ordered le)
    (once : q.contents.count e ≤ 1) : q.OrderedExcept le e :=
  ⟨once, fun _ => h, fun p _ => h.orderedBut hr p⟩

theorem Indexed.slots_eq_singleton (h : q.Indexed) (once : q.contents.count e ≤ 1) {p : Nat}
    (hp : q.heap[p]? = some e) : q.slots e = [p] := by
  have hmem := (h.mem_slots e p).2 hp
  have hlen : (q.slots e).length ≤ 1 := by rwa [h.length_slots, ← count_contents]
  match hs : q.slots e with
  | [] => simp [hs] at hmem
  | [r] => rw [hs, List.mem_singleton] at hmem; rw [hmem]
  | r :: r' :: rest => simp [hs] at hlen

theorem ne_of_count_le_one (h : q.Indexed) (once : q.contents.count e ≤ 1) {p r : Nat}
    (hp : q.heap[p]? = some e) (hne : r ≠ p) : q.heap[r]? ≠ some e := by
  intro hr
  have hmem := (h.mem_slots e r).2 hr
  rw [h.slots_eq_singleton once hp, List.mem_singleton] at hmem
  exact hne hmem

theorem OrderedExcept.rekeyOn (hi : q.Indexed) (h : q.OrderedExcept le e)
    (agree : ∀ a ∈ q.contents, ∀ b ∈ q.contents, a ≠ e → b ≠ e → le a b → le' a b) :
    q.OrderedExcept le' e := by
  refine ⟨h.once, fun habs c hc a b ha hb => ?_, fun p hp => ?_⟩
  · have hne : ∀ {k : Nat} {x}, q.heap[k]? = some x → x ≠ e := by
      rintro k x hx rfl
      exact habs (mem_of_slot hx)
    exact agree a (mem_of_slot ha) b (mem_of_slot hb) (hne ha) (hne hb)
      (h.absent habs c hc a b ha hb)
  · have hne : ∀ {k : Nat} {x}, k ≠ p → q.heap[k]? = some x → x ≠ e := by
      rintro k x hk hx rfl
      exact ne_of_count_le_one hi h.once hp hk hx
    constructor
    · intro c hc hcp hpar a b ha hb
      exact agree a (mem_of_slot ha) b (mem_of_slot hb) (hne hpar ha) (hne hcp hb)
        ((h.queued p hp).off c hc hcp hpar a b ha hb)
    · intro hp0 c hc hpar a b ha hb
      exact agree a (mem_of_slot ha) b (mem_of_slot hb) (hne (by omega) ha) (hne (by omega) hb)
        ((h.queued p hp).across hp0 c hc hpar a b ha hb)

theorem OrderedExcept.rekey (hi : q.Indexed) (h : q.OrderedExcept le e)
    (agree : ∀ a b, a ≠ e → b ≠ e → le a b → le' a b) : q.OrderedExcept le' e :=
  h.rekeyOn hi fun a _ b _ => agree a b

/-- A changed key disturbs the order only around the element that has it. -/
theorem Ordered.rekey (hi : q.Indexed) (hr : Refines cmp le) (h : q.Ordered le)
    (once : q.contents.count e ≤ 1)
    (agree : ∀ a b, a ≠ e → b ≠ e → le a b → le' a b) : q.OrderedExcept le' e :=
  (h.orderedExcept hr once).rekey hi agree

theorem Indexed.offer_eq_reposition (hi : q.Indexed) (once : q.contents.count e ≤ 1) {p : Nat}
    (hp : q.heap[p]? = some e) : (q.offer cmp e).2 = q.reposition cmp p := by
  have hs := hi.slots_eq_singleton once hp
  have hc : q.contains e = true :=
    (hi.contains_iff e).2 (mem_contents.1 (mem_contents_iff_getElem?.2 ⟨p, hp⟩))
  rw [IndexedHeap.offer, if_pos hc, hs]
  simp only [List.length_singleton, List.range_one, List.foldl_cons, List.foldl_nil,
    repositionNth, hs, List.getElem?_cons_zero]

theorem OrderedExcept.offer (hi : q.Indexed) (hr : Refines cmp le) (h : q.OrderedExcept le e) :
    (q.offer cmp e).2.Ordered le := by
  by_cases he : e ∈ q.contents
  · obtain ⟨p, hp⟩ := mem_contents_iff_getElem?.1 he
    rw [hi.offer_eq_reposition h.once hp]
    exact reposition_ordered hr (h.queued p hp)
  · have hc : ¬ q.contains e = true := fun hc => he (mem_contents.2 ((hi.contains_iff e).1 hc))
    rw [IndexedHeap.offer, if_neg hc]
    exact push_ordered hr (h.absent he) e

theorem Indexed.remove_cases (hi : q.Indexed) (cmp : α → α → Ordering) (e : α) :
    (e ∉ q.contents ∧ q.remove cmp e = (false, q)) ∨
      ∃ p, ∃ hp : p < q.heap.size, q.heap[p] = e ∧
        q.remove cmp e = (true, (q.removeAt cmp p hp).2) := by
  rw [remove]
  split
  · next hlast =>
    refine .inl ⟨fun he => ?_, rfl⟩
    obtain ⟨p, hp⟩ := mem_contents_iff_getElem?.1 he
    have hmem := (hi.mem_slots e p).2 hp
    rw [List.getLast?_eq_none_iff.1 hlast] at hmem
    exact List.not_mem_nil hmem
  · next p hlast =>
    have hp := (hi.mem_slots e p).1 (List.mem_of_getLast? hlast)
    obtain ⟨hlt, heq⟩ := Array.getElem?_eq_some_iff.1 hp
    exact .inr ⟨p, hlt, heq, by rw [dif_pos hlt]⟩

theorem OrderedExcept.remove (hi : q.Indexed) (hr : Refines cmp le) (h : q.OrderedExcept le e) :
    (q.remove cmp e).2.Ordered le := by
  obtain ⟨habs, heq⟩ | ⟨p, hp, he, heq⟩ := hi.remove_cases cmp e
  · rw [heq]
    exact h.absent habs
  · rw [heq]
    exact removeAt_ordered hr (h.queued p (he ▸ Array.getElem?_eq_getElem hp)) hp

theorem Ordered.remove (hi : q.Indexed) (hr : Refines cmp le) (h : q.Ordered le) :
    (q.remove cmp e).2.Ordered le := by
  obtain ⟨-, heq⟩ | ⟨p, hp, -, heq⟩ := hi.remove_cases cmp e
  · rw [heq]
    exact h
  · rw [heq]
    exact removeAt_ordered hr (h.orderedBut hr p) hp

theorem Indexed.remove (hi : q.Indexed) : (q.remove cmp e).2.Indexed := by
  obtain ⟨-, heq⟩ | ⟨p, hp, -, heq⟩ := hi.remove_cases cmp e
  · rw [heq]
    exact hi
  · rw [heq]
    exact hi.removeAt hp

theorem contents_remove (hi : q.Indexed) : (q.remove cmp e).2.contents = q.contents.erase e := by
  obtain ⟨habs, heq⟩ | ⟨p, hp, rfl, heq⟩ := hi.remove_cases cmp e
  · rw [heq, Multiset.erase_of_notMem habs]
  · rw [heq, contents_removeAt cmp hp]
    exact (Multiset.erase_cons_head _ _).symm

theorem fst_remove (hi : q.Indexed) : (q.remove cmp e).1 = decide (e ∈ q.contents) := by
  obtain ⟨habs, heq⟩ | ⟨p, hp, rfl, heq⟩ := hi.remove_cases cmp e
  · rw [heq, decide_eq_false habs]
  · rw [heq, decide_eq_true (mem_contents.2 (Array.getElem_mem hp))]

end IndexedHeap

end LeastLoad
