import LeastLoad.Proofs.IndexedHeap.Index

/-! # A checked heap

A heap that is in order and whose index lists what is queued has no violation. -/

namespace LeastLoad

namespace IndexedHeap

variable {α : Type} [DecidableEq α] [Hashable α] {cmp : α → α → Ordering} {q : IndexedHeap α}

theorem disorder?_eq_none : q.disorder? cmp = none ↔ q.Ordered (cmp · · ≠ .gt) := by
  rw [disorder?, List.findSome?_eq_none_iff]
  constructor
  · intro h c hc a b ha hb hgt
    have hlt := (Array.getElem?_eq_some_iff.1 hb).1
    have hnone := h c (List.mem_range.2 hlt)
    simp [ha, hb, hc, hgt] at hnone
  · intro h c _
    dsimp only
    split
    · next a b ha hb =>
      refine if_neg fun hgt => ?_
      exact h c hgt.1 a b ha hb hgt.2
    · rfl

theorem Indexed.stale?_eq_none (h : q.Indexed) : q.stale? = none := by
  rw [stale?, List.findSome?_eq_none_iff]
  rintro ⟨e, listed⟩ hmem
  have hl := Std.HashMap.mem_toList_iff_getElem?_eq_some.1 hmem
  simp only [Option.map_eq_none_iff, List.find?_eq_none, Bool.not_eq_true', Bool.not_eq_false,
    beq_iff_eq]
  intro p hp
  exact (h.mem_slots e p).1 (by rwa [slots_eq, hl])

theorem indexed_eq (q : IndexedHeap α) :
    q.indexed = (q.index.toList.flatMap (·.2)).length := by
  have hfold : ∀ (l : List (α × List Nat)) (n : Nat),
      l.foldl (fun n x => n + x.2.length) n = n + (l.flatMap (·.2)).length := by
    intro l
    induction l with
    | nil => simp
    | cons x l ih =>
      intro n
      rw [List.foldl_cons, ih, List.flatMap_cons, List.length_append, Nat.add_assoc]
  rw [indexed, Std.HashMap.fold_eq_foldl_toList, hfold, Nat.zero_add]

theorem Indexed.flatMap_perm (h : q.Indexed) :
    (q.index.toList.flatMap (·.2)).Perm (List.range q.heap.size) := by
  have hslots : ∀ x ∈ q.index.toList, x.2 = q.slots x.1 := by
    intro x hx
    have hl := Std.HashMap.mem_toList_iff_getElem?_eq_some.1 hx
    rw [slots_eq, hl]
    rfl
  refine (List.perm_ext_iff_of_nodup ?_ List.nodup_range).2 fun p => ?_
  · rw [List.nodup_flatMap]
    constructor
    · intro x hx
      exact hslots x hx ▸ h.nodup x.1
    · refine (Std.HashMap.distinct_keys_toList (m := q.index)).imp_of_mem fun {x y} hx hy hne => ?_
      intro p hpx hpy
      have hx' := (h.mem_slots x.1 p).1 (hslots x hx ▸ hpx)
      have hy' := (h.mem_slots y.1 p).1 (hslots y hy ▸ hpy)
      have hxy : x.1 = y.1 := Option.some.inj (hx'.symm.trans hy')
      simp [hxy] at hne
  · rw [List.mem_flatMap, List.mem_range]
    constructor
    · rintro ⟨x, hx, hp⟩
      rw [hslots x hx, h.mem_slots] at hp
      exact (Array.getElem?_eq_some_iff.1 hp).1
    · intro hp
      have hmem := (h.mem_slots q.heap[p] p).2 (Array.getElem?_eq_getElem hp)
      cases hl : q.index[q.heap[p]]? with
      | none => simp [slots_eq, hl] at hmem
      | some l =>
        rw [slots_eq, hl] at hmem
        exact ⟨(q.heap[p], l), Std.HashMap.mem_toList_iff_getElem?_eq_some.2 hl, hmem⟩

theorem Indexed.unindexed?_eq_none (h : q.Indexed) : q.unindexed? = none := by
  rw [unindexed?, List.findSome?_eq_none_iff]
  intro p _
  split
  · next e he =>
    refine if_pos ?_
    rw [List.contains_iff_mem, h.mem_slots]
    exact he
  · rfl

theorem Indexed.violation?_eq (h : q.Indexed) : q.violation? cmp = q.disorder? cmp := by
  have hcount : q.indexed = q.heap.size := by
    rw [indexed_eq, h.flatMap_perm.length_eq, List.length_range]
  rw [violation?, h.stale?_eq_none, if_pos hcount, h.unindexed?_eq_none, Option.or_none,
    Option.or_none]

theorem violation?_eq_none (h : q.Indexed) (ho : q.Ordered (cmp · · ≠ .gt)) :
    q.violation? cmp = none := by
  rw [h.violation?_eq, disorder?_eq_none.2 ho]

theorem eq_heapOrder_of_disorder? {v : Violation} (h : q.disorder? cmp = some v) :
    ∃ parent child, v = .heapOrder parent child := by
  rw [disorder?] at h
  obtain ⟨child, -, hc⟩ := List.exists_of_findSome?_eq_some h
  dsimp only at hc
  split at hc
  · split at hc
    · exact ⟨_, _, (Option.some.inj hc).symm⟩
    · cases hc
  · cases hc

end IndexedHeap

end LeastLoad
