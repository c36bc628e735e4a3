import LeastLoad.IndexedHeap.Basic
import Mathlib.Logic.Equiv.Basic

/-! # Heap order under sifting

The order that a heap keeps need not be all that its comparison sees. `Refines` relates a
comparison to a coarser preorder, and sifting by the comparison restores the order of the preorder:
what the comparison decides beyond it only chooses between elements that the preorder takes as
equal. With the comparison's own preorder this is the usual statement.

One element may be out of place, in either direction (`OrderedBut`); the elements around its slot
are then in order with each other, and repositioning it puts the heap in order. -/

namespace LeastLoad

/-- A comparison that only strictly precedes what the preorder allows to precede. -/
structure Refines {α : Type} (cmp : α → α → Ordering) (le : α → α → Prop) : Prop where
  trans : ∀ {a b c}, le a b → le b c → le a c
  of_lt : ∀ {a b}, cmp a b = .lt → le a b
  of_not_lt : ∀ {a b}, cmp a b ≠ .lt → le b a

theorem Refines.refl {α : Type} {cmp : α → α → Ordering} {le : α → α → Prop} (h : Refines cmp le)
    (a : α) : le a a := by
  by_cases haa : cmp a a = .lt
  · exact h.of_lt haa
  · exact h.of_not_lt haa

namespace IndexedHeap

variable {α : Type} [DecidableEq α] [Hashable α] {cmp : α → α → Ordering} {le : α → α → Prop}
  {q : IndexedHeap α} {pos i j : Nat}

def InOrder (le : α → α → Prop) (q : IndexedHeap α) (i j : Nat) : Prop :=
  ∀ a b, q.heap[i]? = some a → q.heap[j]? = some b → le a b

theorem InOrder.trans {k : Nat} (hr : Refines cmp le) (hj : j < q.heap.size)
    (hij : q.InOrder le i j) (hjk : q.InOrder le j k) : q.InOrder le i k := by
  intro a b ha hb
  have hm := Array.getElem?_eq_getElem hj
  exact hr.trans (hij _ _ ha hm) (hjk _ _ hm hb)

def Ordered (le : α → α → Prop) (q : IndexedHeap α) : Prop :=
  ∀ c, 0 < c → q.InOrder le ((c - 1) / 2) c

/-- All slots but one are in order with their parents, and the parent of that one with its
children. -/
structure OrderedBut (le : α → α → Prop) (q : IndexedHeap α) (hole : Nat) : Prop where
  off : ∀ c, 0 < c → c ≠ hole → (c - 1) / 2 ≠ hole → q.InOrder le ((c - 1) / 2) c
  across : 0 < hole → ∀ c, 0 < c → (c - 1) / 2 = hole → q.InOrder le ((hole - 1) / 2) c

theorem Ordered.orderedBut (hr : Refines cmp le) (h : q.Ordered le) (hole : Nat) :
    q.OrderedBut le hole := by
  constructor
  · intro c hc _ _
    exact h c hc
  · intro hh c hc hp
    by_cases hs : hole < q.heap.size
    · exact (h hole hh).trans hr hs (hp ▸ h c hc)
    · intro a b _ hb
      obtain ⟨hlt, -⟩ := Array.getElem?_eq_some_iff.1 hb
      omega

theorem Ordered.top (hr : Refines cmp le) (h : q.Ordered le) (j : Nat) : q.InOrder le 0 j := by
  induction j using Nat.strongRecOn with
  | ind j ih =>
    by_cases hj : 0 < j
    · by_cases hs : j < q.heap.size
      · exact (ih ((j - 1) / 2) (by omega)).trans hr (by omega) (h j hj)
      · intro a b _ hb
        exact absurd (Array.getElem?_eq_some_iff.1 hb).1 hs
    · obtain rfl : j = 0 := by omega
      intro a b ha hb
      obtain rfl : a = b := Option.some.inj (ha.symm.trans hb)
      exact hr.refl a

theorem getElem?_swap (q : IndexedHeap α) (hi : i < q.heap.size) (hj : j < q.heap.size) (k : Nat) :
    (q.swap i j hi hj).heap[k]? = q.heap[Equiv.swap i j k]? := by
  simp only [swap, Array.getElem?_swap, Equiv.swap_apply_def]
  by_cases hki : k = i <;> by_cases hkj : k = j <;> simp_all [eq_comm]

theorem inOrder_swap {hi : i < q.heap.size} {hj : j < q.heap.size} {a b : Nat} :
    (q.swap i j hi hj).InOrder le a b ↔ q.InOrder le (Equiv.swap i j a) (Equiv.swap i j b) := by
  simp only [InOrder, getElem?_swap]

theorem inOrder_of_le (hi : i < q.heap.size) (hj : j < q.heap.size)
    (h : le q.heap[i] q.heap[j]) : q.InOrder le i j := by
  intro a b ha hb
  rw [Array.getElem?_eq_getElem hi] at ha
  rw [Array.getElem?_eq_getElem hj] at hb
  exact Option.some.inj ha ▸ Option.some.inj hb ▸ h

theorem inOrder_of_size_le (h : q.heap.size ≤ j) : q.InOrder le i j := by
  intro a b _ hb
  exact absurd (Array.getElem?_eq_some_iff.1 hb).1 (Nat.not_lt.2 h)

theorem inOrder_refl (hr : Refines cmp le) (i : Nat) : q.InOrder le i i := by
  intro a b ha hb
  obtain rfl : a = b := Option.some.inj (ha.symm.trans hb)
  exact hr.refl a

theorem leadingChild_spec (hr : Refines cmp le) (h : 2 * pos + 1 < q.heap.size) :
    ((q.leadingChild cmp pos h).1 - 1) / 2 = pos ∧
      ∀ c, 0 < c → (c - 1) / 2 = pos → q.InOrder le (q.leadingChild cmp pos h).1 c := by
  have hchild : ∀ c, 0 < c → (c - 1) / 2 = pos → c = 2 * pos + 1 ∨ c = 2 * pos + 2 := by
    intro c _ _
    omega
  rw [leadingChild]
  split
  · next hright =>
    split
    · next hlt =>
      refine ⟨by simp only; omega, fun c hc hp => ?_⟩
      rcases hchild c hc hp with rfl | rfl
      · exact inOrder_of_le hright h (hr.of_lt hlt)
      · exact inOrder_refl hr _
    · next hnot =>
      refine ⟨by simp only; omega, fun c hc hp => ?_⟩
      rcases hchild c hc hp with rfl | rfl
      · exact inOrder_refl hr _
      · exact inOrder_of_le h hright (hr.of_not_lt hnot)
  · next hright =>
    refine ⟨by simp only; omega, fun c hc hp => ?_⟩
    rcases hchild c hc hp with rfl | rfl
    · exact inOrder_refl hr _
    · exact inOrder_of_size_le (Nat.not_lt.1 hright)

theorem inOrder_of_sinkTo?_none (hr : Refines cmp le) (h : q.sinkTo? cmp pos = none) (c : Nat)
    (hc : 0 < c) (hp : (c - 1) / 2 = pos) : q.InOrder le pos c := by
  by_cases hleft : 2 * pos + 1 < q.heap.size
  · obtain ⟨-, hlead⟩ := leadingChild_spec hr hleft
    have hl := (q.leadingChild cmp pos hleft).2.2
    simp only [sinkTo?, hleft, dite_true] at h
    split at h
    · cases h
    · next hnot =>
      exact (inOrder_of_le (by omega) hl (hr.of_not_lt hnot)).trans hr hl (hlead c hc hp)
  · exact inOrder_of_size_le (by omega)

theorem sinkTo?_some (hr : Refines cmp le) {c : { c : Nat // pos < c ∧ c < q.heap.size }}
    (h : q.sinkTo? cmp pos = some c) :
    (c.1 - 1) / 2 = pos ∧ q.InOrder le c.1 pos ∧
      ∀ d, 0 < d → (d - 1) / 2 = pos → q.InOrder le c.1 d := by
  by_cases hleft : 2 * pos + 1 < q.heap.size
  · obtain ⟨hp, hlead⟩ := leadingChild_spec hr hleft
    simp only [sinkTo?, hleft, dite_true] at h
    split at h
    · next hlt =>
      obtain rfl := Option.some.inj h
      have hl := (q.leadingChild cmp pos hleft).2.2
      exact ⟨hp, inOrder_of_le hl (by omega) (hr.of_lt hlt), hlead⟩
    · cases h
  · simp [sinkTo?, hleft] at h

structure SinkOrder (le : α → α → Prop) (q : IndexedHeap α) (pos : Nat) : Prop where
  off : ∀ c, 0 < c → (c - 1) / 2 ≠ pos → q.InOrder le ((c - 1) / 2) c
  across : 0 < pos → ∀ c, 0 < c → (c - 1) / 2 = pos → q.InOrder le ((pos - 1) / 2) c

structure RiseOrder (le : α → α → Prop) (q : IndexedHeap α) (pos : Nat) : Prop where
  off : ∀ c, 0 < c → c ≠ pos → q.InOrder le ((c - 1) / 2) c
  across : 0 < pos → ∀ c, 0 < c → (c - 1) / 2 = pos → q.InOrder le ((pos - 1) / 2) c

theorem SinkOrder.swap (hs : q.SinkOrder le pos) {c : Nat} (hpos : pos < q.heap.size)
    (hc : c < q.heap.size) (hp : (c - 1) / 2 = pos) (hlt : pos < c)
    (hup : q.InOrder le c pos) (hside : ∀ d, 0 < d → (d - 1) / 2 = pos → q.InOrder le c d) :
    (q.swap pos c hpos hc).SinkOrder le c := by
  constructor
  · intro d hd hdc
    by_cases hdpos : d = pos
    · subst hdpos
      rw [inOrder_swap, Equiv.swap_apply_left, Equiv.swap_apply_of_ne_of_ne (by omega) hdc]
      exact hs.across hd c (by omega) hp
    by_cases hdeq : d = c
    · subst hdeq
      rw [inOrder_swap, Equiv.swap_apply_right, hp, Equiv.swap_apply_left]
      exact hup
    rw [inOrder_swap, Equiv.swap_apply_of_ne_of_ne hdpos hdeq]
    by_cases hdp : (d - 1) / 2 = pos
    · rw [hdp, Equiv.swap_apply_left]
      exact hside d hd hdp
    · rw [Equiv.swap_apply_of_ne_of_ne hdp hdc]
      exact hs.off d hd hdp
  · intro _ d hd hdc
    rw [inOrder_swap, hp, Equiv.swap_apply_left, Equiv.swap_apply_of_ne_of_ne (by omega) (by omega)]
    have hoff := hs.off d hd (by omega)
    rwa [hdc] at hoff

theorem siftDown_ordered (hr : Refines cmp le) (hs : q.SinkOrder le pos) :
    (q.siftDown cmp pos).Ordered le := by
  fun_induction siftDown cmp q pos with
  | case1 q pos hnone =>
    intro c hc
    by_cases hp : (c - 1) / 2 = pos
    · exact hp ▸ inOrder_of_sinkTo?_none hr hnone c hc hp
    · exact hs.off c hc hp
  | case2 q pos c hc hsome ih =>
    obtain ⟨hp, hup, hside⟩ := sinkTo?_some hr hsome
    exact ih (hs.swap _ hc.2 hp hc.1 hup hside)

theorem RiseOrder.swap (hr : Refines cmp le) (hs : q.RiseOrder le pos) (hpos : pos < q.heap.size)
    (hpar : (pos - 1) / 2 < q.heap.size) (h0 : 0 < pos) (hup : q.InOrder le pos ((pos - 1) / 2)) :
    (q.swap pos ((pos - 1) / 2) hpos hpar).RiseOrder le ((pos - 1) / 2) := by
  generalize hpe : (pos - 1) / 2 = par at *
  constructor
  · intro d hd hdpar
    by_cases hdpos : d = pos
    · subst hdpos
      rw [inOrder_swap, Equiv.swap_apply_left, hpe, Equiv.swap_apply_right]
      exact hup
    rw [inOrder_swap, Equiv.swap_apply_of_ne_of_ne hdpos hdpar]
    have hoff := hs.off d hd hdpos
    by_cases hdp : (d - 1) / 2 = par
    · rw [hdp] at hoff ⊢
      rw [Equiv.swap_apply_right]
      exact hup.trans hr hpar hoff
    by_cases hdq : (d - 1) / 2 = pos
    · rw [hdq, Equiv.swap_apply_left]
      exact hpe ▸ hs.across h0 d hd hdq
    · rw [Equiv.swap_apply_of_ne_of_ne hdq hdp]
      exact hoff
  · intro hpar0 d hd hdp
    have hgrand := hs.off par hpar0 (by omega)
    rw [inOrder_swap,
      Equiv.swap_apply_of_ne_of_ne (a := pos) (x := (par - 1) / 2) (by omega) (by omega)]
    by_cases hdpos : d = pos
    · rw [hdpos, Equiv.swap_apply_left]
      exact hgrand
    · rw [Equiv.swap_apply_of_ne_of_ne hdpos (by omega)]
      have hoff := hs.off d hd hdpos
      rw [hdp] at hoff
      exact hgrand.trans hr hpar hoff

theorem siftUp_ordered (hr : Refines cmp le) (hs : q.RiseOrder le pos) :
    (q.siftUp cmp pos).Ordered le := by
  fun_induction siftUp cmp q pos with
  | case1 q pos h hp hc hlt ih =>
    exact ih (hs.swap hr _ _ h.1 (inOrder_of_le h.2 hp (hr.of_lt hlt)))
  | case2 q pos h hp hc hnot =>
    intro c hc0
    by_cases hcp : c = pos
    · exact hcp ▸ inOrder_of_le hp h.2 (hr.of_not_lt hnot)
    · exact hs.off c hc0 hcp
  | case3 q pos h =>
    intro c hc0
    by_cases hcp : c = pos
    · exact inOrder_of_size_le (by omega)
    · exact hs.off c hc0 hcp

/-- Repositioning puts an element in its place, whether its key has risen or dropped. -/
theorem reposition_ordered (hr : Refines cmp le) (h : q.OrderedBut le pos) :
    (q.reposition cmp pos).Ordered le := by
  rw [reposition]
  cases hsink : q.sinkTo? cmp pos with
  | some c =>
    obtain ⟨hp, hup, -⟩ := sinkTo?_some hr hsink
    refine siftDown_ordered hr ⟨fun d hd hdp => ?_, h.across⟩
    by_cases hdpos : d = pos
    · -- the parent is in order with the child that will take the place
      subst hdpos
      exact (h.across hd c.1 (by omega) hp).trans hr c.2.2 hup
    · exact h.off d hd hdpos hdp
  | none =>
    refine siftUp_ordered hr ⟨fun d hd hdpos => ?_, h.across⟩
    by_cases hdp : (d - 1) / 2 = pos
    · exact hdp ▸ inOrder_of_sinkTo?_none hr hsink d hd hdp
    · exact h.off d hd hdpos hdp

theorem getElem?_zero_siftDown (h : 0 < pos) : (q.siftDown cmp pos).heap[0]? = q.heap[0]? := by
  fun_induction siftDown cmp q pos with
  | case1 => rfl
  | case2 q pos c hc _ ih =>
    rw [ih (by omega), getElem?_swap, Equiv.swap_apply_of_ne_of_ne (by omega) (by omega)]

/-- Repositioning the top, in whatever order the rest is, brings up an element that is in order with
the old top and both of its children. -/
theorem le_of_reposition_top (hr : Refines cmp le) {c : Nat} (hc : c ≤ 2) {a b : α}
    (ha : (q.reposition cmp 0).heap[0]? = some a) (hb : q.heap[c]? = some b) : le a b := by
  have hchild : c ≠ 0 → (c - 1) / 2 = 0 := by omega
  rw [reposition] at ha
  cases hsink : q.sinkTo? cmp 0 with
  | none =>
    rw [hsink, siftUp, dif_neg (by omega)] at ha
    by_cases hz : c = 0
    · exact inOrder_refl hr 0 a b ha (hz ▸ hb)
    · exact inOrder_of_sinkTo?_none hr hsink c (Nat.pos_of_ne_zero hz) (hchild hz) a b ha hb
  | some d =>
    obtain ⟨-, hup, hside⟩ := sinkTo?_some hr hsink
    obtain ⟨d, hd⟩ := d
    -- the old top sinks further from slot `d`, below the slots that are looked at
    rw [hsink, Option.isSome_some, if_pos rfl, siftDown, hsink] at ha
    rw [getElem?_zero_siftDown hd.1, getElem?_swap, Equiv.swap_apply_left] at ha
    by_cases hz : c = 0
    · exact hup a b ha (hz ▸ hb)
    · exact hside c (Nat.pos_of_ne_zero hz) (hchild hz) a b ha hb

theorem push_ordered (hr : Refines cmp le) (h : q.Ordered le) (e : α) :
    (q.push cmp e).Ordered le := by
  refine siftUp_ordered hr ⟨fun c hc hne => ?_, fun _ c _ hp => inOrder_of_size_le ?_⟩
  · by_cases hlt : c < q.heap.size
    · intro a b ha hb
      rw [Array.getElem?_push, if_neg (by omega)] at ha hb
      exact h c hc a b ha hb
    · exact inOrder_of_size_le (by simp only [Array.size_push]; omega)
  · simp only [Array.size_push]
    omega

theorem heap_push_of_not_lt {e : α} (h : ∀ a ∈ q.heap, cmp e a ≠ .lt) :
    (q.push cmp e).heap = q.heap.push e := by
  rw [push, siftUp]
  split
  · next hpos =>
    rw [if_neg]
    simp only [Array.getElem_push_eq]
    rw [Array.getElem_push_lt (by omega)]
    exact h _ (Array.getElem_mem _)
  · rfl

theorem sinkTo?_eq_none {top : α} (htop : q.heap[pos]? = some top)
    (h : ∀ (c : Nat) a, c = 2 * pos + 1 ∨ c = 2 * pos + 2 → q.heap[c]? = some a →
      cmp a top ≠ .lt) : q.sinkTo? cmp pos = none := by
  obtain ⟨hpos, rfl⟩ := Array.getElem?_eq_some_iff.1 htop
  rw [sinkTo?]
  split
  · next hleft =>
    have hc : (q.leadingChild cmp pos hleft).1 = 2 * pos + 1 ∨
        (q.leadingChild cmp pos hleft).1 = 2 * pos + 2 := by
      rw [leadingChild]
      split
      · split
        · exact Or.inr rfl
        · exact Or.inl rfl
      · exact Or.inl rfl
    exact if_neg (h _ _ hc (Array.getElem?_eq_getElem _))
  · rfl

theorem sinkTo?_eq_none_of_leaf (h : q.heap.size ≤ 2 * pos + 1) : q.sinkTo? cmp pos = none :=
  dif_neg (Nat.not_lt.2 h)

theorem sinkTo?_eq_right {a b d : α} (ha : q.heap[pos]? = some a)
    (hb : q.heap[2 * pos + 1]? = some b) (hd : q.heap[2 * pos + 2]? = some d)
    (hdb : cmp d b = .lt) (hda : cmp d a = .lt) :
    ∃ h, q.sinkTo? cmp pos = some ⟨2 * pos + 2, h⟩ := by
  obtain ⟨_, rfl⟩ := Array.getElem?_eq_some_iff.1 ha
  obtain ⟨hl, rfl⟩ := Array.getElem?_eq_some_iff.1 hb
  obtain ⟨hr, rfl⟩ := Array.getElem?_eq_some_iff.1 hd
  refine ⟨⟨by omega, hr⟩, ?_⟩
  simp only [sinkTo?, leadingChild, hl, hr, hdb, hda, dite_true, if_true]

theorem sinkTo?_eq_left {a b : α} (ha : q.heap[pos]? = some a)
    (hb : q.heap[2 * pos + 1]? = some b)
    (hd : ∀ d, q.heap[2 * pos + 2]? = some d → cmp d b ≠ .lt) (hba : cmp b a = .lt) :
    ∃ h, q.sinkTo? cmp pos = some ⟨2 * pos + 1, h⟩ := by
  obtain ⟨_, rfl⟩ := Array.getElem?_eq_some_iff.1 ha
  obtain ⟨hl, rfl⟩ := Array.getElem?_eq_some_iff.1 hb
  refine ⟨⟨by omega, hl⟩, ?_⟩
  by_cases hr : 2 * pos + 2 < q.heap.size
  · have hnot := hd _ (Array.getElem?_eq_getElem hr)
    simp only [sinkTo?, leadingChild, hl, hr, hnot, hba, dite_true, if_true, if_false]
  · simp only [sinkTo?, leadingChild, hl, hr, hba, dite_true, dite_false, if_true]

theorem reposition_eq_swap {c : Nat} {h : pos < c ∧ c < q.heap.size}
    (hsome : q.sinkTo? cmp pos = some ⟨c, h⟩)
    (hstop : (q.swap pos c (Nat.lt_trans h.1 h.2) h.2).sinkTo? cmp c = none) :
    q.reposition cmp pos = q.swap pos c (Nat.lt_trans h.1 h.2) h.2 := by
  rw [reposition, hsome, Option.isSome_some, if_pos rfl, siftDown, hsome]
  dsimp only
  rw [siftDown, hstop]

theorem siftUp_eq_self {e parent : α} (he : q.heap[pos]? = some e)
    (hp : q.heap[(pos - 1) / 2]? = some parent) (h : cmp e parent ≠ .lt) :
    q.siftUp cmp pos = q := by
  obtain ⟨hpos, rfl⟩ := Array.getElem?_eq_some_iff.1 he
  obtain ⟨hpar, rfl⟩ := Array.getElem?_eq_some_iff.1 hp
  rw [siftUp]
  split <;> rfl

theorem reposition_eq_self_of_not_lt {e : α} (he : q.heap[pos]? = some e)
    (hchild : ∀ (c : Nat) a, c = 2 * pos + 1 ∨ c = 2 * pos + 2 → q.heap[c]? = some a →
      cmp a e ≠ .lt)
    (hparent : 0 < pos → ∀ a, q.heap[(pos - 1) / 2]? = some a → cmp e a ≠ .lt) :
    q.reposition cmp pos = q := by
  rw [reposition, sinkTo?_eq_none he hchild]
  obtain ⟨hpos, -⟩ := Array.getElem?_eq_some_iff.1 he
  by_cases h0 : 0 < pos
  · have hpar : (pos - 1) / 2 < q.heap.size := by omega
    have hp := Array.getElem?_eq_getElem hpar
    exact siftUp_eq_self he hp (hparent h0 _ hp)
  · rw [siftUp, dif_neg fun h => h0 h.1]
    rfl

theorem reposition_top_eq_self {top : α} (htop : q.heap[0]? = some top)
    (h : ∀ (c : Nat) a, c = 1 ∨ c = 2 → q.heap[c]? = some a → cmp a top ≠ .lt) :
    q.reposition cmp 0 = q :=
  reposition_eq_self_of_not_lt htop h fun h0 => absurd h0 (Nat.lt_irrefl 0)

theorem reposition_leaf_eq_self {e parent : α} (he : q.heap[pos]? = some e)
    (hleaf : q.heap.size ≤ 2 * pos + 1) (hp : q.heap[(pos - 1) / 2]? = some parent)
    (h : cmp e parent ≠ .lt) : q.reposition cmp pos = q := by
  rw [reposition, sinkTo?_eq_none_of_leaf hleaf]
  exact siftUp_eq_self he hp h

/-- What strictly precedes everything above it rises to the top, and nothing behind it moves. -/
theorem siftUp_to_top {e : α} (he : q.heap[pos]? = some e)
    (h : ∀ i < pos, ∀ a, q.heap[i]? = some a → cmp e a = .lt) :
    (q.siftUp cmp pos).heap[0]? = some e ∧
      ∀ j, pos < j → (q.siftUp cmp pos).heap[j]? = q.heap[j]? := by
  fun_induction siftUp cmp q pos with
  | case1 q pos hlt hp hc _ ih =>
    have hne : (pos - 1) / 2 < pos := by omega
    obtain ⟨htop, hrest⟩ := ih (by rw [getElem?_swap, Equiv.swap_apply_right, he])
        fun i hi a ha => by
      rw [getElem?_swap, Equiv.swap_apply_of_ne_of_ne (by omega) (by omega)] at ha
      exact h i (by omega) a ha
    refine ⟨htop, fun j hj => ?_⟩
    rw [hrest j (by omega), getElem?_swap, Equiv.swap_apply_of_ne_of_ne (by omega) (by omega)]
  | case2 q pos hlt hp hc hnot =>
    obtain ⟨_, rfl⟩ := Array.getElem?_eq_some_iff.1 he
    exact absurd (h _ (by omega) _ (Array.getElem?_eq_getElem hp)) hnot
  | case3 q pos hnot =>
    obtain ⟨hpos, -⟩ := Array.getElem?_eq_some_iff.1 he
    obtain rfl : pos = 0 := by omega
    exact ⟨he, fun _ _ => rfl⟩

theorem heap_dropLast (q : IndexedHeap α) : q.dropLast.heap = q.heap.pop := by
  rw [dropLast]
  split
  · next h => rw [Array.back?_eq_none_iff.1 h, Array.pop_empty]
  · rfl

theorem getElem?_shrunk (h : pos < q.heap.size) {k : Nat} (hk : k < q.heap.size - 1) :
    (q.bringLast pos h).dropLast.heap[k]? =
      if k = pos then q.heap[q.heap.size - 1]? else q.heap[k]? := by
  rw [heap_dropLast, Array.getElem?_pop, size_bringLast, if_pos hk]
  by_cases hlast : pos = q.heap.size - 1
  · rw [bringLast, if_pos hlast, if_neg (by omega)]
  · rw [bringLast, if_neg hlast, getElem?_swap, Equiv.swap_apply_def]
    by_cases hkp : k = pos
    · rw [if_pos hkp, if_pos hkp]
    · rw [if_neg hkp, if_neg (by omega), if_neg hkp]

/-- Removing an element leaves the rest in order, even if its own key had changed. -/
theorem removeAt_ordered (hr : Refines cmp le) (h : q.OrderedBut le pos)
    (hpos : pos < q.heap.size) : (q.removeAt cmp pos hpos).2.Ordered le := by
  have hsize : (q.bringLast pos hpos).dropLast.heap.size = q.heap.size - 1 := by simp
  have hkeep : ∀ a b, a ≠ pos → b ≠ pos → q.InOrder le a b →
      (q.bringLast pos hpos).dropLast.InOrder le a b := by
    intro a b hap hbp hab x y hx hy
    have ha := (Array.getElem?_eq_some_iff.1 hx).1
    have hb := (Array.getElem?_eq_some_iff.1 hy).1
    rw [hsize] at ha hb
    rw [getElem?_shrunk hpos ha, if_neg hap] at hx
    rw [getElem?_shrunk hpos hb, if_neg hbp] at hy
    exact hab x y hx hy
  have hoff : ∀ c, 0 < c → c ≠ pos → (c - 1) / 2 ≠ pos →
      (q.bringLast pos hpos).dropLast.InOrder le ((c - 1) / 2) c :=
    fun c hc hne hp => hkeep _ _ hp hne (h.off c hc hne hp)
  rw [removeAt]
  dsimp only
  split
  · refine reposition_ordered hr ⟨hoff, fun h0 c hc hp => ?_⟩
    exact hkeep _ _ (by omega) (by omega) (h.across h0 c hc hp)
  · intro c hc
    by_cases hlt : c < pos
    · exact hoff c hc (by omega) (by omega)
    · exact inOrder_of_size_le (by omega)

theorem siftUp_of_swap {P : IndexedHeap α → Prop}
    (hswap : ∀ q i j hi hj, P q → P (q.swap i j hi hj)) (hq : P q) : P (q.siftUp cmp pos) := by
  fun_induction siftUp cmp q pos with
  | case1 q pos h hp hc hlt ih => exact ih (hswap _ _ _ _ _ hq)
  | case2 => exact hq
  | case3 => exact hq

theorem siftDown_of_swap {P : IndexedHeap α → Prop}
    (hswap : ∀ q i j hi hj, P q → P (q.swap i j hi hj)) (hq : P q) : P (q.siftDown cmp pos) := by
  fun_induction siftDown cmp q pos with
  | case1 => exact hq
  | case2 q pos c hc _ ih => exact ih (hswap _ _ _ _ _ hq)

theorem reposition_of_swap {P : IndexedHeap α → Prop}
    (hswap : ∀ q i j hi hj, P q → P (q.swap i j hi hj)) (hq : P q) :
    P (q.reposition cmp pos) := by
  rw [reposition]
  split
  · exact siftDown_of_swap hswap hq
  · exact siftUp_of_swap hswap hq

end IndexedHeap

end LeastLoad
