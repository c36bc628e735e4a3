import LeastLoad.Proofs.IndexedHeap.Agree
import LeastLoad.Proofs.IndexedHeap.Repeated

/-! # Every entry put in its place once

The entries of a heap in any order are put in their places one after another, in the order of the
array. This brings a least entry to the top, since an entry that is least when its turn comes is
stopped only by another least one, whose turn is still to come.

It does not restore the order below the top. An entry that sinks early makes room for one from
below, and when that one rises in its own turn, what it passes comes to rest above entries that
had found a place under it. Five entries are enough for this; four are not, nor any number of
entries of which only one was out of place. -/

namespace LeastLoad

namespace IndexedHeap

variable {α : Type} [DecidableEq α] [Hashable α] {cmp : α → α → Ordering}
  {le : α → α → Prop} {p q : IndexedHeap α} {pos : Nat} {e x : α}

theorem slot_unique (hn : q.contents.Nodup) {i j : Nat} (hi : q.heap[i]? = some e)
    (hj : q.heap[j]? = some e) : i = j := by
  have hlist : q.toList.Nodup := Multiset.coe_nodup.1 hn
  rw [← Array.getElem?_toList] at hi hj
  obtain ⟨hlt, -⟩ := List.getElem?_eq_some_iff.1 hi
  exact (List.getElem?_inj hlt hlist).1 (hi.trans hj.symm)

theorem getElem?_of_toList {l : List α} (h : q.toList = l) (k : Nat) : q.heap[k]? = l[k]? := by
  rw [← h, toList, Array.getElem?_toList]

theorem toList_of_getElem? {l : List α} (h : ∀ k : Nat, q.heap[k]? = l[k]?) : q.toList = l :=
  List.ext_getElem? fun k => by rw [← h, toList, Array.getElem?_toList]

section Least

variable {low waiting : α → Prop}

/-- What is low strictly precedes the rest of the contents, and nothing strictly precedes it. -/
structure Lowest (cmp : α → α → Ordering) (low : α → Prop) (q : IndexedHeap α) : Prop where
  lt : ∀ a ∈ q.contents, ∀ b ∈ q.contents, low a → ¬ low b → cmp a b = .lt
  not_lt : ∀ a ∈ q.contents, ∀ b ∈ q.contents, low b → cmp a b ≠ .lt

theorem Lowest.of_contents (h : q.Lowest cmp low) (hc : p.contents = q.contents) :
    p.Lowest cmp low := by
  refine ⟨?_, ?_⟩ <;> rw [hc]
  · exact h.lt
  · exact h.not_lt

/-- The top is low, or above everything low that no longer waits there is something low that still
does. -/
def Promising (low waiting : α → Prop) (q : IndexedHeap α) : Prop :=
  (∀ a, q.heap[0]? = some a → low a) ∨
    ∀ (c : Nat) z, q.heap[c]? = some z → low z → ¬ waiting z →
      ∃ (a : Nat) (w : α), Above a c ∧ q.heap[a]? = some w ∧ low w ∧ waiting w

theorem Above.swap {a c d : Nat} (h : Above a d) (h0 : 0 < c) (ha : a ≠ (c - 1) / 2)
    (hd : d ≠ (c - 1) / 2) :
    Above (Equiv.swap ((c - 1) / 2) c a) (Equiv.swap ((c - 1) / 2) c d) := by
  have hchild := Above.parent h0
  by_cases hac : a = c
  · subst hac
    rw [Equiv.swap_apply_right, Equiv.swap_apply_of_ne_of_ne hd h.lt.ne']
    exact hchild.trans h
  · rw [Equiv.swap_apply_of_ne_of_ne ha hac]
    by_cases hdc : d = c
    · subst hdc
      rw [Equiv.swap_apply_right]
      exact h.cases_parent.resolve_left ha
    · rwa [Equiv.swap_apply_of_ne_of_ne hd hdc]

theorem Promising.swap (h : q.Promising low waiting) {c : Nat} (h0 : 0 < c)
    (hx : q.heap[(c - 1) / 2]? = some x) (hlow : ¬ low x)
    (hheap : ∀ k : Nat, p.heap[k]? = q.heap[Equiv.swap ((c - 1) / 2) c k]?) :
    p.Promising low waiting := by
  have hne : ∀ {d : Nat} {z}, q.heap[d]? = some z → low z → d ≠ (c - 1) / 2 := by
    rintro d z hz hlz rfl
    exact hlow (Option.some.inj (hz.symm.trans hx) ▸ hlz)
  obtain htop | habove := h
  · left
    intro a ha
    have hpar : 0 ≠ (c - 1) / 2 := fun hpar => hlow (htop x (by rw [hpar]; exact hx))
    rw [hheap, Equiv.swap_apply_of_ne_of_ne hpar h0.ne] at ha
    exact htop a ha
  · right
    intro d z hz hlz hwait
    rw [hheap] at hz
    obtain ⟨a, w, hab, hw, hlw, hww⟩ := habove _ z hz hlz hwait
    refine ⟨Equiv.swap ((c - 1) / 2) c a, w, ?_, ?_, hlw, hww⟩
    · have hswap := hab.swap h0 (hne hw hlw) (hne hz hlz)
      rwa [Equiv.swap_apply_self] at hswap
    · rw [hheap, Equiv.swap_apply_self, hw]

theorem Promising.rest (h : q.Promising low waiting) (hn : q.contents.Nodup)
    (he : q.heap[pos]? = some x)
    (hpar : low x → 0 < pos → ∃ y, q.heap[(pos - 1) / 2]? = some y ∧ low y) :
    q.Promising low fun y => waiting y ∧ y ≠ x := by
  obtain htop | habove := h
  · exact .inl htop
  by_cases hlow : low x
  · by_cases h0 : 0 < pos
    · obtain ⟨y, hy, hly⟩ := hpar hlow h0
      have hchild := Above.parent h0
      have hother : ∀ {a : Nat} {w}, Above a pos → q.heap[a]? = some w → w ≠ x := by
        rintro a w ha hw rfl
        exact ha.lt.ne (slot_unique hn hw he)
      -- the parent waits, or something above it does
      have hx : ∃ (a : Nat) (w : α), Above a pos ∧ q.heap[a]? = some w ∧ low w ∧
          waiting w ∧ w ≠ x := by
        by_cases hwy : waiting y
        · exact ⟨_, y, hchild, hy, hly, hwy, hother hchild hy⟩
        · obtain ⟨a, w, ha, hw, hlw, hww⟩ := habove _ y hy hly hwy
          exact ⟨a, w, ha.trans hchild, hw, hlw, hww, hother (ha.trans hchild) hw⟩
      right
      intro c z hz hlz hwait
      by_cases hzx : z = x
      · subst hzx
        rw [slot_unique hn hz he]
        exact hx
      · obtain ⟨a, w, ha, hw, hlw, hww⟩ := habove c z hz hlz fun hw => hwait ⟨hw, hzx⟩
        by_cases hwx : w = x
        · subst hwx
          obtain ⟨a', w', ha', hw'⟩ := hx
          exact ⟨a', w', ha'.trans (slot_unique hn he hw ▸ ha), hw'⟩
        · exact ⟨a, w, ha, hw, hlw, hww, hwx⟩
    · left
      obtain rfl : pos = 0 := by omega
      intro a ha
      exact Option.some.inj (he.symm.trans ha) ▸ hlow
  · right
    intro c z hz hlz hwait
    have hzx : z ≠ x := fun heq => hlow (heq ▸ hlz)
    obtain ⟨a, w, ha, hw, hlw, hww⟩ := habove c z hz hlz fun hw => hwait ⟨hw, hzx⟩
    exact ⟨a, w, ha, hw, hlw, hww, fun heq => hlow (heq ▸ hlw)⟩

theorem Promising.siftUp (hl : q.Lowest cmp low) (hn : q.contents.Nodup)
    (h : q.Promising low waiting) (he : q.heap[pos]? = some x) :
    (q.siftUp cmp pos).Promising low fun y => waiting y ∧ y ≠ x := by
  have hmem : x ∈ q.contents := mem_of_slot he
  fun_induction IndexedHeap.siftUp cmp q pos with
  | case1 q pos hlt hp hc hprec ih =>
    have hpar := Array.getElem?_eq_getElem hp
    have hnot : ¬ low q.heap[(pos - 1) / 2] :=
      fun hlow => hl.not_lt _ (mem_contents.2 (Array.getElem_mem hc)) _ (mem_of_slot hpar) hlow
        hprec
    have hcontents := contents_swap hc hp
    refine ih (hl.of_contents hcontents) (hcontents ▸ hn) (h.swap hlt.1 hpar hnot fun k => ?_) ?_
      (hcontents ▸ hmem)
    · rw [getElem?_swap, Equiv.swap_comm]
    · rw [getElem?_swap, Equiv.swap_apply_right, he]
  | case2 q pos hlt hp hc hnot =>
    have hpar := Array.getElem?_eq_getElem hp
    refine h.rest hn he fun hlow _ => ⟨_, hpar, ?_⟩
    by_contra hhigh
    obtain ⟨_, rfl⟩ := Array.getElem?_eq_some_iff.1 he
    exact hnot (hl.lt _ hmem _ (mem_of_slot hpar) hlow hhigh)
  | case3 q pos hnot =>
    obtain ⟨hpos, -⟩ := Array.getElem?_eq_some_iff.1 he
    exact h.rest hn he fun _ h0 => absurd ⟨h0, hpos⟩ hnot

theorem Promising.siftDown (hl : q.Lowest cmp low) (hn : q.contents.Nodup)
    (h : q.Promising low waiting) (he : q.heap[pos]? = some x) (hx : ¬ low x) :
    (q.siftDown cmp pos).Promising low fun y => waiting y ∧ y ≠ x := by
  fun_induction IndexedHeap.siftDown cmp q pos with
  | case1 q pos hnone => exact h.rest hn he fun hlow => absurd hlow hx
  | case2 q pos c hc hsome ih =>
    have hparent := sinkTo?_parent hsome
    dsimp only at hparent
    have hcontents := contents_swap (by omega : pos < q.heap.size) hc.2
    refine ih (hl.of_contents hcontents) (hcontents ▸ hn)
      (h.swap (c := c) (by omega) (hparent ▸ he) hx fun k => ?_) ?_
    · rw [getElem?_swap, hparent]
    · rw [getElem?_swap, Equiv.swap_apply_right, he]

theorem Promising.reposition (hl : q.Lowest cmp low) (hn : q.contents.Nodup)
    (h : q.Promising low waiting) (he : q.heap[pos]? = some x) :
    (q.reposition cmp pos).Promising low fun y => waiting y ∧ y ≠ x := by
  rw [IndexedHeap.reposition]
  split
  · next hsome =>
    obtain ⟨c, hc⟩ := Option.isSome_iff_exists.1 hsome
    refine h.siftDown hl hn he fun hlow => ?_
    have hchild := Array.getElem?_eq_getElem c.2.2
    exact hl.not_lt _ (mem_of_slot hchild) _ (mem_of_slot he) hlow (sinkTo?_lt hc he hchild)
  · exact h.siftUp hl hn he

theorem Promising.mono {low' waiting' : α → Prop} (h : q.Promising low waiting)
    (hlow : ∀ a, low a → low' a) (hback : ∀ a, low' a → ¬ waiting' a → low a ∧ ¬ waiting a)
    (hwaiting : ∀ a, waiting a → waiting' a) : q.Promising low' waiting' := by
  obtain htop | habove := h
  · exact .inl fun a ha => hlow a (htop a ha)
  · right
    intro c z hz hlz hwait
    obtain ⟨hlz', hwait'⟩ := hback z hlz hwait
    obtain ⟨a, w, ha, hw, hlw, hww⟩ := habove c z hz hlz' hwait'
    exact ⟨a, w, ha, hw, hlow w hlw, hwaiting w hww⟩

theorem Promising.top (h : q.Promising low waiting) (hdone : ∀ a ∈ q.contents, ¬ waiting a)
    (hsome : ∃ a ∈ q.contents, low a) {top : α} (htop : q.peek = some top) : low top := by
  obtain hlow | habove := h
  · exact hlow top htop
  · obtain ⟨a, ha, hla⟩ := hsome
    obtain ⟨c, hc⟩ := mem_contents_iff_getElem?.1 ha
    obtain ⟨_, w, -, hw, -, hww⟩ := habove c a hc hla (hdone a ha)
    exact absurd hww (hdone w (mem_of_slot hw))

end Least

/-- Of three entries or fewer, one that is put in its place comes to rest under the top, together
with all that the old top preceded. -/
theorem le_of_reposition_leaf (hr : Refines cmp le) (hsize : q.heap.size ≤ 3) (h0 : 0 < pos)
    (he : q.heap[pos]? = some x) {top a b : α} (htop : q.heap[0]? = some top)
    (ha : (q.reposition cmp pos).heap[0]? = some a) (hb : b = x ∨ le top b) : le a b := by
  obtain ⟨hpos, rfl⟩ := Array.getElem?_eq_some_iff.1 he
  obtain ⟨h0', rfl⟩ := Array.getElem?_eq_some_iff.1 htop
  have hparent : (pos - 1) / 2 = 0 := by omega
  rw [reposition, sinkTo?_eq_none_of_leaf (by omega)] at ha
  simp only [Option.isSome_none, Bool.false_eq_true, if_false] at ha
  rw [siftUp, dif_pos ⟨h0, hpos⟩] at ha
  simp only [hparent] at ha
  split at ha
  · next hlt =>
    -- it is the new top
    rw [siftUp, dif_neg (by omega), getElem?_swap, Equiv.swap_apply_right] at ha
    obtain rfl := Option.some.inj (he.symm.trans ha)
    obtain rfl | hb := hb
    · exact hr.refl _
    · exact hr.trans (hr.of_lt hlt) hb
  · next hnot =>
    obtain rfl := Option.some.inj (htop.symm.trans ha)
    obtain rfl | hb := hb
    · exact hr.of_not_lt hnot
    · exact hb

theorem ordered_of_three (hsize : q.heap.size ≤ 3)
    (h : ∀ top, q.peek = some top → ∀ b ∈ q.contents, le top b) : q.Ordered le := by
  intro c hc a b ha hb
  obtain ⟨hlt, -⟩ := Array.getElem?_eq_some_iff.1 hb
  have hparent : (c - 1) / 2 = 0 := by omega
  rw [hparent] at ha
  exact h a ha b (mem_of_slot hb)

section Rise

variable [Std.TransCmp cmp]

theorem inOrder_iff_not_lt {i j : Nat} : q.InOrder (cmp · · ≠ .gt) i j ↔
    ∀ a b, q.heap[i]? = some a → q.heap[j]? = some b → cmp b a ≠ .lt := by
  simp only [InOrder, ne_eq, Std.OrientedCmp.gt_iff_lt]

theorem RiseOrder.congr (h : q.RiseOrder le pos) (hheap : p.heap = q.heap) :
    p.RiseOrder le pos := by
  obtain ⟨hoff, hacross⟩ := h
  refine ⟨?_, ?_⟩ <;> simp only [InOrder, hheap]
  · exact hoff
  · exact hacross

theorem sinkTo?_of_leads {s c : Nat} (hc : c = 2 * s + 1 ∨ c = 2 * s + 2)
    (he : q.heap[s]? = some e) (hx : q.heap[c]? = some x) (hlt : cmp x e = .lt)
    (hlead : ∀ (d : Nat) y, d = 2 * s + 1 ∨ d = 2 * s + 2 → d ≠ c → q.heap[d]? = some y →
      cmp x y = .lt) : ∃ h, q.sinkTo? cmp s = some ⟨c, h⟩ := by
  obtain rfl | rfl := hc
  · refine sinkTo?_eq_left he hx (fun d hd hdx => ?_) hlt
    have hxd := hlead _ d (.inr rfl) (by omega) hd
    rw [Std.OrientedCmp.gt_of_lt hdx] at hxd
    cases hxd
  · obtain ⟨hr, -⟩ := Array.getElem?_eq_some_iff.1 hx
    have hl : 2 * s + 1 < q.heap.size := by omega
    have hb := Array.getElem?_eq_getElem hl
    exact sinkTo?_eq_right he hb hx (hlead _ _ (.inl rfl) (by omega) hb) hlt

/-- While one entry waits to rise, another one that is put in its place stays, unless it is the
parent of the one that waits and changes places with it. -/
theorem RiseOrder.reposition (h : q.RiseOrder (cmp · · ≠ .gt) pos) (hx : q.heap[pos]? = some x)
    {s : Nat} (he : q.heap[s]? = some e) (hs : s ≠ pos) :
    ∃ pos', (q.reposition cmp s).heap[pos']? = some x ∧
      (q.reposition cmp s).RiseOrder (cmp · · ≠ .gt) pos' := by
  have hoff : ∀ c, 0 < c → c ≠ pos → ∀ a b, q.heap[(c - 1) / 2]? = some a →
      q.heap[c]? = some b → cmp b a ≠ .lt := fun c hc hne => inOrder_iff_not_lt.1 (h.off c hc hne)
  obtain ⟨hpos, -⟩ := Array.getElem?_eq_some_iff.1 hx
  obtain ⟨hsize, -⟩ := Array.getElem?_eq_some_iff.1 he
  by_cases hswap : (pos = 2 * s + 1 ∨ pos = 2 * s + 2) ∧ cmp x e = .lt
  · obtain ⟨hchild, hlt⟩ := hswap
    have hpar : s = (pos - 1) / 2 := by omega
    obtain ⟨hc, hsink⟩ := sinkTo?_of_leads hchild he hx hlt fun d y hd hne hy => by
      have hdp : (d - 1) / 2 = s := by omega
      have hey := h.off d (by omega) hne e y (by rwa [hdp]) hy
      exact Std.TransCmp.lt_of_lt_of_isLE hlt (Ordering.ne_gt_iff_isLE.1 hey)
    have hstop : (q.swap s pos hsize hpos).sinkTo? cmp pos = none := by
      have hmoved : (q.swap s pos hsize hpos).heap[pos]? = some e := by
        rw [getElem?_swap, Equiv.swap_apply_right, he]
      refine sinkTo?_eq_none hmoved fun c a hc ha => ?_
      rw [getElem?_swap, Equiv.swap_apply_of_ne_of_ne (by omega) (by omega)] at ha
      have hacross := inOrder_iff_not_lt.1 (h.across (by omega) c (by omega) (by omega))
      exact hacross e a (by rwa [← hpar]) ha
    rw [reposition_eq_swap hsink hstop]
    subst hpar
    refine ⟨(pos - 1) / 2, ?_, ?_⟩
    · rw [getElem?_swap, Equiv.swap_apply_left, hx]
    · refine (h.swap refines_of_transCmp hpos hsize (by omega) ?_).congr (Array.swap_comm ..)
      intro a b ha hb
      obtain rfl := Option.some.inj (hx.symm.trans ha)
      obtain rfl := Option.some.inj (he.symm.trans hb)
      simp [hlt]
  · have hself : q.reposition cmp s = q := by
      refine reposition_eq_self_of_not_lt he (fun c a hc ha => ?_) fun h0 a ha =>
        hoff s h0 hs a e ha he
      by_cases hcp : c = pos
      · obtain rfl := Option.some.inj (hx.symm.trans (hcp ▸ ha))
        exact fun hlt => hswap ⟨hcp ▸ hc, hlt⟩
      · have hcs : (c - 1) / 2 = s := by omega
        exact hoff c (by omega) hcp e a (by rwa [hcs]) ha
    rw [hself]
    exact ⟨pos, hx, h⟩

theorem SinkOrder.reposition_before (h : q.SinkOrder (cmp · · ≠ .gt) pos) {s : Nat}
    (hs : s < pos) (hpos : pos < q.heap.size) : q.reposition cmp s = q := by
  have hoff : ∀ c, 0 < c → (c - 1) / 2 ≠ pos → ∀ a b, q.heap[(c - 1) / 2]? = some a →
      q.heap[c]? = some b → cmp b a ≠ .lt := fun c hc hne => inOrder_iff_not_lt.1 (h.off c hc hne)
  have he : q.heap[s]? = some q.heap[s] := Array.getElem?_eq_getElem (by omega)
  refine reposition_eq_self_of_not_lt he (fun c a hc ha => ?_) fun h0 a ha =>
    hoff s h0 (by omega) a _ ha he
  have hcs : (c - 1) / 2 = s := by omega
  exact hoff c (by omega) (by omega) _ a (by rwa [hcs]) ha

theorem OrderedBut.rise_or_sink (h : q.OrderedBut (cmp · · ≠ .gt) pos) (hpos : pos < q.heap.size) :
    q.RiseOrder (cmp · · ≠ .gt) pos ∨ q.SinkOrder (cmp · · ≠ .gt) pos := by
  by_cases hup : 0 < pos → q.InOrder (cmp · · ≠ .gt) ((pos - 1) / 2) pos
  · right
    refine ⟨fun c hc hcp => ?_, h.across⟩
    by_cases hcpos : c = pos
    · exact hcpos ▸ hup (hcpos ▸ hc)
    · exact h.off c hc hcpos hcp
  · left
    obtain ⟨h0, hup⟩ := Classical.not_imp.1 hup
    refine ⟨fun c hc hcpos => ?_, h.across⟩
    by_cases hcp : (c - 1) / 2 = pos
    · -- it strictly precedes its parent, which is in order with its children
      intro a b ha hb
      have hpar : (pos - 1) / 2 < q.heap.size := by omega
      have hp := Array.getElem?_eq_getElem hpar
      have hlt : cmp a q.heap[(pos - 1) / 2] = .lt := by
        by_contra hnot
        refine hup (inOrder_iff_not_lt.2 fun y z hy hz => ?_)
        obtain rfl := Option.some.inj (hp.symm.trans hy)
        obtain rfl := Option.some.inj (ha.symm.trans (hcp ▸ hz))
        exact hnot
      exact refines_of_transCmp.trans (refines_of_transCmp.of_lt hlt)
        (h.across h0 c hc hcp _ b hp hb)
    · exact h.off c hc hcpos hcp

theorem riseOrder_of_four (hsize : q.heap.size = 4) (h₁ : q.InOrder le 0 1)
    (h₂ : q.InOrder le 0 2) : q.RiseOrder le 3 := by
  refine ⟨fun c hc hne => ?_, fun _ c _ hcp => inOrder_of_size_le (by omega)⟩
  rcases c with _ | _ | _ | _ | c
  · omega
  · exact h₁
  · exact h₂
  · omega
  · exact inOrder_of_size_le (by omega)

/-- Where the second of four entries sinks, it changes places with the last one, which is then under
the top. -/
theorem exists_rise_of_siftDown (hsize : q.heap.size = 4) (hx : q.heap[3]? = some x)
    (h₁ : q.InOrder (cmp · · ≠ .gt) 0 1) (h₂ : q.InOrder (cmp · · ≠ .gt) 0 2) :
    ∃ pos, (q.siftDown cmp 1).heap[pos]? = some x ∧
      (q.siftDown cmp 1).RiseOrder (cmp · · ≠ .gt) pos := by
  rw [siftDown]
  cases hsink : q.sinkTo? cmp 1 with
  | none => exact ⟨3, hx, riseOrder_of_four hsize h₁ h₂⟩
  | some d =>
    obtain ⟨hp, hup, -⟩ := sinkTo?_some refines_of_transCmp hsink
    obtain ⟨d, hd⟩ := d
    obtain rfl : d = 3 := by dsimp only at hp; omega
    dsimp only
    rw [siftDown, sinkTo?_eq_none_of_leaf (by rw [size_swap]; omega)]
    refine ⟨1, ?_, ⟨fun c hc hne => ?_, fun _ c hc hcp => ?_⟩⟩
    · rw [getElem?_swap, Equiv.swap_apply_left, hx]
    · rcases c with _ | _ | _ | _ | c
      · omega
      · omega
      · exact inOrder_swap.2 h₂
      · exact inOrder_swap.2 hup
      · exact inOrder_of_size_le (by rw [size_swap]; omega)
    · by_cases hc3 : c = 3
      · subst hc3
        exact inOrder_swap.2 h₁
      · exact inOrder_of_size_le (by rw [size_swap]; omega)

/-- After the top of four entries has been put in its place, at most the last one is still too low
for its place. -/
theorem exists_rise_of_four (cmp : α → α → Ordering) [Std.TransCmp cmp] (hsize : q.heap.size = 4)
    (hx : q.heap[3]? = some x) :
    ∃ pos, (q.reposition cmp 0).heap[pos]? = some x ∧
      (q.reposition cmp 0).RiseOrder (cmp · · ≠ .gt) pos := by
  have hr : Refines cmp (cmp · · ≠ .gt) := refines_of_transCmp
  rw [IndexedHeap.reposition]
  cases hsink : q.sinkTo? cmp 0 with
  | none =>
    have hside := inOrder_of_sinkTo?_none hr hsink
    rw [siftUp, dif_neg (by omega)]
    exact ⟨3, hx, riseOrder_of_four hsize (hside 1 (by omega) rfl) (hside 2 (by omega) rfl)⟩
  | some c =>
    obtain ⟨hp, hup, hside⟩ := sinkTo?_some hr hsink
    obtain ⟨c, hc⟩ := c
    dsimp only at hp hup hside
    rw [Option.isSome_some, if_pos rfl, siftDown, hsink]
    dsimp only
    have hswap : ∀ a b, (q.swap 0 c (by omega) hc.2).InOrder (cmp · · ≠ .gt) a b ↔
        q.InOrder (cmp · · ≠ .gt) (Equiv.swap 0 c a) (Equiv.swap 0 c b) :=
      fun a b => inOrder_swap
    have hsize' : (q.swap 0 c (by omega) hc.2).heap.size = 4 := by rw [size_swap, hsize]
    have hx' : (q.swap 0 c (by omega) hc.2).heap[3]? = some x := by
      rw [getElem?_swap, Equiv.swap_apply_of_ne_of_ne (by omega) (by omega), hx]
    generalize q.swap 0 c (by omega) hc.2 = q' at hx' hswap hsize' ⊢
    obtain rfl | rfl : c = 1 ∨ c = 2 := by omega
    · exact exists_rise_of_siftDown hsize' hx' ((hswap 0 1).2 hup)
        ((hswap 0 2).2 (hside 2 (by omega) rfl))
    · rw [siftDown, sinkTo?_eq_none_of_leaf (by omega)]
      exact ⟨3, hx', riseOrder_of_four hsize' ((hswap 0 1).2 (hside 1 (by omega) rfl))
        ((hswap 0 2).2 hup)⟩

end Rise

section Offers

def offerAll (cmp : α → α → Ordering) (q : IndexedHeap α) (es : List α) : IndexedHeap α :=
  es.foldl (fun q e => (q.offer cmp e).2) q

theorem offer_of_slot (hi : q.Indexed) (hn : q.contents.Nodup) (he : q.heap[pos]? = some e) :
    (q.offer cmp e).2 = q.reposition cmp pos :=
  hi.offer_eq_reposition (Multiset.nodup_iff_count_le_one.1 hn e) he

theorem offerAll_cons (hi : q.Indexed) (hn : q.contents.Nodup) (he : q.heap[pos]? = some e)
    (es : List α) : q.offerAll cmp (e :: es) = (q.reposition cmp pos).offerAll cmp es := by
  rw [offerAll, List.foldl_cons, offer_of_slot hi hn he, offerAll]

theorem offerAll_append (q : IndexedHeap α) (es es' : List α) :
    q.offerAll cmp (es ++ es') = (q.offerAll cmp es).offerAll cmp es' :=
  List.foldl_append

variable [Std.TransCmp cmp] {es : List α}

theorem offerAll_eq_self (hi : q.Indexed) (h : q.Ordered (cmp · · ≠ .gt))
    (hes : ∀ e ∈ es, e ∈ q.contents) : q.offerAll cmp es = q := by
  refine List.foldlRecOn (motive := (· = q)) es _ rfl fun p hp e he => ?_
  rw [hp, offer_eq_self hi h (hes e he)]

theorem RiseOrder.offerAll (h : q.RiseOrder (cmp · · ≠ .gt) pos) (hi : q.Indexed)
    (hn : q.contents.Nodup) (hx : q.heap[pos]? = some x) (hmem : x ∈ es)
    (hes : ∀ e ∈ es, e ∈ q.contents) : (q.offerAll cmp es).Ordered (cmp · · ≠ .gt) := by
  induction es generalizing q pos with
  | nil => cases hmem
  | cons e es ih =>
    obtain ⟨s, hs⟩ := mem_contents_iff_getElem?.1 (hes e List.mem_cons_self)
    have hrest : ∀ e ∈ es, e ∈ (q.reposition cmp s).contents := fun e he => by
      rw [contents_reposition]
      exact hes e (List.mem_cons_of_mem _ he)
    rw [offerAll_cons hi hn hs]
    by_cases hsp : s = pos
    · have ho : (q.reposition cmp s).Ordered (cmp · · ≠ .gt) := by
        refine reposition_ordered refines_of_transCmp ?_
        rw [hsp]
        exact ⟨fun c hc hne _ => h.off c hc hne, h.across⟩
      rwa [offerAll_eq_self hi.reposition ho hrest]
    · obtain ⟨pos', hx', h'⟩ := h.reposition hx hs hsp
      have hne : x ≠ e := by
        rintro rfl
        exact hsp (slot_unique hn hs hx)
      exact ih h' hi.reposition (by rwa [contents_reposition]) hx'
        ((List.mem_cons.1 hmem).resolve_left hne) hrest

theorem SinkOrder.offerAll (h : q.SinkOrder (cmp · · ≠ .gt) pos) (hi : q.Indexed)
    (hn : q.contents.Nodup) (hpos : pos < q.heap.size) :
    (q.offerAll cmp q.toList).Ordered (cmp · · ≠ .gt) := by
  have hpos' : pos < q.toList.length := by simpa [toList] using hpos
  have hbefore : q.offerAll cmp (q.toList.take pos) = q := by
    refine List.foldlRecOn (motive := (· = q)) _ _ rfl fun p hp e he => ?_
    obtain ⟨s, hs, hget⟩ := List.mem_take_iff_getElem.1 he
    have hslot : q.heap[s]? = some e :=
      (getElem?_of_toList rfl s).trans (List.getElem?_eq_some_iff.2 ⟨_, hget⟩)
    rw [hp, offer_of_slot hi hn hslot]
    exact h.reposition_before (by omega) hpos
  have hx : q.heap[pos]? = some q.toList[pos] :=
    (getElem?_of_toList rfl pos).trans (List.getElem?_eq_getElem hpos')
  have ho : (q.reposition cmp pos).Ordered (cmp · · ≠ .gt) :=
    reposition_ordered refines_of_transCmp ⟨fun c hc _ hne => h.off c hc hne, h.across⟩
  have hafter : (q.reposition cmp pos).offerAll cmp (q.toList.drop (pos + 1)) =
      q.reposition cmp pos := offerAll_eq_self hi.reposition ho fun e he => by
    rw [contents_reposition]
    exact Multiset.mem_coe.2 (List.mem_of_mem_drop he)
  have hsplit : q.toList = q.toList.take pos ++ q.toList[pos] :: q.toList.drop (pos + 1) := by
    rw [← List.drop_eq_getElem_cons hpos', List.take_append_drop]
  rw [hsplit, offerAll_append, hbefore, offerAll_cons hi hn hx, hafter]
  exact ho

/-- One entry that is out of place comes to its place when every entry is put in its own. -/
theorem OrderedBut.offerAll (h : q.OrderedBut (cmp · · ≠ .gt) pos) (hi : q.Indexed)
    (hn : q.contents.Nodup) : (q.offerAll cmp q.toList).Ordered (cmp · · ≠ .gt) := by
  by_cases hpos : pos < q.heap.size
  · obtain hrise | hsink := h.rise_or_sink hpos
    · have hx := Array.getElem?_eq_getElem hpos
      exact hrise.offerAll hi hn hx (Array.mem_toList_iff.2 (Array.getElem_mem hpos))
        fun e he => Multiset.mem_coe.2 he
    · exact hsink.offerAll hi hn hpos
  · have ho : q.Ordered (cmp · · ≠ .gt) := by
      intro c hc
      by_cases hlt : c < q.heap.size
      · exact h.off c hc (by omega) (by omega)
      · exact inOrder_of_size_le (Nat.not_lt.1 hlt)
    rwa [offerAll_eq_self hi ho fun e he => Multiset.mem_coe.2 he]

theorem offerAll_of_four (hsize : q.heap.size = 4) (hi : q.Indexed) (hn : q.contents.Nodup) :
    (q.offerAll cmp q.toList).Ordered (cmp · · ≠ .gt) := by
  have hlength : q.toList.length = 4 := by simpa [toList] using hsize
  have hget : ∀ {k : Nat} (hk : k < q.toList.length), q.heap[k]? = some q.toList[k] :=
    fun {k} hk => (getElem?_of_toList rfl k).trans (List.getElem?_eq_getElem hk)
  obtain ⟨pos, hx, hrise⟩ := exists_rise_of_four cmp hsize (hget (k := 3) (by omega))
  have hsplit : q.toList = q.toList[0] :: q.toList.drop 1 := by
    rw [← List.drop_eq_getElem_cons (by omega), List.drop_zero]
  have hlast : q.toList[3] ∈ q.toList.drop 1 := by
    refine List.mem_of_getElem? (i := 2) ?_
    rw [List.getElem?_drop, List.getElem?_eq_getElem]
  have hrest := hrise.offerAll hi.reposition (by rwa [contents_reposition]) hx hlast fun e he => by
    rw [contents_reposition]
    exact Multiset.mem_coe.2 (List.mem_of_mem_drop he)
  rwa [hsplit, offerAll_cons hi hn (hget (by omega))]

omit [Std.TransCmp cmp] in
theorem offerAll_eq_self_of_late {m : Nat} (hi : q.Indexed) (hn : q.contents.Nodup)
    (hlate : ∀ (k : Nat) z y, m ≤ k → q.heap[k]? = some z → y ∈ q.contents → cmp z y ≠ .lt)
    (hes : ∀ e ∈ es, ∃ k : Nat, m ≤ k ∧ q.heap[k]? = some e) : q.offerAll cmp es = q := by
  refine List.foldlRecOn (motive := (· = q)) es _ rfl fun p hp e he => ?_
  obtain ⟨k, hk, hslot⟩ := hes e he
  rw [hp, offer_of_slot hi hn hslot]
  refine reposition_eq_self_of_not_lt hslot (fun j y hj hy => ?_) fun _ y hy => ?_
  · exact hlate j y e (by omega) hy (mem_of_slot hslot)
  · exact hlate k e y hk hslot (mem_of_slot hy)

section Five

variable {a b c d : α} {rest : List α}

omit [DecidableEq α] [Hashable α] in
theorem mem_of_behind_five {k : Nat} {z : α} (hk : 5 ≤ k)
    (hz : (a :: b :: c :: d :: x :: rest)[k]? = some z) : z ∈ rest := by
  obtain ⟨j, rfl⟩ := Nat.exists_eq_add_of_le' hk
  exact List.mem_of_getElem? (i := j) hz

/-- The second of five entries sinks below the last one, and so the fourth comes to rest under
that. -/
theorem offerAll_sinks_second (hi : q.Indexed) (hn : q.contents.Nodup)
    (hq : q.toList = a :: b :: c :: d :: x :: rest) (hba : cmp b a ≠ .lt) (hxb : cmp x b = .lt)
    (hxd : cmp x d = .lt) (hrest : ∀ z ∈ c :: rest, ∀ y ∈ q.contents, cmp z y ≠ .lt)
    (es : List α) : ∃ p : IndexedHeap α, p.Indexed ∧ p.contents = q.contents ∧
      p.toList = a :: x :: c :: d :: b :: rest ∧
      q.offerAll cmp (a :: b :: c :: d :: es) = p.offerAll cmp es := by
  have hget := getElem?_of_toList hq
  have hmem : ∀ {k : Nat} {y : α}, (a :: b :: c :: d :: x :: rest)[k]? = some y → y ∈ q.contents :=
    fun hy => Multiset.mem_coe.2 (hq ▸ List.mem_of_getElem? hy)
  have hfirst : q.reposition cmp 0 = q := by
    refine reposition_top_eq_self (hget 0) fun k z hk hz => ?_
    rw [hget] at hz
    obtain rfl | rfl := hk <;> obtain rfl := Option.some.inj hz
    · exact hba
    · exact hrest c List.mem_cons_self a (hmem (k := 0) rfl)
  -- the second entry changes places with the last of the five
  obtain ⟨hc, hsink⟩ := sinkTo?_eq_right (hget 1) (hget 3) (hget 4) hxd hxb
  have hone : 1 < q.heap.size := hc.1.trans hc.2
  obtain ⟨p, hp⟩ : ∃ p, p = q.swap 1 4 hone hc.2 := ⟨_, rfl⟩
  have hpi : p.Indexed := hp ▸ hi.swap hone hc.2
  have hpc : p.contents = q.contents := hp ▸ contents_swap hone hc.2
  have hpn : p.contents.Nodup := hpc ▸ hn
  have hget' : ∀ k : Nat, p.heap[k]? = (a :: x :: c :: d :: b :: rest)[k]? := by
    intro k
    rw [hp, getElem?_swap, hget]
    rcases k with _ | _ | _ | _ | _ | k <;> rfl
  have hbehind : ∀ {k : Nat} {y z : α}, 5 ≤ k → p.heap[k]? = some z → y ∈ q.contents →
      cmp z y ≠ .lt := by
    intro k y z hk hz hy
    rw [hget'] at hz
    exact hrest z (List.mem_cons_of_mem _ (mem_of_behind_five hk hz)) y hy
  have hsecond : q.reposition cmp 1 = p := by
    rw [hp] at hget' hbehind ⊢
    exact reposition_eq_swap hsink (sinkTo?_eq_none (hget' 4) fun k z hk hz =>
      hbehind (by omega) hz (hmem (k := 1) rfl))
  have hthird : p.reposition cmp 2 = p := by
    refine reposition_eq_self_of_not_lt (hget' 2) (fun k z hk hz => ?_) fun _ y hy => ?_
    · exact hbehind (by omega) hz (hmem (k := 2) rfl)
    · rw [hget'] at hy
      exact hrest c List.mem_cons_self y (Option.some.inj hy ▸ hmem (k := 0) rfl)
  have hfourth : p.reposition cmp 3 = p := by
    refine reposition_eq_self_of_not_lt (hget' 3) (fun k z hk hz => ?_) fun _ y hy => ?_
    · exact hbehind (by omega) hz (hmem (k := 3) rfl)
    · rw [hget'] at hy
      obtain rfl := Option.some.inj hy
      simp [Std.OrientedCmp.gt_of_lt hxd]
  refine ⟨p, hpi, hpc, toList_of_getElem? hget', ?_⟩
  rw [offerAll_cons hi hn (hget 0), hfirst, offerAll_cons hi hn (hget 1), hsecond,
    offerAll_cons hpi hpn (hget' 2), hthird, offerAll_cons hpi hpn (hget' 3), hfourth]

/-- The last of five entries, now the second, rises to the top, and the old top comes to rest above
the fourth. -/
theorem toList_offerAll_raises_last (hi : q.Indexed) (hn : q.contents.Nodup)
    (hq : q.toList = a :: x :: c :: d :: b :: rest) (hxa : cmp x a = .lt) (hxb : cmp x b = .lt)
    (hxd : cmp x d = .lt) (hrest : ∀ z ∈ rest, ∀ y ∈ q.contents, cmp z y ≠ .lt) :
    (q.offerAll cmp (x :: rest)).toList = x :: a :: c :: d :: b :: rest := by
  have hget := getElem?_of_toList hq
  obtain ⟨hone, hget_one⟩ := Array.getElem?_eq_some_iff.1 (hget 1)
  obtain ⟨hzero, hget_zero⟩ := Array.getElem?_eq_some_iff.1 (hget 0)
  obtain ⟨p, hp⟩ : ∃ p, p = q.swap 1 0 hone hzero := ⟨_, rfl⟩
  have hrise : q.reposition cmp 1 = p := by
    have hnone : q.sinkTo? cmp 1 = none := sinkTo?_eq_none (hget 1) fun k z hk hz => by
      rw [hget] at hz
      obtain rfl | rfl := hk <;> obtain rfl := Option.some.inj hz
      · simp [Std.OrientedCmp.gt_of_lt hxd]
      · simp [Std.OrientedCmp.gt_of_lt hxb]
    have hlt : cmp q.heap[1] q.heap[(1 - 1) / 2] = .lt := by
      rw [hget_one]
      exact (congrArg (cmp x) hget_zero).trans hxa
    rw [hp, IndexedHeap.reposition, hnone, siftUp, dif_pos ⟨Nat.one_pos, hone⟩]
    simp only [Option.isSome_none, Bool.false_eq_true, if_false]
    rw [if_pos hlt, siftUp, dif_neg (by omega)]
  have hpi : p.Indexed := hp ▸ hi.swap hone hzero
  have hpc : p.contents = q.contents := hp ▸ contents_swap hone hzero
  have hget' : ∀ k : Nat, p.heap[k]? = (x :: a :: c :: d :: b :: rest)[k]? := by
    intro k
    rw [hp, getElem?_swap, hget]
    rcases k with _ | _ | k <;> rfl
  have hstay : p.offerAll cmp rest = p := by
    refine offerAll_eq_self_of_late (m := 5) hpi (hpc ▸ hn) (fun k z y hk hz hy => ?_)
      fun z hz => ?_
    · rw [hget'] at hz
      exact hrest z (mem_of_behind_five hk hz) y (hpc ▸ hy)
    · obtain ⟨k, hk⟩ := List.mem_iff_getElem?.1 hz
      exact ⟨k + 5, by omega, (hget' (k + 5)).trans hk⟩
  rw [offerAll_cons hi hn (hget 1), hrise, hstay]
  exact toList_of_getElem? hget'

theorem toList_offerAll_of_five (hi : q.Indexed) (hn : q.contents.Nodup)
    (hq : q.toList = a :: b :: c :: d :: x :: rest) (hxd : cmp x d = .lt) (hda : cmp d a = .lt)
    (hab : cmp a b = .lt) (hrest : ∀ z ∈ c :: rest, ∀ y ∈ q.contents, cmp z y ≠ .lt) :
    (q.offerAll cmp q.toList).toList = x :: a :: c :: d :: b :: rest := by
  have hxa : cmp x a = .lt := Std.TransCmp.lt_trans hxd hda
  have hxb : cmp x b = .lt := Std.TransCmp.lt_trans hxa hab
  have hba : cmp b a ≠ .lt := by simp [Std.OrientedCmp.gt_of_lt hab]
  obtain ⟨p, hpi, hpc, hp, hoffer⟩ :=
    offerAll_sinks_second hi hn hq hba hxb hxd hrest (x :: rest)
  rw [hq, hoffer]
  refine toList_offerAll_raises_last hpi (hpc ▸ hn) hp hxa hxb hxd fun z hz y hy => ?_
  exact hrest z (List.mem_cons_of_mem _ hz) y (hpc ▸ hy)

end Five

end Offers

end IndexedHeap

end LeastLoad
