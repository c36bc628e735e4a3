import LeastLoad.Proofs.IndexedHeap.Lawless

/-! # Elements that are queued several times

When the key of an element changes, all of its occurrences are out of place at once, and an offer
puts them in their places one after another, in the order in which the index lists them. Each of
them finds the heap in order if those that it has to pass have been put in their places before: if
the key has dropped, the ones above it, and if it has risen, the ones below it.

The index may list them in any order. If one is listed before another that it has to pass, it comes
to rest behind it, and the other one leaves it out of order. -/

namespace LeastLoad

section Keys

variable {α : Type} {cmp cmp' : α → α → Ordering} {e : α}

def KeyDrops (cmp cmp' : α → α → Ordering) (e : α) : Prop :=
  ∀ a, a ≠ e → cmp e a ≠ .gt → cmp' e a ≠ .gt

def KeyRises (cmp cmp' : α → α → Ordering) (e : α) : Prop :=
  ∀ a, a ≠ e → cmp a e ≠ .gt → cmp' a e ≠ .gt

theorem keyDrops_or_keyRises [Std.TransCmp cmp] [Std.TransCmp cmp']
    (agree : ∀ a b, a ≠ e → b ≠ e → cmp' a b = cmp a b) :
    KeyDrops cmp cmp' e ∨ KeyRises cmp cmp' e := by
  by_contra hneither
  simp only [KeyDrops, KeyRises, not_or, not_forall, Decidable.not_not] at hneither
  obtain ⟨⟨a, ha, hea, hgt⟩, b, hb, hbe, hgt'⟩ := hneither
  -- what `e` has passed going up now precedes what it has passed going down
  have hba : cmp b a ≠ .gt := refines_of_transCmp.trans hbe hea
  rw [← agree b a hb ha] at hba
  have hea' : cmp' a e = .lt := Std.OrientedCmp.gt_iff_lt.1 hgt
  have hbe' : cmp' b e ≠ .gt :=
    refines_of_transCmp.trans hba (refines_of_transCmp.of_lt hea')
  exact hbe' hgt'

end Keys

namespace IndexedHeap

variable {α : Type} [DecidableEq α] [Hashable α] {cmp cmp' : α → α → Ordering}
  {le : α → α → Prop} {q : IndexedHeap α} {pos : Nat} {e : α} {waiting : Nat → Prop}

/-- One slot is on the way from another to the top. -/
inductive Above : Nat → Nat → Prop
  | parent {c : Nat} : 0 < c → Above ((c - 1) / 2) c
  | step {a c : Nat} : 0 < c → Above a ((c - 1) / 2) → Above a c

theorem Above.lt {a c : Nat} (h : Above a c) : a < c := by
  induction h with
  | parent hc => omega
  | step hc _ ih => omega

theorem Above.cases_parent {a c : Nat} (h : Above a c) :
    a = (c - 1) / 2 ∨ Above a ((c - 1) / 2) := by
  cases h with
  | parent => exact .inl rfl
  | step _ h => exact .inr h

theorem Above.trans {a b c : Nat} (hab : Above a b) (hbc : Above b c) : Above a c := by
  induction hbc with
  | parent hc => exact .step hc hab
  | step hc _ ih => exact .step hc (ih hab)

theorem Above.exists_child {a c : Nat} (h : Above a c) :
    ∃ d, 0 < d ∧ (d - 1) / 2 = a ∧ (d = c ∨ Above d c) := by
  induction h with
  | parent hc => exact ⟨_, hc, rfl, .inl rfl⟩
  | step hc _ ih =>
    obtain ⟨d, hd, hp, rfl | hdc⟩ := ih
    · exact ⟨_, hd, hp, .inr (.parent hc)⟩
    · exact ⟨d, hd, hp, .inr (.step hc hdc)⟩

theorem Ordered.above (hr : Refines cmp le) (h : q.Ordered le) {a c : Nat} (hac : Above a c) :
    q.InOrder le a c := by
  induction hac with
  | parent hc => exact h _ hc
  | @step a c hc _ ih =>
    by_cases hs : c < q.heap.size
    · exact ih.trans hr (by omega) (h c hc)
    · exact inOrder_of_size_le (Nat.not_lt.1 hs)

/-- In order, except that what waits may be too low for its place. -/
def Lowered (le : α → α → Prop) (waiting : Nat → Prop) (q : IndexedHeap α) : Prop :=
  ∀ a c, Above a c → ¬ waiting c → q.InOrder le a c

/-- In order, except that what waits may be too high for its place. -/
def Raised (le : α → α → Prop) (waiting : Nat → Prop) (q : IndexedHeap α) : Prop :=
  ∀ a c, Above a c → ¬ waiting a → q.InOrder le a c

theorem Lowered.swap (hr : Refines cmp le) (h : q.Lowered le fun s => waiting s ∨ s = pos)
    (hclear : ∀ a, Above a pos → ¬ waiting a) (h0 : 0 < pos) (hpos : pos < q.heap.size)
    (hpar : (pos - 1) / 2 < q.heap.size) (hup : q.InOrder le pos ((pos - 1) / 2)) :
    (q.swap pos ((pos - 1) / 2) hpos hpar).Lowered le fun s => waiting s ∨ s = (pos - 1) / 2 := by
  have hparent := Above.parent h0
  have hcases : ∀ a, Above a pos → a = (pos - 1) / 2 ∨ Above a ((pos - 1) / 2) :=
    fun _ ha => ha.cases_parent
  generalize (pos - 1) / 2 = par at *
  have hlt := hparent.lt
  have hkept : ∀ a c, Above a c → ¬ waiting c → c ≠ pos → q.InOrder le a c :=
    fun a c hac hc hne => h a c hac (not_or.2 ⟨hc, hne⟩)
  intro a c hac hc
  obtain ⟨hc, hcpar⟩ := not_or.1 hc
  have hac' := hac.lt
  rw [inOrder_swap]
  by_cases hcpos : c = pos
  · subst hcpos
    rw [Equiv.swap_apply_left]
    obtain rfl | habove := hcases a hac
    · rw [Equiv.swap_apply_right]
      exact hup
    · have hlt' := habove.lt
      rw [Equiv.swap_apply_of_ne_of_ne (by omega) (by omega)]
      exact hkept a par habove (hclear par hparent) (by omega)
  · rw [Equiv.swap_apply_of_ne_of_ne (x := c) hcpos hcpar]
    by_cases hapar : a = par
    · rw [hapar, Equiv.swap_apply_right]
      exact hup.trans hr hpar (hkept par c (hapar ▸ hac) hc hcpos)
    · by_cases hapos : a = pos
      · rw [hapos, Equiv.swap_apply_left]
        exact hkept par c (hparent.trans (hapos ▸ hac)) hc hcpos
      · rw [Equiv.swap_apply_of_ne_of_ne hapos hapar]
        exact hkept a c hac hc hcpos

theorem siftUp_lowered (hr : Refines cmp le) (h : q.Lowered le fun s => waiting s ∨ s = pos)
    (hclear : ∀ a, Above a pos → ¬ waiting a) : (q.siftUp cmp pos).Lowered le waiting := by
  have hstay : ∀ {q : IndexedHeap α} {pos}, q.Lowered le (fun s => waiting s ∨ s = pos) →
      (∀ a, Above a pos → ¬ waiting a) → (0 < pos → q.InOrder le ((pos - 1) / 2) pos) →
      q.Lowered le waiting := by
    intro q pos h hclear hpar a c hac hc
    by_cases hcpos : c = pos
    · subst hcpos
      have h0 : 0 < c := (Nat.zero_le a).trans_lt hac.lt
      obtain rfl | habove := hac.cases_parent
      · exact hpar h0
      · by_cases hs : c < q.heap.size
        · have hup := h a _ habove (not_or.2 ⟨hclear _ (.parent h0), by omega⟩)
          exact hup.trans hr (by omega) (hpar h0)
        · exact inOrder_of_size_le (Nat.not_lt.1 hs)
    · exact h a c hac (not_or.2 ⟨hc, hcpos⟩)
  fun_induction siftUp cmp q pos with
  | case1 q pos hlt hp hc hprec ih =>
    exact ih (h.swap hr hclear hlt.1 hc hp (inOrder_of_le hc hp (hr.of_lt hprec)))
      fun a ha => hclear a (ha.trans (.parent hlt.1))
  | case2 q pos hlt hp hc hnot =>
    exact hstay h hclear fun _ => inOrder_of_le hp hc (hr.of_not_lt hnot)
  | case3 q pos hnot =>
    exact hstay h hclear fun h0 => inOrder_of_size_le (Nat.not_lt.1 fun hs => hnot ⟨h0, hs⟩)

theorem Raised.swap (hr : Refines cmp le) (h : q.Raised le fun s => waiting s ∨ s = pos)
    (hclear : ∀ c, Above pos c → ¬ waiting c) {d : Nat} (hpos : pos < q.heap.size)
    (hd : d < q.heap.size) (hp : (d - 1) / 2 = pos) (hlt : pos < d)
    (hup : q.InOrder le d pos) (hside : ∀ c, 0 < c → (c - 1) / 2 = pos → q.InOrder le d c) :
    (q.swap pos d hpos hd).Raised le fun s => waiting s ∨ s = d := by
  have hchild : Above pos d := hp ▸ Above.parent (by omega)
  have hkept : ∀ a c, Above a c → ¬ waiting a → a ≠ pos → q.InOrder le a c :=
    fun a c hac ha hne => h a c hac (not_or.2 ⟨ha, hne⟩)
  intro a c hac ha
  obtain ⟨ha, had⟩ := not_or.1 ha
  have hac' := hac.lt
  rw [inOrder_swap]
  by_cases hapos : a = pos
  · subst hapos
    rw [Equiv.swap_apply_left]
    by_cases hcd : c = d
    · rw [hcd, Equiv.swap_apply_right]
      exact hup
    · rw [Equiv.swap_apply_of_ne_of_ne (by omega) hcd]
      -- what stands below the place does so under the child that rises or under the other one
      obtain ⟨d', hd', hp', rfl | hdc⟩ := hac.exists_child
      · exact hside d' hd' hp'
      · have hwait : ¬ waiting d' := hclear d' (hp' ▸ .parent hd')
        by_cases hs : c < q.heap.size
        · have hlt' := hdc.lt
          exact (hside d' hd' hp').trans hr (by omega) (hkept d' c hdc hwait (by omega))
        · exact inOrder_of_size_le (Nat.not_lt.1 hs)
  · rw [Equiv.swap_apply_of_ne_of_ne (x := a) hapos had]
    by_cases hcpos : c = pos
    · rw [hcpos, Equiv.swap_apply_left]
      exact hkept a d ((hcpos ▸ hac).trans hchild) ha hapos
    · by_cases hcd : c = d
      · rw [hcd, Equiv.swap_apply_right]
        obtain hap | habove := (hcd ▸ hac : Above a d).cases_parent
        · exact absurd (hap.trans hp) hapos
        · exact hkept a pos (hp ▸ habove) ha hapos
      · rw [Equiv.swap_apply_of_ne_of_ne hcpos hcd]
        exact hkept a c hac ha hapos

theorem siftDown_raised (hr : Refines cmp le) (h : q.Raised le fun s => waiting s ∨ s = pos)
    (hclear : ∀ c, Above pos c → ¬ waiting c) : (q.siftDown cmp pos).Raised le waiting := by
  fun_induction siftDown cmp q pos with
  | case1 q pos hnone =>
    intro a c hac ha
    by_cases hapos : a = pos
    · subst hapos
      obtain ⟨d, hd, hp, rfl | hdc⟩ := hac.exists_child
      · exact inOrder_of_sinkTo?_none hr hnone d hd hp
      · have habove : Above a d := hp ▸ .parent hd
        by_cases hs : c < q.heap.size
        · have hlt := hdc.lt
          have hlt' := habove.lt
          exact (inOrder_of_sinkTo?_none hr hnone d hd hp).trans hr (by omega)
            (h d c hdc (not_or.2 ⟨hclear d habove, by omega⟩))
        · exact inOrder_of_size_le (Nat.not_lt.1 hs)
    · exact h a c hac (not_or.2 ⟨ha, hapos⟩)
  | case2 q pos c hc hsome ih =>
    obtain ⟨hp, hup, hside⟩ := sinkTo?_some hr hsome
    dsimp only at hp hup hside
    have hchild : Above pos c := hp ▸ Above.parent (by omega)
    exact ih (h.swap hr hclear _ hc.2 hp hc.1 hup hside) fun d hd => hclear d (hchild.trans hd)

theorem slots_swap_replace (he : q.heap[pos]? = some e) {c : Nat} (hpos : pos < q.heap.size)
    (hc : c < q.heap.size) (hne : q.heap[c] ≠ e) :
    (q.swap pos c hpos hc).slots e = (q.slots e).replace pos c := by
  obtain ⟨_, rfl⟩ := Array.getElem?_eq_some_iff.1 he
  rw [slots_swap, if_neg (Ne.symm hne), if_neg (Ne.symm hne), if_pos rfl]

theorem replace_replace {l : List Nat} {i j k : Nat} (hj : j ∉ l) :
    (l.replace i j).replace j k = l.replace i k := by
  induction l with
  | nil => rfl
  | cons x l ih =>
    obtain ⟨hx, hl⟩ := not_or.1 (mt List.mem_cons.2 hj)
    by_cases hxi : x = i
    · subst hxi
      rw [List.replace_cons_self, List.replace_cons_self, List.replace_cons_self]
    · have hix : (i == x) = false := beq_eq_false_iff_ne.2 (Ne.symm hxi)
      have hjx : (j == x) = false := beq_eq_false_iff_ne.2 hx
      simp only [List.replace_cons, hix, hjx, ih hl]

theorem replace_self {l : List Nat} (i : Nat) : l.replace i i = l := by
  induction l with
  | nil => rfl
  | cons x l ih =>
    by_cases hxi : x = i
    · rw [hxi, List.replace_cons_self]
    · have hix : (i == x) = false := beq_eq_false_iff_ne.2 (Ne.symm hxi)
      simp only [List.replace_cons, hix, ih]

theorem slots_siftUp (hself : cmp e e ≠ .lt) (hi : q.Indexed) (he : q.heap[pos]? = some e) :
    ∃ p, (q.siftUp cmp pos).slots e = (q.slots e).replace pos p := by
  fun_induction siftUp cmp q pos with
  | case1 q pos hlt hp hc hprec ih =>
    have hne : q.heap[(pos - 1) / 2] ≠ e := by
      obtain ⟨_, rfl⟩ := Array.getElem?_eq_some_iff.1 he
      intro heq
      exact hself (heq ▸ hprec)
    obtain ⟨p, hslots⟩ := ih (hi.swap hc hp)
      (by rw [getElem?_swap, Equiv.swap_apply_right, he])
    refine ⟨p, ?_⟩
    rw [hslots, slots_swap_replace he hc hp hne, replace_replace]
    rw [hi.mem_slots, Array.getElem?_eq_getElem hp]
    exact fun heq => hne (Option.some.inj heq)
  | case2 q pos => exact ⟨pos, (replace_self pos).symm⟩
  | case3 q pos => exact ⟨pos, (replace_self pos).symm⟩

theorem slots_siftDown (hself : cmp e e ≠ .lt) (hi : q.Indexed) (he : q.heap[pos]? = some e) :
    ∃ p, (q.siftDown cmp pos).slots e = (q.slots e).replace pos p := by
  fun_induction siftDown cmp q pos with
  | case1 q pos => exact ⟨pos, (replace_self pos).symm⟩
  | case2 q pos c hc hsome ih =>
    have hpos : pos < q.heap.size := Nat.lt_trans hc.1 hc.2
    have hlt := hc.2
    have hne : q.heap[c] ≠ e := fun heq =>
      hself (sinkTo?_lt hsome he (heq ▸ Array.getElem?_eq_getElem hlt))
    obtain ⟨p, hslots⟩ := ih (hi.swap hpos hc.2)
      (by rw [getElem?_swap, Equiv.swap_apply_right, he])
    refine ⟨p, ?_⟩
    rw [hslots, slots_swap_replace he hpos hc.2 hne, replace_replace]
    rw [hi.mem_slots, Array.getElem?_eq_getElem hc.2]
    exact fun heq => hne (Option.some.inj heq)

theorem slots_reposition (hself : cmp e e ≠ .lt) (hi : q.Indexed) (he : q.heap[pos]? = some e) :
    ∃ p, (q.reposition cmp pos).slots e = (q.slots e).replace pos p := by
  rw [reposition]
  split
  · exact slots_siftDown hself hi he
  · exact slots_siftUp hself hi he

/-- What repositioning each listed slot takes off what waits, walking through the slots takes off
all of it. `clear` says of which other slots the place of a slot has to be free. -/
theorem walk_of_reposition (kept : (Nat → Prop) → IndexedHeap α → Prop)
    {clear : Nat → Nat → Prop} (hself : cmp e e ≠ .lt)
    (hstep : ∀ (q : IndexedHeap α) (p : Nat) (rest : List Nat), q.Indexed →
      (∀ s ∈ p :: rest, q.heap[s]? = some e) → (∀ s ∈ rest, clear p s) →
      kept (· ∈ p :: rest) q → kept (· ∈ rest) (q.reposition cmp p))
    (rest done : List Nat) {q : IndexedHeap α} (hi : q.Indexed) (hs : q.slots e = done ++ rest)
    (hclear : rest.Pairwise clear) (h : kept (· ∈ rest) q) :
    kept (fun _ => False)
      ((List.range' done.length rest.length).foldl (repositionNth cmp e) q) := by
  induction rest generalizing done q with
  | nil => simpa using h
  | cons p rest ih =>
    obtain ⟨hp, hrest⟩ := List.pairwise_cons.1 hclear
    have hhold : ∀ s ∈ p :: rest, q.heap[s]? = some e := fun s hmem =>
      (hi.mem_slots e s).1 (hs ▸ List.mem_append_right _ hmem)
    have hnth : repositionNth cmp e q done.length = q.reposition cmp p := by
      rw [repositionNth, hs, List.getElem?_append_right le_rfl, Nat.sub_self]
      rfl
    obtain ⟨p', hp'⟩ := slots_reposition hself hi (hhold p List.mem_cons_self)
    have hnot : p ∉ done := fun hmem =>
      (List.nodup_append.1 (hs ▸ hi.nodup e)).2.2 p hmem p List.mem_cons_self rfl
    have hnext : (q.reposition cmp p).slots e = (done ++ [p']) ++ rest := by
      rw [hp', hs, List.replace_append_right hnot, List.replace_cons_self, List.append_assoc]
      rfl
    rw [List.length_cons, List.range'_succ, List.foldl_cons, hnth]
    have hwalk := ih (done ++ [p']) hi.reposition hnext hrest (hstep q p rest hi hhold hp h)
    rwa [List.length_append, List.length_singleton] at hwalk

theorem lowered_reposition [Std.TransCmp cmp] {waiting : Nat → Prop}
    (he : q.heap[pos]? = some e) (hwait : ∀ s, waiting s → q.heap[s]? = some e)
    (hclear : ∀ a, Above a pos → ¬ waiting a)
    (h : q.Lowered (cmp · · ≠ .gt) fun s => waiting s ∨ s = pos) :
    (q.reposition cmp pos).Lowered (cmp · · ≠ .gt) waiting := by
  have hself : cmp e e = .eq := Std.ReflCmp.compare_self
  have hnone : q.sinkTo? cmp pos = none := by
    refine sinkTo?_eq_none he fun c a hc ha hlt => ?_
    have hchild : Above pos c := by
      have hp : (c - 1) / 2 = pos := by omega
      exact hp ▸ .parent (by omega)
    by_cases hw : waiting c
    · obtain rfl : e = a := Option.some.inj ((hwait c hw).symm.trans ha)
      rw [hself] at hlt
      cases hlt
    · exact h pos c hchild (not_or.2 ⟨hw, hchild.lt.ne'⟩) e a he ha
        (Std.OrientedCmp.gt_iff_lt.2 hlt)
  rw [reposition, hnone]
  exact siftUp_lowered refines_of_transCmp h hclear

theorem raised_reposition [Std.TransCmp cmp] {waiting : Nat → Prop}
    (he : q.heap[pos]? = some e) (hwait : ∀ s, waiting s → q.heap[s]? = some e)
    (hclear : ∀ c, Above pos c → ¬ waiting c)
    (h : q.Raised (cmp · · ≠ .gt) fun s => waiting s ∨ s = pos) :
    (q.reposition cmp pos).Raised (cmp · · ≠ .gt) waiting := by
  have hself : cmp e e = .eq := Std.ReflCmp.compare_self
  have hdown := siftDown_raised refines_of_transCmp h hclear
  rw [reposition]
  split
  · exact hdown
  · next hnone =>
    -- it is not too low either, so that it stays
    have hstay : q.siftUp cmp pos = q := by
      obtain ⟨hpos, -⟩ := Array.getElem?_eq_some_iff.1 he
      by_cases h0 : 0 < pos
      · have hpar : (pos - 1) / 2 < q.heap.size := by omega
        refine siftUp_eq_self he (Array.getElem?_eq_getElem hpar) fun hlt => ?_
        by_cases hw : waiting ((pos - 1) / 2)
        · have heq := (hwait _ hw).symm.trans (Array.getElem?_eq_getElem hpar)
          rw [← Option.some.inj heq, hself] at hlt
          cases hlt
        · exact h _ pos (.parent h0) (not_or.2 ⟨hw, by omega⟩) _ _
            (Array.getElem?_eq_getElem hpar) he (Std.OrientedCmp.gt_iff_lt.2 hlt)
      · rw [siftUp, dif_neg fun hlt => h0 hlt.1]
    rw [siftDown, Option.not_isSome_iff_eq_none.1 hnone] at hdown
    rwa [hstay]

/-- The slots of `e` are listed so that each finds the ones that it has to pass in their places. -/
def ListedInTurn (cmp cmp' : α → α → Ordering) (e : α) (q : IndexedHeap α) : Prop :=
  KeyDrops cmp cmp' e ∧ (q.slots e).Pairwise (fun p r => ¬ Above r p) ∨
    KeyRises cmp cmp' e ∧ (q.slots e).Pairwise (fun p r => ¬ Above p r)

theorem offer_ordered_of_listedInTurn [Std.TransCmp cmp] [Std.TransCmp cmp'] (hi : q.Indexed)
    (he : e ∈ q.contents) (h : q.Ordered (cmp · · ≠ .gt))
    (agree : ∀ a b, a ≠ e → b ≠ e → cmp' a b = cmp a b) (hturn : q.ListedInTurn cmp cmp' e) :
    (q.offer cmp' e).2.Ordered (cmp' · · ≠ .gt) := by
  have hself : cmp' e e ≠ .lt := by
    have heq : cmp' e e = .eq := Std.ReflCmp.compare_self
    rw [heq]
    decide
  have habove : ∀ a c, Above a c → q.InOrder (cmp · · ≠ .gt) a c :=
    fun a c hac => h.above refines_of_transCmp hac
  have hother : ∀ {s : Nat} {x}, s ∉ q.slots e → q.heap[s]? = some x → x ≠ e := by
    rintro s x hs hx rfl
    exact hs ((hi.mem_slots x s).2 hx)
  have hwalk : (q.offer cmp' e).2 =
      (List.range' 0 (q.slots e).length).foldl (repositionNth cmp' e) q := by
    rw [offer, if_pos ((hi.contains_iff e).2 (mem_contents.1 he)), List.range_eq_range']
  rw [hwalk]
  obtain ⟨hkey, hclear⟩ | ⟨hkey, hclear⟩ := hturn
  · have hlow : q.Lowered (cmp' · · ≠ .gt) (· ∈ q.slots e) := by
      intro a c hac hc x y hx hy
      have hy' := hother hc hy
      have hxy := habove a c hac x y hx hy
      by_cases hxe : x = e
      · subst hxe
        exact hkey y hy' hxy
      · rwa [agree x y hxe hy']
    refine fun c hc => walk_of_reposition (Lowered (cmp' · · ≠ .gt)) hself
      (fun q p rest _ hhold hfree hkept => ?_) _ [] hi rfl hclear hlow _ c (.parent hc) id
    refine lowered_reposition (hhold p List.mem_cons_self)
      (fun s hs => hhold s (List.mem_cons_of_mem _ hs)) (fun a ha hmem => hfree a hmem ha) ?_
    simpa only [List.mem_cons, or_comm] using hkept
  · have hhigh : q.Raised (cmp' · · ≠ .gt) (· ∈ q.slots e) := by
      intro a c hac ha x y hx hy
      have hx' := hother ha hx
      have hxy := habove a c hac x y hx hy
      by_cases hye : y = e
      · subst hye
        exact hkey x hx' hxy
      · rwa [agree x y hx' hye]
    refine fun c hc => walk_of_reposition (Raised (cmp' · · ≠ .gt)) hself
      (fun q p rest _ hhold hfree hkept => ?_) _ [] hi rfl hclear hhigh _ c (.parent hc) id
    refine raised_reposition (hhold p List.mem_cons_self)
      (fun s hs => hhold s (List.mem_cons_of_mem _ hs)) (fun c hc hmem => hfree c hmem hc) ?_
    simpa only [List.mem_cons, or_comm] using hkept

/-- Whatever was queued before, offering an element again whose key has changed tells that it was
there and leaves the contents and the index as they have to be. The heap is in order if the slots
of the element are listed in turn, and so, either way, if none of them is above another. -/
theorem afterCalls_offer_again [Std.TransCmp cmp] [Std.TransCmp cmp'] (cs : List (Call α))
    (hvalid : (empty.afterCalls cs).violation? cmp = none)
    (he : e ∈ (empty.afterCalls cs).contents)
    (agree : ∀ a b, a ≠ e → b ≠ e → cmp' a b = cmp a b) :
    let q : IndexedHeap α := empty.afterCalls cs
    let offered := (q.offer cmp' e).2
    (q.offer cmp' e).1 = false ∧ offered.contents = q.contents ∧ offered.Tracked ∧
      (q.ListedInTurn cmp cmp' e → offered.violation? cmp' = none) ∧
      ((∀ p ∈ q.slots e, ∀ r ∈ q.slots e, ¬ Above p r) → offered.violation? cmp' = none) := by
  intro q offered
  have hi : q.Indexed := Indexed.empty.afterCalls cs
  have ho : q.Ordered (cmp · · ≠ .gt) := disorder?_eq_none.1 (hi.violation?_eq.symm.trans hvalid)
  have hturn : q.ListedInTurn cmp cmp' e → offered.violation? cmp' = none := fun h =>
    violation?_eq_none (hi.offer e) (offer_ordered_of_listedInTurn hi he ho agree h)
  refine ⟨?_, ?_, (hi.offer e).tracked, hturn, fun hapart => hturn ?_⟩
  · rw [fst_offer hi]
    exact decide_eq_false (not_not.2 he)
  · exact (contents_offer hi e).trans (if_pos he)
  · refine (keyDrops_or_keyRises agree).imp (fun h => ⟨h, ?_⟩) fun h => ⟨h, ?_⟩
    · exact List.pairwise_of_forall_mem_list fun p hp r hr => hapart r hr p hp
    · exact List.pairwise_of_forall_mem_list hapart

section Numbers

def byKey (key : Nat → Nat) (a b : Nat) : Ordering := compare (key a) (key b)

instance (key : Nat → Nat) : Std.TransCmp (byKey key) :=
  inferInstanceAs (Std.TransCmp (compareOn key))

theorem byKey_update (key : Nat → Nat) (e k : Nat) (a b : Nat) (ha : a ≠ e) (hb : b ≠ e) :
    byKey (Function.update key e k) a b = byKey key a b := by
  simp [byKey, ha, hb]

end Numbers

/-- The key of a number that is queued twice, side by side, drops below all others. -/
theorem afterCalls_offer_again_side_by_side :
    let cmp := byKey id
    let cmp' := byKey (Function.update id 3 0)
    let q := empty.afterCalls [⟨cmp, .push 1⟩, ⟨cmp, .push 3⟩, ⟨cmp, .push 3⟩, ⟨cmp, .push 5⟩]
    q.violation? cmp = none ∧ 3 ∈ q.contents ∧ q.contents.count 3 = 2 ∧
      (∀ a b, a ≠ 3 → b ≠ 3 → cmp' a b = cmp a b) ∧
      (q.offer cmp' 3).2.violation? cmp' = none := by
  intro cmp cmp' q
  have hi : q.Indexed := Indexed.empty.afterCalls _
  have hheap : q.heap = #[1, 3, 3, 5] := by decide +kernel
  have hcontents : q.contents = {1, 3, 3, 5} := by
    simp only [contents, toList, hheap]
    rfl
  have hmem : 3 ∈ q.contents := by
    rw [hcontents]
    decide
  have hvalid : q.violation? cmp = none := by
    rw [hi.violation?_eq, disorder?, hheap]
    decide +kernel
  have hagree : ∀ a b, a ≠ 3 → b ≠ 3 → cmp' a b = cmp a b := byKey_update id 3 0
  have hslots : ∀ p ∈ q.slots 3, p = 1 ∨ p = 2 := by
    intro p hp
    have hp' := (hi.mem_slots 3 p).1 hp
    rw [hheap] at hp'
    rcases p with _ | _ | _ | _ | p <;> simp at hp' ⊢
  refine ⟨hvalid, hmem, ?_, hagree, ?_⟩
  · rw [hcontents]
    decide
  · refine (afterCalls_offer_again _ hvalid hmem hagree).2.2.2.2 fun p hp r hr hpr => ?_
    have hlt := hpr.lt
    have hparent := hpr.cases_parent
    have hp' := hslots p hp
    have hr' := hslots r hr
    obtain rfl : p = 1 := by omega
    obtain rfl : r = 2 := by omega
    obtain h | h := hparent
    · omega
    · have := h.lt
      omega

section Disorder

variable {x y : α}

theorem push_at_end (cmp : α → α → Ordering) (q : IndexedHeap α) {e : α}
    (h : ∀ a, q.heap[(q.heap.size - 1) / 2]? = some a → cmp e a ≠ .lt) :
    (q.push cmp e).heap = q.heap.push e ∧
      (q.push cmp e).slots e = q.slots e ++ [q.heap.size] ∧
      ∀ a, a ≠ e → (q.push cmp e).slots a = q.slots a := by
  have hpush : q.push cmp e = { heap := q.heap.push e
                                index := q.index.alter e fun listed =>
                                  some (listed.getD [] ++ [q.heap.size]) } := by
    rw [push, siftUp]
    split
    · next hpos =>
      refine if_neg ?_
      simp only [Array.getElem_push_eq]
      rw [Array.getElem_push_lt (by omega)]
      exact h _ (Array.getElem?_eq_getElem _)
    · rfl
  rw [hpush]
  refine ⟨rfl, (slots_append q e e).trans (if_pos rfl), fun a ha => ?_⟩
  exact (slots_append q e a).trans (if_neg ha)

theorem offer_leaves_disorder [Std.TransCmp cmp'] (hi : q.Indexed)
    (hheap : q.heap = #[e, e, x, y]) (hslots : q.slots e = [0, 1]) (hx : cmp' x e = .lt)
    (hy : cmp' y e = .lt) (hxy : cmp' x y = .gt) :
    (q.offer cmp' e).2.violation? cmp' = some (.heapOrder 0 1) := by
  have hself : cmp' e e = .eq := Std.ReflCmp.compare_self
  have hne : x ≠ e := by
    rintro rfl
    simp_all
  have hget : ∀ k : Nat, q.heap[k]? = #[e, e, x, y][k]? := fun k => by rw [hheap]
  -- the upper occurrence changes places with `x`
  obtain ⟨hc, hsink⟩ : ∃ h, q.sinkTo? cmp' 0 = some ⟨2, h⟩ :=
    sinkTo?_eq_right (hget 0) (hget 1) (hget 2) hx hx
  have hpos : 0 < q.heap.size := Nat.lt_trans hc.1 hc.2
  have hheap' : (q.swap 0 2 hpos hc.2).heap = #[x, e, e, y] := by simp [swap, hheap]
  have hslots' : (q.swap 0 2 hpos hc.2).slots e = [2, 1] := by
    rw [slots_swap_replace (e := e) (hget 0) hpos hc.2 (by simpa [hheap] using hne), hslots]
    rfl
  have hfirst : q.reposition cmp' 0 = q.swap 0 2 hpos hc.2 :=
    reposition_eq_swap hsink (sinkTo?_eq_none_of_leaf (by simp [hheap']))
  generalize q.swap 0 2 hpos hc.2 = q' at *
  -- the lower one changes places with `y`
  have hget' : ∀ k : Nat, q'.heap[k]? = #[x, e, e, y][k]? := fun k => by rw [hheap']
  obtain ⟨hc', hsink'⟩ : ∃ h, q'.sinkTo? cmp' 1 = some ⟨3, h⟩ :=
    sinkTo?_eq_left (hget' 1) (hget' 3) (by simp [hheap']) hy
  have hpos' : 1 < q'.heap.size := by omega
  have hheap'' : (q'.swap 1 3 hpos' hc'.2).heap = #[x, y, e, e] := by simp [swap, hheap']
  have hsecond : q'.reposition cmp' 1 = q'.swap 1 3 hpos' hc'.2 :=
    reposition_eq_swap hsink' (sinkTo?_eq_none_of_leaf (by simp [hheap'']))
  have hoffer : (q.offer cmp' e).2 = q'.swap 1 3 hpos' hc'.2 := by
    have hmem : e ∈ q.heap := Array.mem_of_getElem? (hget 0)
    rw [offer, if_pos ((hi.contains_iff e).2 hmem), hslots, ← hsecond]
    simp [List.range_succ, repositionNth, hslots, hfirst, hslots']
  rw [(hi.offer e).violation?_eq, hoffer, disorder?, hheap'']
  simp [List.range_succ, hxy, Std.ReflCmp.compare_self]

/-- `e` is queued at the top and below it, listed in this order, and its key rises above those of
`x` and `y`. The upper one sinks past `x` first, and `y`, which was below the lower one, rises to a
place below `x`. -/
theorem offer_again_leaves_disorder (cmp cmp' : α → α → Ordering) [Std.TransCmp cmp]
    [Std.TransCmp cmp']
    (hx : cmp e x ≠ .gt) (hy : cmp e y ≠ .gt) (hx' : cmp' x e = .lt) (hy' : cmp' y e = .lt)
    (hxy : cmp' x y = .gt) :
    let q := empty.afterCalls [⟨cmp, .push e⟩, ⟨cmp, .push e⟩, ⟨cmp, .push x⟩, ⟨cmp, .push y⟩]
    q.violation? cmp = none ∧ q.contents = {e, e, x, y} ∧
      (q.offer cmp' e).2.violation? cmp' = some (.heapOrder 0 1) := by
  intro q
  have hself : cmp e e = .eq := Std.ReflCmp.compare_self
  have hself' : cmp' e e = .eq := Std.ReflCmp.compare_self
  have hxe : cmp x e ≠ .lt := fun h => hx (Std.OrientedCmp.gt_iff_lt.2 h)
  have hye : cmp y e ≠ .lt := fun h => hy (Std.OrientedCmp.gt_iff_lt.2 h)
  have hne : e ≠ x ∧ e ≠ y := by
    constructor <;> rintro rfl <;> simp_all
  -- each push leaves its element at the end
  have h₁ := push_at_end cmp (empty : IndexedHeap α) (e := e) (by simp [empty])
  have hheap₁ : (empty.push cmp e).heap = #[e] := h₁.1
  have h₂ := push_at_end cmp (empty.push cmp e) (e := e) (by simp [hheap₁, hself])
  have hheap₂ : ((empty.push cmp e).push cmp e).heap = #[e, e] := by simp [h₂.1, hheap₁]
  have h₃ := push_at_end cmp ((empty.push cmp e).push cmp e) (e := x)
    (by simp [hheap₂, hxe])
  have hheap₃ : (((empty.push cmp e).push cmp e).push cmp x).heap = #[e, e, x] := by
    simp [h₃.1, hheap₂]
  have h₄ := push_at_end cmp (((empty.push cmp e).push cmp e).push cmp x) (e := y)
    (by simp [hheap₃, hye])
  have hheap : q.heap = #[e, e, x, y] := h₄.1.trans (by simp [hheap₃])
  have hslots : q.slots e = [0, 1] := by
    have hempty : (empty : IndexedHeap α).slots e = [] := by simp [slots_eq, empty]
    have hsize : (empty : IndexedHeap α).heap.size = 0 := rfl
    refine (h₄.2.2 e hne.2).trans ?_
    simp [h₃.2.2 e hne.1, h₂.2.1, h₁.2.1, hheap₁, hempty, hsize]
  have hi : q.Indexed := Indexed.empty.afterCalls _
  refine ⟨?_, ?_, offer_leaves_disorder hi hheap hslots hx' hy' hxy⟩
  · rw [hi.violation?_eq, disorder?, hheap]
    simp [List.range_succ, hx, hy, Std.ReflCmp.compare_self]
  · rw [contents, toList, hheap]
    rfl

/-- The restoring of every occurrence fails: two occurrences of 0 are queued above 1 and 2, the key
of 0 rises from 1 to 10, and the keys of 1 and 2 are 5 and 2. -/
theorem afterCalls_offer_again_not_sound :
    ¬ ∀ (cmp cmp' : Nat → Nat → Ordering) (cs : List (Call Nat)) (e : Nat),
      Std.TransCmp cmp → Std.TransCmp cmp' → (empty.afterCalls cs).violation? cmp = none →
      2 ≤ (empty.afterCalls cs).contents.count e →
      (∀ a b, a ≠ e → b ≠ e → cmp' a b = cmp a b) →
      ((empty.afterCalls cs).offer cmp' e).2.violation? cmp' = none := by
  intro hsound
  let key : Nat → Nat := fun n => if n = 0 then 1 else if n = 1 then 5 else 2
  obtain ⟨hvalid, hcontents, hviolation⟩ :=
    offer_again_leaves_disorder (byKey key) (byKey (Function.update key 0 10))
      (e := 0) (x := 1) (y := 2) (by decide) (by decide) (by decide) (by decide) (by decide)
  have hnone := hsound _ _ _ 0 inferInstance inferInstance hvalid (by rw [hcontents]; decide)
    (byKey_update key 0 10)
  rw [hviolation] at hnone
  cases hnone

end Disorder

end IndexedHeap

end LeastLoad
