import LeastLoad.Proofs.Fleet.Calm
import LeastLoad.Proofs.Fleet.Deeds
import LeastLoad.Proofs.Fleet.Overlooked
import LeastLoad.Proofs.IndexedHeap.Resort

/-! # Refreshing a ranking

A refresh brings each member up to date and puts its entry in its place, once, in the order of the
heap array. It keeps the members, and it brings a least one to the top, as long as being brought up
to date makes no member follow what it preceded. Three members are in order then. With more, the
rest of the queue is in order if nothing is due and at most one entry was out of its place, or if
there are four members; five may be left out of order. -/

namespace LeastLoad

theorem exists_le_all {α : Type} (cmp : α → α → Ordering) [Std.TransCmp cmp] {l : List α}
    (hne : l ≠ []) : ∃ m ∈ l, ∀ a ∈ l, cmp m a ≠ .gt := by
  have hr : Refines cmp (cmp · · ≠ .gt) := refines_of_transCmp
  induction l with
  | nil => exact absurd rfl hne
  | cons x l ih =>
    by_cases hl : l = []
    · subst hl
      exact ⟨x, List.mem_cons_self, fun a ha => List.mem_singleton.1 ha ▸ hr.refl x⟩
    · obtain ⟨m, hm, hle⟩ := ih hl
      by_cases hxm : cmp x m = .lt
      · refine ⟨x, List.mem_cons_self, fun a ha => ?_⟩
        obtain rfl | ha := List.mem_cons.1 ha
        · exact hr.refl a
        · exact hr.trans (hr.of_lt hxm) (hle a ha)
      · refine ⟨m, List.mem_cons_of_mem _ hm, fun a ha => ?_⟩
        obtain rfl | ha := List.mem_cons.1 ha
        · exact hr.of_not_lt hxm
        · exact hle a ha

namespace EndpointLoad

variable {c : LoadSettings} {a b : EndpointLoad}

theorem Plain.sync_eq (h : a.Plain c) (hc : c.subStrategy = .absent) (now : Nat) :
    a.sync now = a := by
  obtain ⟨endpoint, concurrency, disabled, tieBreak, penalty⟩ := a
  obtain rfl : penalty = none := h.unpenalized
  obtain rfl : tieBreak = .untracked := h.untracked hc
  rfl

theorem Plain.standing_eq (ha : a.Plain c) (hb : b.Plain c) (hc : c.subStrategy = .absent) :
    standing a b = Ord.compare a.inFlight b.inFlight := by
  have hkind : a.kind = b.kind := by
    rw [kind, kind, ha.untracked hc, hb.untracked hc]
  rw [← compare_eq_standing hkind, compare_of_disabled_eq (ha.enabled.trans hb.enabled.symm),
    ha.untracked hc, hb.untracked hc]
  exact Ordering.then_eq

end EndpointLoad

namespace Ranking

open IndexedHeap (AgreeOn Lowest Promising)

variable {s s' : LoadTable × Ranking} {r top : LoadRef} {rest : List LoadRef} {now : Nat}

/-- The loads of the members are of one kind, so that their comparison is an order. -/
def Uniform (s : LoadTable × Ranking) : Prop :=
  ∀ r ∈ s.2.queue.contents, ∀ r' ∈ s.2.queue.contents, (s.1.load r).kind = (s.1.load r').kind

theorem Uniform.agree (h : Uniform s) : s.2.queue.AgreeOn s.1.compare s.1.standing :=
  fun a ha b hb => EndpointLoad.compare_eq_standing (h a ha b hb)

theorem Uniform.of_kinds (hu : Uniform s) (hk : Keeps s s')
    (hkind : ∀ r, (s'.1.load r).kind = (s.1.load r).kind) : Uniform s' := by
  intro a ha b hb
  rw [hkind, hkind]
  rw [hk.contents] at ha hb
  exact hu a ha b hb

theorem Uniform.synced (h : Uniform s) (now : Nat) (r : LoadRef) :
    Uniform (s.1.update r (·.sync now), s.2) := by
  intro a ha b hb
  rw [LoadTable.load_update_congr (·.kind) fun _ => EndpointLoad.kind_sync,
    LoadTable.load_update_congr (·.kind) fun _ => EndpointLoad.kind_sync]
  exact h a ha b hb

theorem queue_resync_of_slot (now : Nat) (ht : Tidy s) (hu : Uniform s) {pos : Nat}
    (hr : s.2.queue.heap[pos]? = some r) : (resync now s r).2.queue =
      s.2.queue.reposition (s.1.update r (·.sync now)).standing pos := by
  refine Eq.trans ?_ ((hu.synced now r).agree.reposition pos)
  exact IndexedHeap.offer_of_slot ht.indexed ht.nodup hr

/-- A refresh of `s` has come to `s'`, and the entries `rest` are still to be put in their
places. -/
structure Underway (now : Nat) (s : LoadTable × Ranking) (rest : List LoadRef)
    (s' : LoadTable × Ranking) : Prop where
  keeps : Keeps s s'
  nodup : rest.Nodup
  queued : ∀ r ∈ rest, r ∈ s.2.queue.contents
  load : ∀ r, s'.1.load r =
    if r ∈ s.2.queue.contents ∧ r ∉ rest then (s.1.load r).sync now else s.1.load r
  wakeups : s'.2.wakeups = s.2.wakeups

theorem Underway.start (ht : Tidy s) : Underway now s s.2.queue.toList s :=
  ⟨.refl ht, Multiset.coe_nodup.1 ht.nodup, fun _ hr => Multiset.mem_coe.2 hr,
    fun _ => (if_neg fun h => h.2 (Multiset.mem_coe.1 h.1)).symm, rfl⟩

theorem Underway.step (h : Underway now s (r :: rest) s') :
    Underway now s rest (resync now s' r) := by
  obtain ⟨hnot, hn⟩ := List.nodup_cons.1 h.nodup
  have hr := h.queued r List.mem_cons_self
  refine ⟨h.keeps.trans (h.keeps.tidy.keeps_resync (h.keeps.contents ▸ hr)), hn,
    fun x hx => h.queued x (List.mem_cons_of_mem _ hx), fun x => ?_, h.wakeups⟩
  change (s'.1.update r (·.sync now)).load x = _
  rw [LoadTable.load_update_sync, h.load]
  by_cases hx : r = x
  · subst hx
    simp [hr, hnot]
  · simp [hx, Ne.symm hx]

theorem Underway.uniform (h : Underway now s rest s') (hu : Uniform s) : Uniform s' := by
  refine hu.of_kinds h.keeps fun r => ?_
  rw [h.load]
  split <;> simp

theorem refresh_of_step (now : Nat) (P : List LoadRef → LoadTable × Ranking → Prop) (ht : Tidy s)
    (hstart : P s.2.queue.toList s)
    (hstep : ∀ r rest s', Underway now s (r :: rest) s' → P (r :: rest) s' →
      P rest (resync now s' r)) :
    Underway now s [] (refresh now s) ∧ P [] (refresh now s) := by
  have hwalk : ∀ rest s', Underway now s rest s' → P rest s' →
      Underway now s [] (rest.foldl (resync now) s') ∧ P [] (rest.foldl (resync now) s') := by
    intro rest
    induction rest with
    | nil => exact fun s' h hp => ⟨h, hp⟩
    | cons r rest ih => exact fun s' h hp => ih _ h.step (hstep r rest s' h hp)
  exact hwalk _ s (.start ht) hstart

theorem underway_refresh (now : Nat) (ht : Tidy s) : Underway now s [] (refresh now s) :=
  (refresh_of_step now (fun _ _ => True) ht trivial fun _ _ _ _ _ => trivial).1

def AtMost (bound : EndpointLoad) (t : LoadTable) (r : LoadRef) : Prop :=
  EndpointLoad.standing (t.load r) bound ≠ .gt

variable {bound : EndpointLoad}

theorem refines_standing :
    Refines EndpointLoad.standing (EndpointLoad.standing · · ≠ .gt) := refines_of_transCmp

theorem standing_trans {a b c : EndpointLoad} (hab : EndpointLoad.standing a b ≠ .gt)
    (hbc : EndpointLoad.standing b c ≠ .gt) : EndpointLoad.standing a c ≠ .gt :=
  refines_standing.trans hab hbc

theorem lowest_atMost {t : LoadTable} {q : IndexedHeap LoadRef}
    (h : ∀ a ∈ q.contents, EndpointLoad.standing bound (t.load a) ≠ .gt) :
    q.Lowest t.standing (AtMost bound t) := by
  constructor
  · intro a _ b _ ha hb
    have hb' : EndpointLoad.standing bound (t.load b) = .lt :=
      Std.OrientedCmp.gt_iff_lt.1 (Classical.not_not.1 hb)
    have ha' : (EndpointLoad.standing (t.load a) bound).isLE := Ordering.ne_gt_iff_isLE.1 ha
    have hlt : EndpointLoad.standing (t.load a) (t.load b) = .lt :=
      Std.TransCmp.lt_of_isLE_of_lt ha' hb'
    exact hlt
  · intro a ha b _ hb hlt
    have hba : EndpointLoad.standing (t.load b) (t.load a) ≠ .gt := standing_trans hb (h a ha)
    exact hba (Std.OrientedCmp.gt_iff_lt.2 hlt)

/-- Being brought up to date makes no member follow what it preceded. -/
def Falls (now : Nat) (s : LoadTable × Ranking) : Prop :=
  ∀ r ∈ s.2.queue.contents, EndpointLoad.standing ((s.1.load r).sync now) (s.1.load r) ≠ .gt

theorem Underway.promising (h : Underway now s (r :: rest) s') (hu : Uniform s)
    (hfalls : Falls now s)
    (hbound : ∀ a ∈ s.2.queue.contents,
      EndpointLoad.standing bound ((s.1.load a).sync now) ≠ .gt)
    (hp : s'.2.queue.Promising (AtMost bound s'.1) (· ∈ r :: rest)) :
    (resync now s' r).2.queue.Promising (AtMost bound (resync now s' r).1) (· ∈ rest) := by
  have hr := h.queued r List.mem_cons_self
  obtain ⟨hnot, -⟩ := List.nodup_cons.1 h.nodup
  obtain ⟨pos, hpos⟩ := IndexedHeap.mem_contents_iff_getElem?.1 (h.keeps.contents ▸ hr)
  have hsame : ∀ a, a ≠ r → (resync now s' r).1.load a = s'.1.load a := fun a ha =>
    LoadTable.load_update_of_ne (Ne.symm ha) _
  have hlow : ∀ a, AtMost bound s'.1 a → AtMost bound (resync now s' r).1 a := by
    intro a ha
    by_cases har : a = r
    · subst har
      rw [AtMost, h.load, if_neg (by simp)] at ha
      rw [AtMost, h.step.load, if_pos ⟨hr, hnot⟩]
      exact standing_trans (hfalls a hr) ha
    · rwa [AtMost, hsame a har]
  have hge : ∀ a ∈ s'.2.queue.contents,
      EndpointLoad.standing bound ((resync now s' r).1.load a) ≠ .gt := by
    intro a ha
    rw [h.keeps.contents] at ha
    rw [h.step.load]
    split
    · exact hbound a ha
    · exact standing_trans (hbound a ha) (hfalls a ha)
  rw [queue_resync_of_slot now h.keeps.tidy (h.uniform hu) hpos]
  refine (IndexedHeap.Promising.reposition (lowest_atMost hge) h.keeps.tidy.nodup
    (hp.mono hlow (fun a ha hwait => ?_) fun _ => id) hpos).mono (fun _ => id)
    (fun a ha hwait => ⟨ha, fun hw => ?_⟩) fun a hw => ?_
  · refine ⟨?_, hwait⟩
    rwa [AtMost, hsame a fun heq => hwait (heq ▸ List.mem_cons_self)] at ha
  · exact hwait ((List.mem_cons.1 hw.1).resolve_left hw.2)
  · exact (List.mem_cons.1 hw.1).resolve_left hw.2

theorem le_top_of_falls (ht : Tidy s) (hu : Uniform s) (hfalls : Falls now s)
    (htop : (refresh now s).2.queue.peek = some top) (hr : r ∈ s.2.queue.contents) :
    (refresh now s).1.standing top r ≠ .gt := by
  have hlast := underway_refresh now ht
  have hfinal : ∀ a ∈ s.2.queue.contents,
      (refresh now s).1.load a = (s.1.load a).sync now := fun a ha =>
    (hlast.load a).trans (if_pos ⟨ha, List.not_mem_nil⟩)
  obtain ⟨m, hm, hleast⟩ := exists_le_all (refresh now s).1.standing
    (List.ne_nil_of_mem (Multiset.mem_coe.1 hr))
  have hbound : ∀ a ∈ s.2.queue.contents,
      EndpointLoad.standing ((refresh now s).1.load m) ((s.1.load a).sync now) ≠ .gt := by
    intro a ha
    rw [← hfinal a ha]
    exact hleast a (Multiset.mem_coe.1 ha)
  obtain ⟨-, hp⟩ := refresh_of_step now
    (fun rest s' => s'.2.queue.Promising
      (AtMost ((refresh now s).1.load m) s'.1) (· ∈ rest)) ht
    (.inr fun c z hz _ hwait =>
      absurd (Multiset.mem_coe.1 (IndexedHeap.mem_of_slot hz)) hwait)
    fun _ _ _ h => h.promising hu hfalls hbound
  have hself : AtMost ((refresh now s).1.load m) (refresh now s).1 m :=
    refines_standing.refl _
  have hlow := hp.top (fun _ _ => List.not_mem_nil)
    ⟨m, hlast.keeps.contents ▸ Multiset.mem_coe.2 hm, hself⟩ htop
  exact standing_trans hlow (hleast r (Multiset.mem_coe.1 hr))

theorem Underway.le_top_of_three (h : Underway now s (r :: rest) s') (hu : Uniform s)
    (hsize : s'.2.queue.heap.size ≤ 3)
    (hp : ∀ top, s'.2.queue.peek = some top → ∀ a ∈ s.2.queue.contents, a ∉ r :: rest →
      s'.1.standing top a ≠ .gt) :
    ∀ top, (resync now s' r).2.queue.peek = some top → ∀ a ∈ s.2.queue.contents, a ∉ rest →
      (resync now s' r).1.standing top a ≠ .gt := by
  intro top htop a ha hwait
  have hr := h.queued r List.mem_cons_self
  obtain ⟨pos, hpos⟩ := IndexedHeap.mem_contents_iff_getElem?.1 (h.keeps.contents ▸ hr)
  obtain ⟨i, hi⟩ := IndexedHeap.mem_contents_iff_getElem?.1 (h.keeps.contents ▸ ha)
  have htrans : Refines (resync now s' r).1.standing ((resync now s' r).1.standing · · ≠ .gt) :=
    refines_of_transCmp
  rw [IndexedHeap.peek, queue_resync_of_slot now h.keeps.tidy (h.uniform hu) hpos] at htop
  by_cases h0 : pos = 0
  · subst h0
    obtain ⟨hlt, -⟩ := Array.getElem?_eq_some_iff.1 hi
    exact IndexedHeap.le_of_reposition_top htrans (by omega) htop hi
  · obtain ⟨hlt, -⟩ := Array.getElem?_eq_some_iff.1 hpos
    have hzero : 0 < s'.2.queue.heap.size := by omega
    have hold := Array.getElem?_eq_getElem hzero
    refine IndexedHeap.le_of_reposition_leaf htrans hsize (Nat.pos_of_ne_zero h0) hpos hold htop ?_
    by_cases har : a = r
    · exact .inl har
    · right
      have hne := h.keeps.tidy.ne_of_slots hold hpos (Ne.symm h0)
      have hle := hp _ hold a ha fun hmem => hwait ((List.mem_cons.1 hmem).resolve_left har)
      have hload : ∀ x, x ≠ r → (resync now s' r).1.load x = s'.1.load x := fun x hx =>
        LoadTable.load_update_of_ne (Ne.symm hx) _
      rwa [LoadTable.standing, hload _ hne, hload _ har]

theorem le_top_of_three (ht : Tidy s) (hu : Uniform s) (hsize : s.2.queue.heap.size ≤ 3)
    (htop : (refresh now s).2.queue.peek = some top) (hr : r ∈ s.2.queue.contents) :
    (refresh now s).1.standing top r ≠ .gt := by
  have hsize' : ∀ {rest s'}, Underway now s rest s' → s'.2.queue.heap.size ≤ 3 := by
    intro rest s' h
    rwa [← IndexedHeap.card_contents, h.keeps.contents, IndexedHeap.card_contents]
  obtain ⟨-, hp⟩ := refresh_of_step now
    (fun rest s' => ∀ top, s'.2.queue.peek = some top → ∀ a ∈ s.2.queue.contents,
      a ∉ rest → s'.1.standing top a ≠ .gt) ht
    (fun _ _ a ha hwait => absurd (Multiset.mem_coe.1 ha) hwait)
    fun _ _ _ h => h.le_top_of_three hu (hsize' h)
  exact hp top htop r hr List.not_mem_nil

/-- Being brought up to date changes the place of no member. -/
def Unmoved (now : Nat) (s : LoadTable × Ranking) : Prop :=
  ∀ r ∈ s.2.queue.contents, EndpointLoad.standing ((s.1.load r).sync now) (s.1.load r) = .eq

theorem Underway.agree (h : Underway now s rest s') (hunmoved : Unmoved now s) :
    s'.2.queue.AgreeOn s'.1.standing s.1.standing := by
  have heq : ∀ a ∈ s.2.queue.contents,
      EndpointLoad.standing (s'.1.load a) (s.1.load a) = .eq := by
    intro a ha
    rw [h.load]
    split
    · exact hunmoved a ha
    · exact Std.ReflCmp.compare_self
  intro a ha b hb
  rw [h.keeps.contents] at ha hb
  exact (Std.TransCmp.congr_left (heq a ha)).trans (Std.TransCmp.congr_right (heq b hb))

theorem queue_refresh_of_unmoved (ht : Tidy s) (hu : Uniform s) (hunmoved : Unmoved now s) :
    (refresh now s).2.queue = s.2.queue.offerAll s.1.standing s.2.queue.toList := by
  refine (refresh_of_step now (fun rest s' => s'.2.queue.offerAll s.1.standing rest =
    s.2.queue.offerAll s.1.standing s.2.queue.toList) ht rfl fun r rest s' h hp => ?_).2
  have hr := h.queued r List.mem_cons_self
  obtain ⟨pos, hpos⟩ := IndexedHeap.mem_contents_iff_getElem?.1 (h.keeps.contents ▸ hr)
  have hstep := queue_resync_of_slot now h.keeps.tidy (h.uniform hu) hpos
  have hagree := (h.step.agree hunmoved).of_contents
    (contents_resync h.keeps.tidy (h.keeps.contents ▸ hr)).symm
  rw [← hp, hstep]
  change IndexedHeap.offerAll _ _ _ = IndexedHeap.offerAll _ (s'.2.queue.offer _ r).2 _
  rw [IndexedHeap.offer_of_slot h.keeps.tidy.indexed h.keeps.tidy.nodup hpos]
  exact congrArg (IndexedHeap.offerAll _ · _) (hagree.reposition pos)

theorem inOrder_congr {q : IndexedHeap LoadRef} {cmp cmp' : LoadRef → LoadRef → Ordering}
    (h : q.AgreeOn cmp cmp') {i j : Nat} (ho : q.InOrder (cmp · · ≠ .gt) i j) :
    q.InOrder (cmp' · · ≠ .gt) i j := by
  intro a b ha hb
  rw [← h a (IndexedHeap.mem_of_slot ha) b (IndexedHeap.mem_of_slot hb)]
  exact ho a b ha hb

theorem ordered_refresh_of_unmoved (ht : Tidy s) (hu : Uniform s) (hunmoved : Unmoved now s)
    (h : s.2.queue.heap.size = 4 ∨ ∃ hole, s.2.queue.OrderedBut (s.1.compare · · ≠ .gt) hole) :
    (refresh now s).2.queue.Ordered ((refresh now s).1.standing · · ≠ .gt) := by
  have hlast := underway_refresh now ht
  have hagree := hlast.agree hunmoved
  have hordered : (refresh now s).2.queue.Ordered (s.1.standing · · ≠ .gt) := by
    rw [queue_refresh_of_unmoved ht hu hunmoved]
    obtain hsize | ⟨hole, hbut⟩ := h
    · exact IndexedHeap.offerAll_of_four hsize ht.indexed ht.nodup
    · have hbut' : s.2.queue.OrderedBut (s.1.standing · · ≠ .gt) hole :=
        ⟨fun c hc hne hp => inOrder_congr hu.agree (hbut.off c hc hne hp),
          fun h0 c hc hp => inOrder_congr hu.agree (hbut.across h0 c hc hp)⟩
      exact hbut'.offerAll ht.indexed ht.nodup
  intro c hc
  refine inOrder_congr (fun a ha b hb => ?_) (hordered c hc)
  exact (hagree a ha b hb).symm

theorem violation?_refresh (ht : Tidy s) (hu : Uniform s)
    (ho : (refresh now s).2.queue.Ordered ((refresh now s).1.standing · · ≠ .gt)) :
    (refresh now s).2.queue.violation? (refresh now s).1.compare = none := by
  have hlast := underway_refresh now ht
  rw [(hlast.uniform hu).agree.violation?]
  exact IndexedHeap.violation?_eq_none hlast.keeps.tidy.indexed ho

/-- What a refresh makes of a ranking, whatever the arrangement of its entries. -/
structure Restores (now : Nat) (s s' : LoadTable × Ranking) : Prop where
  keeps : Keeps s s'
  tracked : s'.2.queue.Tracked
  load : ∀ r, s'.1.load r = if r ∈ s.2.queue.contents then (s.1.load r).sync now else s.1.load r
  wakeups : s'.2.wakeups = s.2.wakeups
  top : Falls now s ∨ s.2.queue.contents.card ≤ 3 → ∀ top, s'.2.queue.peek = some top →
    ∀ r ∈ s.2.queue.contents, s'.1.compare top r ≠ .gt
  few : s.2.queue.contents.card ≤ 3 → s'.2.queue.violation? s'.1.compare = none
  unmoved : Unmoved now s → s.2.queue.contents.card ≤ 4 ∨
    (∃ hole, s.2.queue.OrderedBut (s.1.compare · · ≠ .gt) hole) →
      s'.2.queue.violation? s'.1.compare = none

theorem Tidy.restores_refresh (ht : Tidy s) (hu : Uniform s) : Restores now s (refresh now s) := by
  have hlast := underway_refresh now ht
  have hfew : s.2.queue.contents.card ≤ 3 →
      (refresh now s).2.queue.violation? (refresh now s).1.compare = none := by
    intro hcard
    rw [IndexedHeap.card_contents] at hcard
    have hsize : (refresh now s).2.queue.heap.size ≤ 3 := by
      rwa [← IndexedHeap.card_contents, hlast.keeps.contents, IndexedHeap.card_contents]
    refine violation?_refresh ht hu (IndexedHeap.ordered_of_three hsize fun top htop r hr => ?_)
    · exact le_top_of_three ht hu hcard htop (hlast.keeps.contents ▸ hr)
  refine ⟨hlast.keeps, hlast.keeps.tidy.indexed.tracked, fun r => ?_, hlast.wakeups,
    fun h top htop r hr => ?_, hfew, fun hunmoved h => ?_⟩
  · rw [hlast.load]
    simp only [List.not_mem_nil, not_false_eq_true, and_true]
  · have hmem : top ∈ (refresh now s).2.queue.contents := IndexedHeap.peek_mem htop
    rw [(hlast.uniform hu).agree top hmem r (hlast.keeps.contents ▸ hr)]
    obtain hfalls | hcard := h
    · exact le_top_of_falls ht hu hfalls htop hr
    · rw [IndexedHeap.card_contents] at hcard
      exact le_top_of_three ht hu hcard htop hr
  · by_cases hcard : s.2.queue.contents.card ≤ 3
    · exact hfew hcard
    · refine violation?_refresh ht hu (ordered_refresh_of_unmoved ht hu hunmoved (h.imp_left ?_))
      rw [IndexedHeap.card_contents] at hcard ⊢
      omega

end Ranking

namespace Fleet

open Ranking (Tidy Uniform Restores)

variable {f start : Fleet} {b : Nat} {k : Ranking} {c : LoadSettings} {es : List Endpoint}
  {past : List (Fleet × Deed)} {ns : List Int32}

theorem Rooted.uniform (h : f.Rooted c) (hk : f.ranking? b = some k) : Uniform (f.loads, k) := by
  have ht := h.coherent b k (ranking?_eq_some_iff.1 hk)
  intro r hr r' hr'
  rw [h.kinds r (ht.placed r hr), h.kinds r' (ht.placed r' hr')]

/-- Units are counted on states without any balancer being told. -/
def drift (f : Fleet) (xs : List (LoadRef × Int32)) : Fleet :=
  xs.foldl (fun f x => f.perform (.adjust x.1 (.acquire x.2))) f

theorem Runs.drift (h : Runs Allowed start past f) (xs : List (LoadRef × Int32)) :
    ∃ past', Runs Allowed start past' (f.drift xs) := by
  induction xs generalizing f past with
  | nil => exact ⟨past, h⟩
  | cons x xs ih => exact ih (h.step (.adjust x.1 (.acquire x.2)) trivial)

theorem drift_spec (f : Fleet) {xs : List (LoadRef × Int32)} (hn : (xs.map (·.1)).Nodup)
    (hplace : ∀ x ∈ xs, x.1.place < f.loads.states.size) :
    ∃ t, f.drift xs = { f with loads := t } ∧ (∀ r, t.endpoint r = f.loads.endpoint r) ∧
      (∀ c, f.loads.Plain c → t.Plain c) ∧
      (∀ r, r ∉ xs.map (·.1) → t.load r = f.loads.load r) ∧
      ∀ x ∈ xs, t.load x.1 = (f.loads.load x.1).acquire f.now x.2 := by
  induction xs generalizing f with
  | nil => exact ⟨f.loads, rfl, fun _ => rfl, fun _ h => h, fun _ _ => rfl, nofun⟩
  | cons x xs ih =>
    obtain ⟨hx, hn⟩ := List.nodup_cons.1 hn
    have hsize : (f.perform (.adjust x.1 (.acquire x.2))).loads.states.size =
        f.loads.states.size := LoadTable.size_update
    obtain ⟨t, ht, hend, hplain, hother, hload⟩ :=
      ih (f.perform (.adjust x.1 (.acquire x.2))) hn
        fun y hy => hsize ▸ hplace y (List.mem_cons_of_mem _ hy)
    have hstep : ∀ r, r ≠ x.1 →
        (f.perform (.adjust x.1 (.acquire x.2))).loads.load r = f.loads.load r :=
      fun r hr => LoadTable.load_update_of_ne (Ne.symm hr) _
    refine ⟨t, ht, fun r => (hend r).trans (LoadTable.endpoint_update fun _ => rfl),
      fun c hc => hplain c (hc.update fun l hl => hl.acquire _ _), fun r hr => ?_,
      fun y hy => ?_⟩
    · simp only [List.map_cons, List.mem_cons, not_or] at hr
      rw [hother r hr.2, hstep r hr.1]
    · obtain rfl | hy' := List.mem_cons.1 hy
      · rw [hother y.1 hx]
        exact LoadTable.load_update_self (hplace y hy) _
      · have hne : y.1 ≠ x.1 := fun heq => hx (List.mem_map.2 ⟨y, hy', heq⟩)
        rw [hload y hy', hstep y.1 hne]
        rfl

/-- A ranked balancer over distinct endpoints whose loads have drifted to the given units while the
entries stand in the order of the endpoints. -/
structure Drifted (f : Fleet) (c : LoadSettings) (k : Ranking) (es : List Endpoint)
    (ns : List Int32) : Prop where
  held : f.isHeld 0 = true
  ranked : f.ranking? 0 = some k
  rooted : f.Rooted c
  plain : f.loads.Plain c
  endpoints : k.queue.toList.map f.loads.endpoint = es
  units : k.queue.toList.map (fun r => (f.loads.load r).concurrency) = ns

theorem Blank.exists_idle (hstart : start.Blank c) (hw : 0 < c.windows)
    (hc : c.failureSustain = none) (hes : es.Nodup) :
    ∃ f k, start.build (Strategy.selection {} .ranked) ({} : Settings).telemetry [] es =
      .ok (0, f) ∧ Drifted f c k es (List.replicate es.length 0) := by
  obtain ⟨b, f, hok⟩ := exists_build hstart.directory hw (Strategy.selection {} .ranked)
    ({} : Settings).telemetry (by decide) [] es
  obtain ⟨hb, states, f₁, hres, hloads, hsel⟩ := hstart.rooted.selection?_build hok
  rw [hstart.seats] at hb
  obtain rfl : b = 0 := hb
  obtain ⟨d, -, hstates⟩ := hres.resolved
  rw [← hloads] at hstates
  have hunused : ∀ r, (f.loads.load r).Unused start.now ∧ (f.loads.load r).disabled = false := by
    rw [hloads]
    refine hres.grows.forall (p := fun l => l.Unused start.now ∧ l.disabled = false) (fun r => ?_)
      (fun e l hl => EndpointLoad.Unused.create start.clock.now_le hl) ⟨.vacant, rfl⟩
    rw [hstart.load_eq]
    exact ⟨.vacant, rfl⟩
  have hplain : f.loads.Plain c := by
    rw [hloads]
    refine hres.grows.forall (p := fun l => l.Plain c) (fun r => ?_)
      (fun e l hl => EndpointLoad.Plain.create hc hl) .vacant
    rw [hstart.load_eq]
    exact .vacant
  have hnodup : states.Nodup := .of_map f.loads.endpoint (by rwa [hstates.map_endpoint])
  have hlist : (Ranking.replace f.loads {} states).queue.toList = states := by
    rw [Ranking.queue_replace]
    refine Ranking.toList_foldl_enter (k := {}) (fun a b => ?_) .empty hnodup
    rw [LoadTable.compare, (hunused a).1.idle.compare (hunused b).1.idle, (hunused a).2,
      (hunused b).2]
    decide
  refine ⟨f, _, hok, (hstart.rooted.rest_build hok).2, ranking?_eq_some_iff.2 hsel,
    hstart.rooted.build hok, hplain, ?_, ?_⟩
  · rw [hlist, hstates.map_endpoint]
  · rw [hlist, ← hstates.map_endpoint, List.length_map]
    exact List.map_eq_replicate_iff.2 fun r _ => (hunused r).1.idle.concurrency

theorem Drifted.drift (h : Drifted f c k es (List.replicate es.length 0))
    (hrooted : (f.drift (k.queue.toList.zip ns)).Rooted c) (hns : ns.length = es.length) :
    Drifted (f.drift (k.queue.toList.zip ns)) c k es ns := by
  have ht := h.rooted.coherent 0 k (ranking?_eq_some_iff.1 h.ranked)
  have hlength : k.queue.toList.length = ns.length := by
    rw [hns, ← h.endpoints, List.length_map]
  have hfst : (k.queue.toList.zip ns).map (·.1) = k.queue.toList := List.map_fst_zip hlength.le
  have hidle : ∀ r ∈ k.queue.toList, (f.loads.load r).concurrency = 0 := by
    have hunits := h.units
    rw [← h.endpoints, List.length_map] at hunits
    exact List.map_eq_replicate_iff.1 hunits
  obtain ⟨t, hdrift, hend, hplain, -, hload⟩ := f.drift_spec
    (hfst.symm ▸ Multiset.coe_nodup.1 ht.nodup : ((k.queue.toList.zip ns).map (·.1)).Nodup)
    fun x hx => ht.placed x.1 (Multiset.mem_coe.2 (List.of_mem_zip hx).1)
  rw [hdrift] at hrooted ⊢
  refine ⟨h.held, h.ranked, hrooted, hplain c h.plain, ?_, ?_⟩
  · rw [← h.endpoints]
    exact List.map_congr_left fun r _ => hend r
  · refine Eq.trans ?_ (List.map_snd_zip hlength.ge)
    refine Eq.trans (congrArg (List.map _) hfst.symm) ?_
    rw [List.map_map]
    refine List.map_congr_left fun x hx => ?_
    change (t.load x.1).concurrency = x.2
    rw [hload x hx]
    change (f.loads.load x.1).concurrency + x.2 = x.2
    rw [hidle x.1 (List.of_mem_zip hx).1, Int32.zero_add]

theorem Blank.exists_drifted (hstart : start.Blank c) (hw : 0 < c.windows)
    (hc : c.failureSustain = none) (es : List Endpoint) (ns : List Int32) (hes : es.Nodup)
    (hns : ns.length = es.length) :
    ∃ past f k, Runs Allowed start past f ∧ Drifted f c k es ns := by
  obtain ⟨f, k, hok, h⟩ := hstart.exists_idle hw hc hes
  obtain ⟨past, hrun⟩ := ((@Runs.start Allowed start).step
    (.call (.build {} .ranked [] es)) trivial).drift (k.queue.toList.zip ns)
  rw [perform_build hok] at hrun
  exact ⟨past, _, k, hrun, h.drift (hrun.rooted hstart) hns⟩

theorem refresh_restores (hk : f.ranking? b = some k) (ht : Tidy (f.loads, k))
    (hu : Uniform (f.loads, k)) :
    ∃ k', (f.refresh b).ranking? b = some k' ∧
      Restores f.now (f.loads, k) ((f.refresh b).loads, k') := by
  refine ⟨(Ranking.refresh f.now (f.loads, k)).2, ?_, ?_⟩
  · exact (ranking?_modifyRanking hk b).trans (if_pos rfl)
  · rw [refresh, loads_modifyRanking hk]
    exact ht.restores_refresh hu

/-- Three endpoints with 5, 3 and 4 units, queued in this order. -/
theorem refresh_restores_of_three :
    ∃ (start f : Fleet) (past : List (Fleet × Deed)) (k k' : Ranking), start.Blank {} ∧
      Runs Allowed start past f ∧ f.isHeld 0 = true ∧ f.ranking? 0 = some k ∧
      (f.refresh 0).ranking? 0 = some k' ∧
      k.queue.toList.map (fun r => (f.loads.load r).concurrency) = [5, 3, 4] ∧
      k'.queue.contents = k.queue.contents ∧
      k'.queue.violation? (f.refresh 0).loads.compare = none := by
  obtain ⟨start, hstart, -⟩ := exists_blank {}
  obtain ⟨past, f, k, hrun, h⟩ := hstart.exists_drifted (by decide) rfl [⟨1⟩, ⟨2⟩, ⟨3⟩]
    [5, 3, 4] (by decide) rfl
  have ht := h.rooted.coherent 0 k (ranking?_eq_some_iff.1 h.ranked)
  obtain ⟨k', hk', hrestores⟩ := refresh_restores h.ranked ht (h.rooted.uniform h.ranked)
  have hcard : k.queue.contents.card = 3 := by
    have hlength := congrArg List.length h.units
    rw [List.length_map] at hlength
    exact hlength
  exact ⟨start, f, past, k, k', hstart, hrun, h.held, h.ranked, hk', h.units,
    hrestores.keeps.contents, hrestores.few hcard.le⟩

theorem Drifted.standing_eq (h : f.Drifted c k es ns) (hc : c.subStrategy = .absent)
    (r r' : LoadRef) : f.loads.standing r r' = Ord.compare (f.loads.load r).concurrency.toUInt32
      (f.loads.load r').concurrency.toUInt32 :=
  (h.plain r).standing_eq (h.plain r') hc

theorem Drifted.unmoved (h : f.Drifted c k es ns) (hc : c.subStrategy = .absent) :
    Ranking.Unmoved f.now (f.loads, k) := fun r _ => by
  rw [(h.plain r).sync_eq hc]
  exact Std.ReflCmp.compare_self

/-- The members whose load is least and next to it are the top and the fourth one after a refresh,
and the old top has come to rest between them. -/
theorem Drifted.units_refresh (h : f.Drifted c k es (2 :: 3 :: 4 :: 1 :: 0 :: ns))
    (hc : c.subStrategy = .absent) (hns : ∀ n ∈ ns, n = 4) :
    (Ranking.refresh f.now (f.loads, k)).2.queue.toList.map
      (fun r => (f.loads.load r).concurrency) = 0 :: 2 :: 4 :: 1 :: 3 :: ns := by
  have ht := h.rooted.coherent 0 k (ranking?_eq_some_iff.1 h.ranked)
  have hcmp := h.standing_eq hc
  have hunits := h.units
  simp only [List.map_eq_cons_iff] at hunits
  obtain ⟨a, _, hl, ha, b, _, rfl, hb, x, _, rfl, hx, d, _, rfl, hd, e, rest, rfl, he, hrest⟩ :=
    hunits
  have hmost : ∀ y ∈ k.queue.contents, (f.loads.load y).concurrency.toUInt32 ≤ 4 := by
    intro y hy
    have hmem := h.units ▸ List.mem_map_of_mem (Multiset.mem_coe.1 hy)
    generalize (f.loads.load y).concurrency = n at hmem
    simp only [List.mem_cons] at hmem
    obtain rfl | rfl | rfl | rfl | rfl | hn := hmem
    iterate 5 decide
    rw [hns n hn]
    decide
  have hlate : ∀ z ∈ x :: rest, ∀ y ∈ k.queue.contents, f.loads.standing z y ≠ .lt := by
    intro z hz y hy
    have hfour : (f.loads.load z).concurrency = 4 := by
      obtain rfl | hz := List.mem_cons.1 hz
      · exact hx
      · exact hns _ (hrest ▸ List.mem_map_of_mem hz)
    rw [hcmp, hfour]
    exact fun hlt => UInt32.not_lt.2 (hmost y hy) (Std.compare_eq_lt.1 hlt)
  rw [Ranking.queue_refresh_of_unmoved ht (h.rooted.uniform h.ranked) (h.unmoved hc),
    IndexedHeap.toList_offerAll_of_five ht.indexed ht.nodup hl (by rw [hcmp, he, hd]; decide)
      (by rw [hcmp, hd, ha]; decide) (by rw [hcmp, ha, hb]; decide) hlate]
  simp only [List.map_cons, ha, hb, hx, hd, he, hrest]

/-- With at least five members, of which the first five have 2, 3, 4, 1 and 0 units, a refresh
leaves the queue out of order. -/
theorem Drifted.refresh_leaves_disorder (h : f.Drifted c k es (2 :: 3 :: 4 :: 1 :: 0 :: ns))
    (hc : c.subStrategy = .absent) (hns : ∀ n ∈ ns, n = 4) :
    ∃ k', (f.refresh 0).ranking? 0 = some k' ∧
      k'.queue.violation? (f.refresh 0).loads.compare = some (.heapOrder 1 3) := by
  have ht := h.rooted.coherent 0 k (ranking?_eq_some_iff.1 h.ranked)
  have hu := h.rooted.uniform h.ranked
  have hlast := Ranking.underway_refresh f.now ht
  have hcmp := h.standing_eq hc
  have hunits := h.units_refresh hc hns
  simp only [List.map_eq_cons_iff] at hunits
  obtain ⟨e, _, hl, he, a, _, rfl, ha, x, _, rfl, hx, d, _, rfl, hd, b, rest, rfl, -, -⟩ := hunits
  have hget := IndexedHeap.getElem?_of_toList hl
  have hsize : (Ranking.refresh f.now (f.loads, k)).2.queue.heap.size = rest.length + 5 :=
    congrArg List.length hl
  refine ⟨(Ranking.refresh f.now (f.loads, k)).2, ?_, ?_⟩
  · exact (ranking?_modifyRanking h.ranked 0).trans (if_pos rfl)
  rw [refresh, loads_modifyRanking h.ranked, (hlast.uniform hu).agree.violation?,
    (hlast.agree (h.unmoved hc)).violation?, hlast.keeps.tidy.indexed.violation?_eq,
    IndexedHeap.disorder?, hsize]
  have hea : f.loads.standing e a = .lt := by rw [hcmp, he, ha]; decide
  have hex : f.loads.standing e x = .lt := by rw [hcmp, he, hx]; decide
  have had : f.loads.standing a d = .gt := by rw [hcmp, ha, hd]; decide
  simp [List.range_succ_eq_map, hget, hea, hex, had]

/-- Five endpoints with 2, 3, 4, 1 and 0 units. -/
theorem refresh_not_sound :
    ¬ ∀ (start f : Fleet) (past : List (Fleet × Deed)) (b : Nat) (k k' : Ranking),
      start.Blank {} → Runs Allowed start past f → f.isHeld b = true → f.ranking? b = some k →
      (f.refresh b).ranking? b = some k' →
      k'.queue.violation? (f.refresh b).loads.compare = none := by
  intro hsound
  obtain ⟨start, hstart, -⟩ := exists_blank {}
  obtain ⟨past, f, k, hrun, h⟩ := hstart.exists_drifted (by decide) rfl
    [⟨1⟩, ⟨2⟩, ⟨3⟩, ⟨4⟩, ⟨5⟩] [2, 3, 4, 1, 0] (by decide) rfl
  obtain ⟨k', hk', hviolation⟩ := h.refresh_leaves_disorder rfl nofun
  rw [hsound start f past 0 k k' hstart hrun h.held h.ranked hk'] at hviolation
  cases hviolation

end Fleet

end LeastLoad
