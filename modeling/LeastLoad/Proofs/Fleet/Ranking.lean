import LeastLoad.Fleet.Ranking
import LeastLoad.Proofs.Endpoint.Load
import LeastLoad.Proofs.IndexedHeap.Rekey
import Mathlib.Data.Multiset.Dedup

/-! # What a ranking keeps

A ranking is tidy when its members are exactly what is queued, each queued once. Putting an entry
in its place keeps a ranking tidy and its members the same, and so does everything that is done by
putting entries in their places one after another. -/

namespace LeastLoad

namespace Ranking

variable {s : LoadTable × Ranking} {t : LoadTable} {k : Ranking} {r : LoadRef} {now : Nat}

structure Tidy (s : LoadTable × Ranking) : Prop where
  indexed : s.2.queue.Indexed
  nodup : s.2.queue.contents.Nodup
  placed : ∀ r ∈ s.2.queue.contents, r.place < s.1.states.size
  members : ∀ e r, s.2.members[e]? = some r ↔ r ∈ s.2.queue.contents ∧ s.1.endpoint r = e

theorem Tidy.member (h : Tidy s) (hr : r ∈ s.2.queue.contents) :
    s.2.members[s.1.endpoint r]? = some r :=
  (h.members _ _).2 ⟨hr, rfl⟩

theorem Tidy.eq_of_endpoint_eq (h : Tidy s) {r' : LoadRef} (hr : r ∈ s.2.queue.contents)
    (hr' : r' ∈ s.2.queue.contents) (he : s.1.endpoint r = s.1.endpoint r') : r = r' :=
  Option.some.inj ((he ▸ h.member hr).symm.trans (h.member hr'))

theorem Tidy.congr (h : Tidy s) (hsize : t.states.size = s.1.states.size)
    (hend : ∀ r, t.endpoint r = s.1.endpoint r) : Tidy (t, s.2) :=
  ⟨h.indexed, h.nodup, fun r hr => by rw [hsize]; exact h.placed r hr,
    fun e r => by rw [hend]; exact h.members e r⟩

theorem Tidy.update (h : Tidy s) {g : EndpointLoad → EndpointLoad}
    (hg : ∀ l, (g l).endpoint = l.endpoint) : Tidy (s.1.update r g, s.2) :=
  h.congr LoadTable.size_update fun _ => LoadTable.endpoint_update hg

theorem contents_offer_of_mem {q : IndexedHeap LoadRef} {cmp : LoadRef → LoadRef → Ordering}
    (hi : q.Indexed) (hr : r ∈ q.contents) : (q.offer cmp r).2.contents = q.contents := by
  rw [IndexedHeap.contents_offer hi, if_pos hr]

theorem Tidy.offer (h : Tidy s) (cmp : LoadRef → LoadRef → Ordering)
    (hr : r ∈ s.2.queue.contents) :
    Tidy (s.1, { s.2 with queue := (s.2.queue.offer cmp r).2 }) := by
  have hc : (s.2.queue.offer cmp r).2.contents = s.2.queue.contents :=
    contents_offer_of_mem h.indexed hr
  constructor
  · exact h.indexed.offer r
  · simpa only [hc] using h.nodup
  · simpa only [hc] using h.placed
  · simpa only [hc] using h.members

theorem Tidy.resync (h : Tidy s) (hr : r ∈ s.2.queue.contents) : Tidy (resync now s r) :=
  (h.update fun _ => EndpointLoad.endpoint_sync).offer _ hr

theorem contents_resync (h : Tidy s) (hr : r ∈ s.2.queue.contents) :
    (resync now s r).2.queue.contents = s.2.queue.contents :=
  contents_offer_of_mem h.indexed hr

@[simp] theorem wakeups_resync : (resync now s r).2.wakeups = s.2.wakeups := rfl

@[simp] theorem endpoint_resync (r' : LoadRef) :
    (resync now s r).1.endpoint r' = s.1.endpoint r' :=
  LoadTable.endpoint_update fun _ => EndpointLoad.endpoint_sync

/-- A tidy ranking over the same members, whose loads belong to the same endpoints. -/
structure Keeps (s s' : LoadTable × Ranking) : Prop where
  tidy : Tidy s'
  contents : s'.2.queue.contents = s.2.queue.contents
  members : s'.2.members = s.2.members
  size : s'.1.states.size = s.1.states.size
  endpoint : ∀ r, s'.1.endpoint r = s.1.endpoint r

theorem Keeps.refl (h : Tidy s) : Keeps s s := ⟨h, rfl, rfl, rfl, fun _ => rfl⟩

theorem Keeps.trans {s' s'' : LoadTable × Ranking} (h : Keeps s s') (h' : Keeps s' s'') :
    Keeps s s'' :=
  ⟨h'.tidy, h'.contents.trans h.contents, h'.members.trans h.members, h'.size.trans h.size,
    fun r => (h'.endpoint r).trans (h.endpoint r)⟩

theorem Tidy.keeps_update (h : Tidy s) {g : EndpointLoad → EndpointLoad}
    (hg : ∀ l, (g l).endpoint = l.endpoint) : Keeps s (s.1.update r g, s.2) :=
  ⟨h.update hg, rfl, rfl, LoadTable.size_update, fun _ => LoadTable.endpoint_update hg⟩

theorem Tidy.keeps_offer (h : Tidy s) (cmp : LoadRef → LoadRef → Ordering)
    (hr : r ∈ s.2.queue.contents) :
    Keeps s (s.1, { s.2 with queue := (s.2.queue.offer cmp r).2 }) :=
  ⟨h.offer cmp hr, contents_offer_of_mem h.indexed hr, rfl, rfl, fun _ => rfl⟩

theorem Tidy.keeps_resync (h : Tidy s) (hr : r ∈ s.2.queue.contents) :
    Keeps s (Ranking.resync now s r) :=
  (h.keeps_update fun _ => EndpointLoad.endpoint_sync).trans
    ((h.update fun _ => EndpointLoad.endpoint_sync).keeps_offer _ hr)

/-- What putting the top in its place keeps holds of a ranking whose top is about to be put in its
place for the last time. -/
theorem settleWithin_last {P : LoadTable × Ranking → Prop}
    (h : ∀ s r, P s → s.2.queue.peek = some r → P (resync now s r)) (rounds : Nat) (hs : P s) :
    settleWithin now rounds s = s ∧ (rounds = 0 ∨ s.2.queue.peek = none) ∨
      ∃ s' top, P s' ∧ s'.2.queue.peek = some top ∧
        settleWithin now rounds s = resync now s' top := by
  induction rounds generalizing s with
  | zero => exact .inl ⟨rfl, .inl rfl⟩
  | succ rounds ih =>
    rw [settleWithin]
    split
    · next hnone => exact .inl ⟨rfl, .inr hnone⟩
    · next top htop =>
      dsimp only
      split
      · exact .inr ⟨s, top, hs, htop, rfl⟩
      · obtain ⟨heq, -⟩ | hlast := ih (h s top hs htop)
        · exact .inr ⟨s, top, hs, htop, heq⟩
        · exact .inr hlast

theorem settle_of_resync {P : LoadTable × Ranking → Prop}
    (h : ∀ s r, P s → r ∈ s.2.queue.contents → P (resync now s r)) (hs : P s) :
    P (settle now s) := by
  have htop : ∀ s r, P s → s.2.queue.peek = some r → P (resync now s r) :=
    fun s r hs hr => h s r hs (IndexedHeap.mem_contents_iff_getElem?.2 ⟨0, hr⟩)
  obtain ⟨heq, -⟩ | ⟨s', top, hs', hpeek, heq⟩ := settleWithin_last htop s.2.queue.size hs
  · rwa [settle, heq]
  · rw [settle, heq]
    exact htop s' top hs' hpeek

theorem Tidy.keeps_settle (h : Tidy s) : Keeps s (settle now s) :=
  settle_of_resync (fun _ _ hk hr => hk.trans (hk.tidy.keeps_resync hr)) (.refl h)

theorem Tidy.keeps_resift (h : Tidy s) (e : Endpoint) : Keeps s (resift now s e) := by
  rw [resift]
  split
  · next r hr => exact h.keeps_resync ((h.members e r).1 hr).1
  · exact .refl h

theorem Tidy.keeps_wakeups (h : Tidy s) (w : List Wakeup) :
    Keeps s (s.1, { s.2 with wakeups := w }) :=
  ⟨⟨h.indexed, h.nodup, h.placed, h.members⟩, rfl, rfl, rfl, fun _ => rfl⟩

theorem Tidy.keeps_wake (h : Tidy s) : Keeps s (wake now s) :=
  List.foldlRecOn _ _ (h.keeps_wakeups _) fun _ hk w _ => hk.trans (hk.tidy.keeps_resift w.endpoint)

theorem Tidy.keeps_take (h : Tidy s) : Keeps s (take now s).2 := by
  have hk : Keeps s (wake now s) := h.keeps_wake
  have hs : Keeps s (settle now (wake now s)) := hk.trans hk.tidy.keeps_settle
  rw [take]
  dsimp only
  split
  · exact hs
  · next top htop =>
    have hmem := IndexedHeap.mem_contents_iff_getElem?.2 ⟨0, htop⟩
    split
    · have hu := hs.tidy.keeps_update (r := top) (g := (·.acquire now 1)) fun _ => rfl
      exact (hs.trans hu).trans (hu.tidy.keeps_offer _ hmem)
    · exact hs

theorem Tidy.keeps_loadDropped (h : Tidy s) (e : Endpoint) (since : Nat) :
    Keeps s (loadDropped now e since s) := by
  have hk : Keeps s (wake now s) := h.keeps_wake
  rw [loadDropped]
  dsimp only
  split
  · split
    · exact hk.trans (hk.tidy.keeps_resift e)
    · exact hk.trans (hk.tidy.keeps_wakeups _)
  · exact .refl h

theorem wake_of_nil (h : s.2.wakeups = []) : wake now s = s := by
  obtain ⟨t, queue, members, wakeups⟩ := s
  obtain rfl : wakeups = [] := h
  rfl

theorem Tidy.empty (t : LoadTable) : Tidy (t, {}) := by
  constructor
  · exact .empty
  · exact Multiset.nodup_zero
  · intro r hr
    cases hr
  · intro e r
    simp

theorem mem_contents_enter (hi : k.queue.Indexed) (r' : LoadRef) :
    r' ∈ (k.enter t r).queue.contents ↔ r' = r ∨ r' ∈ k.queue.contents := by
  simp only [enter, IndexedHeap.contents_offer hi]
  split
  · next hr =>
    refine ⟨.inr, ?_⟩
    rintro (rfl | h)
    · exact hr
    · exact h
  · rw [Multiset.mem_cons]

theorem Tidy.enter (h : Tidy (t, k)) (hplace : r.place < t.states.size)
    (hone : ∀ r' ∈ k.queue.contents, t.endpoint r' = t.endpoint r → r' = r) :
    Tidy (t, k.enter t r) := by
  have hmem := mem_contents_enter (t := t) (r := r) h.indexed
  constructor
  · exact h.indexed.offer r
  · simp only [Ranking.enter, IndexedHeap.contents_offer h.indexed]
    split
    · exact h.nodup
    · next hr => exact Multiset.nodup_cons.2 ⟨hr, h.nodup⟩
  · intro r' hr'
    obtain rfl | hr' := (hmem r').1 hr'
    · exact hplace
    · exact h.placed r' hr'
  · intro e r'
    rw [hmem]
    simp only [Ranking.enter, Std.HashMap.getElem?_insert, beq_iff_eq]
    split
    · next he =>
      constructor
      · intro heq
        obtain rfl := Option.some.inj heq
        exact ⟨.inl rfl, he⟩
      · rintro ⟨rfl | hr', he'⟩
        · rfl
        · exact congrArg some (hone r' hr' (he'.trans he.symm)).symm
    · next he =>
      rw [h.members]
      constructor
      · rintro ⟨hr', he'⟩
        exact ⟨.inr hr', he'⟩
      · rintro ⟨rfl | hr', he'⟩
        · exact absurd he' he
        · exact ⟨hr', he'⟩

theorem Tidy.foldl_enter {states all : List LoadRef}
    (hone : ∀ r ∈ all, ∀ r' ∈ all, t.endpoint r' = t.endpoint r → r' = r)
    (hplace : ∀ r ∈ states, r.place < t.states.size) (hsub : ∀ r ∈ states, r ∈ all)
    (h : Tidy (t, k)) (hk : ∀ r ∈ k.queue.contents, r ∈ all) :
    Tidy (t, states.foldl (Ranking.enter t) k) ∧
      ∀ r, r ∈ (states.foldl (Ranking.enter t) k).queue.contents ↔
        r ∈ k.queue.contents ∨ r ∈ states := by
  induction states generalizing k with
  | nil => exact ⟨h, fun r => by simp⟩
  | cons r states ih =>
    have hr := hsub r List.mem_cons_self
    have hmem := mem_contents_enter (t := t) (r := r) h.indexed
    have hnext := h.enter (hplace r List.mem_cons_self) fun r' hr' => hone r hr r' (hk r' hr')
    obtain ⟨htidy, hcontents⟩ := ih (fun r' hr' => hplace r' (List.mem_cons_of_mem _ hr'))
      (fun r' hr' => hsub r' (List.mem_cons_of_mem _ hr')) hnext fun r' hr' => by
        obtain rfl | hr' := (hmem r').1 hr'
        · exact hr
        · exact hk r' hr'
    refine ⟨htidy, fun r' => ?_⟩
    rw [List.foldl_cons, hcontents, hmem, List.mem_cons]
    tauto

theorem queue_replace (t : LoadTable) (k : Ranking) (states : List LoadRef) :
    (k.replace t states).queue = (states.foldl (enter t) {}).queue := rfl

theorem Tidy.replace {states : List LoadRef} (hs : t.Apart states) :
    Tidy (t, k.replace t states) ∧
      ∀ r, r ∈ (k.replace t states).queue.contents ↔ r ∈ states := by
  obtain ⟨h, hmem⟩ := Tidy.foldl_enter hs.one hs.place (fun _ hr => hr) (Tidy.empty t)
    (fun r hr => by cases hr)
  refine ⟨⟨h.indexed, h.nodup, h.placed, h.members⟩, fun r => ?_⟩
  rw [queue_replace, hmem]
  simp

theorem map_endpoint_contents_replace {states : List LoadRef} (hs : t.Apart states) :
    (k.replace t states).queue.contents.map t.endpoint = (states.map t.endpoint).dedup := by
  obtain ⟨htidy, hmem⟩ := Tidy.replace (k := k) hs
  refine (Multiset.Nodup.ext ?_ (Multiset.coe_nodup.2 (List.nodup_dedup _))).2 fun e => ?_
  · exact (Multiset.nodup_map_iff_inj_on htidy.nodup).2 fun r hr r' hr' he =>
      htidy.eq_of_endpoint_eq hr hr' he
  · simp only [Multiset.mem_map, hmem, Multiset.mem_coe, List.mem_dedup, List.mem_map]

end Ranking

end LeastLoad
