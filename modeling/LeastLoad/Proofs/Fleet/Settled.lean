import LeastLoad.Proofs.Fleet.Refreshed

/-! # How long settling takes

Settling brings the top up to date and puts it in its place, round after round, until a top stays.
It ends for any arrangement of the entries, as long as being brought up to date makes none of them
follow what it preceded: a top that does not stay has made room for one that strictly precedes it,
so the tops of the rounds, as they are once brought up to date, precede each other strictly. No
entry is at the top twice, hence a top stays after fewer rounds than there are entries. -/

namespace LeastLoad

theorem nodup_of_descends {α : Type} {f : α → α → Ordering} (hself : ∀ a, f a a = .eq)
    {l : List α} (h : l.Pairwise fun a b => f b a = .lt) : l.Nodup := by
  refine List.nodup_iff_pairwise_ne.2 (h.imp ?_)
  rintro a b hlt rfl
  rw [hself] at hlt
  cases hlt

theorem IndexedHeap.reposition_top_cases {α : Type} [DecidableEq α] [Hashable α]
    (cmp : α → α → Ordering) {q : IndexedHeap α} {top : α} (htop : q.heap[0]? = some top) :
    q.reposition cmp 0 = q ∨
      ∃ a, (q.reposition cmp 0).heap[0]? = some a ∧ cmp a top = .lt := by
  rw [reposition]
  cases hsink : q.sinkTo? cmp 0 with
  | none =>
    refine .inl ?_
    rw [siftUp, dif_neg fun h => Nat.lt_irrefl 0 h.1]
    rfl
  | some d =>
    obtain ⟨d, hd⟩ := d
    have hslot := Array.getElem?_eq_getElem hd.2
    refine .inr ⟨q.heap[d], ?_, sinkTo?_lt hsink htop hslot⟩
    rw [Option.isSome_some, if_pos rfl, siftDown, hsink]
    dsimp only
    rw [getElem?_zero_siftDown hd.1, getElem?_swap, Equiv.swap_apply_left, hslot]

namespace Ranking

variable {s s' : LoadTable × Ranking} {r top : LoadRef} {sunk : List LoadRef} {now : Nat}

/-- The rounds of settling: entries that were at the top and sank, the earliest first, and then one
round in which the top stays. -/
inductive Settles (now : Nat) :
    LoadTable × Ranking → List LoadRef → LoadTable × Ranking → Prop
  | stays {s : LoadTable × Ranking} {top : LoadRef} :
      s.2.queue.peek = some top → (resync now s top).2.queue.peek = some top →
      Settles now s [] (resync now s top)
  | sinks {s s' : LoadTable × Ranking} {top : LoadRef} {sunk : List LoadRef} :
      s.2.queue.peek = some top → (resync now s top).2.queue.peek ≠ some top →
      Settles now (resync now s top) sunk s' → Settles now s (top :: sunk) s'

theorem Settles.settleWithin_eq (h : Settles now s sunk s') {rounds : Nat}
    (hrounds : sunk.length < rounds) : settleWithin now rounds s = s' := by
  induction h generalizing rounds with
  | stays htop hstays =>
    obtain ⟨rounds, rfl⟩ := Nat.exists_eq_add_of_lt hrounds
    rw [settleWithin, htop]
    exact if_pos hstays
  | sinks htop hsinks _ ih =>
    obtain ⟨rounds, rfl⟩ := Nat.exists_eq_add_of_lt hrounds
    rw [settleWithin, htop]
    exact (if_neg hsinks).trans (ih (by rw [List.length_cons]; omega))

/-- In one round the top stays and precedes its children, or what strictly precedes it takes its
place. -/
theorem round_cases (now : Nat) (ht : Tidy s) (hu : Uniform s)
    (htop : s.2.queue.peek = some top) :
    ((resync now s top).2.queue.peek = some top ∧
      ∀ (c : Nat) a, c ≤ 2 → (resync now s top).2.queue.heap[c]? = some a →
        (resync now s top).1.standing top a ≠ .gt) ∨
    ∃ a, (resync now s top).2.queue.peek = some a ∧
      (resync now s top).1.standing a top = .lt := by
  have hqueue := queue_resync_of_slot now ht hu htop
  obtain hself | ⟨a, ha, hlt⟩ :=
    IndexedHeap.reposition_top_cases (s.1.update top (·.sync now)).standing htop
  · left
    have hkept := htop
    rw [IndexedHeap.peek, ← hself, ← hqueue] at hkept
    refine ⟨hkept, fun c a hc ha => ?_⟩
    rw [hqueue] at hkept ha
    rw [hself] at ha
    exact IndexedHeap.le_of_reposition_top refines_of_transCmp hc hkept ha
  · right
    refine ⟨a, ?_, hlt⟩
    rw [IndexedHeap.peek, hqueue]
    exact ha

/-- Settling `s` has come to `s'` in rounds that sank `sunk`. -/
structure Settling (now : Nat) (s : LoadTable × Ranking) (sunk : List LoadRef)
    (s' : LoadTable × Ranking) : Prop where
  keeps : Keeps s s'
  queued : ∀ r ∈ sunk, r ∈ s.2.queue.contents
  load : ∀ r, s'.1.load r = if r ∈ sunk then (s.1.load r).sync now else s.1.load r
  descends : sunk.Pairwise fun a b =>
    EndpointLoad.standing ((s.1.load b).sync now) ((s.1.load a).sync now) = .lt
  precedes : ∀ top, s'.2.queue.peek = some top → ∀ r ∈ sunk, s'.1.standing top r = .lt

theorem Settling.start (ht : Tidy s) : Settling now s [] s :=
  ⟨.refl ht, nofun, fun _ => rfl, .nil, nofun⟩

theorem Settling.notMem (h : Settling now s sunk s') (htop : s'.2.queue.peek = some top) :
    top ∉ sunk := by
  intro hmem
  have hlt := h.precedes top htop top hmem
  have heq : s'.1.standing top top = .eq := Std.ReflCmp.compare_self
  rw [hlt] at heq
  cases heq

theorem Settling.uniform (h : Settling now s sunk s') (hu : Uniform s) : Uniform s' := by
  refine hu.of_kinds h.keeps fun r => ?_
  rw [h.load]
  split <;> simp

theorem Settling.descends_snoc (h : Settling now s sunk s') (hfalls : Falls now s)
    (htop : s'.2.queue.peek = some top) : (sunk ++ [top]).Pairwise fun a b =>
      EndpointLoad.standing ((s.1.load b).sync now) ((s.1.load a).sync now) = .lt := by
  have hmem : top ∈ s.2.queue.contents := h.keeps.contents ▸ IndexedHeap.peek_mem htop
  refine List.pairwise_append.2 ⟨h.descends, List.pairwise_singleton .., fun r hr x hx => ?_⟩
  obtain rfl := List.mem_singleton.1 hx
  have hlt := h.precedes x htop r hr
  rw [LoadTable.standing, h.load, h.load, if_neg (h.notMem htop), if_pos hr] at hlt
  exact Std.TransCmp.lt_of_isLE_of_lt (Ordering.ne_gt_iff_isLE.1 (hfalls x hmem)) hlt

theorem Settling.load_resync (h : Settling now s sunk s') (htop : s'.2.queue.peek = some top)
    (r : LoadRef) : (resync now s' top).1.load r =
      if r ∈ sunk ++ [top] then (s.1.load r).sync now else s.1.load r := by
  have hnot := h.notMem htop
  change (s'.1.update top (·.sync now)).load r = _
  rw [LoadTable.load_update_sync, h.load]
  by_cases hr : top = r
  · subst hr
    simp [hnot]
  · simp [hr, Ne.symm hr]

theorem Settling.keeps_resync (h : Settling now s sunk s') (htop : s'.2.queue.peek = some top) :
    Keeps s (resync now s' top) :=
  h.keeps.trans (h.keeps.tidy.keeps_resync (IndexedHeap.peek_mem htop))

theorem Settling.sinks (h : Settling now s sunk s') (hfalls : Falls now s)
    (htop : s'.2.queue.peek = some top) {a : LoadRef}
    (ha : (resync now s' top).2.queue.peek = some a)
    (hlt : (resync now s' top).1.standing a top = .lt) :
    Settling now s (sunk ++ [top]) (resync now s' top) := by
  have hdesc := h.descends_snoc hfalls htop
  refine ⟨h.keeps_resync htop, fun r hr => ?_, h.load_resync htop, hdesc, fun x hx r hr => ?_⟩
  · obtain hr | hr := List.mem_append.1 hr
    · exact h.queued r hr
    · rw [List.mem_singleton.1 hr, ← h.keeps.contents]
      exact IndexedHeap.peek_mem htop
  · obtain rfl := Option.some.inj (ha.symm.trans hx)
    obtain hr | hr := List.mem_append.1 hr
    · have hbelow := (List.pairwise_append.1 hdesc).2.2 r hr top (List.mem_singleton_self top)
      refine Std.TransCmp.lt_trans hlt ?_
      rwa [LoadTable.standing, h.load_resync htop, h.load_resync htop,
        if_pos (List.mem_append_right _ (List.mem_singleton_self top)),
        if_pos (List.mem_append_left _ hr)]
    · rwa [List.mem_singleton.1 hr]

/-- What settling makes of a ranking: `top` has stayed after `sunk` have sunk. -/
structure Settled (now : Nat) (s : LoadTable × Ranking) (sunk : List LoadRef) (top : LoadRef)
    (s' : LoadTable × Ranking) : Prop where
  keeps : Keeps s s'
  peek : s'.2.queue.peek = some top
  load : ∀ r, s'.1.load r = if r ∈ sunk ++ [top] then (s.1.load r).sync now else s.1.load r
  descends : (sunk ++ [top]).Pairwise fun a b => s'.1.compare b a = .lt
  children : ∀ (c : Nat) a, c = 1 ∨ c = 2 → s'.2.queue.heap[c]? = some a →
    s'.1.compare a top ≠ .lt

theorem Settling.settled (h : Settling now s sunk s') (hu : Uniform s) (hfalls : Falls now s)
    (htop : s'.2.queue.peek = some top) (hstays : (resync now s' top).2.queue.peek = some top)
    (hchildren : ∀ (c : Nat) a, c ≤ 2 → (resync now s' top).2.queue.heap[c]? = some a →
      (resync now s' top).1.standing top a ≠ .gt) :
    Settled now s sunk top (resync now s' top) := by
  have hk := h.keeps_resync htop
  have hagree : (resync now s' top).2.queue.AgreeOn (resync now s' top).1.compare
      (resync now s' top).1.standing := by
    refine (hu.of_kinds hk fun r => ?_).agree
    rw [h.load_resync htop]
    split <;> simp
  have hmem : ∀ r ∈ sunk ++ [top], r ∈ (resync now s' top).2.queue.contents := by
    intro r hr
    rw [hk.contents]
    obtain hr | hr := List.mem_append.1 hr
    · exact h.queued r hr
    · rw [List.mem_singleton.1 hr, ← h.keeps.contents]
      exact IndexedHeap.peek_mem htop
  refine ⟨hk, hstays, h.load_resync htop, ?_, fun c a hc ha => ?_⟩
  · refine (h.descends_snoc hfalls htop).imp_of_mem fun ha hb hlt => ?_
    rw [hagree _ (hmem _ hb) _ (hmem _ ha), LoadTable.standing, h.load_resync htop,
      h.load_resync htop, if_pos ha, if_pos hb]
    exact hlt
  · rw [hagree _ (IndexedHeap.mem_of_slot ha) _ (IndexedHeap.peek_mem hstays)]
    have hle := hchildren c a (by omega) ha
    exact fun hlt => hle (Std.OrientedCmp.gt_iff_lt.2 hlt)

/-- The entries that have not sunk yet bound the rounds that are left. -/
theorem Settling.exists_settles (hu : Uniform s) (hfalls : Falls now s)
    (hne : s.2.queue.contents ≠ 0) {left : Nat} (h : Settling now s sunk s')
    (hleft : s.2.queue.contents.card = sunk.length + left) :
    ∃ rest last s'', Settles now s' rest s'' ∧ rest.length < left ∧
      Settled now s (sunk ++ rest) last s'' := by
  have hpeek : ∃ top, s'.2.queue.peek = some top := by
    refine Option.ne_none_iff_exists'.1 fun hnone => hne ?_
    rw [← h.keeps.contents]
    exact IndexedHeap.peek_eq_none.1 hnone
  induction left generalizing sunk s' with
  | zero =>
    -- all entries have sunk, and one of them is at the top
    obtain ⟨top, htop⟩ := hpeek
    have hmem : top ∈ s.2.queue.contents := h.keeps.contents ▸ IndexedHeap.peek_mem htop
    have hself : ∀ a : EndpointLoad, EndpointLoad.standing a a = .eq :=
      fun _ => Std.ReflCmp.compare_self
    have hnodup : sunk.Nodup :=
      nodup_of_descends (fun r => hself ((s.1.load r).sync now)) h.descends
    have hall : (sunk : Multiset LoadRef) = s.2.queue.contents :=
      Multiset.eq_of_le_of_card_le
        ((Multiset.le_iff_subset (Multiset.coe_nodup.2 hnodup)).2 h.queued) hleft.le
    exact absurd (Multiset.mem_coe.1 (hall ▸ hmem)) (h.notMem htop)
  | succ left ih =>
    obtain ⟨top, htop⟩ := hpeek
    obtain ⟨hstays, hchildren⟩ | ⟨a, ha, hlt⟩ :=
      round_cases now h.keeps.tidy (h.uniform hu) htop
    · refine ⟨[], top, _, .stays htop hstays, Nat.succ_pos _, ?_⟩
      rw [List.append_nil]
      exact h.settled hu hfalls htop hstays hchildren
    · have hnext := h.sinks hfalls htop ha hlt
      have hsinks : (resync now s' top).2.queue.peek ≠ some top := by
        rw [ha]
        intro heq
        have htwice := hnext.notMem ha
        rw [Option.some.inj heq] at htwice
        exact htwice (List.mem_append_right _ (List.mem_singleton_self top))
      obtain ⟨rest, last, s'', hsettles, hlen, hsettled⟩ := ih hnext
        (by rw [hleft, List.length_append, List.length_singleton]; omega) ⟨a, ha⟩
      refine ⟨top :: rest, last, s'', .sinks htop hsinks hsettles, Nat.succ_lt_succ hlen, ?_⟩
      rwa [List.append_assoc, List.singleton_append] at hsettled

/-- Settling ends because a top stays, after fewer rounds than there are entries, whatever their
arrangement and whatever is due. -/
theorem Tidy.settle_ends (ht : Tidy s) (hu : Uniform s)
    (hfalls : ∀ r ∈ s.2.queue.contents, ((s.1.load r).sync now).compare (s.1.load r) ≠ .gt)
    (hne : s.2.queue.contents ≠ 0) :
    ∃ sunk top, Settles now s sunk (settle now s) ∧ sunk.length < s.2.queue.size ∧
      (sunk ++ [top]).Nodup ∧ Settled now s sunk top (settle now s) := by
  have hf : Falls now s := fun r hr =>
    EndpointLoad.compare_eq_standing (a := (s.1.load r).sync now) EndpointLoad.kind_sync ▸
      hfalls r hr
  have hcard : s.2.queue.contents.card = [].length (α := LoadRef) + s.2.queue.size := by
    rw [List.length_nil, Nat.zero_add]
    exact IndexedHeap.card_contents _
  obtain ⟨sunk, top, s', hsettles, hlen, hsettled⟩ :=
    (Settling.start ht).exists_settles hu hf hne hcard
  rw [List.nil_append] at hsettled
  have heq : settle now s = s' := hsettles.settleWithin_eq hlen
  rw [heq]
  have hnodup := nodup_of_descends (fun r => (s'.1.load r).compare_self) hsettled.descends
  exact ⟨sunk, top, hsettles, hlen, hnodup, hsettled⟩

/-- Four endpoints with 3, 2, 4 and 1 units, queued in this order. -/
theorem Tidy.settle_ends_of_four :
    ∃ (start f : Fleet) (past : List (Fleet × Fleet.Deed)) (k : Ranking) (sunk : List LoadRef)
      (top : LoadRef), start.Blank {} ∧ Fleet.Runs Fleet.Allowed start past f ∧
      f.ranking? 0 = some k ∧
      k.queue.toList.map (fun r => (f.loads.load r).concurrency) = [3, 2, 4, 1] ∧
      Tidy (f.loads, k) ∧ Uniform (f.loads, k) ∧
      (∀ r ∈ k.queue.contents, ((f.loads.load r).sync f.now).compare (f.loads.load r) ≠ .gt) ∧
      k.queue.contents ≠ 0 ∧
      Settles f.now (f.loads, k) sunk (settle f.now (f.loads, k)) ∧
      sunk.length < k.queue.size ∧ (sunk ++ [top]).Nodup ∧
      Settled f.now (f.loads, k) sunk top (settle f.now (f.loads, k)) := by
  obtain ⟨start, hstart, -⟩ := Fleet.exists_blank {}
  obtain ⟨past, f, k, hrun, h⟩ := hstart.exists_drifted (by decide) rfl
    [⟨1⟩, ⟨2⟩, ⟨3⟩, ⟨4⟩] [3, 2, 4, 1] (by decide) rfl
  have ht := h.rooted.coherent 0 k (Fleet.ranking?_eq_some_iff.1 h.ranked)
  have hu := h.rooted.uniform h.ranked
  have hfalls : ∀ r ∈ k.queue.contents,
      ((f.loads.load r).sync f.now).compare (f.loads.load r) ≠ .gt := by
    intro r _
    rw [(h.plain r).sync_eq rfl, EndpointLoad.compare_self]
    decide
  have hne : k.queue.contents ≠ 0 := by
    intro hzero
    have hunits := h.units
    rw [(Multiset.coe_eq_zero _).1 hzero] at hunits
    cases hunits
  obtain ⟨sunk, top, hends⟩ := ht.settle_ends hu hfalls hne
  exact ⟨start, f, past, k, sunk, top, hstart, hrun, h.ranked, h.units, ht, hu, hfalls, hne, hends⟩

end Ranking

end LeastLoad
