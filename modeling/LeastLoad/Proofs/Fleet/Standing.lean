import LeastLoad.Proofs.Fleet.Refreshed

/-! # Rankings in order of the full comparison

Where nothing falls due unnoticed, a ranking is in order not only of the units in flight but also
of the sums that break ties. Putting an entry in its place restores that order, whatever has become
of its own load, and a request then goes to a first one of all members. -/

namespace LeastLoad

namespace Ranking

open LoadTable (Kindred Synced)

variable {s : LoadTable × Ranking} {t t' : LoadTable} {k : Ranking} {r : LoadRef} {now : Nat}

/-- The queue is in order of the comparison, and no wake-up is kept. -/
structure Standing (s : LoadTable × Ranking) : Prop where
  tidy : Tidy s
  uniform : Uniform s
  awake : s.2.wakeups = []
  ordered : s.2.queue.Ordered (s.1.standing · · ≠ .gt)

theorem Standing.congr (h : Standing (t, k)) (ht : Kindred t t')
    (hsame : ∀ a ∈ k.queue.contents, EndpointLoad.standing (t'.load a) (t.load a) = .eq) :
    Standing (t', k) := by
  refine ⟨h.tidy.congr ht.size ht.endpoint, fun a ha b hb => ?_, h.awake, fun c hc => ?_⟩
  · rw [ht.kind, ht.kind]
    exact h.uniform a ha b hb
  · refine inOrder_congr (fun a ha b hb => ?_) (h.ordered c hc)
    exact ((Std.TransCmp.congr_left (hsame a ha)).trans
      (Std.TransCmp.congr_right (hsame b hb))).symm

theorem Standing.reseat (h : Standing (t, k)) (ht : Kindred t t') (hr : r ∈ k.queue.contents)
    (hsame : ∀ a ∈ k.queue.contents, a ≠ r →
      EndpointLoad.standing (t'.load a) (t.load a) = .eq) :
    Standing (t', { k with queue := (k.queue.offer t'.compare r).2 }) := by
  have htidy : Tidy (t', k) := h.tidy.congr ht.size ht.endpoint
  have huniform : Uniform (t', k) := fun a ha b hb => by
    rw [ht.kind, ht.kind]
    exact h.uniform a ha b hb
  have hrefines : Refines t'.standing (t'.standing · · ≠ .gt) := refines_of_transCmp
  have hexcept : k.queue.OrderedExcept (t'.standing · · ≠ .gt) r := by
    refine (h.ordered.orderedExcept refines_of_transCmp (h.tidy.count_le_one r)).rekeyOn
      h.tidy.indexed fun a ha b hb hane hbne hle => ?_
    have hcongr : t'.standing a b = t.standing a b :=
      (Std.TransCmp.congr_left (hsame a ha hane)).trans (Std.TransCmp.congr_right (hsame b hb hbne))
    rwa [hcongr]
  have hcontents : (k.queue.offer t'.compare r).2.contents = k.queue.contents :=
    contents_offer_of_mem htidy.indexed hr
  refine ⟨htidy.offer _ hr, fun a ha b hb => ?_, h.awake, ?_⟩
  · rw [hcontents] at ha hb
    exact huniform a ha b hb
  · have hoffer : k.queue.offer t'.compare r = k.queue.offer t'.standing r := by
      refine IndexedHeap.AgreeOn.offer htidy.indexed fun a ha b hb => ?_
      rw [Multiset.mem_cons] at ha hb
      exact huniform.agree a (ha.elim (· ▸ hr) id) b (hb.elim (· ▸ hr) id)
    change (k.queue.offer t'.compare r).2.Ordered _
    rw [hoffer]
    exact hexcept.offer htidy.indexed hrefines

theorem Standing.update (h : Standing s) {g : EndpointLoad → EndpointLoad}
    (hend : ∀ l, (g l).endpoint = l.endpoint) (hkind : ∀ l, (g l).kind = l.kind)
    (hr : r ∈ s.2.queue.contents) :
    Standing (s.1.update r g,
      { s.2 with queue := (s.2.queue.offer (s.1.update r g).compare r).2 }) := by
  refine h.reseat (.update r hend hkind) hr fun a _ hne => ?_
  rw [LoadTable.load_update_of_ne (Ne.symm hne)]
  exact Std.ReflCmp.compare_self

theorem Standing.resync (h : Standing s) (hr : r ∈ s.2.queue.contents) :
    Standing (resync now s r) :=
  h.update (fun _ => EndpointLoad.endpoint_sync) (fun _ => EndpointLoad.kind_sync) hr

theorem Standing.settled (h : Standing s) : Standing (settle now (wake now s)) := by
  rw [wake_of_nil h.awake]
  exact settle_of_resync (fun _ _ hs hr => hs.resync hr) h

theorem Standing.take (h : Standing s) : Standing (take now s).2 := by
  have hs : Standing (Ranking.settle now (Ranking.wake now s)) := h.settled
  obtain ⟨heq, -⟩ | ⟨top, htop, -, heq⟩ := take_cases now s rfl
  · rwa [heq]
  · rw [heq]
    exact hs.update (fun _ => rfl) (fun _ => EndpointLoad.kind_acquire 1)
      (IndexedHeap.peek_mem htop)

/-- What is handed out comes after no member once some have been brought up to date. Nothing is
handed out only if there are no members, or one of them is not available. -/
theorem Standing.first_of_take (h : Standing s) (now : Nat) : ∃ t, Synced now s.1 t ∧
    (∀ top, (Ranking.take now s).1 = some top → top ∈ s.2.queue.contents ∧
      ∀ r ∈ s.2.queue.contents, t.standing top r ≠ .gt) ∧
    ((Ranking.take now s).1 = none → s.2.queue.contents = 0 ∨
      ∃ r ∈ s.2.queue.contents, (t.load r).available = false) := by
  have hs : Standing (Ranking.settle now (Ranking.wake now s)) := h.settled
  have hk : Keeps s (Ranking.settle now (Ranking.wake now s)) := by
    have hwoken : Keeps s (Ranking.wake now s) := h.tidy.keeps_wake
    exact hwoken.trans hwoken.tidy.keeps_settle
  refine ⟨_, synced_wake.trans synced_settle, ?_⟩
  rw [← hk.contents]
  obtain ⟨heq, hun⟩ | ⟨top, htop, -, heq⟩ := take_cases now s rfl
  · rw [heq]
    refine ⟨nofun, fun _ => ?_⟩
    cases hpeek : (Ranking.settle now (Ranking.wake now s)).2.queue.peek with
    | none => exact .inl (IndexedHeap.peek_eq_none.1 hpeek)
    | some top => exact .inr ⟨top, IndexedHeap.peek_mem hpeek, hun top hpeek⟩
  · rw [heq]
    refine ⟨fun r hr => ?_, nofun⟩
    obtain rfl := Option.some.inj hr
    exact ⟨IndexedHeap.peek_mem htop, fun a ha =>
      hs.ordered.peek_le refines_of_transCmp htop ha⟩

theorem Standing.heard (h : Standing (t, k)) (ht : Kindred t t') (hr : r ∈ k.queue.contents)
    (hsame : ∀ a ∈ k.queue.contents, a ≠ r →
      EndpointLoad.standing (t'.load a) (t.load a) = .eq) :
    Standing (Fleet.heard now r 0 (t', k)) := by
  have hmember : k.members[t'.endpoint r]? = some r :=
    (h.tidy.congr ht.size ht.endpoint).member hr
  have hheard : Fleet.heard now r 0 (t', k) = Ranking.resync now (t', k) r := by
    have hwake : wake now (t', k) = (t', k) := wake_of_nil h.awake
    have hcontains : k.members.contains (t'.endpoint r) = true := by
      rw [Std.HashMap.contains_eq_isSome_getElem?, hmember]
      rfl
    simp only [Fleet.heard, if_pos hr, loadDropped, hcontains, if_true, hwake, Nat.zero_le, resift,
      hmember]
  rw [hheard]
  refine h.reseat (ht.trans (.update r (fun _ => EndpointLoad.endpoint_sync)
    fun _ => EndpointLoad.kind_sync)) hr fun a ha hne => ?_
  rw [LoadTable.load_update_of_ne (Ne.symm hne)]
  exact hsame a ha hne

theorem Standing.replace {states : List LoadRef} (hs : t.Apart states)
    (hkinds : ∀ a ∈ states, ∀ b ∈ states, (t.load a).kind = (t.load b).kind)
    (hk : k.wakeups = []) : Standing (t, k.replace t states) := by
  obtain ⟨htidy, hmem⟩ := Tidy.replace (k := k) hs
  have hrefines : Refines t.standing (t.standing · · ≠ .gt) := refines_of_transCmp
  refine ⟨htidy, fun a ha b hb => hkinds a ((hmem a).1 ha) b ((hmem b).1 hb), ?_, ?_⟩
  · rw [Ranking.replace, hk]
    rfl
  · exact ordered_replace (p := (· ∈ states)) hrefines
      (fun a b ha hb => EndpointLoad.compare_eq_standing (hkinds a ha b hb)) fun _ hr => hr

end Ranking

end LeastLoad
