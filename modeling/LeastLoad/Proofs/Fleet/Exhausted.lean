import LeastLoad.Proofs.Fleet.Solo
import LeastLoad.Proofs.Fleet.Sorted

/-! # When a lone ranked balancer has nothing to hand out

Only the top is looked at before a request is refused. Disabling does not move an entry, so that an
entry that may be handed out can stand anywhere below others that may not. What settling leaves at
the top is still no worse than the last top and its two children; a refusal is therefore right
unless three endpoints at least may not be handed out. -/

namespace LeastLoad

namespace LoadTable

def NoWorse (t : LoadTable) (a b : LoadRef) : Prop :=
  (t.load b).available = true → (t.load a).available = true

theorem refines_noWorse (t : LoadTable) : Refines t.compare t.NoWorse := by
  constructor
  · intro a b c hab hbc hc
    exact hab (hbc hc)
  · intro a b hlt hb
    exact EndpointLoad.available_of_compare_lt hb hlt
  · intro a b hnlt ha
    by_contra hb
    exact hnlt (EndpointLoad.compare_eq_lt ha (Bool.eq_false_of_not_eq_true hb))

end LoadTable

namespace Ranking

variable {s : LoadTable × Ranking} {r top : LoadRef} {now : Nat}

theorem Tidy.unavailable_of_settle (h : Tidy s) {a : LoadRef}
    (ha : (settle now s).2.queue.peek = some a)
    (hun : ((settle now s).1.load a).available = false) :
    (∀ r ∈ s.2.queue.contents, ((settle now s).1.load r).available = false) ∨
      ∃ rs : List LoadRef, rs.Nodup ∧ rs.length = 3 ∧
        ∀ r ∈ rs, r ∈ s.2.queue.contents ∧ ((settle now s).1.load r).available = false := by
  have hworse : ∀ r, (settle now s).1.NoWorse a r →
      ((settle now s).1.load r).available = false := by
    intro r hle
    by_contra hav
    rw [hle (Bool.eq_true_of_not_eq_false hav)] at hun
    cases hun
  refine (h.top_or_three ha (LoadTable.refines_noWorse _)).imp
    (fun hall r hr => hworse r (hall r hr)) ?_
  rintro ⟨rs, hn, hlen, hrs⟩
  exact ⟨rs, hn, hlen, fun r hr => ⟨(hrs r hr).1, hworse r (hrs r hr).2⟩⟩

/-- What is handed out was ready; if nothing is, no member was ready, or three members were not. -/
theorem Alert.ready_of_take (h : Alert now [] s) (hnow : now ≤ horizon) :
    (∀ top, (Ranking.take now s).1 = some top →
      top ∈ s.2.queue.contents ∧ (s.1.load top).ready now = true) ∧
    ((Ranking.take now s).1 = none →
      (∀ r ∈ s.2.queue.contents, (s.1.load r).ready now = false) ∨
        ∃ rs : List LoadRef, rs.Nodup ∧ rs.length = 3 ∧
          ∀ r ∈ rs, r ∈ s.2.queue.contents ∧ (s.1.load r).ready now = false) := by
  obtain ⟨hk, hready⟩ := h.settled hnow
  have hw : Keeps s (Ranking.wake now s) := h.tidy.keeps_wake
  have hun : ∀ {a}, (Ranking.settle now (Ranking.wake now s)).2.queue.peek = some a → _ → _ :=
    hw.tidy.unavailable_of_settle
  rw [hw.contents] at hun
  rw [Ranking.take]
  generalize Ranking.settle now (Ranking.wake now s) = s' at hk hready hun ⊢
  dsimp only
  split
  · next hnone =>
    refine ⟨by simp, fun _ => Or.inl fun r hr => ?_⟩
    rw [IndexedHeap.peek_eq_none, hk.contents] at hnone
    rw [hnone] at hr
    exact absurd hr (Multiset.notMem_zero r)
  · next top htop =>
    have hmem : top ∈ s.2.queue.contents := hk.contents ▸ IndexedHeap.peek_mem htop
    split
    · next hav =>
      refine ⟨fun r hr => ?_, by simp⟩
      obtain rfl := Option.some.inj hr
      exact ⟨hmem, (hready top hmem).symm.trans hav⟩
    · next hav =>
      refine ⟨by simp, fun _ => ?_⟩
      rcases hun htop (Bool.eq_false_of_not_eq_true hav) with hall | ⟨rs, hn, hlen, hrs⟩
      · exact Or.inl fun r hr => (hready r hr).symm.trans (hall r hr)
      · exact Or.inr ⟨rs, hn, hlen, fun r hr =>
          ⟨(hrs r hr).1, (hready r (hrs r hr).1).symm.trans (hrs r hr).2⟩⟩

theorem Alert.replace {t : LoadTable} {states : List LoadRef}
    (ht : ∀ r, (t.load r).Awaited (fun _ => False) now) (hs : t.Apart states) :
    Alert now [] (t, replace t {} states) :=
  ⟨(Tidy.replace hs).1, List.Pairwise.nil, fun r _ => (ht r).mono fun _ hf => hf.elim⟩

end Ranking

namespace Solo

open Ranking (Alert)

variable {s start : Solo} {c : LoadSettings} {call : Call} {p : LoadTable × Ranking}

/-- The endpoints stay, and the clock moves forward without wrapping. -/
def Forward (s : Solo) : Call → Prop
  | .update _ => False
  | .advance d => s.fleet.now + d.nanos ≤ horizon
  | _ => True

def ready (s : Solo) (e : Endpoint) : Bool :=
  (s.fleet.find? e).any fun r => (s.fleet.loads.load r).ready s.fleet.now

def unready (s : Solo) : Finset Endpoint := s.endpoints.toFinset.filter (s.ready · = false)

theorem now_le (s : Solo) : s.fleet.now ≤ horizon := s.fleet.clock.now_le

theorem Starts.alert (h : s.Starts c) : ∃ p, s.At c p ∧ Alert s.fleet.now [] p := by
  obtain ⟨f, telemetry, listeners, hfresh, hbuild⟩ := h
  obtain ⟨states, h⟩ := hfresh.build hbuild
  refine ⟨(s.fleet.loads, _), ⟨h.serves, rfl⟩,
    .replace (h.grows.forall (fun r => ?_) ?_ ?_) h.apart⟩
  · rw [hfresh.load_eq]
    exact .of_penalty_none rfl
  · intro e l hl
    rw [Fleet.now, h.clock]
    exact .create hl
  · exact .of_penalty_none rfl

theorem alert_apply (hcall : Forward s call) (hs : s.At c p) (h : Alert s.fleet.now [] p) :
    ∃ p', (s.apply call).At c p' ∧ Alert (s.apply call).fleet.now [] p' := by
  cases call with
  | next =>
    obtain ⟨-, hs', hclock⟩ := hs.next
    exact ⟨_, hs', by rw [Fleet.now, hclock]; exact h.take⟩
  | complete t succeeded latency =>
    obtain ⟨⟨r, l, hs'⟩ | hs', hclock⟩ := hs.complete t succeeded latency
    · exact ⟨_, hs', by rw [Fleet.now, hclock]; exact h.finished s.now_le succeeded l⟩
    · exact ⟨p, hs', by rw [Fleet.now, hclock]; exact h⟩
  | update es => exact hcall.elim
  | disable e disabled =>
    obtain ⟨⟨r, -, hs'⟩ | ⟨-, hs'⟩, hclock⟩ := hs.disable e disabled
    · exact ⟨_, hs', by rw [Fleet.now, hclock]; exact h.switched disabled⟩
    · exact ⟨p, hs', by rw [Fleet.now, hclock]; exact h⟩
  | advance d =>
    refine ⟨p, hs.clock _, h.later ?_⟩
    exact (Nat.le_add_right _ _).trans (Clock.now_advance hcall).ge
  | set d => exact ⟨p, hs.clock _, h.later (Clock.le_now_set _ d)⟩

theorem Reachable.alert (hstart : start.Starts c) (h : Reachable Forward start s) :
    ∃ p, s.At c p ∧ Alert s.fleet.now [] p := by
  induction h with
  | start => exact hstart.alert
  | step call _ hcall ih =>
    obtain ⟨p, hs, hp⟩ := ih
    exact alert_apply hcall hs hp

theorem Forward.endpoints_apply (h : Forward s call) : (s.apply call).endpoints = s.endpoints := by
  cases call with
  | update es => exact h.elim
  | _ =>
    simp only [apply]
    try split
    all_goals rfl

theorem Reachable.endpoints_eq (h : Reachable Forward start s) : s.endpoints = start.endpoints := by
  induction h with
  | start => rfl
  | step call _ hcall ih => exact hcall.endpoints_apply.trans ih

theorem At.ready_of_find? (hs : s.At c p) {e : Endpoint} {r : LoadRef}
    (hr : s.fleet.find? e = some r) : s.ready e = (p.1.load r).ready s.fleet.now := by
  rw [ready, hr, hs.loads]
  rfl

theorem At.length_le_card_unready (hs : s.At c p) {rs : List LoadRef} (hnodup : rs.Nodup)
    (hrs : ∀ r ∈ rs, r ∈ p.2.queue.contents ∧ (p.1.load r).ready s.fleet.now = false) :
    rs.length ≤ s.unready.card := by
  have hends : (rs.map p.1.endpoint).Nodup := by
    refine hnodup.map_on fun r hr r' hr' he => ?_
    exact hs.tidy.eq_of_endpoint_eq (hrs r hr).1 (hrs r' hr').1 he
  have hsub : (rs.map p.1.endpoint).toFinset ⊆ s.unready := by
    intro e he
    obtain ⟨r, hr, rfl⟩ := List.mem_map.1 (List.mem_toFinset.1 he)
    obtain ⟨hmem, hready⟩ := hrs r hr
    obtain ⟨hend, hfind⟩ := hs.find?_endpoint hmem
    refine Finset.mem_filter.2 ⟨List.mem_toFinset.2 hend, ?_⟩
    rw [hs.ready_of_find? hfind, hready]
  rw [← List.length_map (f := p.1.endpoint), ← List.toFinset_card_of_nodup hends]
  exact Finset.card_le_card hsub

/-- What is handed out was ready. If nothing is handed out, either no endpoint was ready, or three
were not. -/
theorem Reachable.next_ready (hstart : start.Starts c) (h : Reachable Forward start s) :
    (∀ t, (s.fleet.next s.place).1 = some t →
      ∃ e ∈ s.endpoints, s.fleet.find? e = some t.load ∧ s.ready e = true) ∧
    ((s.fleet.next s.place).1 = none →
      (∀ e ∈ s.endpoints, s.ready e = false) ∨ 3 ≤ s.unready.card) := by
  obtain ⟨p, hs, halert⟩ := h.alert hstart
  obtain ⟨hsome, hnone⟩ := halert.ready_of_take s.now_le
  obtain ⟨hanswer, -⟩ := hs.next
  rw [hanswer]
  constructor
  · intro t ht
    obtain ⟨top, htop, rfl⟩ := Option.map_eq_some_iff.1 ht
    obtain ⟨hmem, hready⟩ := hsome top htop
    obtain ⟨e, he, hfind⟩ := hs.mem_contents.1 hmem
    exact ⟨e, he, hfind, (hs.ready_of_find? hfind).trans hready⟩
  · intro hn
    rcases hnone (Option.map_eq_none_iff.1 hn) with hall | ⟨rs, hnodup, hlen, hrs⟩
    · left
      intro e he
      obtain ⟨r, hr, hfind⟩ := hs.serves.covers.found e he
      exact (hs.ready_of_find? hfind).trans (hall r hr)
    · right
      rw [← hlen]
      exact hs.length_le_card_unready hnodup hrs

end Solo

end LeastLoad
