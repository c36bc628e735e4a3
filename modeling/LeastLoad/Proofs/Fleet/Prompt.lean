import LeastLoad.Proofs.Fleet.Exact
import LeastLoad.Proofs.Fleet.Exhausted

/-! # A lone ranked balancer that penalizes failures

Penalties come off behind the back of the queue, and a wake-up puts the entry of each in its place
again. A request wakes the queue before it looks at the top, so that it sees every load without
what has fallen due. A completion wakes the queue as well, but its own entry is out of its place
then: the order is kept if nothing else is due, and three endpoints are too few for it to matter. -/

namespace LeastLoad

namespace Ranking

variable {t : LoadTable} {k : Ranking} {states : List LoadRef}

theorem Sorted.replace (hen : t.Enabled) (hs : t.Apart states) :
    Sorted (t, k.replace t states) := by
  exact ⟨(Tidy.replace hs).1, hen,
    ordered_replace (p := fun _ => True) hen.refines (fun _ _ _ _ => rfl) fun _ _ => trivial⟩

end Ranking

/-- Neither disabled nor with a tie-break to keep. -/
structure EndpointLoad.Bare (l : EndpointLoad) : Prop where
  enabled : l.disabled = false
  untracked : l.tieBreak = .untracked

namespace EndpointLoad.Bare

variable {l a b : EndpointLoad} {now : Nat}

theorem sync (h : l.Bare) (now : Nat) : (l.sync now).Bare := by
  refine ⟨disabled_sync.trans h.enabled, ?_⟩
  rw [EndpointLoad.sync, h.untracked]
  split <;> rfl

theorem acquire (h : l.Bare) (now : Nat) (n : Int32) : (l.acquire now n).Bare :=
  ⟨h.enabled, by rw [EndpointLoad.acquire, h.untracked]⟩

theorem release (h : l.Bare) (now : Nat) (n : Int32) (latency : Duration) :
    (l.release now n latency).Bare :=
  ⟨h.enabled, by rw [EndpointLoad.release, h.untracked]⟩

theorem penalize (h : l.Bare) (now : Nat) (latency : Duration) :
    (l.penalize now latency).2.Bare := by
  refine ⟨(disabled_penalize latency).trans h.enabled, ?_⟩
  rw [EndpointLoad.penalize]
  split <;> exact h.untracked

theorem create {e : Endpoint} {c : LoadSettings} (hc : c.subStrategy = .absent)
    (h : EndpointLoad.create e c now = .ok l) : l.Bare := by
  obtain ⟨htie, -, hl⟩ := create_spec h
  rw [TieBreak.create, hc] at htie
  exact ⟨by rw [hl], (Except.ok.inj htie).symm⟩

theorem vacant : LoadTable.vacant.Bare := ⟨rfl, rfl⟩

theorem compare (ha : a.Bare) (hb : b.Bare) : a.compare b = Ord.compare a.inFlight b.inFlight := by
  rw [compare_of_disabled_eq (ha.enabled.trans hb.enabled.symm), ha.untracked, hb.untracked]
  exact Ordering.then_eq

end EndpointLoad.Bare

namespace Ranking

variable {s : LoadTable × Ranking}

theorem Sorted.violation?_eq_none (h : Sorted s) (hb : ∀ r, (s.1.load r).Bare) :
    s.2.queue.violation? s.1.compare = none := by
  refine IndexedHeap.violation?_eq_none h.tidy.indexed fun j hj a b hpa hpb hgt => ?_
  rw [LoadTable.compare, (hb a).compare (hb b)] at hgt
  exact UInt32.not_le.2 (Std.compare_eq_gt.1 hgt) (h.ordered j hj a b hpa hpb)

end Ranking

namespace Solo

open Ranking (Sorted Alert DueOnlyFor)

variable {s start : Solo} {c : LoadSettings} {call : Call} {p p' : LoadTable × Ranking}
  {permits permits' : Solo → Call → Prop}

theorem Reachable.mono (h : Reachable permits start s)
    (hp : ∀ s call, permits s call → permits' s call) : Reachable permits' start s := by
  induction h with
  | start => exact .start
  | step call _ hcall ih => exact ih.step call (hp _ _ hcall)

theorem At.unique (h : s.At c p) (h' : s.At c p') : p = p' :=
  Prod.ext (h.loads.symm.trans h'.loads)
    (Option.some.inj (h.serves.alone.ranked.symm.trans h'.serves.alone.ranked))

/-- The endpoints stay and are not disabled, and the clock moves forward. -/
def Serving (s : Solo) (call : Call) : Prop := Forward s call ∧ Permissive s call

/-- Besides, a task is only finished when no wake-up of another endpoint is due. -/
def Prompt (s : Solo) (call : Call) : Prop :=
  Serving s call ∧ ∀ t succeeded latency, call = .complete t succeeded latency →
    ∀ ticket k, s.fleet.task? t = some (.tracked ticket) → s.fleet.ranking? s.place = some k →
      DueOnlyFor s.fleet.now (s.fleet.loads.endpoint ticket.load) k.wakeups

theorem Starts.bare (hc : c.subStrategy = .absent) (h : s.Starts c) :
    ∃ p, s.At c p ∧ Sorted p ∧ ∀ r, (p.1.load r).Bare := by
  obtain ⟨f, telemetry, listeners, hfresh, hbuild⟩ := h
  obtain ⟨states, h⟩ := hfresh.build hbuild
  have hb : ∀ r, (s.fleet.loads.load r).Bare := by
    refine h.grows.forall (fun r => ?_) (fun e l hl => .create hc hl) .vacant
    rw [hfresh.load_eq]
    exact .vacant
  exact ⟨(s.fleet.loads, _), ⟨h.serves, rfl⟩, .replace (fun r => (hb r).enabled) h.apart, hb⟩

/-- What a call makes of the pair of loads and ranking; only finishing a task looks at more than
the two and the clock. -/
theorem At.apply_serving (hs : s.At c p) (hcall : Serving s call) :
    ∃ p', (s.apply call).At c p' ∧
      (p' = p ∨ p' = (Ranking.take s.fleet.now p).2 ∨
        ∃ t succeeded latency ticket l, call = .complete t succeeded latency ∧
          s.fleet.task? t = some (.tracked ticket) ∧
          p' = Fleet.finished s.fleet.now ticket.load succeeded l p) := by
  cases call with
  | next => exact ⟨_, hs.next.2.1, .inr (.inl rfl)⟩
  | complete t succeeded latency =>
    by_cases hopen : ∃ ticket, s.fleet.task? t = some (.tracked ticket) ∧ ticket.completed = false
    · obtain ⟨ticket, ht, hopen⟩ := hopen
      exact ⟨_, (hs.complete_open ht hopen succeeded latency).1,
        .inr (.inr ⟨t, succeeded, latency, ticket, _, rfl, ht, rfl⟩)⟩
    · rw [apply_complete_eq_self fun ticket ht =>
        eq_true_of_ne_false fun hfalse => hopen ⟨ticket, ht, hfalse⟩]
      exact ⟨p, hs, .inl rfl⟩
  | update es => exact hcall.1.elim
  | disable e disabled => exact absurd rfl (hcall.2 e disabled)
  | advance d => exact ⟨p, hs.clock _, .inl rfl⟩
  | set d => exact ⟨p, hs.clock _, .inl rfl⟩

theorem Reachable.bare (hc : c.subStrategy = .absent) (hstart : start.Starts c)
    (h : Reachable Serving start s) : ∃ p, s.At c p ∧ ∀ r, (p.1.load r).Bare := by
  induction h with
  | start =>
    obtain ⟨p, hs, -, hb⟩ := hstart.bare hc
    exact ⟨p, hs, hb⟩
  | @step s call _ hcall ih =>
    obtain ⟨p, hs, hb⟩ := ih
    obtain ⟨p', hs', rfl | rfl | ⟨t, succeeded, latency, ticket, l, -, -, rfl⟩⟩ :=
      hs.apply_serving hcall
    · exact ⟨_, hs', hb⟩
    · exact ⟨_, hs', fun r => Ranking.load_take (fun _ hl => hl.sync _)
        (fun _ hl => hl.acquire _ 1) (hb r)⟩
    · exact ⟨_, hs', fun r => Ranking.load_finished (fun _ hl => hl.sync _)
        (fun _ latency hl => hl.release _ 1 latency) (fun _ latency hl => hl.penalize _ latency)
        (hb r) succeeded l⟩

theorem Reachable.sorted (hc : c.subStrategy = .absent) (hstart : start.Starts c)
    (h : Reachable Prompt start s) : ∃ p, s.At c p ∧ Sorted p := by
  induction h with
  | start =>
    obtain ⟨p, hs, hsorted, -⟩ := hstart.bare hc
    exact ⟨p, hs, hsorted⟩
  | @step s call _ hcall ih =>
    obtain ⟨p, hs, hsorted⟩ := ih
    obtain ⟨p', hs', rfl | rfl | ⟨t, succeeded, latency, ticket, l, heq, ht, rfl⟩⟩ :=
      hs.apply_serving hcall.1
    · exact ⟨_, hs', hsorted⟩
    · exact ⟨_, hs', hsorted.take⟩
    · have hdue := hcall.2 t succeeded latency heq ticket p.2 ht hs.serves.alone.ranked
      rw [hs.loads] at hdue
      exact ⟨_, hs', hsorted.finished hdue succeeded l⟩

/-- A request hands out a least loaded endpoint, counted without what has fallen due, unless all
counters are then past the largest signed number. -/
structure Exact (s : Solo) : Prop where
  least : ∀ t, (s.fleet.next s.place).1 = some t →
    (∃ e ∈ s.endpoints, s.fleet.find? e = some t.load) ∧
      ∀ e ∈ s.endpoints, ∀ r, s.fleet.find? e = some r →
        s.fleet.loads.inFlightAt s.fleet.now t.load ≤ s.fleet.loads.inFlightAt s.fleet.now r
  exhausted : (s.fleet.next s.place).1 = none →
    ∀ e ∈ s.endpoints, ∀ r, s.fleet.find? e = some r →
      2 ^ 31 ≤ (s.fleet.loads.inFlightAt s.fleet.now r).toNat

theorem At.exact (hs : s.At c p)
    (hleast : ∀ top, (Ranking.take s.fleet.now p).1 = some top → top ∈ p.2.queue.contents ∧
      ∀ r ∈ p.2.queue.contents,
        p.1.inFlightAt s.fleet.now top ≤ p.1.inFlightAt s.fleet.now r)
    (hnone : (Ranking.take s.fleet.now p).1 = none →
      ∀ r ∈ p.2.queue.contents, 2 ^ 31 ≤ (p.1.inFlightAt s.fleet.now r).toNat) : s.Exact := by
  have hanswer := hs.next.1
  have hmem : ∀ e ∈ s.endpoints, ∀ r, s.fleet.find? e = some r → r ∈ p.2.queue.contents :=
    fun e he r hr => hs.mem_contents.2 ⟨e, he, hr⟩
  constructor
  · intro t ht
    rw [hanswer] at ht
    obtain ⟨top, htop, rfl⟩ := Option.map_eq_some_iff.1 ht
    obtain ⟨htopmem, hle⟩ := hleast top htop
    refine ⟨hs.mem_contents.1 htopmem, fun e he r hr => ?_⟩
    rw [hs.loads]
    exact hle r (hmem e he r hr)
  · intro hn e he r hr
    rw [hanswer, Option.map_eq_none_iff] at hn
    rw [hs.loads]
    exact hnone hn r (hmem e he r hr)

theorem Reachable.exact_of_prompt (hc : c.subStrategy = .absent) (hstart : start.Starts c)
    (h : Reachable Prompt start s) : s.Exact := by
  obtain ⟨p, hs, hsorted⟩ := h.sorted hc hstart
  obtain ⟨p', hs', halert⟩ := Reachable.alert hstart (h.mono fun _ _ hcall => hcall.1.1)
  obtain rfl := hs.unique hs'
  obtain ⟨hsome, hnone⟩ := hsorted.least_of_take halert s.now_le
  exact hs.exact (fun top htop => ⟨(hsome top htop).1, (hsome top htop).2.2⟩) hnone

theorem Reachable.exact_of_three (hc : c.subStrategy = .absent) (hstart : start.Starts c)
    (hcard : start.endpoints.toFinset.card ≤ 3) (h : Reachable Serving start s) : s.Exact := by
  have hforward : Reachable Forward start s := h.mono fun _ _ hcall => hcall.1
  obtain ⟨p, hs, hb⟩ := h.bare hc hstart
  obtain ⟨p', hs', halert⟩ := hforward.alert hstart
  obtain rfl := hs.unique hs'
  rw [← hforward.endpoints_eq] at hcard
  rw [← hs.card_contents] at hcard
  refine hs.exact (fun top htop => ?_) fun hn r hr => ?_
  · obtain ⟨hmem, hthree⟩ := halert.least_or_three nofun (fun r => (hb r).enabled) s.now_le htop
    exact ⟨hmem, Ranking.forall_of_forall_or_three hcard hthree⟩
  · have hun := Ranking.forall_of_forall_or_three hcard ((halert.ready_of_take s.now_le).2 hn) r hr
    refine Nat.not_lt.1 fun hlt => ?_
    have hav : ((p.1.load r).sync s.fleet.now).available = true :=
      EndpointLoad.available_iff.2 ⟨EndpointLoad.disabled_sync.trans (hb r).enabled, hlt⟩
    rw [EndpointLoad.ready, hav] at hun
    cases hun

end Solo

end LeastLoad
