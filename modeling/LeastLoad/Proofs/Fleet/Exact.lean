import LeastLoad.Proofs.Fleet.Level
import LeastLoad.Proofs.Fleet.Solo

/-! # A lone ranked balancer hands out the least loaded endpoint

As long as nothing is disabled and failures are not penalized, the queue stays in order of the
units in flight through every run, and its top is a least loaded endpoint. -/

namespace LeastLoad

namespace Ranking

variable {c : LoadSettings} {s : LoadTable × Ranking} {r : LoadRef} {now : Nat}

theorem LevelExcept.heard (h : LevelExcept c s r) : Level c (Fleet.heard now r 0 s) := by
  rw [Fleet.heard]
  split
  · next hr => exact h.loadDropped hr
  · next hr => exact h.of_not_mem hr

theorem Level.finished (h : Level c s) (succeeded : Bool) (latency : Duration) :
    Level c (Fleet.finished now r succeeded latency s) := by
  have hnone : Fleet.penalized now r latency s = s := by
    simp only [Fleet.penalized, EndpointLoad.penalize, (h.plain r).unpenalized]
  rw [Fleet.finished, hnone, ite_self]
  exact (h.update (fun l hl => hl.release now 1 latency) fun _ => rfl).heard

end Ranking

namespace Solo

open Ranking (Level)

variable {s start : Solo} {c : LoadSettings}

def Permissive (_ : Solo) (call : Call) : Prop := ∀ e disabled, call ≠ .disable e disabled

theorem Starts.level (hc : c.failureSustain = none) (h : s.Starts c) :
    ∃ p, s.At c p ∧ Level c p := by
  obtain ⟨f, telemetry, listeners, hfresh, hbuild⟩ := h
  obtain ⟨states, h⟩ := hfresh.build hbuild
  refine ⟨(s.fleet.loads, _), ⟨h.serves, rfl⟩, .replace (fun r => ?_) h.apart rfl⟩
  refine h.grows.forall (fun r => ?_) (fun e l hl => .create hc hl) .vacant r
  rw [hfresh.load_eq]
  exact .vacant

theorem level_apply (hc : c.failureSustain = none) {call : Call} (hcall : Permissive s call)
    {p : LoadTable × Ranking} (hs : s.At c p) (h : Level c p) :
    ∃ p', (s.apply call).At c p' ∧ Level c p' := by
  cases call with
  | next => exact ⟨_, hs.next.2.1, h.take.1⟩
  | complete t succeeded latency =>
    obtain ⟨⟨r, l, hs'⟩ | hs', -⟩ := hs.complete t succeeded latency
    · exact ⟨_, hs', h.finished succeeded l⟩
    · exact ⟨p, hs', h⟩
  | update es =>
    simp only [apply]
    split
    · next f hf =>
      obtain ⟨states, hinst⟩ := hs.serves.update hf
      refine ⟨(f.loads, _), ⟨hinst.serves, rfl⟩, .replace (fun r => ?_) hinst.apart h.awake⟩
      refine hinst.grows.forall (fun r => ?_) (fun e l hl => .create hc hl) .vacant r
      rw [hs.loads]
      exact h.plain r
    · exact ⟨p, hs, h⟩
  | disable e disabled => exact absurd rfl (hcall e disabled)
  | advance d => exact ⟨p, hs.clock _, h⟩
  | set d => exact ⟨p, hs.clock _, h⟩

theorem Reachable.level (hc : c.failureSustain = none) (hstart : start.Starts c)
    (h : Reachable Permissive start s) : ∃ p, s.At c p ∧ Level c p := by
  induction h with
  | start => exact hstart.level hc
  | step call _ hcall ih =>
    obtain ⟨p, hs, hp⟩ := ih
    exact level_apply hc hcall hs hp

def inFlight (s : Solo) (r : LoadRef) : UInt32 := (s.fleet.loads.load r).inFlight

/-- What is handed out is least loaded of all endpoints, and nothing is handed out only if all
counters have been driven past the largest signed number. -/
theorem Reachable.next_least (hc : c.failureSustain = none) (hstart : start.Starts c)
    (h : Reachable Permissive start s) :
    (∀ e ∈ s.endpoints, ∃ r, s.fleet.find? e = some r) ∧
      (∀ t, (s.fleet.next s.place).1 = some t →
        (∃ e ∈ s.endpoints, s.fleet.find? e = some t.load) ∧
          ∀ e ∈ s.endpoints, ∀ r, s.fleet.find? e = some r → s.inFlight t.load ≤ s.inFlight r) ∧
      ((s.fleet.next s.place).1 = none ↔
        ∀ e ∈ s.endpoints, ∀ r, s.fleet.find? e = some r → 2 ^ 31 ≤ (s.inFlight r).toNat) ∧
      (c.subStrategy = .absent → ∀ k, s.fleet.ranking? s.place = some k →
        k.queue.violation? s.fleet.loads.compare = none) := by
  obtain ⟨⟨t, k⟩, hs, hlevel⟩ := h.level hc hstart
  obtain rfl : s.fleet.loads = t := hs.loads
  have hanswer := hs.next.1
  generalize s.fleet.now = now at hanswer
  obtain ⟨-, hsome, hnone⟩ : Level c (Ranking.take now (s.fleet.loads, k)).2 ∧ _ := hlevel.take
  have hmem : ∀ e ∈ s.endpoints, ∀ r, s.fleet.find? e = some r → r ∈ k.queue.contents :=
    fun e he r hr => hs.mem_contents.2 ⟨e, he, hr⟩
  refine ⟨fun e he => ?_, fun ticket ht => ?_, ⟨fun hn e he r hr => ?_, fun hall => ?_⟩, ?_⟩
  · obtain ⟨r, -, hr⟩ := hs.serves.covers.found e he
    exact ⟨r, hr⟩
  · rw [hanswer] at ht
    obtain ⟨top, htop, rfl⟩ := Option.map_eq_some_iff.1 ht
    obtain ⟨htopmem, -, hleast⟩ := hsome top htop
    exact ⟨hs.mem_contents.1 htopmem, fun e he r hr => hleast r (hmem e he r hr)⟩
  · rw [hanswer, Option.map_eq_none_iff] at hn
    exact hnone hn r (hmem e he r hr)
  · rw [hanswer, Option.map_eq_none_iff, Option.eq_none_iff_forall_ne_some]
    intro top htop
    obtain ⟨htopmem, hlt, -⟩ := hsome top htop
    obtain ⟨e, he, hr⟩ := hs.mem_contents.1 htopmem
    exact absurd hlt (Nat.not_lt.2 (hall e he top hr))
  · intro habsent k' hk'
    obtain rfl : k = k' := Option.some.inj (hs.serves.alone.ranked.symm.trans hk')
    exact hlevel.violation?_eq_none habsent

/-- Two endpoints, after one unit has been handed out. -/
theorem Reachable.next_least_of_two :
    ∃ start s : Solo, start.Starts {} ∧ Reachable Permissive start s ∧
      s.endpoints = [⟨1⟩, ⟨2⟩] ∧
      ∀ t, (s.fleet.next s.place).1 = some t →
        ∀ e ∈ s.endpoints, ∀ r, s.fleet.find? e = some r → s.inFlight t.load ≤ s.inFlight r := by
  obtain ⟨start, hstart, hes⟩ := exists_starts [⟨1⟩, ⟨2⟩]
  have hs : Reachable Permissive start (start.apply .next) :=
    .step .next .start fun _ _ h => nomatch h
  have hend : (start.apply .next).endpoints = start.endpoints := by
    simp only [apply]
    split <;> rfl
  exact ⟨start, _, hstart, hs, hend.trans hes, fun t ht => ((hs.next_least rfl hstart).2.1 t ht).2⟩

end Solo

end LeastLoad
