import LeastLoad.Proofs.Endpoint.Awaited

/-! # Loads that have not been used

As long as the clock stands where the loads were made, they are all alike but for being disabled. -/

namespace LeastLoad

theorem SlidingSum.reading_create {lookBack : Duration} {windows now : Nat} {s : SlidingSum}
    (h : SlidingSum.create lookBack windows now = .ok s) (hnow : now ≤ horizon) :
    s.reading = 0 ∧ (s.check now).reading = 0 := by
  rw [SlidingSum.create] at h
  cases hr : DeferredSum.create lookBack windows now with
  | error e =>
    rw [hr] at h
    cases h
  | ok reversals =>
    rw [hr] at h
    cases h
    have ha : reversals.Awaited (fun _ => False) now := .create hr
    have hz := ha.flush_fst hnow fun _ hd => hd.elim
    refine ⟨rfl, ?_⟩
    simp only [SlidingSum.check, SlidingSum.reading, hz]
    rfl

namespace TieBreak

variable {x y : TieBreak} {now : Nat} {c : LoadSettings}

theorem compare_of_reading_zero (hx : x.reading = 0) (hy : y.reading = 0) :
    x.compare y = .eq := by
  cases x <;> cases y <;> simp_all [compare, reading]

theorem reading_create (h : TieBreak.create c now = .ok x) (hnow : now ≤ horizon) :
    x.reading = 0 ∧ (x.sync now).reading = 0 := by
  rw [TieBreak.create] at h
  cases hc : c.subStrategy with
  | absent =>
    rw [hc] at h
    cases h
    exact ⟨rfl, rfl⟩
  | leastFrequency | leastTime =>
    rw [hc] at h
    cases hs : SlidingSum.create c.lookBack c.windows now with
    | error e =>
      rw [hs] at h
      cases h
    | ok s =>
      rw [hs] at h
      cases h
      exact SlidingSum.reading_create hs hnow

end TieBreak

namespace EndpointLoad

variable {l a b : EndpointLoad} {now : Nat} {c : LoadSettings}

structure Idle (l : EndpointLoad) : Prop where
  concurrency : l.concurrency = 0
  reading : l.tieBreak.reading = 0

theorem Idle.compare (ha : a.Idle) (hb : b.Idle) :
    a.compare b = Ord.compare a.disabled b.disabled := by
  rw [EndpointLoad.compare, ha.concurrency, hb.concurrency,
    TieBreak.compare_of_reading_zero ha.reading hb.reading]
  cases a.disabled <;> cases b.disabled <;> rfl

structure Unused (now : Nat) (l : EndpointLoad) : Prop where
  idle : l.Idle
  synced : (l.sync now).Idle

theorem tieBreak_sync : (l.sync now).tieBreak = l.tieBreak.sync now := by
  simp only [sync]
  split <;> rfl

theorem Unused.create {e : Endpoint} (hnow : now ≤ horizon)
    (h : EndpointLoad.create e c now = .ok l) : l.Unused now ∧ l.disabled = false := by
  obtain ⟨htie, -, hl⟩ := create_spec h
  obtain ⟨hzero, hsynced⟩ := TieBreak.reading_create htie hnow
  have hconc : l.concurrency = 0 := by rw [hl]
  have ha : l.Awaited (fun _ => False) now := .create h
  have hsync := ha.concurrency_sync hnow fun _ hd => hd.elim
  refine ⟨⟨⟨hconc, hzero⟩, hsync.trans hconc, ?_⟩, by rw [hl]⟩
  rw [tieBreak_sync]
  exact hsynced

theorem Unused.vacant : LoadTable.vacant.Unused now := ⟨⟨rfl, rfl⟩, rfl, rfl⟩

theorem sync_setDisabled (disabled : Bool) :
    (l.setDisabled disabled).sync now = (l.sync now).setDisabled disabled := by
  simp only [sync, setDisabled]
  split <;> rfl

theorem Unused.setDisabled (h : l.Unused now) (disabled : Bool) :
    (l.setDisabled disabled).Unused now := by
  refine ⟨⟨h.idle.concurrency, h.idle.reading⟩, ?_⟩
  rw [sync_setDisabled]
  exact ⟨h.synced.concurrency, h.synced.reading⟩

theorem Unused.ready (h : l.Unused now) (hd : l.disabled = false) : l.ready now = true := by
  rw [EndpointLoad.ready, available, disabled_sync, hd, h.synced.concurrency]
  rfl

end EndpointLoad

end LeastLoad
