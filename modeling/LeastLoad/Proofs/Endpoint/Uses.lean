import LeastLoad.Proofs.Endpoint.Standing
import LeastLoad.Proofs.Endpoint.Unused
import LeastLoad.Proofs.Expiry.Remaining
import LeastLoad.Proofs.Fleet.Level

/-! # Uses that are still counted

Where the least frequently used endpoint goes first, the sum that breaks ties is the number of
times that an endpoint has been handed out, as long as none of them is over. Being brought up to
date or finished leaves that number, and among loads with equally many units it decides. -/

namespace LeastLoad

theorem remaining_eq_length {t : Nat} {entries : List LedgerEntry}
    (h : ∀ e ∈ entries, e.count = 1 ∧ t < e.expiry) : remaining t entries = entries.length := by
  induction entries with
  | nil => rfl
  | cons e entries ih =>
    obtain ⟨⟨hone, hlt⟩, hrest⟩ := List.forall_mem_cons.1 h
    rw [remaining] at ih ⊢
    simp [hone, hlt, ih hrest, Int.add_comm]

namespace SlidingSum

variable {c : LoadSettings} {clock clock' : Clock} {last uses : Nat} {s : SlidingSum}

/-- One has been added so many times, and none of these additions is over at `last`. -/
def Counts (c : LoadSettings) (clock : Clock) (last uses : Nat) (s : SlidingSum) : Prop :=
  ∃ pending additions,
    Remains pending ⟨clock, s⟩ ⟨c.lookBack, c.windows, clock, additions, uses⟩ ∧
      additions.length = uses ∧ ∀ e ∈ additions, e.count = 1 ∧ last < e.expiry

theorem Counts.reading (h : s.Counts c clock last uses) : s.reading = UInt64.ofNat uses := by
  obtain ⟨pending, additions, hr, -⟩ := h
  have hvalue : s.value = Int64.ofInt uses := hr.value
  rw [SlidingSum.reading, hvalue]
  exact UInt64.toNat_inj.1 rfl

theorem Counts.check (h : s.Counts c clock last uses) (hlast : clock.now ≤ last) :
    (s.check clock.now).Counts c clock last uses := by
  obtain ⟨pending, additions, hr, hlength, hadditions⟩ := h
  have hall : remaining clock.now additions = uses := by
    rw [← hlength]
    exact remaining_eq_length fun e he => ⟨(hadditions e he).1, hlast.trans_lt (hadditions e he).2⟩
  have hchecked := hr.check
  simp only [AdditionRecord.step, hall] at hchecked
  exact ⟨_, additions, hchecked, hlength, hadditions⟩

theorem Counts.add (h : s.Counts c clock last uses)
    (hlast : last < roundedExpiry c.lookBack c.windows clock.now c.lookBack) :
    (s.add clock.now 1).Counts c clock last (uses + 1) := by
  obtain ⟨pending, additions, hr, hlength, hadditions⟩ := h
  obtain ⟨pending', hadded⟩ := hr.add 1
  exact ⟨pending', _ :: additions, hadded, congrArg (· + 1) hlength,
    List.forall_mem_cons.2 ⟨⟨rfl, hlast⟩, hadditions⟩⟩

theorem Counts.later (h : s.Counts c clock last uses) (hle : clock.now ≤ clock'.now) :
    s.Counts c clock' last uses := by
  obtain ⟨pending, additions, hr, hadditions⟩ := h
  exact ⟨pending, additions, hr.later hle, hadditions⟩

theorem Counts.create (h : SlidingSum.create c.lookBack c.windows clock.now = .ok s) :
    s.Counts c clock last 0 := by
  have hwindows : 0 < c.windows := by
    refine Nat.pos_of_ne_zero fun hz => ?_
    simp [hz, SlidingSum.create, DeferredSum.create, ExpiryRing.create, Except.map] at h
  obtain ⟨s', hs', hr⟩ := Remains.create c.lookBack hwindows clock
  obtain rfl : s' = s := Except.ok.inj (hs'.symm.trans h)
  exact ⟨[], [], hr, rfl, List.forall_mem_nil _⟩

end SlidingSum

namespace EndpointLoad

variable {c : LoadSettings} {clock clock' : Clock} {last uses uses' units : Nat}
  {a b l : EndpointLoad}

/-- The endpoint has been handed out so many times, none of which is over at `last`, and so many
units of it are not finished. -/
structure Used (c : LoadSettings) (clock : Clock) (last uses units : Nat) (l : EndpointLoad) :
    Prop where
  plain : l.Plain c
  inFlight : l.inFlight = UInt32.ofNat units
  counts : ∃ s, l.tieBreak = .frequency s ∧ s.Counts c clock last uses

theorem Used.reading (h : l.Used c clock last uses units) :
    l.tieBreak.reading = UInt64.ofNat uses := by
  obtain ⟨s, hs, hcounts⟩ := h.counts
  rw [hs]
  exact hcounts.reading

theorem Used.kind (h : l.Used c clock last uses units) : l.kind = .leastFrequency := by
  obtain ⟨s, hs, -⟩ := h.counts
  rw [EndpointLoad.kind, hs]
  rfl

theorem Used.sync (h : l.Used c clock last uses units) (hlast : clock.now ≤ last) :
    (l.sync clock.now).Used c clock last uses units := by
  obtain ⟨s, hs, hcounts⟩ := h.counts
  refine ⟨h.plain.sync _, (h.plain.inFlight_sync _).trans h.inFlight, _, ?_, hcounts.check hlast⟩
  rw [tieBreak_sync, hs]
  rfl

theorem Used.acquire (h : l.Used c clock last uses units)
    (hlast : last < roundedExpiry c.lookBack c.windows clock.now c.lookBack) :
    (l.acquire clock.now 1).Used c clock last (uses + 1) (units + 1) := by
  obtain ⟨s, hs, hcounts⟩ := h.counts
  refine ⟨h.plain.acquire _ _, ?_, _, ?_, hcounts.add hlast⟩
  · change l.inFlight + 1 = _
    rw [h.inFlight]
    exact (UInt32.ofNat_add units 1).symm
  · simp only [EndpointLoad.acquire, hs]
    rfl

theorem Used.release (h : l.Used c clock last uses (units + 1)) (latency : Duration) :
    (l.release clock.now 1 latency).Used c clock last uses units := by
  obtain ⟨s, hs, hcounts⟩ := h.counts
  refine ⟨h.plain.release _ _ _, ?_, s, ?_, hcounts⟩
  · change l.inFlight - 1 = _
    rw [h.inFlight, UInt32.ofNat_add]
    exact UInt32.add_sub_cancel _ _
  · simp only [EndpointLoad.release, hs]

theorem Used.later (h : l.Used c clock last uses units) (hle : clock.now ≤ clock'.now) :
    l.Used c clock' last uses units := by
  obtain ⟨s, hs, hcounts⟩ := h.counts
  exact ⟨h.plain, h.inFlight, s, hs, hcounts.later hle⟩

theorem Used.create {e : Endpoint} (hsub : c.subStrategy = .leastFrequency)
    (hfail : c.failureSustain = none) (h : EndpointLoad.create e c clock.now = .ok l) :
    l.Used c clock last 0 0 := by
  obtain ⟨htie, -, hl⟩ := create_spec h
  refine ⟨.create hfail h, by rw [hl]; rfl, ?_⟩
  rw [TieBreak.create, hsub] at htie
  cases hs : SlidingSum.create c.lookBack c.windows clock.now with
  | error e =>
    rw [hs] at htie
    cases htie
  | ok s =>
    rw [hs] at htie
    exact ⟨s, (Except.ok.inj htie).symm, .create hs⟩

theorem Used.available (h : l.Used c clock last uses 0) : l.available = true := by
  rw [h.plain.available_iff, h.inFlight]
  decide

theorem Used.standing_eq (ha : a.Used c clock last uses units)
    (hb : b.Used c clock last uses units) : standing a b = .eq := by
  have hdisabled : a.disabled = b.disabled := ha.plain.enabled.trans hb.plain.enabled.symm
  have hinFlight : a.inFlight = b.inFlight := ha.inFlight.trans hb.inFlight.symm
  have hreading : a.tieBreak.reading = b.tieBreak.reading := ha.reading.trans hb.reading.symm
  simp [standing, compareLex, compareOn, hdisabled, hinFlight, hreading]

/-- Of loads with equally many units, one that does not come after another has not been used more
often, as long as the numbers fit the sum. -/
theorem Used.le_of_standing (ha : a.Used c clock last uses units)
    (hb : b.Used c clock last uses' units) (huses : uses < 2 ^ 64) (hle : standing a b ≠ .gt) :
    uses ≤ uses' := by
  have hdisabled : a.disabled = b.disabled := ha.plain.enabled.trans hb.plain.enabled.symm
  have hinFlight : a.inFlight = b.inFlight := ha.inFlight.trans hb.inFlight.symm
  have hreading : a.tieBreak.reading ≤ b.tieBreak.reading := by
    refine UInt64.not_lt.1 fun hlt => hle ?_
    simpa [standing, compareLex, compareOn, hdisabled, hinFlight] using Std.compare_eq_gt.2 hlt
  rw [ha.reading, hb.reading, UInt64.le_iff_toNat_le, UInt64.toNat_ofNat',
    UInt64.toNat_ofNat', Nat.mod_eq_of_lt huses] at hreading
  exact hreading.trans (Nat.mod_le _ _)

end EndpointLoad

end LeastLoad
