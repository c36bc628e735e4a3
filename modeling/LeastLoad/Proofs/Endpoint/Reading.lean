import LeastLoad.Proofs.Endpoint.Account
import LeastLoad.Proofs.Endpoint.Standing
import LeastLoad.Proofs.Endpoint.Unused
import LeastLoad.Proofs.Expiry.Outstanding

/-! # Ties are broken by what is outstanding

The sum that breaks ties is read as an unsigned number. Handing out units and finishing them never
adds a negative amount to it, and it takes back no more than was added, so that the reading is the
sum itself: loads with equally many units are ordered by how often they were handed out, or by how
long that took, as far as it still counts. -/

namespace LeastLoad

namespace TieBreak

def ofSum : SubStrategy → SlidingSum → TieBreak
  | .absent, _ => untracked
  | .leastFrequency, s => frequency s
  | .leastTime, s => latency s

@[simp] theorem kind_ofSum (k : SubStrategy) (s : SlidingSum) : (ofSum k s).kind = k := by
  cases k <;> rfl

theorem reading_ofSum {k : SubStrategy} (hk : k ≠ .absent) (s : SlidingSum) :
    (ofSum k s).reading = s.reading := by
  cases k with
  | absent => exact absurd rfl hk
  | leastFrequency | leastTime => rfl

theorem create_eq {c : LoadSettings} {now : Nat} {s : SlidingSum}
    (h : SlidingSum.create c.lookBack c.windows now = .ok s) :
    TieBreak.create c now = .ok (ofSum c.subStrategy s) := by
  rw [TieBreak.create]
  cases c.subStrategy with
  | absent => rfl
  | leastFrequency | leastTime =>
    rw [h]
    rfl

end TieBreak

namespace LoadEvent

def onSum (k : SubStrategy) : LoadEvent → Option SlidingEvent
  | acquire n => if k = .leastFrequency then some (.add n.toInt64) else none
  | release _ latency =>
    if k = .leastTime then some (.add (EndpointLoad.latencyMillis latency)) else none
  | penalize _ => none
  | sync => some .check
  | advance d => some (.advance d)
  | set d => some (.set d)

def tracked (k : SubStrategy) (es : List LoadEvent) : List SlidingEvent := es.filterMap (onSum k)

/-- Units are handed out in numbers that are not negative, and what is tracked of them fits. -/
structure Modest (k : SubStrategy) (es : List LoadEvent) : Prop where
  acquires : ∀ n, .acquire n ∈ es → 0 ≤ n
  total : ((tracked k es).map (·.amount.toInt)).sum ≤ signedMax64

variable {k : SubStrategy} {es : List LoadEvent}

theorem latencyMillis_nonneg (latency : Duration) : 0 ≤ EndpointLoad.latencyMillis latency := by
  have hle : min latency.millis signedMax64 ≤ signedMax64 := Nat.min_le_right ..
  rw [EndpointLoad.latencyMillis, Int64.le_iff_toInt_le, Int64.toInt_ofNat_of_lt]
  · exact Int.natCast_nonneg _
  · simp only [signedMax64] at hle ⊢
    omega

theorem Modest.fits (h : Modest k es) : SlidingEvent.Fits (tracked k es) := by
  refine ⟨fun e he => ?_, h.total⟩
  obtain ⟨x, hx, hxe⟩ := List.mem_filterMap.1 he
  cases x with
  | acquire n =>
    rw [onSum] at hxe
    split at hxe
    · cases hxe
      have hn := h.acquires n hx
      rw [Int32.le_iff_toInt_le] at hn
      rw [Int64.le_iff_toInt_le]
      exact hn.trans (Int32.toInt_toInt64 n).ge
    · cases hxe
  | release n latency =>
    rw [onSum] at hxe
    split at hxe
    · cases hxe
      exact latencyMillis_nonneg latency
    · cases hxe
  | penalize => cases hxe
  | sync | advance | set =>
    cases hxe
    exact Int64.le_refl 0

end LoadEvent

theorem EndpointLoad.tieBreak_penalize (l : EndpointLoad) (now : Nat) (latency : Duration) :
    (l.penalize now latency).2.tieBreak = l.tieBreak := by
  rw [penalize]
  split <;> rfl

namespace ClockedLoad

variable {k : SubStrategy} {s : ClockedLoad} {t : ClockedSliding}

/-- A load that goes by the clock of a sum and breaks ties by it. -/
structure BreaksBy (k : SubStrategy) (s : ClockedLoad) (t : ClockedSliding) : Prop where
  clock : s.clock = t.clock
  tieBreak : s.load.tieBreak = .ofSum k t.sum

theorem BreaksBy.step (h : BreaksBy k s t) (e : LoadEvent) :
    BreaksBy k (s.step e) ((e.onSum k).elim t t.step) := by
  obtain ⟨clock, load⟩ := s
  obtain ⟨clock', sum⟩ := t
  obtain ⟨rfl, htie⟩ := h
  dsimp only at htie
  cases e with
  | acquire n | release n latency =>
    refine ⟨by cases k <;> rfl, ?_⟩
    simp only [ClockedLoad.step, EndpointLoad.acquire, EndpointLoad.release, htie]
    cases k <;> rfl
  | penalize latency => exact ⟨rfl, (load.tieBreak_penalize _ _).trans htie⟩
  | sync =>
    refine ⟨rfl, EndpointLoad.tieBreak_sync.trans ?_⟩
    rw [htie]
    cases k <;> rfl
  | advance d | set d => exact ⟨rfl, htie⟩

theorem BreaksBy.run (h : BreaksBy k s t) (es : List LoadEvent) :
    BreaksBy k (s.run es) (t.run (LoadEvent.tracked k es)) := by
  induction es generalizing s t with
  | nil => exact h
  | cons e es ih =>
    have hrun := ih (h.step e)
    rw [LoadEvent.tracked, List.filterMap_cons]
    cases he : e.onSum k with
    | none =>
      rw [he] at hrun
      exact hrun
    | some x =>
      rw [he] at hrun
      exact hrun

end ClockedLoad

theorem toNat_toUInt64_of_nonneg {n : Int64} (h : 0 ≤ n.toInt) :
    (n.toUInt64.toNat : Int) = n.toInt := by
  have hcond := BitVec.toInt_eq_toNat_cond n.toBitVec
  have hlt := n.toBitVec.isLt
  change (0 : Int) ≤ n.toBitVec.toInt at h
  change (n.toBitVec.toNat : Int) = n.toBitVec.toInt
  split at hcond <;> omega

theorem compare_eq_of_toNat {x y : UInt64} {n m : Int} (hx : (x.toNat : Int) = n)
    (hy : (y.toNat : Int) = m) : compare x y = compare n m := by
  rcases Nat.lt_trichotomy x.toNat y.toNat with h | h | h
  · rw [Std.compare_eq_lt.2 (UInt64.lt_iff_toNat_lt.2 h), Std.compare_eq_lt.2 (by omega)]
  · obtain rfl := UInt64.toNat_inj.1 h
    obtain rfl : n = m := hx.symm.trans hy
    exact Std.ReflOrd.compare_self.trans Std.ReflOrd.compare_self.symm
  · rw [Std.compare_eq_gt.2 (UInt64.lt_iff_toNat_lt.2 h), Std.compare_eq_gt.2 (by omega)]

def SlidingSum.ComesTo (lookBack : Duration) (windows : Nat) (start : Clock)
    (es : List SlidingEvent) (n : Int) : Prop :=
  ∃ s, SlidingSum.create lookBack windows start.now = .ok s ∧
    ∃ fate, ClockedSliding.Reverses lookBack windows ⟨start, s⟩ es fate ∧
      n = outstanding (SlidingEvent.amountAt es) fate es.length

namespace ClockedLoad

theorem amountAt_tracked_absent (es : List LoadEvent) (i : Nat) :
    SlidingEvent.amountAt (LoadEvent.tracked .absent es) i = 0 := by
  rw [SlidingEvent.amountAt]
  cases he : (LoadEvent.tracked .absent es)[i]? with
  | none => rfl
  | some e =>
    obtain ⟨x, -, hx⟩ := List.mem_filterMap.1 (List.mem_of_getElem? he)
    cases x with
    | acquire | release | penalize => cases hx
    | sync | advance | set =>
      cases hx
      rfl

theorem exists_reading {c : LoadSettings} (hw : 0 < c.windows) (e : Endpoint) (start : Clock)
    {es : List LoadEvent} (hes : LoadEvent.Modest c.subStrategy es) :
    ∃ l n, EndpointLoad.create e c start.now = .ok l ∧
      SlidingSum.ComesTo c.lookBack c.windows start (LoadEvent.tracked c.subStrategy es) n ∧
      ((ClockedLoad.mk start l).run es).load.kind = c.subStrategy ∧
      (((ClockedLoad.mk start l).run es).load.tieBreakValue.toNat : Int) = n := by
  obtain ⟨l, hl⟩ := EndpointLoad.exists_create hw e start.now
  obtain ⟨s, hs, fate, hfate⟩ := ClockedSliding.exists_reverses c.lookBack hw start hes.fits
  have hbreaks : BreaksBy c.subStrategy ⟨start, l⟩ ⟨start, s⟩ :=
    ⟨rfl, Except.ok.inj ((EndpointLoad.create_spec hl).1.symm.trans (TieBreak.create_eq hs))⟩
  have htie := (hbreaks.run es).tieBreak
  have hvalue := hfate.value _ le_rfl
  obtain ⟨hnonneg, -⟩ := hfate.value_mem hes.fits le_rfl
  rw [ClockedSliding.stateAt, List.take_length] at hvalue hnonneg
  refine ⟨l, _, hl, ⟨s, hs, fate, hfate, rfl⟩, ?_, ?_⟩
  · rw [EndpointLoad.kind, htie, TieBreak.kind_ofSum]
  · rw [EndpointLoad.tieBreakValue, htie]
    by_cases habsent : c.subStrategy = .absent
    · rw [habsent, outstanding]
      simp only [amountAt_tracked_absent, ite_self, Finset.sum_const_zero]
      rfl
    · rw [TieBreak.reading_ofSum habsent, ← hvalue]
      exact toNat_toUInt64_of_nonneg hnonneg

end ClockedLoad

theorem EndpointLoad.compare_setDisabled {a b : EndpointLoad} (hkind : a.kind = b.kind) {n m : Int}
    (ha : (a.tieBreakValue.toNat : Int) = n) (hb : (b.tieBreakValue.toNat : Int) = m)
    (d d' : Bool) :
    (a.setDisabled d).compare (b.setDisabled d') =
      (Ord.compare d d').then ((Ord.compare a.inFlight b.inFlight).then (Ord.compare n m)) := by
  rw [EndpointLoad.compare, ← compare_eq_of_toNat ha hb]
  exact congrArg (fun o => Ordering.then _ (Ordering.then _ o)) (TieBreak.compare_of_kind_eq hkind)

/-- Whatever the clock shows, a sum of additions that are not negative is at every moment what has
been added and not yet taken back. An addition is taken back by at most one check, whole, and not
before the clock has reached its time. The sum therefore never falls below zero or rises above the
total, and its unsigned reading is the sum itself: of loads that track the same thing, the enabled
come first, then those with fewer units, then those of which less is outstanding. -/
theorem ClockedLoad.ties_by_outstanding :
    (∀ (lookBack : Duration) (windows : Nat) (start : Clock) (es : List SlidingEvent),
      0 < windows → SlidingEvent.Fits es →
        ∃ c, SlidingSum.create lookBack windows start.now = .ok c ∧
          let s : ClockedSliding := ⟨start, c⟩
          (∃ fate, ClockedSliding.Reverses lookBack windows s es fate) ∧
          ∀ m ≤ es.length,
            0 ≤ (s.stateAt es m).sum.value.toInt ∧
              (s.stateAt es m).sum.value.toInt ≤ ((es.take m).map (·.amount.toInt)).sum) ∧
    ∀ (c c' : LoadSettings) (e e' : Endpoint) (start start' : Clock) (es es' : List LoadEvent),
      0 < c.windows → 0 < c'.windows → c.subStrategy = c'.subStrategy →
        LoadEvent.Modest c.subStrategy es → LoadEvent.Modest c'.subStrategy es' →
          ∃ l l' n n',
            EndpointLoad.create e c start.now = .ok l ∧
            EndpointLoad.create e' c' start'.now = .ok l' ∧
            SlidingSum.ComesTo c.lookBack c.windows start (LoadEvent.tracked c.subStrategy es) n ∧
            SlidingSum.ComesTo c'.lookBack c'.windows start'
              (LoadEvent.tracked c'.subStrategy es') n' ∧
            let a := ((ClockedLoad.mk start l).run es).load
            let b := ((ClockedLoad.mk start' l').run es').load
            (a.tieBreakValue.toNat : Int) = n ∧ (b.tieBreakValue.toNat : Int) = n' ∧
            ∀ d d', (a.setDisabled d).compare (b.setDisabled d') =
              (compare d d').then ((compare a.inFlight b.inFlight).then (compare n n')) := by
  refine ⟨fun lookBack windows start es hw hes => ?_,
    fun c c' e e' start start' es es' hw hw' hsub hes hes' => ?_⟩
  · obtain ⟨c, hc, fate, h⟩ := ClockedSliding.exists_reverses lookBack hw start hes
    exact ⟨c, hc, ⟨fate, h⟩, fun m hm => h.value_mem hes hm⟩
  · obtain ⟨l, n, hl, hn, hkind, hreads⟩ := exists_reading hw e start hes
    obtain ⟨l', n', hl', hn', hkind', hreads'⟩ := exists_reading hw' e' start' hes'
    exact ⟨l, l', n, n', hl, hl', hn, hn', hreads, hreads',
      EndpointLoad.compare_setDisabled (hkind.trans (hsub.trans hkind'.symm)) hreads hreads'⟩

/-- The clock is moved back by 50 seconds after an addition, and after a completion. -/
theorem ClockedLoad.ties_by_outstanding_behind :
    let start := Clock.startingAt (.ofSeconds 100)
    let back : Duration := ⟨UInt64.size - 50_000_000_000⟩
    let c : LoadSettings := { subStrategy := .leastTime, windows := 10 }
    let es : List LoadEvent := [.acquire 1, .release 1 (.ofMillis 250), .advance back, .sync]
    let es' : List LoadEvent := [.acquire 1, .release 1 (.ofMillis 400)]
    (∃ s, SlidingSum.create (.ofSeconds 30) 10 start.now = .ok s ∧
      let q := (ClockedSliding.mk start s).run
        [.add 4, .advance back, .addFor 1 (.ofSeconds 10), .set (.ofSeconds 140), .check]
      0 ≤ q.sum.value.toInt ∧ q.sum.value.toInt ≤ 5) ∧
    ∃ l l', EndpointLoad.create ⟨1⟩ c start.now = .ok l ∧
      EndpointLoad.create ⟨2⟩ c start.now = .ok l' ∧
      ∃ n n' : Int,
        SlidingSum.ComesTo c.lookBack 10 start (LoadEvent.tracked .leastTime es) n ∧
        SlidingSum.ComesTo c.lookBack 10 start (LoadEvent.tracked .leastTime es') n' ∧
        (((ClockedLoad.mk start l).run es).load.setDisabled false).compare
          (((ClockedLoad.mk start l').run es').load.setDisabled false) = compare n n' := by
  intro start back c es es'
  refine ⟨?_, ?_⟩
  · obtain ⟨s, hs, -, hbounds⟩ := ClockedLoad.ties_by_outstanding.1 (.ofSeconds 30) 10 start
      [.add 4, .advance back, .addFor 1 (.ofSeconds 10), .set (.ofSeconds 140), .check]
      (by decide) ⟨by decide, by decide⟩
    exact ⟨s, hs, hbounds 5 le_rfl⟩
  · have hone : ∀ n, n = 1 → (0 : Int32) ≤ n := by
      rintro n rfl
      decide
    obtain ⟨l, l', n, n', hl, hl', hn, hn', -, -, hcompare⟩ :=
      ClockedLoad.ties_by_outstanding.2 c c ⟨1⟩ ⟨2⟩ start start es es' (by decide) (by decide) rfl
        ⟨fun n hn => hone n (by simpa [es] using hn), by decide⟩
        ⟨fun n hn => hone n (by simpa [es'] using hn), by decide⟩
    have hunits : compare ((ClockedLoad.mk start l).run es).load.inFlight
        ((ClockedLoad.mk start l').run es').load.inFlight = .eq := by
      cases hl
      cases hl'
      decide
    have hties := hcompare false false
    rw [hunits] at hties
    exact ⟨l, l', hl, hl', n, n', hn, hn', hties⟩

end LeastLoad
