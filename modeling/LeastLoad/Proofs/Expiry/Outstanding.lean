import LeastLoad.Proofs.Expiry.Located
import LeastLoad.Proofs.Expiry.Remaining
import Mathlib.Algebra.Order.BigOperators.Group.Finset

/-! # What of a sliding sum is outstanding

In a run, each addition that a check takes back is taken back by one check, whole, whatever the
clock shows in between. The value of the sum is at every moment what has been added and not yet
taken back. It therefore never falls below zero, as long as nothing negative is added. -/

namespace LeastLoad

/-- What has been added by the first `m` events and not taken back by one of them, where `fate` is
the number of the event by which an addition is taken back. -/
def outstanding (amount : Nat → Int) (fate : Nat → Option Nat) (m : Nat) : Int :=
  ∑ i ∈ Finset.range m, if (fate i).all (m ≤ ·) then amount i else 0

def takenBack (amount : Nat → Int) (fate : Nat → Option Nat) (j : Nat) : Int :=
  ∑ i ∈ Finset.range j, if fate i = some j then amount i else 0

section Outstanding

variable {amount : Nat → Int} {fate : Nat → Option Nat} {m : Nat}

theorem outstanding_succ (hlater : ∀ i j, fate i = some j → i < j) :
    outstanding amount fate (m + 1) =
      outstanding amount fate m + amount m - takenBack amount fate m := by
  have hlast : (fate m).all (m + 1 ≤ ·) = true := by
    rw [Option.all_eq_true]
    intro j hj
    exact decide_eq_true (hlater m j hj)
  have hterm : ∀ i, (if (fate i).all (m + 1 ≤ ·) then amount i else 0) =
      (if (fate i).all (m ≤ ·) then amount i else 0) - if fate i = some m then amount i else 0 := by
    intro i
    cases hi : fate i with
    | none => simp
    | some j =>
      rcases Nat.lt_trichotomy j m with hj | rfl | hj
      · simp [hj.ne, Nat.not_le.2 hj, Nat.not_lt.2 hj.le]
      · simp
      · simp [hj, hj.ne', hj.le]
  rw [outstanding, Finset.sum_range_succ, hlast, outstanding, takenBack]
  simp only [hterm, Finset.sum_sub_distrib, if_true]
  omega

theorem sum_part_mem (h : ∀ i, 0 ≤ amount i) (p : Nat → Prop) [DecidablePred p] :
    0 ≤ ∑ i ∈ Finset.range m, (if p i then amount i else 0) ∧
      ∑ i ∈ Finset.range m, (if p i then amount i else 0) ≤ ∑ i ∈ Finset.range m, amount i := by
  refine ⟨Finset.sum_nonneg fun i _ => ?_, Finset.sum_le_sum fun i _ => ?_⟩
  · split
    · exact h i
    · exact le_rfl
  · split
    · exact le_rfl
    · exact h i

end Outstanding

namespace SlidingEvent

variable {es : List SlidingEvent} {m : Nat}

structure Fits (es : List SlidingEvent) : Prop where
  nonneg : ∀ e ∈ es, 0 ≤ e.amount
  total : (es.map (·.amount.toInt)).sum ≤ signedMax64

def amountAt (es : List SlidingEvent) (i : Nat) : Int := es[i]?.elim 0 (·.amount.toInt)

def dueAt (lookBack : Duration) (windows : Nat) (start : Clock) (es : List SlidingEvent) (i : Nat) :
    Nat :=
  RingEvent.dueAt lookBack windows start (es.map (·.onRing lookBack)) i

theorem sum_amountAt (es : List SlidingEvent) (m : Nat) :
    ∑ i ∈ Finset.range m, amountAt es i = ((es.take m).map (·.amount.toInt)).sum := by
  induction m with
  | zero => rfl
  | succ m ih =>
    rw [Finset.sum_range_succ, ih, List.take_add_one, List.map_append, List.sum_append, amountAt]
    cases es[m]? with
    | none => rfl
    | some e => simp

theorem Fits.amountAt_nonneg (h : Fits es) (i : Nat) : 0 ≤ amountAt es i := by
  rw [amountAt]
  cases he : es[i]? with
  | none => exact le_rfl
  | some e => exact Int64.le_iff_toInt_le.1 (h.nonneg e (List.mem_of_getElem? he))

theorem Fits.sum_le (h : Fits es) (hm : m ≤ es.length) :
    ∑ i ∈ Finset.range m, amountAt es i ≤ signedMax64 := by
  have hall := sum_amountAt es es.length
  rw [List.take_length] at hall
  calc ∑ i ∈ Finset.range m, amountAt es i
      ≤ ∑ i ∈ Finset.range es.length, amountAt es i :=
        Finset.sum_le_sum_of_subset_of_nonneg (Finset.range_mono hm) fun i _ _ =>
          h.amountAt_nonneg i
    _ ≤ signedMax64 := hall.trans_le h.total

theorem Fits.amountAt_onRing (h : Fits es) (lookBack : Duration) (i : Nat) :
    RingEvent.amountAt (es.map (·.onRing lookBack)) i = -amountAt es i := by
  rw [RingEvent.amountAt, amountAt, List.getElem?_map]
  cases he : es[i]? with
  | none => rfl
  | some e =>
    have hn := Int64.le_iff_toInt_le.1 (h.nonneg e (List.mem_of_getElem? he))
    cases e with
    | add n | addFor n _ =>
      have hlt := n.toInt_lt
      change (-n).toInt = -n.toInt
      change 0 ≤ n.toInt at hn
      rw [Int64.toInt_neg]
      exact Int.bmod_eq_of_le (by omega) (by omega)
    | check | advance | set => rfl

theorem onRing_eq_purge {e : SlidingEvent} {lookBack : Duration} (h : e.onRing lookBack = .purge) :
    e = .check := by
  cases e with
  | check => rfl
  | add | addFor | advance | set => cases h

end SlidingEvent

theorem ExpiryRing.add_ticks (r : ExpiryRing) (now : Nat) (n : Int64) (lifespan : Duration) :
    r.add now n ⟨lifespan.ticks⟩ = r.add now n lifespan := by
  simp only [add, windowOf, Duration.ticks_ticks]

theorem ClockedRing.maxAge_step (s : ClockedRing) (e : RingEvent) :
    (s.step e).ring.maxAge = s.ring.maxAge := by
  cases e with
  | add n lifespan => exact s.ring.maxAge_add ..
  | purge => exact s.ring.maxAge_purge _
  | advance | set => rfl

namespace ClockedSliding

variable {s : ClockedSliding} {lookBack : Duration}

def reversing (s : ClockedSliding) : ClockedRing := ⟨s.clock, s.sum.reversals.ring⟩

theorem reversing_step (h : s.sum.reversals.ring.maxAge = lookBack.ticks) (e : SlidingEvent) :
    (s.step e).reversing = s.reversing.step (e.onRing lookBack) := by
  cases e with
  | add n =>
    have hm : s.sum.lookBack = ⟨lookBack.ticks⟩ := congrArg Duration.mk h
    have hadd := s.sum.reversals.ring.add_ticks s.clock.now (-n) lookBack
    rw [← hm] at hadd
    exact congrArg (ClockedRing.mk s.clock) hadd
  | check =>
    simp only [step, SlidingSum.check, DeferredSum.flush_eq]
    rfl
  | addFor | advance | set => rfl

theorem pending_step (h : s.sum.reversals.pending = 0) (e : SlidingEvent) :
    (s.step e).sum.reversals.pending = 0 := by
  cases e with
  | check => simp only [step, SlidingSum.check, DeferredSum.flush_eq]
  | add | addFor | advance | set => exact h

theorem reversing_run (h : s.sum.reversals.ring.maxAge = lookBack.ticks)
    (hp : s.sum.reversals.pending = 0) (es : List SlidingEvent) :
    (s.run es).reversing = s.reversing.run (es.map (·.onRing lookBack)) ∧
      (s.run es).sum.reversals.pending = 0 := by
  induction es generalizing s with
  | nil => exact ⟨rfl, hp⟩
  | cons e es ih =>
    have hstep := reversing_step h e
    have hmax : (s.step e).sum.reversals.ring.maxAge = lookBack.ticks :=
      (congrArg (·.ring.maxAge) hstep).trans ((s.reversing.maxAge_step _).trans h)
    rw [List.map_cons, ClockedRing.run, List.foldl_cons, ← hstep]
    exact ih hmax (pending_step hp e)

theorem value_check (s : ClockedSliding) :
    (s.step .check).sum.value =
      s.sum.value + (s.sum.reversals.flush s.clock.now).1 := rfl

def stateAt (s : ClockedSliding) (es : List SlidingEvent) (m : Nat) : ClockedSliding :=
  s.run (es.take m)

theorem stateAt_succ (s : ClockedSliding) {es : List SlidingEvent} {m : Nat} {e : SlidingEvent}
    (he : es[m]? = some e) : s.stateAt es (m + 1) = (s.stateAt es m).step e := by
  rw [stateAt, List.take_add_one, he, run, List.foldl_append]
  rfl

/-- An account of a run, by which each addition that is ever taken back is taken back by one later
check: a check delivers exactly what it takes back, and the value is what is outstanding. Taken back
is all that is due by the clock of a check, and nothing that the clock has not reached by then. -/
structure Reverses (lookBack : Duration) (windows : Nat) (s : ClockedSliding)
    (es : List SlidingEvent) (fate : Nat → Option Nat) : Prop where
  check : ∀ i j, fate i = some j → i < j ∧ es[j]? = some .check
  whole : ∀ j, es[j]? = some .check →
    ((s.stateAt es j).sum.reversals.flush (s.stateAt es j).clock.now).1.toInt =
      -takenBack (SlidingEvent.amountAt es) fate j
  value : ∀ m ≤ es.length,
    (s.stateAt es m).sum.value.toInt = outstanding (SlidingEvent.amountAt es) fate m
  prompt : ∀ i j, SlidingEvent.amountAt es i ≠ 0 → i < j → es[j]? = some .check →
    SlidingEvent.dueAt lookBack windows s.clock es i ≤ (s.stateAt es j).clock.now →
      ∃ j' ≤ j, fate i = some j'
  reached : ∀ i j, fate i = some j →
    ∃ k ≤ j, SlidingEvent.dueAt lookBack windows s.clock es i ≤ (s.stateAt es k).clock.now

/-- Nothing is taken back that was not added, and nothing twice. -/
theorem Reverses.value_mem {windows : Nat} {es : List SlidingEvent} {fate : Nat → Option Nat}
    {m : Nat} (h : Reverses lookBack windows s es fate) (hes : SlidingEvent.Fits es)
    (hm : m ≤ es.length) :
    0 ≤ (s.stateAt es m).sum.value.toInt ∧
      (s.stateAt es m).sum.value.toInt ≤ ((es.take m).map (·.amount.toInt)).sum := by
  rw [h.value m hm, ← SlidingEvent.sum_amountAt]
  exact sum_part_mem hes.amountAt_nonneg _

def fateOf (place : Nat → Place) (i : Nat) : Option Nat :=
  match place i with
  | .handed j => some j
  | _ => none

theorem fateOf_eq_some {place : Nat → Place} {i j : Nat} :
    fateOf place i = some j ↔ place i = .handed j := by
  rw [fateOf]
  split
  · next k hk => rw [hk, Option.some.injEq, Place.handed.injEq]
  · next hne => exact ⟨nofun, fun h => absurd h (hne j)⟩

section Account

variable {es : List SlidingEvent} {due : Nat → Nat} {place : Nat → Place} {m j : Nat}

theorem fits_of_part {n : Int} (hes : SlidingEvent.Fits es) (hj : j ≤ es.length)
    (h : 0 ≤ n ∧ n ≤ ∑ i ∈ Finset.range j, SlidingEvent.amountAt es i) :
    fitsSigned64 n = true ∧ fitsSigned64 (-n) = true := by
  have htotal := h.2.trans (hes.sum_le hj)
  have hn := h.1
  simp only [fitsSigned64, Bool.and_eq_true, decide_eq_true_eq]
  omega

/-- The additions of a run, seen as those that its ring of reversals receives. -/
structure Backed (lookBack : Duration) (s : ClockedSliding) (es : List SlidingEvent)
    (due : Nat → Nat) (place : Nat → Place) : Prop where
  fits : SlidingEvent.Fits es
  value : s.sum.value = 0
  maxAge : s.sum.reversals.ring.maxAge = lookBack.ticks
  accepted : s.sum.reversals.pending = 0
  located : s.reversing.Located (es.map (·.onRing lookBack)) due es.length place

namespace Backed

theorem reversing_stateAt (h : Backed lookBack s es due place) (m : Nat) :
    s.reversing.stateAt (es.map (·.onRing lookBack)) m = (s.stateAt es m).reversing ∧
      (s.stateAt es m).sum.reversals.pending = 0 := by
  rw [ClockedRing.stateAt, ← List.map_take]
  exact (reversing_run h.maxAge h.accepted _).imp_left Eq.symm

theorem later (h : Backed lookBack s es due place) {i : Nat} (hi : fateOf place i = some j) :
    i < j ∧ es[j]? = some .check := by
  have hhanded := fateOf_eq_some.1 hi
  have hpurge := h.located.purge i j hhanded
  rw [List.getElem?_map, Option.map_eq_some_iff] at hpurge
  obtain ⟨e, he, hpurge⟩ := hpurge
  rw [he, SlidingEvent.onRing_eq_purge hpurge]
  exact ⟨(h.located.holds.handed i j hhanded).1, rfl⟩

theorem sumAt_handed (h : Backed lookBack s es due place) (hj : j ≤ es.length) :
    sumAt (RingEvent.amountAt (es.map (·.onRing lookBack))) place es.length (.handed j) =
      -takenBack (SlidingEvent.amountAt es) (fateOf place) j := by
  have hlater : ∀ i, j ≤ i → place i ≠ .handed j := fun i hi hp =>
    Nat.not_lt.2 hi (h.located.holds.handed i j hp).1
  rw [sumAt_eq_of_le hj hlater, sumAt, takenBack, ← Finset.sum_neg_distrib]
  refine Finset.sum_congr rfl fun i _ => ?_
  simp only [h.fits.amountAt_onRing, fateOf_eq_some]
  split
  · rfl
  · exact Int.neg_zero.symm

theorem onRing_check (hj : es[j]? = some .check) :
    (es.map (·.onRing lookBack))[j]? = some .purge := by
  rw [List.getElem?_map, hj]
  rfl

theorem flush_fst (h : Backed lookBack s es due place) (hj : es[j]? = some .check) :
    ((s.stateAt es j).sum.reversals.flush (s.stateAt es j).clock.now).1 =
      .ofInt (-takenBack (SlidingEvent.amountAt es) (fateOf place) j) := by
  obtain ⟨hlt, -⟩ := List.getElem?_eq_some_iff.1 hj
  obtain ⟨hstate, haccepted⟩ := h.reversing_stateAt j
  have hsum := h.located.sum j hlt (onRing_check hj)
  rw [h.sumAt_handed hlt.le, hstate] at hsum
  rw [DeferredSum.flush_eq, haccepted, Int64.add_zero]
  exact hsum

theorem value_eq (h : Backed lookBack s es due place) (hm : m ≤ es.length) :
    (s.stateAt es m).sum.value =
      .ofInt (outstanding (SlidingEvent.amountAt es) (fateOf place) m) := by
  induction m with
  | zero => exact h.value
  | succ m ih =>
    have hvalue := ih (Nat.le_of_succ_le hm)
    have he : es[m]? = some es[m] := List.getElem?_eq_getElem hm
    have hamount : SlidingEvent.amountAt es m = es[m].amount.toInt := by
      rw [SlidingEvent.amountAt, he]
      rfl
    rw [stateAt_succ s he, outstanding_succ fun i j hi => (h.later hi).1, hamount]
    by_cases hcheck : es[m] = .check
    · rw [hcheck] at he ⊢
      rw [value_check, hvalue, h.flush_fst he, ← Int64.ofInt_add, ← Int.sub_eq_add_neg]
      congr 2
      exact (Int.add_zero _).symm
    · have hnone : takenBack (SlidingEvent.amountAt es) (fateOf place) m = 0 :=
        Finset.sum_eq_zero fun i _ => if_neg fun hi =>
          hcheck (Option.some.inj (he.symm.trans (h.later hi).2))
      rw [value_step _ hcheck, hvalue, hnone, Int.sub_zero, Int64.ofInt_add, Int64.ofInt_toInt]

theorem prompt (h : Backed lookBack s es due place) {i : Nat}
    (hi : SlidingEvent.amountAt es i ≠ 0) (hij : i < j) (hj : es[j]? = some .check)
    (hdue : due i ≤ (s.stateAt es j).clock.now) : ∃ j' ≤ j, fateOf place i = some j' := by
  have hne : RingEvent.amountAt (es.map (·.onRing lookBack)) i ≠ 0 := by
    rw [h.fits.amountAt_onRing]
    exact Int.neg_ne_zero.2 hi
  obtain ⟨hlt, -⟩ := List.getElem?_eq_some_iff.1 hj
  obtain ⟨j', hle, hhanded⟩ := h.located.prompt i j hne hij hlt (onRing_check hj)
    ((h.reversing_stateAt j).1 ▸ hdue)
  exact ⟨j', hle, fateOf_eq_some.2 hhanded⟩

theorem reached (h : Backed lookBack s es due place) {i : Nat} (hi : fateOf place i = some j) :
    ∃ k ≤ j, due i ≤ (s.stateAt es k).clock.now := by
  have hdue := h.located.reached i j (fateOf_eq_some.1 hi)
  obtain ⟨k, hk, hhighest⟩ := s.reversing.exists_highest (es.map (·.onRing lookBack)) j
  rw [hhighest, (h.reversing_stateAt k).1] at hdue
  exact ⟨k, hk, hdue⟩

theorem reverses {windows : Nat}
    (h : Backed lookBack s es (SlidingEvent.dueAt lookBack windows s.clock es) place) :
    Reverses lookBack windows s es (fateOf place) := by
  refine ⟨fun i j hi => h.later hi, fun j hj => ?_, fun m hm => ?_,
    fun i j hi hij hj hdue => h.prompt hi hij hj hdue, fun i j hi => h.reached hi⟩
  · obtain ⟨hlt, -⟩ := List.getElem?_eq_some_iff.1 hj
    rw [h.flush_fst hj]
    exact toInt_ofInt_of_fits
      (fits_of_part h.fits hlt.le (sum_part_mem h.fits.amountAt_nonneg _)).2
  · rw [h.value_eq hm]
    exact toInt_ofInt_of_fits (fits_of_part h.fits hm (sum_part_mem h.fits.amountAt_nonneg _)).1

end Backed

end Account

theorem exists_reverses (lookBack : Duration) {windows : Nat} (hw : 0 < windows) (start : Clock)
    {es : List SlidingEvent} (hes : SlidingEvent.Fits es) :
    ∃ c, SlidingSum.create lookBack windows start.now = .ok c ∧
      ∃ fate, Reverses lookBack windows ⟨start, c⟩ es fate := by
  obtain ⟨r, hr⟩ : ∃ r, ExpiryRing.create lookBack windows start.now = .ok r :=
    ⟨_, if_neg (Nat.ne_of_gt hw)⟩
  have hc : SlidingSum.create lookBack windows start.now = .ok ⟨0, .ofRing r⟩ := by
    rw [SlidingSum.create, DeferredSum.create, hr]
    rfl
  obtain ⟨-, hmax, -, -, -, -⟩ := ExpiryRing.create_spec hr
  obtain ⟨place, hplace⟩ := ClockedRing.exists_located (s := ⟨start, r⟩) hr
    (es.map (·.onRing lookBack))
  rw [List.length_map] at hplace
  exact ⟨_, hc, _, Backed.reverses ⟨hes, rfl, hmax, rfl, hplace⟩⟩

end ClockedSliding

end LeastLoad
