import LeastLoad.Expiry.Sliding
import LeastLoad.Proofs.Expiry.Awaited
import LeastLoad.Proofs.Expiry.Ledger

/-! # What remains of a sliding sum

A sliding sum reaches its value in two ways: an addition counts at once, and its reversal comes
back from a ring of windows, in one sum with others. A record of all additions, each with the exact
instant from which it no longer counts, says what the value has to be: after a check, the sum of the
additions that are not over yet. Both agree after every run, and no partial sum has to fit for it,
since counters that wrap cancel as numbers do. -/

namespace LeastLoad

inductive SlidingEvent where
  | add (n : Int64)
  | addFor (n : Int64) (lifespan : Duration)
  | check
  | advance (d : Duration)
  | set (d : Duration)

namespace SlidingEvent

def onRing (lookBack : Duration) : SlidingEvent → RingEvent
  | add n => .add (-n) lookBack
  | addFor n lifespan => .add (-n) lifespan
  | check => .purge
  | advance d => .advance d
  | set d => .set d

def amount : SlidingEvent → Int64
  | add n | addFor n _ => n
  | _ => 0

end SlidingEvent

structure ClockedSliding where
  clock : Clock
  sum : SlidingSum

namespace ClockedSliding

def step (s : ClockedSliding) : SlidingEvent → ClockedSliding
  | .add n => { s with sum := s.sum.add s.clock.now n }
  | .addFor n lifespan => { s with sum := s.sum.addFor s.clock.now n lifespan }
  | .check => { s with sum := s.sum.check s.clock.now }
  | .advance d => { s with clock := s.clock.advance d }
  | .set d => { s with clock := s.clock.set d }

def run (s : ClockedSliding) (es : List SlidingEvent) : ClockedSliding := es.foldl step s

theorem clock_step (s : ClockedSliding) (lookBack : Duration) (e : SlidingEvent) :
    (s.step e).clock = s.clock.after (e.onRing lookBack) := by
  cases e <;> rfl

theorem value_step (s : ClockedSliding) {e : SlidingEvent} (he : e ≠ .check) :
    (s.step e).sum.value = s.sum.value + e.amount := by
  cases e with
  | add | addFor => rfl
  | check => exact absurd rfl he
  | advance | set => exact (Int64.add_zero _).symm

end ClockedSliding

def remaining (t : Nat) (entries : List LedgerEntry) : Int :=
  ((entries.filter (t < ·.expiry)).map (·.count.toInt)).sum

structure AdditionRecord where
  lookBack : Duration
  windows : Nat
  clock : Clock
  additions : List LedgerEntry := []
  value : Int := 0

namespace AdditionRecord

def add (a : AdditionRecord) (n : Int64) (lifespan : Duration) : AdditionRecord :=
  { a with
    additions := ⟨roundedExpiry a.lookBack a.windows a.clock.now lifespan, n⟩ :: a.additions
    value := a.value + n.toInt }

def step (a : AdditionRecord) : SlidingEvent → AdditionRecord
  | .add n => a.add n a.lookBack
  | .addFor n lifespan => a.add n lifespan
  | .check => { a with value := remaining a.clock.now a.additions }
  | .advance d => { a with clock := a.clock.advance d }
  | .set d => { a with clock := a.clock.set d }

def run (a : AdditionRecord) (es : List SlidingEvent) : AdditionRecord := es.foldl step a

end AdditionRecord

def LedgerEntry.reversal (e : LedgerEntry) : LedgerEntry := ⟨e.expiry, -e.count⟩

/-- A sliding sum and a record that have seen the same events; `pending` is what has been added and
not yet reversed. -/
structure Remains (pending : List LedgerEntry) (s : ClockedSliding) (a : AdditionRecord) :
    Prop where
  agrees : Agrees ⟨s.clock, s.sum.reversals.ring⟩
    ⟨a.lookBack, a.windows, a.clock, pending.map (·.reversal)⟩
  accepted : s.sum.reversals.pending = 0
  value : s.sum.value = .ofInt a.value
  total : a.value = (pending.map (·.count.toInt)).sum
  ahead : ∀ t, a.clock.now ≤ t →
    pending.filter (t < ·.expiry) = a.additions.filter (t < ·.expiry)

theorem owedBy_add_remaining (t : Nat) (entries : List LedgerEntry) :
    owedBy t entries + remaining t entries = (entries.map (·.count.toInt)).sum := by
  induction entries with
  | nil => rfl
  | cons e entries ih =>
    rw [owedBy_cons, List.map_cons, List.sum_cons, ← ih]
    by_cases he : e.expiry ≤ t
    · simp only [remaining, List.filter_cons, he, Nat.not_lt.2 he, decide_false,
        Bool.false_eq_true, if_true, if_false, Int.add_assoc]
    · simp only [remaining, List.filter_cons, he, Nat.lt_of_not_le he, decide_true, if_true,
        if_false, List.map_cons, List.sum_cons]
      omega

/-- Reversals take back what is owed, also where a count is its own negative. -/
theorem ofInt_owedBy_reversal (t : Nat) (entries : List LedgerEntry) :
    Int64.ofInt (owedBy t (entries.map (·.reversal))) = -.ofInt (owedBy t entries) := by
  induction entries with
  | nil => simp [owedBy]
  | cons e entries ih =>
    have hcount : e.reversal.count = -e.count := rfl
    rw [List.map_cons, owedBy_cons, owedBy_cons, Int64.ofInt_add, Int64.ofInt_add, ih]
    by_cases he : e.expiry ≤ t
    · rw [if_pos he, if_pos (show e.reversal.expiry ≤ t from he), Int64.ofInt_toInt,
        Int64.ofInt_toInt, hcount]
      grind
    · rw [if_neg he, if_neg (show ¬e.reversal.expiry ≤ t from he)]
      grind

namespace Remains

variable {pending : List LedgerEntry} {s : ClockedSliding} {a : AdditionRecord}

theorem clock (h : Remains pending s a) : s.clock = a.clock := h.agrees.clock

theorem addFor (h : Remains pending s a) (n : Int64) (lifespan : Duration) :
    ∃ pending', Remains pending' (s.step (.addFor n lifespan)) (a.add n lifespan) := by
  refine ⟨⟨roundedExpiry a.lookBack a.windows a.clock.now lifespan, n⟩ :: pending,
    h.agrees.add (-n) lifespan, h.accepted, ?_, ?_, fun t ht => ?_⟩
  · simp only [ClockedSliding.step, SlidingSum.addFor, AdditionRecord.add, h.value, Int64.ofInt_add,
      Int64.ofInt_toInt]
  · simp only [AdditionRecord.add, h.total, List.map_cons, List.sum_cons, Int.add_comm]
  · simp only [AdditionRecord.add, List.filter_cons, h.ahead t ht]

theorem add (h : Remains pending s a) (n : Int64) :
    ∃ pending', Remains pending' (s.step (.add n)) (a.add n a.lookBack) := by
  have hm : s.sum.lookBack = ⟨a.lookBack.ticks⟩ := congrArg Duration.mk h.agrees.maxAge
  have hadd := h.addFor n s.sum.lookBack
  rw [AdditionRecord.add, hm, roundedExpiry_ticks, ← hm] at hadd
  exact hadd

theorem check (h : Remains pending s a) :
    Remains (pending.filter (a.clock.now < ·.expiry)) (s.step .check) (a.step .check) := by
  have hpurge : (s.sum.reversals.ring.purge s.clock.now).1 = -.ofInt (owedBy a.clock.now pending) :=
    h.agrees.purge_eq.trans (ofInt_owedBy_reversal _ _)
  have hahead : remaining a.clock.now pending = remaining a.clock.now a.additions := by
    rw [remaining, h.ahead _ le_rfl, remaining]
  have hvalue : (s.step .check).sum.value = .ofInt (remaining a.clock.now a.additions) := by
    simp only [ClockedSliding.step, SlidingSum.check, DeferredSum.flush_eq, h.accepted, hpurge,
      h.value]
    rw [h.total, ← owedBy_add_remaining a.clock.now, hahead, Int64.ofInt_add]
    grind
  have hring : (s.step .check).sum.reversals = ⟨(s.sum.reversals.ring.purge s.clock.now).2, 0⟩ := by
    simp only [ClockedSliding.step, SlidingSum.check, DeferredSum.flush_eq]
  refine ⟨?_, ?_, hvalue, ?_, fun t ht => ?_⟩
  · have hagrees : Agrees ⟨s.clock, (s.sum.reversals.ring.purge s.clock.now).2⟩
        ⟨a.lookBack, a.windows, a.clock,
          (pending.map (·.reversal)).filter (a.clock.now < ·.expiry)⟩ := h.agrees.purge
    rw [hring]
    rw [List.filter_map] at hagrees
    exact hagrees
  · rw [hring]
  · exact hahead.symm
  · -- what is filtered out now is filtered out at every later reading
    have ht : a.clock.now ≤ t := ht
    change _ = a.additions.filter (t < ·.expiry)
    rw [← h.ahead t ht, List.filter_filter]
    refine List.filter_congr fun e _ => ?_
    have himp : t < e.expiry → a.clock.now < e.expiry := ht.trans_lt
    simpa using himp

theorem later (h : Remains pending s a) {c : Clock} (hc : s.clock.now ≤ c.now) :
    Remains pending { s with clock := c } { a with clock := c } :=
  ⟨h.agrees.later hc, h.accepted, h.value, h.total,
    fun t ht => h.ahead t ((h.clock ▸ hc).trans ht)⟩

theorem run (h : Remains pending s a) {es : List SlidingEvent}
    (hes : s.clock.Forward (es.map (·.onRing a.lookBack))) :
    ∃ pending', Remains pending' (s.run es) (a.run es) := by
  induction es generalizing s a pending with
  | nil => exact ⟨pending, h⟩
  | cons e es ih =>
    have hstep : ∃ pending', Remains pending' (s.step e) (a.step e) := by
      cases e with
      | add n => exact h.add n
      | addFor n lifespan => exact h.addFor n lifespan
      | check => exact ⟨_, h.check⟩
      | advance d | set d =>
        refine ⟨pending, ?_⟩
        simpa only [SlidingEvent.onRing, Clock.after, ClockedSliding.step, AdditionRecord.step,
          h.clock] using h.later hes.le_now_after
    have hback : (a.step e).lookBack = a.lookBack := by cases e <;> rfl
    obtain ⟨pending', hstep⟩ := hstep
    refine ih hstep ?_
    rw [s.clock_step a.lookBack, hback]
    exact hes.tail

theorem create (lookBack : Duration) {windows : Nat} (hw : 0 < windows) (start : Clock) :
    ∃ c, SlidingSum.create lookBack windows start.now = .ok c ∧
      Remains [] ⟨start, c⟩ ⟨lookBack, windows, start, [], 0⟩ := by
  obtain ⟨r, hr, h⟩ := Agrees.create lookBack hw start
  refine ⟨⟨0, .ofRing r⟩, ?_, h, rfl, rfl, rfl, fun _ _ => rfl⟩
  rw [SlidingSum.create, DeferredSum.create, hr]
  rfl

end Remains

/-- A check leaves the sum of the additions that are not over by then, and zero if there are none.
In between, an addition counts at once and in full, and the clock alone changes nothing. -/
theorem SlidingSum.counts_what_remains (lookBack : Duration) {windows : Nat} (hw : 0 < windows)
    (start : Clock) (es : List SlidingEvent) (hes : start.Forward (es.map (·.onRing lookBack))) :
    ∃ c, SlidingSum.create lookBack windows start.now = .ok c ∧
      let s := (ClockedSliding.mk start c).run es
      let a := (AdditionRecord.mk lookBack windows start [] 0).run es
      (fitsSigned64 (remaining s.clock.now a.additions) = true →
        (s.step .check).sum.value.toInt = remaining s.clock.now a.additions) ∧
      ((∀ e ∈ a.additions, e.expiry ≤ s.clock.now) → (s.step .check).sum.value = 0) ∧
      (fitsSigned64 a.value = true → s.sum.value.toInt = a.value) ∧
      ∀ e ≠ .check, fitsSigned64 (s.sum.value.toInt + e.amount.toInt) = true →
        (s.step e).sum.value.toInt = s.sum.value.toInt + e.amount.toInt := by
  obtain ⟨c, hc, h⟩ := Remains.create lookBack hw start
  obtain ⟨pending, hrun⟩ := h.run hes
  have hcheck := hrun.check.value
  refine ⟨c, hc, fun hfit => ?_, fun hover => ?_, fun hfit => ?_, fun e he hfit => ?_⟩
  · rw [hrun.clock] at hfit ⊢
    rw [hcheck]
    exact toInt_ofInt_of_fits hfit
  · have hnone : ((AdditionRecord.mk lookBack windows start [] 0).run es).additions.filter
        (((AdditionRecord.mk lookBack windows start [] 0).run es).clock.now < ·.expiry) = [] :=
      List.filter_eq_nil_iff.2 fun e he => by simpa [← hrun.clock] using hover e he
    rw [hcheck, AdditionRecord.step, remaining, hnone]
    rfl
  · rw [hrun.value]
    exact toInt_ofInt_of_fits hfit
  · rw [ClockedSliding.value_step _ he]
    exact toInt_add_of_fits hfit

/-- By 33 seconds the first of two additions is over. -/
theorem SlidingSum.counts_what_remains_of_two :
    ∃ c, SlidingSum.create (.ofSeconds 30) 10 0 = .ok c ∧
      (((ClockedSliding.mk ⟨0, Nat.zero_le _⟩ c).run
        [.add 2, .set (.ofSeconds 10), .add 3, .set (.ofSeconds 33)]).step .check).sum.value.toInt =
          3 := by
  obtain ⟨c, hc, hcheck, -⟩ := SlidingSum.counts_what_remains (.ofSeconds 30) (by decide : 0 < 10)
    ⟨0, Nat.zero_le _⟩ [.add 2, .set (.ofSeconds 10), .add 3, .set (.ofSeconds 33)] trivial
  exact ⟨c, hc, hcheck rfl⟩

end LeastLoad
