import LeastLoad.Expiry.Deferred
import LeastLoad.Proofs.Expiry.Ledger

/-! # Deferred sums against a plain account

An account keeps every scheduled count with the exact instant from which it is due, and how much
of the sum has been accepted. What a check has to offer is the difference: all that is due and not
yet accepted, however often parts of it were refused before. A deferred sum on a clock that moves
forward makes exactly these offers, so that what was accepted and what it still holds as pending
always add up to what is due. -/

namespace LeastLoad

inductive DeferredEvent where
  /-- Schedules a count for the longest delay. -/
  | schedule (n : Int64)
  | scheduleAfter (n : Int64) (delay : Duration)
  /-- Offers what is due to a consumer that answers each sum in its own way. -/
  | check (accepts : Int64 → Bool)
  | advance (d : Duration)
  | set (d : Duration)

def DeferredEvent.onRing (maxDelay : Duration) : DeferredEvent → RingEvent
  | schedule n => .add n maxDelay
  | scheduleAfter n delay => .add n delay
  | check _ => .purge
  | advance d => .advance d
  | set d => .set d

structure ClockedDeferred where
  clock : Clock
  sum : DeferredSum
  offers : List Delivery := []

namespace ClockedDeferred

def accepted (s : ClockedDeferred) : Int :=
  ((s.offers.filter (·.accepted)).map (·.sum.toInt)).sum

def schedule (s : ClockedDeferred) (n : Int64) (delay : Duration) : ClockedDeferred :=
  { s with sum := s.sum.schedule s.clock.now n delay }

def offer (s : ClockedDeferred) (accepts : Int64 → Bool) : Option Delivery :=
  (s.sum.check s.clock.now accepts).1

def check (s : ClockedDeferred) (accepts : Int64 → Bool) : ClockedDeferred :=
  { s with
    sum := (s.sum.check s.clock.now accepts).2
    offers := s.offers ++ (s.offer accepts).toList }

def step (s : ClockedDeferred) : DeferredEvent → ClockedDeferred
  | .schedule n => s.schedule n s.sum.maxDelay
  | .scheduleAfter n delay => s.schedule n delay
  | .check accepts => s.check accepts
  | .advance d => { s with clock := s.clock.advance d }
  | .set d => { s with clock := s.clock.set d }

def run (s : ClockedDeferred) (es : List DeferredEvent) : ClockedDeferred := es.foldl step s

theorem clock_step (s : ClockedDeferred) (maxDelay : Duration) (e : DeferredEvent) :
    (s.step e).clock = s.clock.after (e.onRing maxDelay) := by
  cases e <;> rfl

/-- What a check does when `due` is, exactly, all that is due and not yet accepted. -/
structure Settles (s : ClockedDeferred) (accepts : Int64 → Bool) (due : Int) : Prop where
  /-- The consumer is called at most once, with the whole of it, and never with zero. -/
  offered : (s.offer accepts).map (·.sum.toInt) = if due = 0 then none else some due
  answered : ∀ o, s.offer accepts = some o → o.accepted = accepts o.sum
  refused : ∀ o, s.offer accepts = some o → o.accepted = false →
    (s.check accepts).accepted = s.accepted ∧ (s.check accepts).sum.pending.toInt = due
  taken : (∀ o, s.offer accepts = some o → o.accepted = true) →
    (s.check accepts).accepted = s.accepted + due ∧ (s.check accepts).sum.pending = 0

end ClockedDeferred

structure DeliveryAccount where
  maxDelay : Duration
  windows : Nat
  clock : Clock
  scheduled : List LedgerEntry := []
  accepted : Int := 0

namespace DeliveryAccount

def due (a : DeliveryAccount) : Int := owedBy a.clock.now a.scheduled - a.accepted

def schedule (a : DeliveryAccount) (n : Int64) (delay : Duration) : DeliveryAccount :=
  { a with
    scheduled := ⟨roundedExpiry a.maxDelay a.windows a.clock.now delay, n⟩ :: a.scheduled }

def check (a : DeliveryAccount) (accepts : Int64 → Bool) : DeliveryAccount :=
  { a with accepted := a.accepted + if accepts (.ofInt a.due) then a.due else 0 }

def step (a : DeliveryAccount) : DeferredEvent → DeliveryAccount
  | .schedule n => a.schedule n a.maxDelay
  | .scheduleAfter n delay => a.schedule n delay
  | .check accepts => a.check accepts
  | .advance d => { a with clock := a.clock.advance d }
  | .set d => { a with clock := a.clock.set d }

def run (a : DeliveryAccount) (es : List DeferredEvent) : DeliveryAccount := es.foldl step a

def dues (a : DeliveryAccount) : List DeferredEvent → List Int
  | [] => []
  | .check accepts :: es => a.due :: (a.check accepts).dues es
  | e :: es => (a.step e).dues es

theorem dues_append (a : DeliveryAccount) (es es' : List DeferredEvent) :
    a.dues (es ++ es') = a.dues es ++ (a.run es).dues es' := by
  induction es generalizing a with
  | nil => rfl
  | cons e es ih =>
    cases e with
    | check accepts => exact congrArg (a.due :: ·) (ih _)
    | schedule | scheduleAfter | advance | set => exact ih _

end DeliveryAccount

theorem ofInt_eq_zero_iff_of_fits {n : Int} (h : fitsSigned64 n = true) :
    Int64.ofInt n = 0 ↔ n = 0 := by
  rw [← Int64.toInt_inj, toInt_ofInt_of_fits h]
  rfl

namespace DeferredSum

/-- What is pending is part of the offer, and the refused offer is what is pending afterwards. -/
theorem check_eq (c : DeferredSum) (now : Nat) (accepts : Int64 → Bool) :
    c.check now accepts =
      let due := (c.ring.purge now).1 + c.pending
      (if due = 0 then none else some ⟨due, accepts due⟩,
        ⟨(c.ring.purge now).2, if accepts due then 0 else due⟩) := by
  simp only [check]
  split
  · next hz =>
    rw [hz, ite_self]
  · split
    · next hyes => rw [hyes]
    · next hno => rw [Bool.eq_false_iff.2 hno]

end DeferredSum

/-- A deferred sum and an account that have seen the same events; `pending` is what the ring still
keeps, counts that are due by now included. -/
structure Delivers (pending : List LedgerEntry) (s : ClockedDeferred) (a : DeliveryAccount) :
    Prop where
  agrees : Agrees ⟨s.clock, s.sum.ring⟩ ⟨a.maxDelay, a.windows, a.clock, pending⟩
  accepted : s.accepted = a.accepted
  owed : ∀ t, a.clock.now ≤ t →
    owedBy t a.scheduled = a.accepted + s.sum.pending.toInt + owedBy t pending

namespace Delivers

variable {pending : List LedgerEntry} {s : ClockedDeferred} {a : DeliveryAccount}

theorem clock (h : Delivers pending s a) : s.clock = a.clock := h.agrees.clock

theorem due_eq (h : Delivers pending s a) :
    a.due = s.sum.pending.toInt + owedBy a.clock.now pending := by
  rw [DeliveryAccount.due, h.owed _ le_rfl]
  omega

theorem check_eq (h : Delivers pending s a) (accepts : Int64 → Bool) :
    s.sum.check s.clock.now accepts =
      let due : Int64 := .ofInt a.due
      (if due = 0 then none else some ⟨due, accepts due⟩,
        ⟨(s.sum.ring.purge s.clock.now).2, if accepts due then 0 else due⟩) := by
  have hpurge := h.agrees.purge_eq
  have hdue : (s.sum.ring.purge s.clock.now).1 + s.sum.pending = .ofInt a.due := by
    dsimp only at hpurge
    rw [hpurge, h.due_eq, Int64.ofInt_add, Int64.ofInt_toInt, Int64.add_comm]
  rw [DeferredSum.check_eq, hdue]

theorem schedule (h : Delivers pending s a) (n : Int64) (delay : Duration) :
    ∃ pending', Delivers pending' (s.schedule n delay) (a.schedule n delay) := by
  refine ⟨_, h.agrees.add n delay, h.accepted, fun t ht => ?_⟩
  have howed := h.owed t ht
  simp only [DeliveryAccount.schedule, owedBy_cons] at howed ⊢
  rw [howed]
  exact Int.add_left_comm ..

theorem maxDelay_ticks (h : Delivers pending s a) (n : Int64) :
    a.schedule n s.sum.maxDelay = a.schedule n a.maxDelay := by
  have hm : s.sum.maxDelay = ⟨a.maxDelay.ticks⟩ := congrArg Duration.mk h.agrees.maxAge
  rw [DeliveryAccount.schedule, hm, roundedExpiry_ticks]
  rfl

theorem offer_eq (h : Delivers pending s a) (hfit : fitsSigned64 a.due = true)
    (accepts : Int64 → Bool) :
    s.offer accepts =
      if a.due = 0 then none else some ⟨.ofInt a.due, accepts (.ofInt a.due)⟩ := by
  rw [ClockedDeferred.offer, h.check_eq]
  simp only [ofInt_eq_zero_iff_of_fits hfit]

theorem pending_check (h : Delivers pending s a) (accepts : Int64 → Bool) :
    (s.check accepts).sum.pending =
      if accepts (.ofInt a.due) then 0 else .ofInt a.due := by
  rw [ClockedDeferred.check, h.check_eq]

theorem accepted_check (h : Delivers pending s a) (hfit : fitsSigned64 a.due = true)
    (accepts : Int64 → Bool) :
    (s.check accepts).accepted = s.accepted + if accepts (.ofInt a.due) then a.due else 0 := by
  have hdue := toInt_ofInt_of_fits hfit
  simp only [ClockedDeferred.accepted, ClockedDeferred.check, h.offer_eq hfit, List.filter_append,
    List.map_append, List.sum_append]
  congr 1
  by_cases hz : a.due = 0
  · simp [hz]
  · cases accepts (.ofInt a.due) <;> simp [hz, hdue]

theorem settles (h : Delivers pending s a) (hfit : fitsSigned64 a.due = true)
    (accepts : Int64 → Bool) : s.Settles accepts a.due := by
  have hoffer : ∀ o, s.offer accepts = some o ↔
      a.due ≠ 0 ∧ ⟨.ofInt a.due, accepts (.ofInt a.due)⟩ = o := by
    intro o
    rw [h.offer_eq hfit, Option.ite_none_left_eq_some, Option.some_inj]
  have hdue := toInt_ofInt_of_fits hfit
  have haccepted := h.accepted_check hfit accepts
  have hpending := h.pending_check accepts
  refine ⟨?_, ?_, ?_, ?_⟩
  · rw [h.offer_eq hfit]
    split
    · rfl
    · rw [Option.map_some, hdue]
  · intro o ho
    obtain ⟨-, rfl⟩ := (hoffer o).1 ho
    rfl
  · intro o ho hno
    obtain ⟨-, rfl⟩ := (hoffer o).1 ho
    have hno : accepts (.ofInt a.due) = false := hno
    rw [haccepted, hpending, hno]
    exact ⟨Int.add_zero _, hdue⟩
  · intro hyes
    -- nothing due is as good as taken, since there is no offer that could be refused
    by_cases hz : a.due = 0
    · rw [haccepted, hpending, hz, ite_self]
      exact ⟨rfl, ite_self _⟩
    · have hyes : accepts (.ofInt a.due) = true := hyes _ ((hoffer _).2 ⟨hz, rfl⟩)
      rw [haccepted, hpending, hyes]
      exact ⟨rfl, rfl⟩

theorem accepted_add_pending (h : Delivers pending s a) (hfit : fitsSigned64 a.due = true)
    (accepts : Int64 → Bool) :
    (s.check accepts).accepted + (s.check accepts).sum.pending.toInt =
      owedBy s.clock.now a.scheduled := by
  have hdue : a.accepted + a.due = owedBy s.clock.now a.scheduled := by
    rw [DeliveryAccount.due, h.clock]
    omega
  rw [h.accepted_check hfit, h.pending_check, h.accepted, ← hdue]
  split
  · exact Int.add_zero _
  · rw [toInt_ofInt_of_fits hfit, Int.add_zero]

theorem check (h : Delivers pending s a) (hfit : fitsSigned64 a.due = true)
    (accepts : Int64 → Bool) :
    ∃ pending', Delivers pending' (s.check accepts) (a.check accepts) := by
  have hring : (s.check accepts).sum.ring = (s.sum.ring.purge s.clock.now).2 := by
    rw [ClockedDeferred.check, h.check_eq]
  have haccepted : (s.check accepts).accepted = (a.check accepts).accepted := by
    rw [h.accepted_check hfit, h.accepted, DeliveryAccount.check]
  refine ⟨pending.filter (a.clock.now < ·.expiry), ?_, haccepted, fun t ht => ?_⟩
  · have hpurge : Agrees ⟨s.clock, (s.sum.ring.purge s.clock.now).2⟩
        ⟨a.maxDelay, a.windows, a.clock, pending.filter (a.clock.now < ·.expiry)⟩ := h.agrees.purge
    rw [← hring] at hpurge
    exact hpurge
  · have howed := h.owed t ht
    have hnow := h.owed _ (le_refl a.clock.now)
    have hlater := owedBy_later (t := a.clock.now) ht pending
    rw [← haccepted, h.accepted_add_pending hfit, h.clock]
    change owedBy t a.scheduled = _
    omega

theorem later (h : Delivers pending s a) {c : Clock} (hc : s.clock.now ≤ c.now) :
    Delivers pending { s with clock := c } { a with clock := c } :=
  ⟨h.agrees.later hc, h.accepted, fun t ht => h.owed t ((h.clock ▸ hc).trans ht)⟩

theorem run (h : Delivers pending s a) {es : List DeferredEvent}
    (hes : s.clock.Forward (es.map (·.onRing a.maxDelay)))
    (hfit : ∀ n ∈ a.dues es, fitsSigned64 n = true) :
    ∃ pending', Delivers pending' (s.run es) (a.run es) := by
  induction es generalizing s a pending with
  | nil => exact ⟨pending, h⟩
  | cons e es ih =>
    have hrest : ∀ n ∈ (a.step e).dues es, fitsSigned64 n = true := by
      intro n hn
      cases e with
      | check accepts => exact hfit n (List.mem_cons_of_mem _ hn)
      | schedule | scheduleAfter | advance | set => exact hfit n hn
    have hstep : ∃ pending', Delivers pending' (s.step e) (a.step e) := by
      cases e with
      | schedule n =>
        -- the ring has the longest delay cut to the horizon, which rounding does as well
        rw [DeliveryAccount.step, ← h.maxDelay_ticks]
        exact h.schedule n _
      | scheduleAfter n delay => exact h.schedule n delay
      | check accepts => exact h.check (hfit _ List.mem_cons_self) accepts
      | advance d | set d =>
        refine ⟨pending, ?_⟩
        simpa only [DeferredEvent.onRing, Clock.after, ClockedDeferred.step, DeliveryAccount.step,
          h.clock] using h.later hes.le_now_after
    obtain ⟨pending', hstep⟩ := hstep
    have hmax : (a.step e).maxDelay = a.maxDelay := by cases e <;> rfl
    refine ih hstep ?_ hrest
    rw [s.clock_step a.maxDelay, hmax]
    exact hes.tail

theorem create (maxDelay : Duration) {windows : Nat} (hw : 0 < windows) (start : Clock) :
    ∃ c, DeferredSum.create maxDelay windows start.now = .ok c ∧
      Delivers [] ⟨start, c, []⟩ ⟨maxDelay, windows, start, [], 0⟩ := by
  obtain ⟨r, hr, h⟩ := Agrees.create maxDelay hw start
  refine ⟨.ofRing r, ?_, h, rfl, fun _ _ => rfl⟩
  rw [DeferredSum.create, hr]
  rfl

end Delivers

/-- Each check of a run offers exactly what is due and was never accepted, in one call and never a
zero. So what was accepted and what is pending after the check add up to all that is due by then,
whatever the consumer refused before. -/
theorem DeferredSum.delivers_once (maxDelay : Duration) {windows : Nat} (hw : 0 < windows)
    (start : Clock) (es : List DeferredEvent) (accepts : Int64 → Bool)
    (hes : start.Forward (es.map (·.onRing maxDelay)))
    (hfit : ∀ n ∈ (DeliveryAccount.mk maxDelay windows start [] 0).dues (es ++ [.check accepts]),
      fitsSigned64 n = true) :
    ∃ c, DeferredSum.create maxDelay windows start.now = .ok c ∧
      let s := (ClockedDeferred.mk start c []).run es
      let scheduled := ((DeliveryAccount.mk maxDelay windows start [] 0).run es).scheduled
      s.Settles accepts (owedBy s.clock.now scheduled - s.accepted) ∧
        (s.check accepts).accepted + (s.check accepts).sum.pending.toInt =
          owedBy s.clock.now scheduled := by
  obtain ⟨c, hc, h⟩ := Delivers.create maxDelay hw start
  rw [DeliveryAccount.dues_append] at hfit
  obtain ⟨pending, hrun⟩ := h.run hes fun n hn => hfit n (List.mem_append_left _ hn)
  have hdue := hfit _ (List.mem_append_right _ List.mem_cons_self)
  have hsettles := hrun.settles hdue accepts
  rw [DeliveryAccount.due, ← hrun.accepted, ← hrun.clock] at hsettles
  exact ⟨c, hc, hsettles, hrun.accepted_add_pending hdue accepts⟩

/-- A refused 3 is offered again together with the 4 that has fallen due in the meantime. -/
theorem DeferredSum.delivers_once_after_refusal :
    ∃ c, DeferredSum.create (.ofSeconds 30) 10 0 = .ok c ∧
      let s := (ClockedDeferred.mk ⟨0, Nat.zero_le _⟩ c []).run
        [.scheduleAfter 3 (.ofSeconds 5), .set (.ofSeconds 6), .check fun _ => false,
          .scheduleAfter 4 (.ofSeconds 5), .set (.ofSeconds 12)]
      (s.check fun _ => true).accepted = 7 ∧ (s.check fun _ => true).sum.pending = 0 := by
  obtain ⟨c, hc, hsettles, htotal⟩ := DeferredSum.delivers_once (.ofSeconds 30)
    (by decide : 0 < 10) ⟨0, Nat.zero_le _⟩
    [.scheduleAfter 3 (.ofSeconds 5), .set (.ofSeconds 6), .check fun _ => false,
      .scheduleAfter 4 (.ofSeconds 5), .set (.ofSeconds 12)]
    (fun _ => true) trivial (by decide)
  have hnone := (hsettles.taken fun o ho => hsettles.answered o ho).2
  rw [hnone] at htotal
  exact ⟨c, hc, (Int.add_zero _).symm.trans (htotal.trans rfl), hnone⟩

end LeastLoad
