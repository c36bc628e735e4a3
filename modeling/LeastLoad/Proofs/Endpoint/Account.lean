import LeastLoad.Proofs.Endpoint.Directory
import LeastLoad.Proofs.Expiry.Awaited
import LeastLoad.Proofs.Expiry.Ledger
import Mathlib.Order.Bounds.Defs

/-! # What a load adds up to

A load is driven by calls in any order and by a clock that moves forward. What its counter shows
once all that is due has been applied is the units handed out and not yet finished, and the weight
of each penalty whose removal lies ahead. Removals share the windows of a ring and come off in
sums; the ledger of the ring tells them apart, and `Accounts` carries the sum from call to call. -/

namespace LeastLoad

inductive LoadEvent where
  | acquire (n : Int32)
  | release (n : Int32) (latency : Duration)
  | penalize (latency : Duration)
  | sync
  | advance (d : Duration)
  | set (d : Duration)

structure ClockedLoad where
  clock : Clock
  load : EndpointLoad

namespace FailureSustain

def units (f : FailureSustain) : Nat := min f.weight signedMax32

def width (f : FailureSustain) (windows : Nat) : Nat := f.duration.nanos ⌈/⌉ windows

/-- The instant from which a penalty given at `now` is off, as a number without a limit. -/
def removal (f : FailureSustain) (windows now : Nat) (latency : Duration) : Nat :=
  if f.duration.nanos = 0 then now
  else ((now + (f.duration.minus latency).nanos) / f.width windows + 1) * f.width windows

theorem width_pos {f : FailureSustain} {windows : Nat} (hf : f.duration.nanos ≠ 0)
    (hw : 0 < windows) : 0 < f.width windows := by
  rw [width, Nat.ceilDiv_eq_add_pred_div]
  exact Nat.div_pos (by omega) hw

theorem isLeast_multiple {width : Nat} (h : 0 < width) (x : Nat) :
    IsLeast {m | width ∣ m ∧ x < m} ((x / width + 1) * width) := by
  refine ⟨⟨Nat.dvd_mul_left _ _, Nat.lt_mul_of_div_lt (Nat.lt_succ_self _) h⟩, ?_⟩
  rintro m ⟨⟨k, rfl⟩, hm⟩
  rw [Nat.mul_comm width k] at hm ⊢
  exact Nat.mul_le_mul_right _ (Nat.succ_le_of_lt ((Nat.div_lt_iff_lt_mul h).2 hm))

theorem isLeast_removal {f : FailureSustain} {windows : Nat} (hf : f.duration.nanos ≠ 0)
    (hw : 0 < windows) (now : Nat) (latency : Duration) :
    IsLeast {m | f.width windows ∣ m ∧ now + (f.duration.minus latency).nanos < m}
      (f.removal windows now latency) := by
  rw [removal, if_neg hf]
  exact isLeast_multiple (width_pos hf hw) _

/-- A penalty ends as if the request had been held from its dispatch on. -/
theorem isLeast_removal_of_dispatch {f : FailureSustain} {windows : Nat}
    (hf : f.duration.nanos ≠ 0) (hw : 0 < windows) {now dispatched : Nat} (hle : dispatched ≤ now)
    (hwithin : now ≤ dispatched + f.duration.nanos) :
    IsLeast {m | f.width windows ∣ m ∧ dispatched + f.duration.nanos < m}
      (f.removal windows now ⟨now - dispatched⟩) := by
  have hleast := isLeast_removal hf hw now ⟨now - dispatched⟩
  have hheld : now + (f.duration.minus ⟨now - dispatched⟩).nanos =
      dispatched + f.duration.nanos := by
    simp only [Duration.minus]
    omega
  rwa [hheld] at hleast

theorem roundedExpiry_eq_removal {f : FailureSustain} {now : Nat} (windows : Nat)
    (latency : Duration) (h : now + f.duration.nanos ≤ horizon) :
    roundedExpiry f.duration windows now (f.duration.minus latency) =
      f.removal windows now latency := by
  have ht : f.duration.ticks = f.duration.nanos := Duration.ticks_of_le (by omega)
  have hle : (f.duration.minus latency).nanos ≤ f.duration.nanos := Nat.sub_le _ _
  have hr : (f.duration.minus latency).ticks = (f.duration.minus latency).nanos :=
    Duration.ticks_of_le (by omega)
  rw [roundedExpiry, removal, ht, hr, Nat.min_eq_left hle, Nat.min_eq_left (by omega)]
  rfl

end FailureSustain

namespace LoadEvent

def units : LoadEvent → Int
  | acquire n => n.toInt
  | release n _ => -n.toInt
  | _ => 0

def removal (f : FailureSustain) (windows : Nat) (c : Clock) : LoadEvent → List Nat
  | penalize latency => [f.removal windows c.now latency]
  | _ => []

end LoadEvent

/-- What has been called on a load, each call with the clock at which it was made. -/
abbrev LoadAccount := List (Clock × LoadEvent)

/-- What an account enters of an event; neither time nor applying what is due is entered. -/
def LoadEvent.entry (c : Clock) : LoadEvent → LoadAccount
  | acquire n => [(c, acquire n)]
  | release n latency => [(c, release n latency)]
  | penalize latency => [(c, penalize latency)]
  | sync | advance _ | set _ => []

namespace LoadAccount

def units (a : LoadAccount) : Int := (a.map (·.2.units)).sum

def removals (f : FailureSustain) (windows : Nat) (a : LoadAccount) : List Nat :=
  a.flatMap fun x => x.2.removal f windows x.1

variable {f : FailureSustain} {windows : Nat}

@[simp] theorem units_nil : units [] = 0 := rfl

@[simp] theorem units_append (a a' : LoadAccount) : units (a ++ a') = units a + units a' := by
  rw [units, List.map_append, List.sum_append]
  rfl

@[simp] theorem removals_append (a a' : LoadAccount) :
    removals f windows (a ++ a') = removals f windows a ++ removals f windows a' :=
  List.flatMap_append

@[simp] theorem units_entry (e : LoadEvent) (c : Clock) : units (e.entry c) = e.units := by
  cases e with
  | acquire n | release n latency | penalize latency => exact Int.add_zero _
  | sync | advance d | set d => rfl

@[simp] theorem removals_entry (e : LoadEvent) (c : Clock) :
    removals f windows (e.entry c) = e.removal f windows c := by
  cases e <;> rfl

end LoadAccount

namespace ClockedLoad

open LoadAccount (removals)

def step (s : ClockedLoad) : LoadEvent → ClockedLoad
  | .acquire n => { s with load := s.load.acquire s.clock.now n }
  | .release n latency => { s with load := s.load.release s.clock.now n latency }
  | .penalize latency => { s with load := (s.load.penalize s.clock.now latency).2 }
  | .sync => { s with load := s.load.sync s.clock.now }
  | .advance d => { s with clock := s.clock.advance d }
  | .set d => { s with clock := s.clock.set d }

def run (s : ClockedLoad) (es : List LoadEvent) : ClockedLoad := es.foldl step s

/-- While the clock moved forward, a load has been driven from `s` to `s'`, of which `a` is the
account. -/
inductive Drives (s : ClockedLoad) : LoadAccount → ClockedLoad → Prop
  | start : Drives s [] s
  | event {a : LoadAccount} {s' : ClockedLoad} (e : LoadEvent) : Drives s a s' →
      s'.clock.now ≤ (s'.step e).clock.now → Drives s (a ++ e.entry s'.clock) (s'.step e)
  | disable {a : LoadAccount} {s' : ClockedLoad} (disabled : Bool) : Drives s a s' →
      Drives s a { s' with load := s'.load.setDisabled disabled }

theorem Drives.trans {s s' s'' : ClockedLoad} {a a' : LoadAccount} (h : Drives s a s')
    (h' : Drives s' a' s'') : Drives s (a ++ a') s'' := by
  induction h' with
  | start =>
    rw [List.append_nil]
    exact h
  | event e _ hle ih =>
    rw [← List.append_assoc]
    exact ih.event e hle
  | disable disabled _ ih => exact ih.disable disabled

theorem Drives.sync {s : ClockedLoad} {a : LoadAccount} {clock : Clock} {l : EndpointLoad}
    (h : Drives s a ⟨clock, l⟩) : Drives s a ⟨clock, l.sync clock.now⟩ := by
  have hsync := h.event .sync le_rfl
  rwa [LoadEvent.entry, List.append_nil] at hsync

theorem Drives.later {s : ClockedLoad} {a : LoadAccount} {clock clock' : Clock} {l : EndpointLoad}
    (h : Drives s a ⟨clock, l⟩) (hle : clock.now ≤ clock'.now) : Drives s a ⟨clock', l⟩ := by
  have hclock : clock.set ⟨clock'.now⟩ = clock' := Clock.ext (Clock.now_set hle clock'.now_le)
  have hset := h.event (.set ⟨clock'.now⟩) (Clock.le_now_set _ _)
  rwa [LoadEvent.entry, List.append_nil, step, hclock] at hset

/-- The counter of `s` shows `units` and the weight of each pending penalty, of which the ring of
removals knows; of the removals `given` so far, those that lie ahead are pending. -/
structure Accounts (f : FailureSustain) (windows : Nat) (units : Int) (given : List Nat)
    (pending : List LedgerEntry) (p : Penalty) (s : ClockedLoad) : Prop where
  penalty : s.load.penalty = some p
  sustain : p.sustain = f.duration
  weight : p.weight.toInt = f.units
  accepted : p.removals.pending = 0
  agrees : Agrees ⟨s.clock, p.removals.ring⟩ ⟨f.duration, windows, s.clock, pending⟩
  counts : ∀ e ∈ pending, e.count.toInt = -f.units
  concurrency : s.load.concurrency = Int32.ofInt (units + f.units * pending.length)
  ahead : ∀ t, s.clock.now ≤ t →
    pending.countP (t < ·.expiry) = given.countP (t < ·)

variable {f : FailureSustain} {windows : Nat} {units : Int} {given : List Nat}
  {pending : List LedgerEntry} {p : Penalty} {s : ClockedLoad}

theorem owedBy_add_later {w : Int} (h : ∀ e ∈ pending, e.count.toInt = -w) (t : Nat) :
    w * pending.length + owedBy t pending = w * pending.countP (t < ·.expiry) := by
  induction pending with
  | nil => simp [owedBy]
  | cons e pending ih =>
    have hlater := ih fun e he => h e (List.mem_cons_of_mem _ he)
    rw [owedBy_cons, h e List.mem_cons_self, List.countP_cons, List.length_cons]
    by_cases he : e.expiry ≤ t
    · simp only [he, Nat.not_lt.2 he, if_true, decide_false, Bool.false_eq_true, if_false,
        Nat.add_zero, Nat.cast_succ, Int.mul_add, Int.mul_one]
      omega
    · simp only [he, Nat.lt_of_not_le he, decide_true, if_true, if_false, Nat.cast_succ,
        Int.mul_add, Int.mul_one]
      omega

theorem Accounts.toInt_neg_weight (h : Accounts f windows units given pending p s) :
    (-p.weight.toInt64).toInt = -f.units := by
  have hlt := p.weight.toInt_lt
  rw [h.weight] at hlt
  rw [Int64.toInt_neg, Int32.toInt_toInt64, h.weight]
  exact Int.bmod_eq_of_le (by omega) (by omega)

theorem Accounts.penalize (h : Accounts f windows units given pending p s)
    (ht : s.clock.now + f.duration.nanos ≤ horizon) (latency : Duration) :
    (s.load.penalize s.clock.now latency).1 =
        some (min (f.removal windows s.clock.now latency) horizon) ∧
      ∃ pending' p', Accounts f windows units (given ++ [f.removal windows s.clock.now latency])
        pending' p' (s.step (.penalize latency)) := by
  have hround := FailureSustain.roundedExpiry_eq_removal windows latency ht
  have hexp := h.agrees.expiry_eq (f.duration.minus latency)
  have hadd := h.agrees.add (-p.weight.toInt64) (f.duration.minus latency)
  simp only [ClockedRing.step, Ledger.step, hround] at hexp hadd
  simp only [EndpointLoad.penalize, h.penalty, h.sustain, DeferredSum.expiry, hexp, true_and]
  have hpen : (s.step (.penalize latency)).load.penalty =
      some
        { p with
          removals :=
            p.removals.schedule s.clock.now (-p.weight.toInt64) (f.duration.minus latency) } := by
    simp only [step, EndpointLoad.penalize, h.penalty, h.sustain]
  refine ⟨⟨_, _⟩ :: pending, _, hpen, h.sustain, h.weight, h.accepted, hadd, ?_, ?_, ?_⟩
  · intro e he
    rcases List.mem_cons.1 he with rfl | he
    · exact h.toInt_neg_weight
    · exact h.counts e he
  · simp only [step, EndpointLoad.penalize, h.penalty, h.concurrency]
    rw [← Int32.ofInt_toInt p.weight, h.weight, ← Int32.ofInt_add, List.length_cons, Nat.cast_succ,
      Int.mul_add, Int.mul_one, Int.add_assoc]
  · intro t ht
    rw [List.countP_cons, List.countP_append, List.countP_singleton, h.ahead t ht]

theorem Accounts.sync (h : Accounts f windows units given pending p s) :
    (s.step .sync).load.concurrency =
        Int32.ofInt (units + f.units * given.countP (s.clock.now < ·)) ∧
      ∃ pending' p', Accounts f windows units given pending' p' (s.step .sync) := by
  have hsum : s.load.concurrency + (p.removals.flush s.clock.now).1.toInt32 =
      Int32.ofInt (units + f.units * given.countP (s.clock.now < ·)) := by
    rw [DeferredSum.flush_eq, h.accepted, Int64.add_zero, h.agrees.purge_eq, Int64.toInt32_ofInt,
      h.concurrency, ← Int32.ofInt_add, Int.add_assoc, owedBy_add_later h.counts,
      h.ahead _ le_rfl]
  have hconc : (s.step .sync).load.concurrency =
      Int32.ofInt (units + f.units * given.countP (s.clock.now < ·)) := by
    simp only [step, EndpointLoad.sync, h.penalty, hsum]
  have hpen : (s.step .sync).load.penalty =
      some { p with removals := ⟨(p.removals.ring.purge s.clock.now).2, 0⟩ } := by
    simp only [step, EndpointLoad.sync, h.penalty, DeferredSum.flush_eq]
  refine ⟨hconc, pending.filter (s.clock.now < ·.expiry), _, hpen, h.sustain, h.weight, rfl,
    h.agrees.purge, ?_, ?_, ?_⟩
  · exact fun e he => h.counts e (List.mem_of_mem_filter he)
  · rw [hconc, ← List.countP_eq_length_filter, h.ahead _ le_rfl]
  · intro t ht
    rw [← h.ahead t ht, List.countP_filter]
    refine List.countP_congr fun e _ => ?_
    have hle : s.clock.now ≤ t := ht
    simp only [Bool.and_eq_true, decide_eq_true_eq]
    omega

theorem Accounts.count (h : Accounts f windows units given pending p s) {l : EndpointLoad} {n : Int}
    (hp : l.penalty = s.load.penalty) (hn : l.concurrency = s.load.concurrency + Int32.ofInt n) :
    Accounts f windows (units + n) given pending p { s with load := l } := by
  refine ⟨hp.trans h.penalty, h.sustain, h.weight, h.accepted, h.agrees, h.counts, ?_, h.ahead⟩
  rw [hn, h.concurrency, ← Int32.ofInt_add]
  congr 1
  omega

theorem Accounts.later (h : Accounts f windows units given pending p s) {c : Clock}
    (hc : s.clock.now ≤ c.now) : Accounts f windows units given pending p { s with clock := c } :=
  ⟨h.penalty, h.sustain, h.weight, h.accepted, h.agrees.later hc, h.counts, h.concurrency,
    fun t ht => h.ahead t (hc.trans ht)⟩

theorem Accounts.step (h : Accounts f windows units given pending p s) (e : LoadEvent)
    (hle : s.clock.now ≤ (s.step e).clock.now)
    (ht : (s.step e).clock.now + f.duration.nanos ≤ horizon) :
    ∃ pending' p', Accounts f windows (units + e.units) (given ++ e.removal f windows s.clock)
      pending' p' (s.step e) := by
  cases e with
  | acquire n =>
    simp only [LoadEvent.removal, List.append_nil]
    refine ⟨_, _, h.count rfl ?_⟩
    simp only [LoadEvent.units, Int32.ofInt_toInt]
    rfl
  | release n latency =>
    simp only [LoadEvent.removal, List.append_nil]
    refine ⟨_, _, h.count rfl ?_⟩
    simp only [LoadEvent.units, Int32.ofInt_neg, Int32.ofInt_toInt, ← Int32.sub_eq_add_neg]
    rfl
  | penalize latency =>
    simp only [LoadEvent.units, Int.add_zero]
    exact (h.penalize ht latency).2
  | sync =>
    simp only [LoadEvent.removal, LoadEvent.units, List.append_nil, Int.add_zero]
    exact h.sync.2
  | advance d | set d =>
    simp only [LoadEvent.removal, LoadEvent.units, List.append_nil, Int.add_zero]
    exact ⟨_, _, h.later hle⟩

theorem Accounts.disable (h : Accounts f windows units given pending p s) (disabled : Bool) :
    Accounts f windows units given pending p
      { s with load := s.load.setDisabled disabled } :=
  ⟨h.penalty, h.sustain, h.weight, h.accepted, h.agrees, h.counts, h.concurrency, h.ahead⟩

theorem Accounts.drives (h : Accounts f windows units given pending p s) {a : LoadAccount}
    {s' : ClockedLoad} (hrun : s.Drives a s') (ht : s'.clock.now + f.duration.nanos ≤ horizon) :
    ∃ pending' p', Accounts f windows (units + a.units) (given ++ removals f windows a) pending' p'
      s' := by
  induction hrun with
  | start =>
    rw [LoadAccount.units_nil, Int.add_zero]
    exact ⟨pending, p, (List.append_nil given).symm ▸ h⟩
  | event e _ hle ih =>
    obtain ⟨pending', p', ih⟩ := ih ((Nat.add_le_add_right hle _).trans ht)
    rw [LoadAccount.units_append, LoadAccount.removals_append, LoadAccount.units_entry,
      LoadAccount.removals_entry, ← Int.add_assoc, ← List.append_assoc]
    exact ih.step e hle ht
  | disable disabled _ ih =>
    obtain ⟨pending', p', ih⟩ := ih ht
    exact ⟨pending', p', ih.disable disabled⟩

theorem Accounts.of_create {c : LoadSettings} (hf : c.failureSustain = some f) {e : Endpoint}
    {start : Clock} {l : EndpointLoad} (hl : EndpointLoad.create e c start.now = .ok l) :
    ∃ p, Accounts f c.windows 0 [] [] p ⟨start, l⟩ := by
  obtain ⟨-, hpen, heq⟩ := EndpointLoad.create_spec hl
  rw [hf, Option.mapM_some] at hpen
  have hw : 0 < c.windows := by
    refine Nat.pos_of_ne_zero fun hz => ?_
    rw [Penalty.create, DeferredSum.create, ExpiryRing.create, if_pos hz] at hpen
    cases hpen
  obtain ⟨r, hr, hagrees⟩ := Agrees.create f.duration hw start
  rw [Penalty.create, DeferredSum.create, hr] at hpen
  refine ⟨_, (Except.ok.inj hpen).symm, rfl, ?_, rfl, hagrees, ?_, ?_, ?_⟩
  · have hle : min f.weight signedMax32 ≤ signedMax32 := Nat.min_le_right _ _
    exact Int32.toInt_ofNat_of_lt (by simp only [signedMax32] at hle ⊢; omega)
  · simp
  · rw [heq]
    rfl
  · simp

end ClockedLoad

/-- The counter, when it is synced at `now`, shows the units handed out and not finished and the
weight of each penalty that lies ahead, and a penalty is answered with its removal. -/
structure LoadAccount.Shown (f : FailureSustain) (windows now : Nat) (a : LoadAccount)
    (synced : Int32) (answer : Duration → Option Nat) : Prop where
  counter : synced = Int32.ofInt (a.units + f.units * (a.removals f windows).countP (now < ·))
  answers : ∀ latency, answer latency = some (min (f.removal windows now latency) horizon)

/-- With as many units finished as handed out and every removal reached, nothing is left. -/
theorem LoadAccount.Shown.eq_zero {f : FailureSustain} {windows now : Nat} {a : LoadAccount}
    {synced : Int32} {answer : Duration → Option Nat} (h : a.Shown f windows now synced answer)
    (hunits : a.units = 0) (hdue : ∀ d ∈ a.removals f windows, d ≤ now) : synced = 0 := by
  have hnone : (a.removals f windows).countP (now < ·) = 0 :=
    List.countP_eq_zero.2 fun d hd => by simpa using hdue d hd
  rw [h.counter, hunits, hnone]
  rfl

/-- After any run since a load was made, what is due has come off exactly. -/
theorem ClockedLoad.Drives.shown {c : LoadSettings} {f : FailureSustain}
    (hf : c.failureSustain = some f) {e : Endpoint} {made : Clock} {l : EndpointLoad}
    (hl : EndpointLoad.create e c made.now = .ok l) {a : LoadAccount} {s : ClockedLoad}
    (h : Drives ⟨made, l⟩ a s) (ht : s.clock.now + f.duration.nanos ≤ horizon) :
    a.Shown f c.windows s.clock.now (s.load.sync s.clock.now).concurrency
      fun latency => (s.load.penalize s.clock.now latency).1 := by
  obtain ⟨p, hmade⟩ := Accounts.of_create hf hl
  obtain ⟨pending, p', hrun⟩ := hmade.drives h ht
  rw [Int.zero_add, List.nil_append] at hrun
  exact ⟨hrun.sync.1, fun latency => (hrun.penalize ht latency).1⟩

end LeastLoad
