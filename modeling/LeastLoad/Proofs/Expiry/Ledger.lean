import LeastLoad.Proofs.Expiry.Timely
import Mathlib.Algebra.Order.Floor.Div

/-! # A ring of windows against a plain list

A ledger keeps every count with the exact instant from which it is due and hands back, at a purge,
the sum of those that are due. A ring on a clock that only moves forward hands back the same sums,
however few slots it has: a window that takes over a slot is a whole turn ahead of the one it finds
there, which the clock has passed.

`Tracks` is the invariant. It says of the ring what the ledger's list sums to by each window that
the clock has reached or has yet to reach, so that moving the clock needs no proof. -/

namespace LeastLoad

/-- A count with the instant from which it is due, which may lie past the horizon. -/
structure LedgerEntry where
  expiry : Nat
  count : Int64

structure Ledger where
  maxAge : Duration
  windows : Nat
  clock : Clock
  pending : List LedgerEntry := []

inductive RingEvent where
  | add (n : Int64) (lifespan : Duration)
  | purge
  | advance (d : Duration)
  | set (d : Duration)

structure ClockedRing where
  clock : Clock
  ring : ExpiryRing

namespace Clock

def after (c : Clock) : RingEvent → Clock
  | .advance d => c.advance d
  | .set d => c.set d
  | .add _ _ | .purge => c

def afterAll (c : Clock) (es : List RingEvent) : Clock := es.foldl after c

/-- Whether no event makes the clock wrap. -/
def Forward (c : Clock) : List RingEvent → Prop
  | [] => True
  | .advance d :: es => c.now + d.nanos ≤ horizon ∧ (c.advance d).Forward es
  | e :: es => (c.after e).Forward es

theorem Forward.le_now_after {c : Clock} {e : RingEvent} {es : List RingEvent}
    (h : c.Forward (e :: es)) :
    c.now ≤ (c.after e).now := by
  cases e with
  | add | purge => exact le_rfl
  | advance d =>
    rw [after, now_advance h.1]
    omega
  | set d => exact c.le_now_set d

theorem Forward.tail {c : Clock} {e : RingEvent} {es : List RingEvent} (h : c.Forward (e :: es)) :
    (c.after e).Forward es := by
  cases e with
  | advance d => exact h.2
  | add | purge | set => exact h

theorem Forward.append_purge {c : Clock} {es : List RingEvent} (h : c.Forward es) :
    c.Forward (es ++ [.purge]) := by
  induction es generalizing c with
  | nil => trivial
  | cons e es ih =>
    cases e with
    | advance d => exact ⟨h.1, ih h.2⟩
    | add | purge | set => exact ih h

theorem Forward.le_now_afterAll {c : Clock} {es : List RingEvent} (h : c.Forward es) :
    c.now ≤ (c.afterAll es).now := by
  induction es generalizing c with
  | nil => exact le_rfl
  | cons e es ih => exact h.le_now_after.trans (ih h.tail)

end Clock

namespace ClockedRing

def step (s : ClockedRing) : RingEvent → ClockedRing
  | .add n lifespan => { s with ring := s.ring.add s.clock.now n lifespan }
  | .purge => { s with ring := (s.ring.purge s.clock.now).2 }
  | .advance d => { s with clock := s.clock.advance d }
  | .set d => { s with clock := s.clock.set d }

def run (s : ClockedRing) (es : List RingEvent) : ClockedRing := es.foldl step s

def handedBack (s : ClockedRing) : List RingEvent → List Int64
  | [] => []
  | .purge :: es => (s.ring.purge s.clock.now).1 :: (s.step .purge).handedBack es
  | e :: es => (s.step e).handedBack es

end ClockedRing

/-- The first boundary of a window after the end of a lifespan, as a number without a limit; with
no age to keep, the instant of the addition itself. -/
def roundedExpiry (maxAge : Duration) (windows now : Nat) (lifespan : Duration) : Nat :=
  if maxAge.ticks = 0 then now
  else
    let width := maxAge.ticks ⌈/⌉ windows
    (min (now + min lifespan.ticks maxAge.ticks) horizon / width + 1) * width

theorem roundedExpiry_ticks (maxAge : Duration) (windows now : Nat) (lifespan : Duration) :
    roundedExpiry maxAge windows now ⟨lifespan.ticks⟩ =
      roundedExpiry maxAge windows now lifespan := by
  rw [roundedExpiry, Duration.ticks_ticks, roundedExpiry]

def owedBy (t : Nat) (entries : List LedgerEntry) : Int :=
  ((entries.filter (·.expiry ≤ t)).map (·.count.toInt)).sum

theorem owedBy_cons (t : Nat) (e : LedgerEntry) (entries : List LedgerEntry) :
    owedBy t (e :: entries) = (if e.expiry ≤ t then e.count.toInt else 0) + owedBy t entries := by
  by_cases h : e.expiry ≤ t <;> simp [owedBy, h]

theorem owedBy_append (t : Nat) (xs ys : List LedgerEntry) :
    owedBy t (xs ++ ys) = owedBy t xs + owedBy t ys := by
  simp [owedBy, List.filter_append, List.map_append, List.sum_append]

theorem owedBy_later {t later : Nat} (h : t ≤ later) (entries : List LedgerEntry) :
    owedBy later entries =
      owedBy t entries + owedBy later (entries.filter (t < ·.expiry)) := by
  induction entries with
  | nil => rfl
  | cons e entries ih =>
    by_cases ht : e.expiry ≤ t
    · have hl : e.expiry ≤ later := ht.trans h
      simp only [owedBy_cons, ht, hl, ih, List.filter_cons, Nat.not_lt.2 ht, decide_false,
        if_true, Bool.false_eq_true, if_false]
      omega
    · have hlt : t < e.expiry := Nat.lt_of_not_le ht
      simp only [owedBy_cons, ht, ih, List.filter_cons, hlt, decide_true, if_true, if_false]
      omega

namespace Ledger

def step (l : Ledger) : RingEvent → Ledger
  | .add n lifespan =>
    { l with
      pending := ⟨roundedExpiry l.maxAge l.windows l.clock.now lifespan, n⟩ :: l.pending }
  | .purge => { l with pending := l.pending.filter (l.clock.now < ·.expiry) }
  | .advance d => { l with clock := l.clock.advance d }
  | .set d => { l with clock := l.clock.set d }

def run (l : Ledger) (es : List RingEvent) : Ledger := es.foldl step l

def handedBack (l : Ledger) : List RingEvent → List Int
  | [] => []
  | .purge :: es => owedBy l.clock.now l.pending :: (l.step .purge).handedBack es
  | e :: es => (l.step e).handedBack es

def additions (l : Ledger) : List RingEvent → List LedgerEntry
  | [] => []
  | .add n lifespan :: es =>
    ⟨roundedExpiry l.maxAge l.windows l.clock.now lifespan, n⟩ ::
      (l.step (.add n lifespan)).additions es
  | e :: es => (l.step e).additions es

theorem clock_step (l : Ledger) (e : RingEvent) : (l.step e).clock = l.clock.after e := by
  cases e <;> rfl

theorem run_eq (l : Ledger) (es : List RingEvent) :
    l.run es = { l with clock := l.clock.afterAll es, pending := (l.run es).pending } := by
  induction es generalizing l with
  | nil => rfl
  | cons e es ih =>
    have hstep := ih (l.step e)
    rw [clock_step] at hstep
    cases e <;> exact hstep

/-- A run that ends with a purge has handed back all that was due by then. -/
theorem sum_handedBack {l : Ledger} {es : List RingEvent} (h : l.clock.Forward es) :
    (l.handedBack (es ++ [.purge])).sum =
      owedBy (l.clock.afterAll es).now (l.pending ++ l.additions es) := by
  induction es generalizing l with
  | nil => simp [handedBack, additions, Clock.afterAll]
  | cons e es ih =>
    have hn : l.clock.now ≤ ((l.clock.after e).afterAll es).now :=
      h.le_now_after.trans h.tail.le_now_afterAll
    have hs := ih (l := l.step e) (by rw [clock_step]; exact h.tail)
    rw [clock_step] at hs
    cases e with
    | add n lifespan =>
      have hp : (l.step (.add n lifespan)).pending = _ :: l.pending := rfl
      rw [hp] at hs
      simp only [owedBy_append, owedBy_cons] at hs
      simp only [List.cons_append, handedBack, additions, owedBy_append, owedBy_cons,
        Clock.afterAll, List.foldl_cons] at hs ⊢
      omega
    | purge =>
      have hp := owedBy_later hn l.pending
      simp only [owedBy_append] at hs
      simp only [List.cons_append, handedBack, additions, List.sum_cons, owedBy_append,
        Clock.afterAll, List.foldl_cons] at hs hp ⊢
      have hf : (l.step .purge).pending = l.pending.filter (l.clock.now < ·.expiry) := rfl
      rw [hs, hp, hf]
      exact (Int.add_assoc ..).symm
    | advance d => exact hs
    | set d => exact hs

end Ledger

namespace ExpiryRing

variable {r : ExpiryRing} {now : Nat} {pending : List LedgerEntry}

/-- What a ring that keeps counts for some time owes to a list of entries, at a reading of its
clock. -/
structure Tracks (r : ExpiryRing) (now : Nat) (pending : List LedgerEntry) : Prop where
  timely : r.Timely now
  whole : ∀ e ∈ pending, r.width ∣ e.expiry
  sum : ∀ w, now / r.width ≤ w → r.stored w = Int64.ofInt (owedBy (w * r.width) pending)

theorem Tracks.later {later : Nat} (h : r.Tracks now pending) (hl : now ≤ later) :
    r.Tracks later pending := by
  have hd : now / r.width ≤ later / r.width := Nat.div_le_div_right hl
  exact ⟨h.timely.later hl, h.whole, fun w hw => h.sum w (hd.trans hw)⟩

theorem dvd_cons {width : Nat} (h : ∀ e ∈ pending, width ∣ e.expiry) (w : Nat) (n : Int64) :
    ∀ e ∈ LedgerEntry.mk (w * width) n :: pending, width ∣ e.expiry := by
  intro e he
  rcases List.mem_cons.1 he with rfl | he
  · exact Nat.dvd_mul_left ..
  · exact h e he

theorem Tracks.record (h : r.Tracks now pending) {w : Nat} (n : Int64)
    (hwidth : 0 < r.width) (hlt : now / r.width < w) (hle : w ≤ now / r.width + r.windows + 1) :
    (r.record w n).Tracks now (⟨w * r.width, n⟩ :: pending) := by
  have hcursor : r.cursor < w := Nat.lt_of_le_of_lt h.timely.cursor_le hlt
  have htenant := h.timely.tenant hlt hle
  have hb : (r.bucket (r.slotOf w).val).window ≤ w := by omega
  have hwd : (r.record w n).width = r.width :=
    width_congr (r.maxAge_record w n) (r.windows_record w n)
  constructor
  · exact h.timely.record n hle
  · rw [hwd]
    exact dvd_cons h.whole w n
  · intro c hc
    rw [hwd] at hc ⊢
    rw [stored_record n hcursor hb (by omega), h.sum c hc, owedBy_cons]
    by_cases hwc : w ≤ c
    · have hdue : w * r.width ≤ c * r.width := Nat.mul_le_mul_right _ hwc
      simp only [hwc, hdue, if_true, Int64.ofInt_add, Int64.ofInt_toInt]
      grind
    · have hdue : ¬w * r.width ≤ c * r.width := fun hx => hwc (Nat.le_of_mul_le_mul_right hx hwidth)
      simp only [hwc, hdue, if_false, Int.zero_add]
      grind

theorem Tracks.add (h : r.Tracks now pending) (hw : 0 < r.windows) (hwidth : 0 < r.width)
    (hnow : now ≤ horizon) (n : Int64) (lifespan : Duration) :
    (r.add now n lifespan).Tracks now (⟨r.windowOf now lifespan * r.width, n⟩ :: pending) := by
  rw [ExpiryRing.add, if_neg (Nat.ne_of_gt hwidth)]
  split
  · next hn =>
    refine ⟨h.timely, ?_, ?_⟩
    · exact dvd_cons h.whole _ n
    · intro w hw
      simpa [owedBy_cons, hn] using h.sum w hw
  · exact h.record n hwidth (lt_windowOf hnow lifespan) (windowOf_le hw hwidth lifespan)

theorem owedBy_floor {width : Nat} (hwidth : 0 < width) (h : ∀ e ∈ pending, width ∣ e.expiry) :
    owedBy (now / width * width) pending = owedBy now pending ∧
      pending.filter (now / width * width < ·.expiry) = pending.filter (now < ·.expiry) := by
  have hiff : ∀ e ∈ pending, now / width * width < e.expiry ↔ now < e.expiry := by
    intro e he
    obtain ⟨k, hk⟩ := h e he
    rw [hk, Nat.mul_comm width k, Nat.mul_lt_mul_right hwidth, Nat.div_lt_iff_lt_mul hwidth]
  constructor
  · have hle : pending.filter (·.expiry ≤ now / width * width) =
        pending.filter (·.expiry ≤ now) := by
      refine List.filter_congr fun e he => ?_
      simp only [← Nat.not_lt, hiff e he]
    rw [owedBy, hle, owedBy]
  · exact List.filter_congr fun e he => by simpa using hiff e he

theorem Tracks.purge (h : r.Tracks now pending) (hwidth : 0 < r.width) :
    (r.purge now).1 = Int64.ofInt (owedBy now pending) ∧
      (r.purge now).2.Tracks now (pending.filter (now < ·.expiry)) := by
  obtain ⟨howed, hfilter⟩ := @owedBy_floor now pending r.width hwidth h.whole
  have hd := h.timely.drained
  have hwd : (r.drainTo (now / r.width)).width = r.width := width_congr hd.maxAge hd.windows
  have hsum := h.sum _ le_rfl
  have heq := r.purge_eq now
  have hwq : (r.purge now).2.width = r.width := by rw [heq]; exact hwd
  refine ⟨?_, h.timely.purge, ?_, ?_⟩
  · rw [heq, ← howed]
    exact hd.backlog.trans hsum
  · intro e he
    rw [hwq]
    exact h.whole e (List.mem_of_mem_filter he)
  · intro w hw
    rw [hwq] at hw ⊢
    have hlater := owedBy_later (Nat.mul_le_mul_right r.width hw) pending
    rw [heq, stored_clear, hd.backlog, hd.stored w hw, h.sum w hw, hsum, hlater, hfilter,
      Int64.ofInt_add]
    grind

end ExpiryRing

namespace ExpiryRing

theorem roundedExpiry_eq {r : ExpiryRing} {maxAge : Duration} {windows : Nat}
    (hm : r.maxAge = maxAge.ticks) (hw : r.windows = windows) (hpos : 0 < windows) (now : Nat)
    (lifespan : Duration) :
    roundedExpiry maxAge windows now lifespan =
      if r.width = 0 then now else r.windowOf now lifespan * r.width := by
  have hwidth : r.width = maxAge.ticks ⌈/⌉ windows := by
    rw [Nat.ceilDiv_eq_add_pred_div, width, hm, hw]
  have hzero : r.width = 0 ↔ maxAge.ticks = 0 := by
    rw [width, hm, hw, Nat.div_eq_zero_iff]
    omega
  by_cases hz : r.width = 0
  · rw [roundedExpiry, if_pos hz, if_pos (hzero.1 hz)]
  · rw [roundedExpiry, if_neg hz, if_neg (mt hzero.2 hz)]
    simp only [windowOf, hwidth, hm]

theorem expiry_eq {r : ExpiryRing} {maxAge : Duration} {windows : Nat}
    (hm : r.maxAge = maxAge.ticks) (hw : r.windows = windows) (hpos : 0 < windows) (c : Clock)
    (lifespan : Duration) :
    r.expiry c.now lifespan = min (roundedExpiry maxAge windows c.now lifespan) horizon := by
  rw [roundedExpiry_eq hm hw hpos, expiry]
  split
  · exact (Nat.min_eq_left c.now_le).symm
  · rfl

end ExpiryRing

/-- A ring and a ledger that have seen the same events. Where no age is kept, all that is pending
is due and stands in the backlog. -/
structure Agrees (s : ClockedRing) (l : Ledger) : Prop where
  clock : s.clock = l.clock
  maxAge : s.ring.maxAge = l.maxAge.ticks
  windows : s.ring.windows = l.windows
  windows_pos : 0 < l.windows
  tracks : 0 < s.ring.width → s.ring.Tracks s.clock.now l.pending
  atOnce : s.ring.width = 0 →
    s.ring.backlog = Int64.ofInt (owedBy s.clock.now l.pending) ∧
      ∀ e ∈ l.pending, e.expiry ≤ s.clock.now

namespace Agrees

variable {s : ClockedRing} {l : Ledger}

theorem roundedExpiry_eq (h : Agrees s l) (lifespan : Duration) :
    roundedExpiry l.maxAge l.windows l.clock.now lifespan =
      if s.ring.width = 0 then s.clock.now
      else s.ring.windowOf s.clock.now lifespan * s.ring.width := by
  rw [ExpiryRing.roundedExpiry_eq h.maxAge h.windows h.windows_pos, h.clock]

theorem expiry_eq (h : Agrees s l) (lifespan : Duration) :
    s.ring.expiry s.clock.now lifespan =
      min (roundedExpiry l.maxAge l.windows l.clock.now lifespan) horizon := by
  rw [← h.clock]
  exact ExpiryRing.expiry_eq h.maxAge h.windows h.windows_pos s.clock lifespan

theorem purge_eq (h : Agrees s l) :
    (s.ring.purge s.clock.now).1 = Int64.ofInt (owedBy l.clock.now l.pending) := by
  rw [← h.clock]
  rcases Nat.eq_zero_or_pos s.ring.width with hz | hpos
  · rw [ExpiryRing.purge, if_pos hz]
    exact (h.atOnce hz).1
  · exact ((h.tracks hpos).purge hpos).1

theorem add (h : Agrees s l) (n : Int64) (lifespan : Duration) :
    Agrees (s.step (.add n lifespan)) (l.step (.add n lifespan)) := by
  have hm := s.ring.maxAge_add s.clock.now n lifespan
  have hw := s.ring.windows_add s.clock.now n lifespan
  have hwd : (s.step (.add n lifespan)).ring.width = s.ring.width := ExpiryRing.width_congr hm hw
  refine ⟨h.clock, hm.trans h.maxAge, hw.trans h.windows, h.windows_pos, ?_, ?_⟩
  · intro hpos
    rw [hwd] at hpos
    have ht := (h.tracks hpos).add (h.windows ▸ h.windows_pos) hpos s.clock.now_le n lifespan
    simpa only [ClockedRing.step, Ledger.step, h.roundedExpiry_eq, Nat.ne_of_gt hpos, if_false]
      using ht
  · intro hz
    rw [hwd] at hz
    obtain ⟨hsum, hall⟩ := h.atOnce hz
    simp only [ClockedRing.step, Ledger.step, ExpiryRing.add, hz, if_true, h.roundedExpiry_eq]
    constructor
    · simp only [hsum, owedBy_cons, le_refl, if_true, Int64.ofInt_add, Int64.ofInt_toInt]
      exact Int64.add_comm _ _
    · intro e he
      rcases List.mem_cons.1 he with rfl | he
      · exact le_rfl
      · exact hall e he

theorem purge (h : Agrees s l) : Agrees (s.step .purge) (l.step .purge) := by
  have hm := s.ring.maxAge_purge s.clock.now
  have hw := s.ring.windows_purge s.clock.now
  have hwd : (s.step .purge).ring.width = s.ring.width := ExpiryRing.width_congr hm hw
  refine ⟨h.clock, hm.trans h.maxAge, hw.trans h.windows, h.windows_pos, ?_, ?_⟩
  · intro hpos
    rw [hwd] at hpos
    have ht := ((h.tracks hpos).purge hpos).2
    simpa only [ClockedRing.step, Ledger.step, h.clock] using ht
  · intro hz
    rw [hwd] at hz
    have hnone : l.pending.filter (l.clock.now < ·.expiry) = [] :=
      List.filter_eq_nil_iff.2 fun e he => by simpa [← h.clock] using (h.atOnce hz).2 e he
    simp [ClockedRing.step, Ledger.step, hnone, ExpiryRing.purge, owedBy]

theorem later (h : Agrees s l) {c : Clock} (hc : s.clock.now ≤ c.now) :
    Agrees { s with clock := c } { l with clock := c } := by
  refine ⟨rfl, h.maxAge, h.windows, h.windows_pos, fun hpos => (h.tracks hpos).later hc, ?_⟩
  intro hz
  obtain ⟨hsum, hall⟩ := h.atOnce hz
  have hnone : l.pending.filter (s.clock.now < ·.expiry) = [] :=
    List.filter_eq_nil_iff.2 fun e he => by simpa using hall e he
  refine ⟨?_, fun e he => (hall e he).trans hc⟩
  rw [owedBy_later hc, hnone]
  simpa [owedBy] using hsum

theorem step (h : Agrees s l) {e : RingEvent} {es : List RingEvent}
    (hf : s.clock.Forward (e :: es)) : Agrees (s.step e) (l.step e) := by
  have hle := hf.le_now_after
  cases e with
  | add n lifespan => exact h.add n lifespan
  | purge => exact h.purge
  | advance d => simpa only [ClockedRing.step, Ledger.step, Clock.after, h.clock] using h.later hle
  | set d => simpa only [ClockedRing.step, Ledger.step, Clock.after, h.clock] using h.later hle

theorem run (h : Agrees s l) {es : List RingEvent} (hf : s.clock.Forward es) :
    Agrees (s.run es) (l.run es) ∧
      s.handedBack es = (l.handedBack es).map Int64.ofInt := by
  induction es generalizing s l with
  | nil => exact ⟨h, rfl⟩
  | cons e es ih =>
    have htail : (s.step e).clock.Forward es := by
      cases e <;> exact hf.tail
    obtain ⟨hrun, hback⟩ := ih (h.step hf) htail
    refine ⟨hrun, ?_⟩
    cases e with
    | add n lifespan => exact hback
    | purge => exact congrArg₂ List.cons h.purge_eq hback
    | advance d => exact hback
    | set d => exact hback

end Agrees

theorem toInt_ofInt_of_fits {n : Int} (h : fitsSigned64 n = true) :
    (Int64.ofInt n).toInt = n := by
  simp only [fitsSigned64, Bool.and_eq_true, decide_eq_true_eq] at h
  have hmax : (signedMax64 : Int) = 2 ^ 63 - 1 := rfl
  exact Int64.toInt_ofInt_of_le (by omega) (by omega)

theorem toInt_add_of_fits {a b : Int64} (h : fitsSigned64 (a.toInt + b.toInt) = true) :
    (a + b).toInt = a.toInt + b.toInt := by
  rw [← toInt_ofInt_of_fits h, Int64.ofInt_add, Int64.ofInt_toInt, Int64.ofInt_toInt]

theorem map_toInt_ofInt {ns : List Int} (h : ∀ n ∈ ns, fitsSigned64 n = true) :
    (ns.map Int64.ofInt).map Int64.toInt = ns := by
  rw [List.map_map]
  exact (List.map_congr_left fun n hn => toInt_ofInt_of_fits (h n hn)).trans (List.map_id ns)

theorem le_roundedExpiry {windows : Nat} (hw : 0 < windows) (maxAge : Duration) (now : Nat)
    (lifespan : Duration) :
    min (now + min lifespan.ticks maxAge.ticks) horizon ≤
      roundedExpiry maxAge windows now lifespan := by
  rw [roundedExpiry]
  split
  · omega
  · next hm =>
    have hpos : 0 < maxAge.ticks ⌈/⌉ windows := by
      rw [Nat.ceilDiv_eq_add_pred_div]
      exact Nat.div_pos (by omega) hw
    exact (Nat.lt_mul_of_div_lt (Nat.lt_succ_self _) hpos).le

theorem Agrees.create (maxAge : Duration) {windows : Nat} (hw : 0 < windows) (start : Clock) :
    ∃ r, ExpiryRing.create maxAge windows start.now = .ok r ∧
      Agrees ⟨start, r⟩ ⟨maxAge, windows, start, []⟩ := by
  obtain ⟨r, hr⟩ : ∃ r, ExpiryRing.create maxAge windows start.now = .ok r :=
    ⟨_, if_neg (Nat.ne_of_gt hw)⟩
  obtain ⟨-, hm, hwindows, -, hbacklog, hempty⟩ := ExpiryRing.create_spec hr
  refine ⟨r, hr, rfl, hm, hwindows, hw, fun _ => ⟨.create hr, by simp, fun w _ => ?_⟩,
    fun _ => ⟨hbacklog, by simp⟩⟩
  refine (ExpiryRing.stored_eq_backlog fun i => ?_).trans hbacklog
  rw [hempty, Bucket.due_empty]

/-- A ring on a clock that moves forward, however far, answers as the unbounded list does: an
addition with its rounded expiry, and each purge with the sum of what has fallen due, so that all
purges together have handed back the additions due by the last of them, and no others. -/
theorem ExpiryRing.agrees_with_ledger (maxAge : Duration) {windows : Nat} (hw : 0 < windows)
    (start : Clock) (es : List RingEvent) (hes : start.Forward es) :
    ∃ r, ExpiryRing.create maxAge windows start.now = .ok r ∧
      let s : ClockedRing := ⟨start, r⟩
      let l : Ledger := ⟨maxAge, windows, start, []⟩
      let now := (start.afterAll es).now
      (∀ lifespan,
        (s.run es).ring.expiry (s.run es).clock.now lifespan =
            min (roundedExpiry maxAge windows now lifespan) horizon ∧
          min (now + min lifespan.ticks maxAge.ticks) horizon ≤
            roundedExpiry maxAge windows now lifespan) ∧
      ((∀ n ∈ l.handedBack (es ++ [.purge]), fitsSigned64 n = true) →
        (s.handedBack (es ++ [.purge])).map Int64.toInt = l.handedBack (es ++ [.purge]) ∧
          ((s.handedBack (es ++ [.purge])).map Int64.toInt).sum = owedBy now (l.additions es)) := by
  obtain ⟨r, hr, h⟩ := Agrees.create maxAge hw start
  refine ⟨r, hr, fun lifespan => ⟨?_, le_roundedExpiry hw maxAge _ lifespan⟩, fun hfit => ?_⟩
  · have hrun := ((h.run hes).1).expiry_eq lifespan
    rw [Ledger.run_eq] at hrun
    exact hrun
  · have hforward : start.Forward (es ++ [.purge]) := hes.append_purge
    have hback := (h.run hforward).2
    rw [hback, map_toInt_ofInt hfit]
    exact ⟨rfl, @Ledger.sum_handedBack ⟨maxAge, windows, start, []⟩ es hes⟩

/-- Window 47 takes over the slot of window 11, whose count has long been due. -/
theorem ExpiryRing.agrees_with_ledger_at_takeover :
    ∃ r, ExpiryRing.create (.ofSeconds 30) 10 0 = .ok r ∧
      ((ClockedRing.mk ⟨0, Nat.zero_le _⟩ r).handedBack
        [.add 4 (.ofSeconds 30), .set (.ofSeconds 108), .add 1 (.ofSeconds 30), .purge]).map
          Int64.toInt = [4] := by
  obtain ⟨r, hr, -, h⟩ := ExpiryRing.agrees_with_ledger (.ofSeconds 30) (by decide : 0 < 10)
    ⟨0, Nat.zero_le _⟩ [.add 4 (.ofSeconds 30), .set (.ofSeconds 108), .add 1 (.ofSeconds 30)]
    trivial
  exact ⟨r, hr, (h (by decide)).1⟩

end LeastLoad
