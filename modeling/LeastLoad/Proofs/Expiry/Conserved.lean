import LeastLoad.Proofs.Expiry.Ledger
import Mathlib.Algebra.BigOperators.Group.List.Basic

/-! # A ring loses nothing, whatever its clock shows

A clock that is moved back has counts recorded behind the cursor and has them meet windows of later
turns. Then a ring may hand a count back late or early, but it neither loses nor doubles it: what
was added is what was handed back and what the ring still contains. A count that is stored stands
in the slot of its window, ahead of the cursor, and a purge that has reached every expiry leaves
nothing. -/

namespace LeastLoad

def RingEvent.amount : RingEvent → Int
  | add n _ => n.toInt
  | purge | advance _ | set _ => 0

theorem Bucket.drained_drained (b : Bucket) (upTo : Nat) :
    (b.drained upTo).drained upTo = b.drained upTo := by
  simp only [drained]
  split <;> simp_all

theorem Bucket.toInt_due_add_drained (b : Bucket) (upTo : Nat) :
    (b.due upTo).toInt + (b.drained upTo).count.toInt = b.count.toInt := by
  by_cases h : b.window ≤ upTo
  · simp [due, drained, h]
  · simp [due, drained, h]

theorem sum_eq_ofInt (l : List Int64) : l.sum = .ofInt (l.map Int64.toInt).sum := by
  induction l with
  | nil => rfl
  | cons n l ih => rw [List.sum_cons, ih, List.map_cons, List.sum_cons, Int64.ofInt_add,
      Int64.ofInt_toInt]

namespace ExpiryRing

variable {r q : ExpiryRing} {w upTo now : Nat}

/-- All that is in the ring, the backlog and every slot, as a number without a limit. -/
def contents (r : ExpiryRing) : Int :=
  r.backlog.toInt + (r.slots.toList.map (·.count.toInt)).sum

def recordSum (r : ExpiryRing) (w : Nat) (n : Int64) : Int :=
  let b := r.bucket (r.slotOf w).val
  if w ≤ r.cursor ∨ w < b.window then r.backlog.toInt + n.toInt
  else if b.window < w then r.backlog.toInt + b.count.toInt
  else b.count.toInt + n.toInt

def addSum (r : ExpiryRing) (now : Nat) (n : Int64) (lifespan : Duration) : Int :=
  if r.width = 0 then r.backlog.toInt + n.toInt
  else if n = 0 then 0
  else r.recordSum (r.windowOf now lifespan) n

def purgeSum (r : ExpiryRing) (now : Nat) : Int :=
  r.backlog.toInt + (r.slots.toList.map fun b => (b.due (now / r.width)).toInt).sum

theorem map_slots_congr {α : Type} (hw : q.windows = r.windows) {f g : Bucket → α}
    (h : ∀ i, f (q.bucket i) = g (r.bucket i)) :
    q.slots.toList.map f = r.slots.toList.map g := by
  refine List.ext_getElem (by simp [hw]) fun i hq hr => ?_
  simp only [List.length_map, Vector.length_toList] at hq hr
  rw [List.getElem_map, List.getElem_map, Vector.getElem_toList, Vector.getElem_toList,
    getElem_slots q hq, getElem_slots r hr, h]

theorem bucket_of_getElem? {i : Nat} {b : Bucket} (h : r.slots.toList[i]? = some b) :
    r.bucket i = b := by
  rw [bucket, List.getD_eq_getElem?_getD, h, Option.getD_some]

theorem forall_slots {p : Bucket → Prop} (h : ∀ i, p (r.bucket i)) :
    ∀ b ∈ r.slots.toList, p b := by
  intro b hb
  obtain ⟨i, hi⟩ := List.mem_iff_getElem?.1 hb
  exact bucket_of_getElem? hi ▸ h i

theorem contents_of_empty (h : ∀ b ∈ r.slots.toList, b.count = 0) :
    r.contents = r.backlog.toInt := by
  have hsum : (r.slots.toList.map (·.count.toInt)).sum = 0 := by
    refine List.sum_eq_zero fun n hn => ?_
    obtain ⟨b, hb, rfl⟩ := List.mem_map.1 hn
    rw [h b hb, Int64.toInt_zero]
  rw [contents, hsum, Int.add_zero]

theorem contents_write (r : ExpiryRing) (k : Int64) (i : Fin (r.windows + 2)) (b : Bucket) :
    (r.write k i b).contents =
      r.contents + ((r.backlog + k).toInt - r.backlog.toInt) +
        (b.count.toInt - (r.bucket i.val).count.toInt) := by
  have hi : i.val < (r.slots.toList.map (·.count.toInt)).length := by simp
  have hb : (r.slots.toList.map (·.count.toInt))[i.val] = (r.bucket i.val).count.toInt := by
    simp [bucket]
  simp only [contents, write, Vector.toList_setIfInBounds, List.map_set, List.sum_set', hi, hb,
    dite_true]
  omega

theorem contents_backlog (r : ExpiryRing) (n : Int64) :
    contents { r with backlog := n } = r.contents - r.backlog.toInt + n.toInt := by
  simp only [contents]
  omega

theorem record_past {n : Int64}
    (h : w ≤ r.cursor ∨ w < (r.bucket (r.slotOf w).val).window) :
    r.record w n = { r with backlog := r.backlog + n } := by
  simp only [record, Fin.getElem_fin, getElem_slots, if_pos h]

theorem contents_record {n : Int64} (hfit : fitsSigned64 (r.recordSum w n) = true) :
    (r.record w n).contents = r.contents + n.toInt := by
  simp only [recordSum] at hfit
  split at hfit
  · next hpast =>
    rw [record_past hpast, contents_backlog, toInt_add_of_fits hfit]
    omega
  · next hahead =>
    rw [record_eq_write n (by omega) (by omega)]
    dsimp only
    split at hfit
    · next hold =>
      -- the older count moves to the backlog and the slot starts anew
      rw [if_pos hold, contents_write, toInt_add_of_fits hfit]
      dsimp only
      omega
    · next hsame =>
      rw [if_neg hsame, contents_write, toInt_add_of_fits hfit, Int64.add_zero]
      omega

theorem contents_add {n : Int64} {lifespan : Duration}
    (hfit : fitsSigned64 (r.addSum now n lifespan) = true) :
    (r.add now n lifespan).contents = r.contents + n.toInt := by
  simp only [addSum] at hfit
  rw [add]
  split
  · next hz =>
    rw [if_pos hz] at hfit
    rw [contents_backlog, toInt_add_of_fits hfit]
    omega
  · next hz =>
    rw [if_neg hz] at hfit
    split
    · next hn => rw [hn]; exact (Int.add_zero _).symm
    · next hn =>
      rw [if_neg hn] at hfit
      exact contents_record hfit

theorem bucket_drainWindows (upTo : Nat) (ws : List Nat) (r : ExpiryRing) (i : Nat) :
    (r.drainWindows upTo ws).bucket i = r.bucket i ∨
      (r.drainWindows upTo ws).bucket i = (r.bucket i).drained upTo := by
  induction ws generalizing r with
  | nil => exact Or.inl rfl
  | cons w ws ih =>
    have hslot := bucket_drainSlot upTo r (r.slotOf w) i
    have hrest := ih (r.drainSlot upTo (r.slotOf w))
    rw [hslot] at hrest
    split at hrest
    · rw [Bucket.drained_drained, or_self] at hrest
      exact Or.inr hrest
    · exact hrest

/-- What draining a ring up to a window comes to, at any reading of its clock. -/
structure Swept (upTo : Nat) (r q : ExpiryRing) : Prop where
  windows : q.windows = r.windows
  cursor_le : r.cursor ≤ q.cursor
  placed : q.Placed
  window : ∀ i, (q.bucket i).window = (r.bucket i).window
  count : ∀ i, (q.bucket i).count = ((r.bucket i).drained upTo).count
  backlog : q.backlog = r.stored upTo

theorem bucket_drainTo (upTo : Nat) (r : ExpiryRing) (i : Nat) :
    (r.drainTo upTo).bucket i = r.bucket i ∨
      (r.drainTo upTo).bucket i = (r.bucket i).drained upTo := by
  rw [drainTo]
  split
  · exact bucket_drainWindows ..
  · exact Or.inl rfl

theorem Placed.swept (hr : r.Placed) (upTo : Nat) : Swept upTo r (r.drainTo upTo) := by
  rcases Nat.le_total r.cursor upTo with h | h
  · have hd := drainTo_spec hr h
    refine ⟨hd.windows, h.trans hd.cursor.ge, hd.placed, hd.window, fun i => ?_, hd.backlog⟩
    -- a slot that is due has been visited, since nothing due is left behind the new cursor
    by_cases hi : (r.bucket i).window ≤ upTo
    · have hnone : ((r.bucket i).drained upTo).count = 0 := by rw [Bucket.drained, if_pos hi]
      have hahead := hd.placed.ahead i
      rw [hd.cursor, hd.window] at hahead
      rw [hnone]
      exact hahead.resolve_right (Nat.not_lt.2 hi)
    · have hstay : (r.bucket i).drained upTo = r.bucket i := if_neg hi
      have hbucket := bucket_drainTo upTo r i
      rw [hstay, or_self] at hbucket
      rw [hstay, hbucket]
  · -- the clock is behind the cursor, and what is due by then has been drained before
    have hdue : ∀ i, (r.bucket i).count = 0 ∨ upTo < (r.bucket i).window :=
      fun i => (hr.ahead i).imp_right h.trans_lt
    rw [drainTo_of_le h]
    refine ⟨rfl, le_rfl, hr, fun _ => rfl, fun i => ?_, ?_⟩
    · rcases hdue i with hi | hi
      · rw [hi, Bucket.count_drained_of_zero _ hi]
      · rw [Bucket.drained, if_neg (Nat.not_le.2 hi)]
    · exact (stored_eq_backlog fun i => due_eq_zero_iff.2 (hdue i)).symm

theorem bucket_purge (r : ExpiryRing) (now i : Nat) :
    (r.purge now).2.bucket i = (r.drainTo (now / r.width)).bucket i := by
  rw [purge_eq]
  rfl

theorem Placed.purge (hr : r.Placed) (now : Nat) : (r.purge now).2.Placed := by
  have hs := (hr.swept (now / r.width)).placed
  rw [purge_eq]
  exact ⟨hs.own, hs.ahead⟩

theorem Placed.add (hr : r.Placed) (now : Nat) (n : Int64) (lifespan : Duration) :
    (r.add now n lifespan).Placed := by
  rw [ExpiryRing.add]
  split
  · exact ⟨hr.own, hr.ahead⟩
  · split
    · exact hr
    · exact hr.record _ n

theorem contents_purge (hr : r.Placed) (hfit : fitsSigned64 (r.purgeSum now) = true) :
    (r.purge now).1.toInt + (r.purge now).2.contents = r.contents := by
  have hs := hr.swept (now / r.width)
  have hback : (r.drainTo (now / r.width)).backlog.toInt = r.purgeSum now := by
    rw [hs.backlog, ← toInt_ofInt_of_fits hfit, stored, sum_eq_ofInt, purgeSum, Int64.ofInt_add,
      Int64.ofInt_toInt, List.map_map]
    rfl
  have hcounts : (r.drainTo (now / r.width)).slots.toList.map (·.count.toInt) =
      r.slots.toList.map fun b => (b.drained (now / r.width)).count.toInt :=
    map_slots_congr hs.windows fun i => congrArg Int64.toInt (hs.count i)
  have hsplit := List.sum_map_add (l := r.slots.toList)
    (f := fun b => (b.due (now / r.width)).toInt)
    (g := fun b => (b.drained (now / r.width)).count.toInt)
  simp only [Bucket.toInt_due_add_drained] at hsplit
  rw [purge_eq, contents_backlog, contents, hcounts, hback, contents, hsplit, purgeSum]
  simp only [Int64.toInt_zero]
  omega

theorem cursor_add (r : ExpiryRing) (now : Nat) (n : Int64) (lifespan : Duration) :
    (r.add now n lifespan).cursor = r.cursor := by
  rw [add]; split <;> [rfl; (split <;> [rfl; exact cursor_record ..])]

theorem Placed.cursor_le_purge (hr : r.Placed) (now : Nat) :
    r.cursor ≤ (r.purge now).2.cursor := by
  rw [purge_eq]
  exact (hr.swept _).cursor_le

theorem bucket_record_cases (r : ExpiryRing) (w : Nat) (n : Int64) (i : Nat) :
    (r.record w n).bucket i = r.bucket i ∨ ((r.record w n).bucket i).window = w := by
  have hwrite : ∀ k m, (r.write k (r.slotOf w) ⟨w, m⟩).bucket i = r.bucket i ∨
      ((r.write k (r.slotOf w) ⟨w, m⟩).bucket i).window = w := by
    intro k m
    rw [bucket_write]
    split
    · exact Or.inr rfl
    · exact Or.inl rfl
  simp only [record, Fin.getElem_fin, getElem_slots, set_slots]
  split
  · exact Or.inl rfl
  · split
    · exact hwrite _ _
    · exact hwrite 0 _

/-- Every count that stands in a slot is that of an addition which falls due with its window. -/
structure Dated (r : ExpiryRing) (maxAge : Duration) (windows : Nat) (adds : List LedgerEntry) :
    Prop where
  windows_pos : 0 < windows
  maxAge : r.maxAge = maxAge.ticks
  windows : r.windows = windows
  placed : r.Placed
  dated : ∀ i, (r.bucket i).count = 0 ∨
    0 < r.width ∧ ∃ e ∈ adds, e.expiry = (r.bucket i).window * r.width

namespace Dated

variable {maxAge : Duration} {windows : Nat} {adds : List LedgerEntry}

theorem create {now : Nat} (h : ExpiryRing.create maxAge windows now = .ok r) :
    r.Dated maxAge windows [] := by
  obtain ⟨hpos, hm, hw, -, -, hempty⟩ := create_spec h
  exact ⟨hpos, hm, hw, (Timely.create h).placed, fun i => Or.inl (by rw [hempty])⟩

theorem slot (h : r.Dated maxAge windows adds) {i : Nat} {b : Bucket}
    (hb : r.slots.toList[i]? = some b) (hcount : b.count ≠ 0) :
    b.window % (windows + 2) = i ∧ r.cursor < b.window := by
  have hahead := h.placed.ahead i
  have hown := h.placed.own i
  rw [bucket_of_getElem? hb] at hahead hown
  rw [h.windows] at hown
  have hlt := hahead.resolve_left hcount
  exact ⟨hown.resolve_left (by omega), hlt⟩

theorem add (h : r.Dated maxAge windows adds) (now : Nat) (n : Int64) (lifespan : Duration) :
    (r.add now n lifespan).Dated maxAge windows
      (adds ++ [⟨roundedExpiry maxAge windows now lifespan, n⟩]) := by
  have hm := r.maxAge_add now n lifespan
  have hw := r.windows_add now n lifespan
  have hold : ∀ i, (r.bucket i).count = 0 ∨ 0 < r.width ∧
      ∃ e ∈ adds ++ [⟨roundedExpiry maxAge windows now lifespan, n⟩],
        e.expiry = (r.bucket i).window * r.width := by
    intro i
    refine (h.dated i).imp_right fun ⟨hpos, e, he, hdue⟩ => ⟨hpos, e, ?_, hdue⟩
    exact List.mem_append_left _ he
  refine ⟨h.windows_pos, hm.trans h.maxAge, hw.trans h.windows, h.placed.add .., fun i => ?_⟩
  rw [width_congr hm hw, ExpiryRing.add]
  split
  · exact hold i
  · next hz =>
    split
    · exact hold i
    · rcases bucket_record_cases r (r.windowOf now lifespan) n i with hb | hb
      · rw [hb]
        exact hold i
      · have hnew := List.mem_append_right adds
          (List.mem_singleton_self (LedgerEntry.mk (roundedExpiry maxAge windows now lifespan) n))
        refine Or.inr ⟨Nat.pos_of_ne_zero hz, _, hnew, ?_⟩
        rw [hb, roundedExpiry_eq h.maxAge h.windows h.windows_pos, if_neg hz]

theorem purge (h : r.Dated maxAge windows adds) (now : Nat) :
    (r.purge now).2.Dated maxAge windows adds := by
  have hm := r.maxAge_purge now
  have hw := r.windows_purge now
  have hs := h.placed.swept (now / r.width)
  refine ⟨h.windows_pos, hm.trans h.maxAge, hw.trans h.windows, h.placed.purge now, fun i => ?_⟩
  rw [width_congr hm hw, bucket_purge, hs.window, hs.count]
  rcases h.dated i with hz | hdue
  · exact Or.inl (Bucket.count_drained_of_zero _ hz)
  · exact Or.inr hdue

theorem cleared (h : r.Dated maxAge windows adds) {now : Nat}
    (hover : ∀ e ∈ adds, e.expiry ≤ now) :
    (r.purge now).2.backlog = 0 ∧ ∀ b ∈ (r.purge now).2.slots.toList, b.count = 0 := by
  refine ⟨rfl, forall_slots fun i => ?_⟩
  rw [bucket_purge, (h.placed.swept _).count]
  rcases h.dated i with hz | ⟨hpos, e, he, hdue⟩
  · exact Bucket.count_drained_of_zero _ hz
  · have hle : (r.bucket i).window ≤ now / r.width :=
      (Nat.le_div_iff_mul_le hpos).2 (hdue.ge.trans (hover e he))
    rw [Bucket.drained, if_pos hle]

end Dated

end ExpiryRing

namespace ClockedRing

/-- The sums that the operations of a run form, one for each addition and each purge. -/
def sums (s : ClockedRing) : List RingEvent → List Int
  | [] => []
  | .add n lifespan :: es =>
    s.ring.addSum s.clock.now n lifespan :: (s.step (.add n lifespan)).sums es
  | .purge :: es => s.ring.purgeSum s.clock.now :: (s.step .purge).sums es
  | e :: es => (s.step e).sums es

def expiries (s : ClockedRing) : List RingEvent → List Nat
  | [] => []
  | .add n lifespan :: es =>
    s.ring.expiry s.clock.now lifespan :: (s.step (.add n lifespan)).expiries es
  | e :: es => (s.step e).expiries es

variable {s : ClockedRing} {l : Ledger} {adds : List LedgerEntry}

theorem run_append (s : ClockedRing) (es es' : List RingEvent) :
    s.run (es ++ es') = (s.run es).run es' := List.foldl_append

theorem placed_step (h : s.ring.Placed) (e : RingEvent) : (s.step e).ring.Placed := by
  cases e with
  | add n lifespan => exact h.add ..
  | purge => exact h.purge _
  | advance d => exact h
  | set d => exact h

theorem cursor_le_step (h : s.ring.Placed) (e : RingEvent) :
    s.ring.cursor ≤ (s.step e).ring.cursor := by
  cases e with
  | add n lifespan => exact (s.ring.cursor_add ..).ge
  | purge => exact h.cursor_le_purge _
  | advance d => exact le_rfl
  | set d => exact le_rfl

theorem cursor_le_run (h : s.ring.Placed) (es : List RingEvent) :
    s.ring.cursor ≤ (s.run es).ring.cursor := by
  induction es generalizing s with
  | nil => exact le_rfl
  | cons e es ih => exact (cursor_le_step h e).trans (ih (placed_step h e))

/-- What is added to a ring is handed back or in the ring. -/
theorem contents_run (h : s.ring.Placed) {es : List RingEvent}
    (hfit : ∀ n ∈ s.sums es, fitsSigned64 n = true) :
    s.ring.contents + (es.map RingEvent.amount).sum =
      ((s.handedBack es).map Int64.toInt).sum + (s.run es).ring.contents := by
  induction es generalizing s with
  | nil => exact Int.add_comm ..
  | cons e es ih =>
    have hplaced := placed_step h e
    rw [List.map_cons, List.sum_cons]
    cases e with
    | add n lifespan =>
      obtain ⟨hsum, hfit⟩ := List.forall_mem_cons.1 hfit
      have hstep : (s.step (.add n lifespan)).ring.contents = s.ring.contents + n.toInt :=
        ExpiryRing.contents_add hsum
      have hrest := ih hplaced hfit
      rw [hstep, Int.add_assoc] at hrest
      exact hrest
    | purge =>
      obtain ⟨hsum, hfit⟩ := List.forall_mem_cons.1 hfit
      have hstep : (s.ring.purge s.clock.now).1.toInt + (s.step .purge).ring.contents =
          s.ring.contents := ExpiryRing.contents_purge h hsum
      have hrest := ih hplaced hfit
      rw [handedBack, List.map_cons, List.sum_cons, ← hstep, RingEvent.amount, Int.zero_add,
        Int.add_assoc, hrest, Int.add_assoc]
      rfl
    | advance d | set d =>
      rw [RingEvent.amount, Int.zero_add]
      exact ih hplaced hfit

theorem added_eq {maxAge : Duration} {windows : Nat}
    (h : ExpiryRing.create maxAge windows s.clock.now = .ok s.ring) {es : List RingEvent}
    (hfit : ∀ n ∈ s.sums es, fitsSigned64 n = true) :
    (es.map RingEvent.amount).sum =
      ((s.handedBack es).map Int64.toInt).sum + (s.run es).ring.contents := by
  obtain ⟨-, -, -, -, hbacklog, hempty⟩ := ExpiryRing.create_spec h
  have hnone : ∀ b ∈ s.ring.slots.toList, b.count = 0 :=
    ExpiryRing.forall_slots fun i => by rw [hempty]
  have hrun := contents_run (ExpiryRing.Timely.create h).placed hfit
  rwa [ExpiryRing.contents_of_empty hnone, hbacklog, Int64.toInt_zero, Int.zero_add] at hrun

theorem dated_run (hc : s.clock = l.clock) (h : s.ring.Dated l.maxAge l.windows adds)
    (es : List RingEvent) :
    (s.run es).ring.Dated l.maxAge l.windows (adds ++ l.additions es) ∧
      s.expiries es = (l.additions es).map (min ·.expiry horizon) := by
  induction es generalizing s l adds with
  | nil => exact ⟨(List.append_nil adds).symm ▸ h, rfl⟩
  | cons e es ih =>
    cases e with
    | add n lifespan =>
      have hreturned := ExpiryRing.expiry_eq h.maxAge h.windows h.windows_pos s.clock lifespan
      have hadditions : l.additions (.add n lifespan :: es) =
          ⟨roundedExpiry l.maxAge l.windows s.clock.now lifespan, n⟩ ::
            (l.step (.add n lifespan)).additions es := by
        rw [hc]
        rfl
      obtain ⟨hrun, hexpiries⟩ :=
        ih (s := s.step (.add n lifespan)) (l := l.step (.add n lifespan)) hc (h.add _ n lifespan)
      rw [hadditions]
      refine ⟨?_, ?_⟩
      · rw [List.append_cons]
        exact hrun
      · rw [expiries, hreturned, hexpiries, List.map_cons]
    -- what falls due is dropped from the ledger, which its list of additions does not show
    | purge => exact ih (l := l.step .purge) hc (h.purge s.clock.now)
    | advance d => exact ih (l := l.step (.advance d)) (congrArg (·.advance d) hc) h
    | set d => exact ih (l := l.step (.set d)) (congrArg (·.set d) hc) h

end ClockedRing

/-- Whatever the clock does, what was added to a ring is what was handed back and what is still in
it. A count that stands in a slot has the slot of its window and is yet to be drained, and a purge
that has reached all returned instants leaves nothing. -/
theorem ExpiryRing.conserves (maxAge : Duration) {windows : Nat} (hw : 0 < windows) (start : Clock)
    (es : List RingEvent) :
    ∃ r, ExpiryRing.create maxAge windows start.now = .ok r ∧
      let s : ClockedRing := ⟨start, r⟩
      let additions := (Ledger.mk maxAge windows start []).additions es
      let q := (s.run es).ring
      let purged := (s.run (es ++ [.purge])).ring
      ((∀ n ∈ s.sums es, fitsSigned64 n = true) →
        (es.map RingEvent.amount).sum =
          ((s.handedBack es).map Int64.toInt).sum + q.backlog.toInt +
            (q.slots.toList.map (·.count.toInt)).sum) ∧
      (∀ i b, q.slots.toList[i]? = some b → b.count ≠ 0 →
        b.window % (windows + 2) = i ∧ q.cursor < b.window) ∧
      (∀ later, q.cursor ≤ (s.run (es ++ later)).ring.cursor) ∧
      s.expiries es = additions.map (min ·.expiry horizon) ∧
      ((∀ e ∈ additions, e.expiry ≤ horizon) →
        (∀ t ∈ s.expiries es, t ≤ (s.run es).clock.now) →
          (purged.backlog = 0 ∧ ∀ b ∈ purged.slots.toList, b.count = 0) ∧
            ((∀ n ∈ s.sums (es ++ [.purge]), fitsSigned64 n = true) →
              ((s.handedBack (es ++ [.purge])).map Int64.toInt).sum =
                (es.map RingEvent.amount).sum)) := by
  obtain ⟨r, hr⟩ : ∃ r, ExpiryRing.create maxAge windows start.now = .ok r :=
    ⟨_, if_neg (Nat.ne_of_gt hw)⟩
  let s : ClockedRing := ⟨start, r⟩
  obtain ⟨hrun, hexpiries⟩ := ClockedRing.dated_run (s := s) (l := ⟨maxAge, windows, start, []⟩)
    rfl (Dated.create hr) es
  refine ⟨r, hr, fun hfit => ?_, fun i b hb hcount => hrun.slot hb hcount, fun later => ?_,
    hexpiries, fun hexact hreached => ?_⟩
  · rw [ClockedRing.added_eq hr hfit, Int.add_assoc]
    rfl
  · rw [ClockedRing.run_append]
    exact ClockedRing.cursor_le_run hrun.placed later
  · have hover : ∀ e ∈ (Ledger.mk maxAge windows start []).additions es,
        e.expiry ≤ (s.run es).clock.now := by
      intro e he
      have hle := hreached (min e.expiry horizon) (hexpiries ▸ List.mem_map_of_mem he)
      rwa [Nat.min_eq_left (hexact e he)] at hle
    have hpurged : (s.run (es ++ [.purge])).ring = ((s.run es).ring.purge (s.run es).clock.now).2 :=
      congrArg ClockedRing.ring (s.run_append es [.purge])
    have hnone := hrun.cleared hover
    rw [← hpurged] at hnone
    refine ⟨hnone, fun hfit => ?_⟩
    have hadded := ClockedRing.added_eq (s := s) hr hfit
    rw [contents_of_empty hnone.2, hnone.1, Int64.toInt_zero, Int.add_zero, List.map_append,
      List.sum_append] at hadded
    exact hadded.symm.trans (Int.add_zero _)

/-- The clock is moved back by 50 seconds, and the second count falls behind the cursor. -/
theorem ExpiryRing.conserves_behind_cursor :
    let start := Clock.startingAt (.ofSeconds 100)
    let es : List RingEvent := [.add 4 (.ofSeconds 30), .advance ⟨UInt64.size - 50_000_000_000⟩,
      .add 1 (.ofSeconds 30), .set (.ofSeconds 140)]
    ∃ r, ExpiryRing.create (.ofSeconds 30) 10 start.now = .ok r ∧
      (((ClockedRing.mk start r).handedBack (es ++ [.purge])).map Int64.toInt).sum = 5 := by
  intro start es
  obtain ⟨r, hr, -, -, -, hexpiries, hcleared⟩ :=
    ExpiryRing.conserves (.ofSeconds 30) (by decide : 0 < 10) start es
  refine ⟨r, hr, ?_⟩
  cases hr
  exact (hcleared (by decide) (by rw [hexpiries]; decide)).2 (by decide)

end LeastLoad
