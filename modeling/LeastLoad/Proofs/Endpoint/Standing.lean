import LeastLoad.Proofs.Endpoint.Directory
import LeastLoad.Proofs.Expiry.Awaited

/-! # Loads of one kind

Two sums that break ties can be compared only if they track the same thing, so the comparison of
arbitrary loads is no order. Loads made with the same settings are all of one kind, and stay so;
among them the comparison is a lexicographic order.

What is due at a reading is applied once: a load that has been brought up to date is not changed
by being brought up to date again. -/

namespace LeastLoad

theorem ExpiryRing.purge_purge (r : ExpiryRing) (now : Nat) :
    (r.purge now).2.purge now = (0, (r.purge now).2) := by
  have hdrained : ∀ q : ExpiryRing, q.maxAge = r.maxAge → q.windows = r.windows →
      now / r.width ≤ q.cursor → q.backlog = 0 → q.purge now = (0, q) := by
    intro q hage hwindows hcursor hbacklog
    have hwidth : q.width = r.width := by simp only [width, hage, hwindows]
    rw [purge_eq, hwidth, drainTo_of_le hcursor, hbacklog]
    congr 1
    cases q
    simp only at hbacklog
    rw [hbacklog]
  have hshape : ∀ ws : List Nat,
      (ws.foldl (fun q w => q.drainSlot (now / r.width) (q.slotOf w)) r).maxAge = r.maxAge ∧
      (ws.foldl (fun q w => q.drainSlot (now / r.width) (q.slotOf w)) r).windows = r.windows :=
    fun ws => List.foldlRecOn (motive := fun q : ExpiryRing =>
      q.maxAge = r.maxAge ∧ q.windows = r.windows) ws _ ⟨rfl, rfl⟩ fun _ hq _ _ => hq
  rw [purge_eq r]
  by_cases h : r.cursor < now / r.width
  · rw [drainTo, if_pos h]
    exact hdrained _ (hshape _).1 (hshape _).2 le_rfl rfl
  · rw [drainTo_of_le (Nat.not_lt.1 h)]
    exact hdrained _ rfl rfl (Nat.not_lt.1 h) rfl

theorem DeferredSum.flush_flush (c : DeferredSum) (now : Nat) :
    (c.flush now).2.flush now = (0, (c.flush now).2) := by
  simp [flush_eq, ExpiryRing.purge_purge]

theorem SlidingSum.check_check (s : SlidingSum) (now : Nat) :
    (s.check now).check now = s.check now := by
  simp [check, DeferredSum.flush_flush]

namespace TieBreak

def kind : TieBreak → SubStrategy
  | untracked => .absent
  | frequency _ => .leastFrequency
  | latency _ => .leastTime

@[simp] theorem kind_sync (x : TieBreak) (now : Nat) : (x.sync now).kind = x.kind := by
  cases x <;> rfl

@[simp] theorem sync_sync (x : TieBreak) (now : Nat) : (x.sync now).sync now = x.sync now := by
  cases x <;> simp [sync, SlidingSum.check_check]

theorem compare_of_kind_eq {x y : TieBreak} (h : x.kind = y.kind) :
    x.compare y = Ord.compare x.reading y.reading := by
  cases x <;> cases y <;> first | rfl | cases h

theorem kind_create {c : LoadSettings} {now : Nat} {x : TieBreak}
    (h : TieBreak.create c now = .ok x) : x.kind = c.subStrategy := by
  rw [TieBreak.create] at h
  cases hc : c.subStrategy with
  | absent =>
    rw [hc] at h
    cases h
    rfl
  | leastFrequency | leastTime =>
    rw [hc] at h
    cases hs : SlidingSum.create c.lookBack c.windows now with
    | error e =>
      rw [hs] at h
      cases h
    | ok s =>
      rw [hs] at h
      cases h
      rfl

end TieBreak

namespace EndpointLoad

variable {l a b : EndpointLoad} {now : Nat}

def kind (l : EndpointLoad) : SubStrategy := l.tieBreak.kind

@[simp] theorem kind_sync : (l.sync now).kind = l.kind := by
  simp only [sync, kind]
  split <;> simp

@[simp] theorem kind_acquire (n : Int32) : (l.acquire now n).kind = l.kind := by
  cases l with
  | mk endpoint concurrency disabled tieBreak penalty => cases tieBreak <;> rfl

@[simp] theorem kind_release (n : Int32) (latency : Duration) :
    (l.release now n latency).kind = l.kind := by
  cases l with
  | mk endpoint concurrency disabled tieBreak penalty => cases tieBreak <;> rfl

@[simp] theorem kind_penalize (latency : Duration) : (l.penalize now latency).2.kind = l.kind := by
  simp only [penalize]
  split <;> rfl

theorem kind_create {e : Endpoint} {c : LoadSettings} (h : EndpointLoad.create e c now = .ok l) :
    l.kind = c.subStrategy :=
  TieBreak.kind_create (create_spec h).1

@[simp] theorem sync_sync : (l.sync now).sync now = l.sync now := by
  obtain ⟨endpoint, concurrency, disabled, tieBreak, penalty⟩ := l
  cases penalty with
  | none => simp [sync]
  | some p => simp [sync, DeferredSum.flush_flush]

/-- The lexicographic order by the flag, the units in flight and the sum that breaks ties. -/
def standing : EndpointLoad → EndpointLoad → Ordering :=
  compareLex (compareOn (·.disabled)) <|
    compareLex (compareOn (·.inFlight)) (compareOn (·.tieBreak.reading))

instance : Std.TransCmp standing :=
  inferInstanceAs (Std.TransCmp (compareLex _ (compareLex _ _)))

theorem compare_eq_standing (h : a.kind = b.kind) : a.compare b = standing a b := by
  rw [compare, TieBreak.compare_of_kind_eq h]
  rfl

theorem compare_lt_of_lt_of_ne_gt {x : EndpointLoad} (hab : a.kind = b.kind) (hbx : b.kind = x.kind)
    (hlt : a.compare b = .lt) (hle : b.compare x ≠ .gt) : a.compare x = .lt := by
  rw [compare_eq_standing hab] at hlt
  rw [compare_eq_standing hbx] at hle
  rw [compare_eq_standing (hab.trans hbx)]
  exact Std.TransCmp.lt_of_lt_of_isLE hlt (Ordering.ne_gt_iff_isLE.1 hle)

theorem compare_ne_gt_of_ne_lt (h : a.kind = b.kind) (hnlt : a.compare b ≠ .lt) :
    b.compare a ≠ .gt := by
  rw [compare_eq_standing h] at hnlt
  rw [compare_eq_standing h.symm]
  exact fun hgt => hnlt (Std.OrientedCmp.lt_of_gt hgt)

theorem compare_self (l : EndpointLoad) : l.compare l = .eq := by
  rw [compare_eq_standing rfl]
  exact Std.ReflCmp.compare_self

end EndpointLoad

namespace LoadTable

theorem load_update_sync (t : LoadTable) (r s : LoadRef) (now : Nat) :
    (t.update r (·.sync now)).load s = if r = s then (t.load s).sync now else t.load s := by
  rw [load_update]
  by_cases hs : r = s
  · subst hs
    by_cases hr : r.place < t.states.size
    · rw [if_pos ⟨rfl, hr⟩, if_pos rfl]
    · rw [if_neg fun h => hr h.2, if_pos rfl, load_of_size_le (Nat.not_lt.1 hr)]
      rfl
  · rw [if_neg fun h => hs h.1, if_neg hs]

def standing (t : LoadTable) (a b : LoadRef) : Ordering :=
  EndpointLoad.standing (t.load a) (t.load b)

instance (t : LoadTable) : Std.TransCmp t.standing where
  eq_swap {a b} := @Std.OrientedCmp.eq_swap _ EndpointLoad.standing _ (t.load a) (t.load b)
  isLE_trans {a b c} :=
    @Std.TransCmp.isLE_trans _ EndpointLoad.standing _ (t.load a) (t.load b) (t.load c)

end LoadTable

end LeastLoad
