import LeastLoad.Endpoint.Directory
import Mathlib.Algebra.Group.Nat.Defs
import Mathlib.Order.Defs.LinearOrder

/-! # Loads compared and changed

The comparison of loads refines the order by units in flight, read unsigned, as long as none is
disabled; and whatever is available strictly precedes whatever is not. No operation on a load
changes the endpoint that it belongs to. -/

namespace LeastLoad

namespace EndpointLoad

variable {l a b : EndpointLoad} {now : Nat}

/-- The units in flight as they are compared. -/
def inFlight (l : EndpointLoad) : UInt32 := l.concurrency.toUInt32

theorem nonneg_iff_inFlight_lt : 0 ≤ l.concurrency ↔ l.inFlight.toNat < 2 ^ 31 := by
  rw [Int32.le_iff_toInt_le, inFlight]
  have h := BitVec.toInt_eq_toNat_cond l.concurrency.toBitVec
  have hlt := l.concurrency.toBitVec.isLt
  change (0 : Int) ≤ l.concurrency.toBitVec.toInt ↔ l.concurrency.toBitVec.toNat < 2 ^ 31
  rw [h]
  split <;> omega

theorem available_iff : l.available = true ↔ l.disabled = false ∧ l.inFlight.toNat < 2 ^ 31 := by
  simp [available, nonneg_iff_inFlight_lt]

theorem compare_of_disabled_eq (h : a.disabled = b.disabled) :
    a.compare b =
      (Ord.compare a.inFlight b.inFlight).then (a.tieBreak.compare b.tieBreak) := by
  rw [compare, h]
  cases b.disabled <;> rfl

theorem inFlight_le_of_compare_ne_gt (h : a.disabled = b.disabled) (hngt : a.compare b ≠ .gt) :
    a.inFlight ≤ b.inFlight := by
  rw [compare_of_disabled_eq h] at hngt
  refine UInt32.not_lt.1 fun hgt => hngt ?_
  rw [Std.compare_eq_gt.2 hgt]
  rfl

theorem inFlight_le_of_compare_lt (h : a.disabled = b.disabled) (hlt : a.compare b = .lt) :
    a.inFlight ≤ b.inFlight :=
  inFlight_le_of_compare_ne_gt h (by rw [hlt]; decide)

theorem inFlight_le_of_compare_ne_lt (h : a.disabled = b.disabled) (hnlt : a.compare b ≠ .lt) :
    b.inFlight ≤ a.inFlight := by
  rw [compare_of_disabled_eq h] at hnlt
  refine UInt32.not_lt.1 fun hlt => hnlt ?_
  rw [Std.compare_eq_lt.2 hlt]
  rfl

theorem compare_eq_lt (ha : a.available = true) (hb : b.available = false) :
    a.compare b = .lt := by
  rw [available_iff] at ha
  cases hd : b.disabled with
  | true =>
    rw [compare, ha.1, hd]
    rfl
  | false =>
    have hb' : ¬ b.inFlight.toNat < 2 ^ 31 := fun hlt => by
      rw [available_iff.2 ⟨hd, hlt⟩] at hb
      cases hb
    have hlt : a.inFlight < b.inFlight := UInt32.lt_iff_toNat_lt.2 (by omega)
    rw [compare_of_disabled_eq (ha.1.trans hd.symm), Std.compare_eq_lt.2 hlt]
    rfl

theorem available_of_compare_lt (hb : b.available = true) (h : a.compare b = .lt) :
    a.available = true := by
  rw [available_iff] at hb ⊢
  have hd : a.disabled = false := by
    cases had : a.disabled with
    | true =>
      rw [compare, had, hb.1] at h
      cases h
    | false => rfl
  have hle := UInt32.le_iff_toNat_le.1 (inFlight_le_of_compare_lt (hd.trans hb.1.symm) h)
  exact ⟨hd, by omega⟩

theorem create_spec {e : Endpoint} {c : LoadSettings} (h : EndpointLoad.create e c now = .ok l) :
    TieBreak.create c now = .ok l.tieBreak ∧
      c.failureSustain.mapM (Penalty.create · c.windows now) = .ok l.penalty ∧
      l = { endpoint := e, tieBreak := l.tieBreak, penalty := l.penalty } := by
  simp only [EndpointLoad.create, bind, Except.bind, pure, Except.pure] at h
  split at h
  · cases h
  · next tieBreak htie =>
    split at h
    · cases h
    · next penalty hpen =>
      cases h
      exact ⟨htie, hpen, rfl⟩

@[simp] theorem endpoint_sync : (l.sync now).endpoint = l.endpoint := by
  simp only [sync]
  split <;> rfl

@[simp] theorem disabled_sync : (l.sync now).disabled = l.disabled := by
  simp only [sync]
  split <;> rfl

theorem sync_of_penalty_none (h : l.penalty = none) :
    l.sync now = { l with tieBreak := l.tieBreak.sync now } := by
  simp only [sync, h]

@[simp] theorem endpoint_penalize (latency : Duration) :
    (l.penalize now latency).2.endpoint = l.endpoint := by
  simp only [penalize]
  split <;> rfl

end EndpointLoad

namespace LoadTable

variable {t : LoadTable} {r s : LoadRef} {g : EndpointLoad → EndpointLoad}

@[simp] theorem size_update : (t.update r g).states.size = t.states.size := by
  simp [update]

theorem load_update (t : LoadTable) (r s : LoadRef) (g : EndpointLoad → EndpointLoad) :
    (t.update r g).load s =
      if r = s ∧ r.place < t.states.size then g (t.load s) else t.load s := by
  by_cases hs : r = s
  · subst hs
    by_cases hr : r.place < t.states.size
    · rw [load_update_self hr, if_pos ⟨rfl, hr⟩]
    · have hget : t.states[r.place]? = none := Array.getElem?_eq_none (Nat.not_lt.1 hr)
      rw [if_neg fun h => hr h.2]
      simp [load, update, Array.getElem?_modify, hget]
  · rw [load_update_of_ne hs, if_neg fun h => hs h.1]

theorem load_update_congr {β : Type} (v : EndpointLoad → β) (h : ∀ l, v (g l) = v l) :
    v ((t.update r g).load s) = v (t.load s) := by
  rw [load_update]
  split
  · exact h _
  · rfl

theorem endpoint_update (h : ∀ l, (g l).endpoint = l.endpoint) :
    (t.update r g).endpoint s = t.endpoint s :=
  load_update_congr (·.endpoint) h

/-- States of the table, no two of them of one endpoint. -/
structure Apart (t : LoadTable) (states : List LoadRef) : Prop where
  place : ∀ r ∈ states, r.place < t.states.size
  one : ∀ r ∈ states, ∀ r' ∈ states, t.endpoint r' = t.endpoint r → r' = r

end LoadTable

end LeastLoad
