import LeastLoad.Proofs.Expiry.Stored
import Mathlib.Data.Nat.ModEq

/-! # A ring read by a clock that moves forward

At every reading the ring holds windows no further ahead than the longest lifespan, so that a
window that takes over a slot is a whole turn ahead of the one it finds there. -/

namespace LeastLoad

namespace ExpiryRing

variable {r : ExpiryRing} {now : Nat}

structure Timely (r : ExpiryRing) (now : Nat) : Prop where
  placed : r.Placed
  cursor_le : r.cursor ≤ now / r.width
  near : ∀ i, (r.bucket i).window ≤ now / r.width + r.windows + 1

theorem Timely.later {later : Nat} (h : r.Timely now) (hl : now ≤ later) : r.Timely later := by
  have hd : now / r.width ≤ later / r.width := Nat.div_le_div_right hl
  exact ⟨h.placed, h.cursor_le.trans hd, fun i => (h.near i).trans (by omega)⟩

theorem maxAge_le (hw : 0 < r.windows) : r.maxAge ≤ r.windows * r.width := by
  have hd := Nat.div_add_mod (r.maxAge + r.windows - 1) r.windows
  have hm := Nat.mod_lt (r.maxAge + r.windows - 1) hw
  simp only [width]
  omega

theorem lt_windowOf (hnow : now ≤ horizon) (lifespan : Duration) :
    now / r.width < r.windowOf now lifespan := by
  have hle : now ≤ min (now + min lifespan.ticks r.maxAge) horizon := by omega
  exact Nat.lt_succ_of_le (Nat.div_le_div_right hle)

theorem windowOf_le (hw : 0 < r.windows) (hwidth : 0 < r.width) (lifespan : Duration) :
    r.windowOf now lifespan ≤ now / r.width + r.windows + 1 := by
  have hm := maxAge_le hw
  have hle : min (now + min lifespan.ticks r.maxAge) horizon ≤ now + r.windows * r.width := by
    omega
  have hd := Nat.div_le_div_right (c := r.width) hle
  rw [Nat.add_mul_div_right _ _ hwidth] at hd
  exact Nat.succ_le_succ hd

theorem Timely.tenant (h : r.Timely now) {w : Nat} (hlt : now / r.width < w)
    (hle : w ≤ now / r.width + r.windows + 1) :
    (r.bucket (r.slotOf w).val).window = w ∨
      (r.bucket (r.slotOf w).val).window ≤ now / r.width := by
  have hnear := h.near (r.slotOf w).val
  rcases h.placed.own (r.slotOf w).val with hzero | hown
  · right
    exact hzero.le.trans (Nat.zero_le _)
  · have hmod : (r.bucket (r.slotOf w).val).window ≡ w [MOD r.windows + 2] := hown
    rcases Nat.lt_trichotomy (r.bucket (r.slotOf w).val).window w with hv | hv | hv
    · have := hmod.add_le_of_lt hv
      right
      omega
    · exact Or.inl hv
    · have := hmod.symm.add_le_of_lt hv
      omega

theorem Timely.record (h : r.Timely now) {w : Nat} (n : Int64)
    (hle : w ≤ now / r.width + r.windows + 1) : (r.record w n).Timely now := by
  have hwd : (r.record w n).width = r.width :=
    width_congr (r.maxAge_record w n) (r.windows_record w n)
  constructor
  · exact h.placed.record w n
  · rw [cursor_record, hwd]
    exact h.cursor_le
  · intro i
    rw [hwd, windows_record]
    exact window_record_le n (h.near i) hle

theorem Timely.backlog (h : r.Timely now) (n : Int64) :
    ({ r with backlog := n } : ExpiryRing).Timely now :=
  ⟨⟨h.placed.own, h.placed.ahead⟩, h.cursor_le, h.near⟩

theorem drainTo_of_le {upTo : Nat} (h : upTo ≤ r.cursor) : r.drainTo upTo = r :=
  if_neg (Nat.not_lt.2 h)

theorem purge_eq (r : ExpiryRing) (now : Nat) :
    r.purge now = ((r.drainTo (now / r.width)).backlog,
      { r.drainTo (now / r.width) with backlog := 0 }) := by
  rcases Nat.eq_zero_or_pos r.width with hz | hpos
  · rw [purge, if_pos hz, hz, Nat.div_zero, drainTo_of_le (Nat.zero_le _)]
  · rw [purge, if_neg (Nat.ne_of_gt hpos)]

theorem Timely.drained (h : r.Timely now) :
    Drained (now / r.width) r (r.drainTo (now / r.width)) :=
  drainTo_spec h.placed h.cursor_le

theorem Timely.purge (h : r.Timely now) : (r.purge now).2.Timely now := by
  have hd := h.drained
  have hwd : (r.drainTo (now / r.width)).width = r.width := width_congr hd.maxAge hd.windows
  rw [purge_eq]
  refine Timely.backlog ⟨hd.placed, ?_, fun i => ?_⟩ 0
  · rw [hwd]
    exact hd.cursor.le
  · rw [hwd]
    exact (hd.window i).le.trans (hd.windows ▸ h.near i)

theorem bucket_of_replicate (h : ∀ b ∈ r.slots.toList, b = {}) (i : Nat) : r.bucket i = {} := by
  rw [bucket, List.getD_eq_getElem?_getD]
  cases hb : r.slots.toList[i]? with
  | none => rfl
  | some b => exact h b (List.mem_of_getElem? hb)

theorem create_spec {maxAge : Duration} {windows : Nat}
    (h : ExpiryRing.create maxAge windows now = .ok r) :
    0 < windows ∧ r.maxAge = maxAge.ticks ∧ r.windows = windows ∧ r.cursor = now / r.width ∧
      r.backlog = 0 ∧ ∀ i, r.bucket i = {} := by
  rw [create] at h
  split at h
  · cases h
  · next hw =>
    cases h
    refine ⟨Nat.pos_of_ne_zero hw, rfl, rfl, rfl, rfl, bucket_of_replicate fun b hb => ?_⟩
    rw [Vector.toList_replicate] at hb
    exact List.eq_of_mem_replicate hb

theorem Timely.create {maxAge : Duration} {windows : Nat}
    (h : ExpiryRing.create maxAge windows now = .ok r) : r.Timely now := by
  obtain ⟨-, -, -, hcursor, -, hempty⟩ := create_spec h
  refine ⟨⟨fun i => .inl ?_, fun i => .inl ?_⟩, hcursor.le, fun i => ?_⟩
  · rw [hempty]
  · rw [hempty]
  · rw [hempty]
    exact Nat.zero_le _

end ExpiryRing

end LeastLoad
