import LeastLoad.Expiry.Deferred
import LeastLoad.Proofs.Expiry.Timely

/-! # Deliveries that are awaited

A deferred sum is not delivered by itself. It is awaited if a check is planned for each instant at
which some of it falls due: nothing is then delivered at any other time, and a check leaves only
what is due at planned instants still to come. -/

namespace LeastLoad

namespace ExpiryRing

variable {r : ExpiryRing} {now : Nat} {planned planned' : Nat → Prop}

/-- Each count is due at a planned instant, or after the last instant of all. -/
structure Awaited (planned : Nat → Prop) (now : Nat) (r : ExpiryRing) : Prop where
  timely : r.Timely now
  windows : 0 < r.windows
  backlog : r.backlog = 0 ∨ ∃ d ≤ now, planned d
  counts : ∀ i, (r.bucket i).count ≠ 0 → 0 < r.width ∧
    ((r.bucket i).window * r.width ≤ horizon → planned ((r.bucket i).window * r.width))

theorem Awaited.later {later : Nat} (h : r.Awaited planned now) (hl : now ≤ later) :
    r.Awaited planned later := by
  refine ⟨h.timely.later hl, h.windows, ?_, h.counts⟩
  rcases h.backlog with hb | ⟨d, hd, hp⟩
  · exact Or.inl hb
  · exact Or.inr ⟨d, hd.trans hl, hp⟩

theorem Awaited.mono (h : r.Awaited planned now) (hp : ∀ d, planned d → planned' d) :
    r.Awaited planned' now := by
  refine ⟨h.timely, h.windows, ?_, fun i hi => ?_⟩
  · rcases h.backlog with hb | ⟨d, hd, hd'⟩
    · exact Or.inl hb
    · exact Or.inr ⟨d, hd, hp d hd'⟩
  · obtain ⟨hpos, hw⟩ := h.counts i hi
    exact ⟨hpos, fun hle => hp _ (hw hle)⟩

theorem Awaited.exists_list (h : r.Awaited planned now) :
    ∃ ds : List Nat, (∀ d ∈ ds, planned d) ∧ r.Awaited (· ∈ ds) now := by
  classical
  obtain ⟨due, hdue, hback⟩ :
      ∃ due : List Nat, (∀ d ∈ due, planned d) ∧ (r.backlog = 0 ∨ ∃ d ≤ now, d ∈ due) := by
    rcases h.backlog with hb | ⟨d, hd, hp⟩
    · exact ⟨[], nofun, .inl hb⟩
    · exact ⟨[d], fun d' hd' => List.mem_singleton.1 hd' ▸ hp,
        .inr ⟨d, hd, List.mem_singleton_self d⟩⟩
  have hmem : ∀ i, (r.bucket i).count ≠ 0 → r.bucket i ∈ r.slots.toList := by
    intro i hi
    rw [bucket, List.getD_eq_getElem?_getD] at hi ⊢
    cases hb : r.slots.toList[i]? with
    | none =>
      rw [hb] at hi
      exact absurd rfl hi
    | some b => exact List.mem_of_getElem? hb
  refine ⟨due ++ (r.slots.toList.map (·.window * r.width)).filter (planned ·), fun d hd => ?_,
    h.timely, h.windows, hback.imp_right ?_, fun i hi => ⟨(h.counts i hi).1, fun hle => ?_⟩⟩
  · rcases List.mem_append.1 hd with hd | hd
    · exact hdue d hd
    · exact of_decide_eq_true (List.mem_filter.1 hd).2
  · rintro ⟨d, hd, hin⟩
    exact ⟨d, hd, List.mem_append_left _ hin⟩
  · exact List.mem_append_right _ (List.mem_filter.2
      ⟨List.mem_map.2 ⟨_, hmem i hi, rfl⟩, decide_eq_true ((h.counts i hi).2 hle)⟩)

theorem Awaited.due_eq_zero (h : r.Awaited planned now) (hnow : now ≤ horizon)
    (hp : ∀ d, planned d → now < d) (i : Nat) : (r.bucket i).due (now / r.width) = 0 := by
  rw [due_eq_zero_iff]
  by_cases hc : (r.bucket i).count = 0
  · exact Or.inl hc
  · right
    obtain ⟨hpos, hw⟩ := h.counts i hc
    rw [Nat.div_lt_iff_lt_mul hpos]
    by_cases hle : (r.bucket i).window * r.width ≤ horizon
    · exact hp _ (hw hle)
    · omega

theorem Awaited.purge_fst (h : r.Awaited planned now) (hnow : now ≤ horizon)
    (hp : ∀ d, planned d → now < d) : (r.purge now).1 = 0 := by
  have hb : r.backlog = 0 := by
    refine h.backlog.resolve_right ?_
    rintro ⟨d, hd, hd'⟩
    exact Nat.not_lt.2 hd (hp d hd')
  rcases Nat.eq_zero_or_pos r.width with hz | hpos
  · rw [purge, if_pos hz]
    exact hb
  · rw [purge_eq]
    change (r.drainTo (now / r.width)).backlog = 0
    rw [h.timely.drained.backlog, stored_eq_backlog (h.due_eq_zero hnow hp), hb]

theorem Awaited.purge (h : r.Awaited planned now) :
    (r.purge now).2.Awaited (fun d => planned d ∧ now < d) now := by
  have hw : (r.purge now).2.width = r.width :=
    width_congr (maxAge_purge r now) (windows_purge r now)
  refine ⟨h.timely.purge, ?_, Or.inl rfl, fun i hi => ?_⟩
  · rw [windows_purge]
    exact h.windows
  · rw [hw]
    rcases Nat.eq_zero_or_pos r.width with hz | hpos
    · rw [ExpiryRing.purge, if_pos hz] at hi
      exact absurd hz (Nat.ne_of_gt (h.counts i hi).1)
    · have hd := h.timely.drained
      rw [purge_eq] at hi ⊢
      change ((r.drainTo (now / r.width)).bucket i).count ≠ 0 at hi
      change _ ∧ (((r.drainTo (now / r.width)).bucket i).window * r.width ≤ horizon →
        planned (((r.drainTo (now / r.width)).bucket i).window * r.width) ∧
          now < ((r.drainTo (now / r.width)).bucket i).window * r.width)
      have hlt := (hd.placed.ahead i).resolve_left hi
      rw [hd.cursor, Nat.div_lt_iff_lt_mul hpos] at hlt
      have hkept := (hd.kept i).resolve_left hi
      rw [hkept] at hi hlt ⊢
      exact ⟨hpos, fun hle => ⟨(h.counts i hi).2 hle, hlt⟩⟩

theorem Awaited.write (h : r.Awaited planned now) (hpos : 0 < r.width) {w : Nat} (k n : Int64)
    (ht : (r.write k (r.slotOf w) ⟨w, n⟩).Timely now)
    (hk : k = 0 ∨ ∃ d ≤ now, planned d)
    (hw : w * r.width ≤ horizon → planned (w * r.width)) :
    (r.write k (r.slotOf w) ⟨w, n⟩).Awaited planned now := by
  refine ⟨ht, h.windows, ?_, fun i => ?_⟩
  · rcases hk with rfl | hk
    · rcases h.backlog with hb | hb
      · left
        change r.backlog + 0 = 0
        rw [hb]
        rfl
      · exact Or.inr hb
    · exact Or.inr hk
  · rw [bucket_write]
    split
    · exact fun _ => ⟨hpos, hw⟩
    · exact h.counts i

theorem expiry_of_pos (hpos : 0 < r.width) (lifespan : Duration) :
    r.expiry now lifespan = min (r.windowOf now lifespan * r.width) horizon := by
  rw [expiry, if_neg (Nat.ne_of_gt hpos)]

theorem Awaited.add (h : r.Awaited planned now) (hnow : now ≤ horizon) (n : Int64)
    (lifespan : Duration) (hp : planned (r.expiry now lifespan)) :
    (r.add now n lifespan).Awaited planned now := by
  rw [ExpiryRing.add]
  split
  · next hz =>
    rw [expiry, if_pos hz] at hp
    exact ⟨h.timely.backlog _, h.windows, Or.inr ⟨now, Nat.le_refl _, hp⟩, h.counts⟩
  · next hz =>
    have hpos : 0 < r.width := Nat.pos_of_ne_zero hz
    split
    · exact h
    · have hlt := lt_windowOf (r := r) hnow lifespan
      have hle : r.windowOf now lifespan ≤ now / r.width + r.windows + 1 :=
        windowOf_le h.windows hpos lifespan
      have hten := h.timely.tenant hlt hle
      have hcur := h.timely.cursor_le
      have ht := h.timely.record n hle
      have hw : r.windowOf now lifespan * r.width ≤ horizon →
          planned (r.windowOf now lifespan * r.width) := by
        intro hh
        rwa [expiry_of_pos hpos, Nat.min_eq_left hh] at hp
      generalize r.windowOf now lifespan = w at hlt hle hten hw ht ⊢
      rw [record_eq_write n (by omega) (by omega)] at ht ⊢
      dsimp only at ht ⊢
      split at ht
      · next hold =>
        -- an older window leaves its count, which was due at a planned instant
        rw [if_pos hold]
        refine h.write hpos _ _ ht ?_ hw
        by_cases hc : (r.bucket (r.slotOf w).val).count = 0
        · exact Or.inl hc
        · right
          have hold' : (r.bucket (r.slotOf w).val).window ≤ now / r.width := by omega
          rw [Nat.le_div_iff_mul_le hpos] at hold'
          exact ⟨_, hold', (h.counts _ hc).2 (hold'.trans hnow)⟩
      · next hsame =>
        rw [if_neg hsame]
        exact h.write hpos 0 _ ht (Or.inl rfl) hw

theorem Awaited.create {maxAge : Duration} {windows : Nat}
    (h : ExpiryRing.create maxAge windows now = .ok r) : r.Awaited planned now := by
  obtain ⟨hpos, -, hw, -, hback, hempty⟩ := create_spec h
  refine ⟨.create h, ?_, Or.inl hback, fun i hi => ?_⟩
  · rw [hw]
    exact hpos
  · rw [hempty] at hi
    exact absurd rfl hi

end ExpiryRing

namespace DeferredSum

variable {c : DeferredSum} {now : Nat} {planned planned' : Nat → Prop}

structure Awaited (planned : Nat → Prop) (now : Nat) (c : DeferredSum) : Prop where
  ring : c.ring.Awaited planned now
  pending : c.pending = 0

theorem flush_eq (c : DeferredSum) (now : Nat) :
    c.flush now = ((c.ring.purge now).1 + c.pending, ⟨(c.ring.purge now).2, 0⟩) := by
  simp only [flush, check, if_true]
  split
  · next hz =>
    rw [hz]
    rfl
  · rfl

theorem Awaited.later {later : Nat} (h : c.Awaited planned now) (hl : now ≤ later) :
    c.Awaited planned later :=
  ⟨h.ring.later hl, h.pending⟩

theorem Awaited.mono (h : c.Awaited planned now) (hp : ∀ d, planned d → planned' d) :
    c.Awaited planned' now :=
  ⟨h.ring.mono hp, h.pending⟩

theorem Awaited.exists_list (h : c.Awaited planned now) :
    ∃ ds : List Nat, (∀ d ∈ ds, planned d) ∧ c.Awaited (· ∈ ds) now := by
  obtain ⟨ds, hds, hring⟩ := h.ring.exists_list
  exact ⟨ds, hds, hring, h.pending⟩

theorem Awaited.flush_fst (h : c.Awaited planned now) (hnow : now ≤ horizon)
    (hp : ∀ d, planned d → now < d) : (c.flush now).1 = 0 := by
  rw [flush_eq]
  change (c.ring.purge now).1 + c.pending = 0
  rw [h.ring.purge_fst hnow hp, h.pending]
  rfl

theorem Awaited.flush (h : c.Awaited planned now) :
    (c.flush now).2.Awaited (fun d => planned d ∧ now < d) now := by
  rw [flush_eq]
  exact ⟨h.ring.purge, rfl⟩

theorem Awaited.schedule (h : c.Awaited planned now) (hnow : now ≤ horizon) (n : Int64)
    (delay : Duration) (hp : planned (c.expiry now delay)) :
    (c.schedule now n delay).Awaited planned now :=
  ⟨h.ring.add hnow n delay hp, h.pending⟩

theorem Awaited.create {maxDelay : Duration} {windows : Nat}
    (h : DeferredSum.create maxDelay windows now = .ok c) : c.Awaited planned now := by
  rw [DeferredSum.create] at h
  cases hr : ExpiryRing.create maxDelay windows now with
  | error e =>
    rw [hr] at h
    cases h
  | ok r =>
    rw [hr] at h
    cases h
    exact ⟨.create hr, rfl⟩

end DeferredSum

end LeastLoad
