import LeastLoad.Expiry.Ring
import Mathlib.Order.Basic

/-! # What a ring holds

The counts of a ring stand in its backlog and in its slots. `stored` sums those that are due by a
window, and each operation is described by what it does to that sum. Draining moves counts without
changing it, and leaves the whole of it in the backlog; this rests on `Placed`, which says where a
count may stand and holds whatever the clock does. -/

namespace LeastLoad

namespace Bucket

theorem due_empty (upTo : Nat) : ({} : Bucket).due upTo = 0 := by
  rw [due]; split <;> rfl

theorem due_drained (b : Bucket) (upTo : Nat) : (b.drained upTo).due upTo = 0 := by
  by_cases h : b.window ≤ upTo <;> simp [due, drained, h]

theorem due_drained_add {upTo later : Nat} (b : Bucket) (h : upTo ≤ later) :
    (b.drained upTo).due later + b.due upTo = b.due later := by
  by_cases hb : b.window ≤ upTo
  · have hl : b.window ≤ later := Nat.le_trans hb h
    simp [due, drained, hb, hl]
  · simp [due, drained, hb]

theorem window_drained (b : Bucket) (upTo : Nat) : (b.drained upTo).window = b.window := by
  rw [drained]; split <;> rfl

theorem count_drained_of_zero {b : Bucket} (upTo : Nat) (h : b.count = 0) :
    (b.drained upTo).count = 0 := by
  rw [drained]; split
  · rfl
  · exact h

theorem drained_cases (b : Bucket) (upTo : Nat) :
    (b.drained upTo).count = 0 ∨ b.drained upTo = b := by
  rw [drained]; split
  · exact Or.inl rfl
  · exact Or.inr rfl

end Bucket

theorem sum_map_set {α : Type} (l : List α) (f : α → Int64) {i : Nat} (a : α) (h : i < l.length) :
    ((l.set i a).map f).sum = (l.map f).sum - f l[i] + f a := by
  induction l generalizing i with
  | nil => simp at h
  | cons x l ih =>
    cases i with
    | zero =>
      simp only [List.set_cons_zero, List.map_cons, List.sum_cons, List.getElem_cons_zero]
      grind
    | succ i =>
      simp only [List.set_cons_succ, List.map_cons, List.sum_cons, List.getElem_cons_succ,
        ih (Nat.lt_of_succ_lt_succ h)]
      grind

namespace ExpiryRing

/-- The bucket in a slot; an empty one outside of the ring. -/
def bucket (r : ExpiryRing) (i : Nat) : Bucket := r.slots.toList.getD i {}

def stored (r : ExpiryRing) (upTo : Nat) : Int64 :=
  r.backlog + (r.slots.toList.map (·.due upTo)).sum

/-- A slot that was ever used holds a window of its own, and a count only for a window that is
still to be drained. -/
structure Placed (r : ExpiryRing) : Prop where
  own : ∀ i, (r.bucket i).window = 0 ∨ (r.bucket i).window % (r.windows + 2) = i
  ahead : ∀ i, (r.bucket i).count = 0 ∨ r.cursor < (r.bucket i).window

theorem width_congr {r q : ExpiryRing} (hm : q.maxAge = r.maxAge) (hw : q.windows = r.windows) :
    q.width = r.width := by
  rw [width, width, hm, hw]

theorem getElem_slots (r : ExpiryRing) {i : Nat} (h : i < r.windows + 2) :
    r.slots[i] = r.bucket i := by
  simp [bucket, h]

def write (r : ExpiryRing) (k : Int64) (i : Fin (r.windows + 2)) (b : Bucket) : ExpiryRing :=
  { r with backlog := r.backlog + k, slots := r.slots.setIfInBounds i.val b }

theorem set_slots (r : ExpiryRing) {i : Nat} (h : i < r.windows + 2) (b : Bucket) :
    r.slots.set i b h = r.slots.setIfInBounds i b := by
  simp [Vector.set, Vector.setIfInBounds, Array.setIfInBounds, h]

theorem bucket_write (r : ExpiryRing) (k : Int64) (i : Fin (r.windows + 2)) (b : Bucket) (j : Nat) :
    (r.write k i b).bucket j = if i.val = j then b else r.bucket j := by
  have hi : i.val < r.slots.toList.length := by simp
  by_cases hij : i.val = j
  · subst hij
    simp [bucket, write]
  · simp [bucket, write, hij, List.getElem?_set_ne]

theorem stored_write (r : ExpiryRing) (k : Int64) (i : Fin (r.windows + 2)) (b : Bucket)
    (upTo : Nat) :
    (r.write k i b).stored upTo =
      r.stored upTo + k - (r.bucket i.val).due upTo + b.due upTo := by
  have hi : i.val < r.slots.toList.length := by simp
  have hb : r.slots.toList[i.val] = r.bucket i.val := by simp [bucket]
  simp only [stored, write, Vector.toList_setIfInBounds, sum_map_set _ _ _ hi, hb]
  grind

theorem drainSlot_eq (upTo : Nat) (r : ExpiryRing) (i : Fin (r.windows + 2)) :
    drainSlot upTo r i =
      r.write ((r.bucket i.val).due upTo) i ((r.bucket i.val).drained upTo) := by
  simp only [drainSlot, write, Fin.getElem_fin, getElem_slots, set_slots]

theorem bucket_drainSlot (upTo : Nat) (r : ExpiryRing) (i : Fin (r.windows + 2)) (j : Nat) :
    (drainSlot upTo r i).bucket j =
      if i.val = j then (r.bucket j).drained upTo else r.bucket j := by
  rw [drainSlot_eq, bucket_write]
  split
  · next h => rw [h]
  · rfl

theorem stored_drainSlot {upTo later : Nat} (h : upTo ≤ later) (r : ExpiryRing)
    (i : Fin (r.windows + 2)) : (drainSlot upTo r i).stored later = r.stored later := by
  have hd := Bucket.due_drained_add (r.bucket i.val) h
  rw [drainSlot_eq, stored_write]
  grind

theorem Placed.drainSlot {r : ExpiryRing} (hr : r.Placed) (upTo : Nat) (i : Fin (r.windows + 2)) :
    (drainSlot upTo r i).Placed := by
  constructor
  · intro j
    have ho := hr.own j
    rw [bucket_drainSlot]
    split
    · rwa [Bucket.window_drained]
    · exact ho
  · intro j
    have ha := hr.ahead j
    rw [bucket_drainSlot]
    split
    · rw [Bucket.window_drained]
      exact ha.imp_left (Bucket.count_drained_of_zero _)
    · exact ha

theorem stored_eq_backlog {r : ExpiryRing} {upTo : Nat} (h : ∀ i, (r.bucket i).due upTo = 0) :
    r.stored upTo = r.backlog := by
  have hz : r.slots.toList.map (·.due upTo) = List.replicate (r.windows + 2) 0 := by
    refine List.eq_replicate_iff.2 ⟨by simp, fun x hx => ?_⟩
    obtain ⟨b, hb, rfl⟩ := List.mem_map.1 hx
    obtain ⟨i, hi, rfl⟩ := List.mem_iff_getElem.1 hb
    have hz := h i
    rwa [bucket, List.getD_eq_getElem?_getD, List.getElem?_eq_getElem hi, Option.getD_some] at hz
  have hs : ∀ n, (List.replicate n (0 : Int64)).sum = 0 := by
    intro n
    induction n with
    | zero => rfl
    | succ n ih => simp [List.replicate_succ, ih]
  simp [stored, hz, hs]

theorem due_eq_zero_iff {b : Bucket} {upTo : Nat} :
    b.due upTo = 0 ↔ b.count = 0 ∨ upTo < b.window := by
  by_cases h : b.window ≤ upTo
  · simp [Bucket.due, h, Nat.not_lt.2 h]
  · simp [Bucket.due, h, Nat.lt_of_not_le h]

def drainWindows (upTo : Nat) (ws : List Nat) (r : ExpiryRing) : ExpiryRing :=
  ws.foldl (fun q w => q.drainSlot upTo (q.slotOf w)) r

/-- What draining some slots comes to: nothing changes place but what is due, and the slots that
were visited hold nothing due any more. -/
structure DrainedFrom (upTo : Nat) (ws : List Nat) (r q : ExpiryRing) : Prop where
  maxAge : q.maxAge = r.maxAge
  windows : q.windows = r.windows
  cursor : q.cursor = r.cursor
  stored : ∀ later, upTo ≤ later → q.stored later = r.stored later
  placed : r.Placed → q.Placed
  window : ∀ i, (q.bucket i).window = (r.bucket i).window
  kept : ∀ i, (q.bucket i).count = 0 ∨ q.bucket i = r.bucket i
  bucket : ∀ i, (q.bucket i).due upTo = 0 ∨
    q.bucket i = r.bucket i ∧ ∀ w ∈ ws, w % (r.windows + 2) ≠ i

theorem drainWindows_spec (upTo : Nat) (ws : List Nat) (r : ExpiryRing) :
    DrainedFrom upTo ws r (r.drainWindows upTo ws) := by
  induction ws generalizing r with
  | nil =>
    exact ⟨rfl, rfl, rfl, fun _ _ => rfl, id, fun _ => rfl, fun _ => Or.inr rfl,
      fun _ => Or.inr ⟨rfl, by simp⟩⟩
  | cons w ws ih =>
    let q := r.drainSlot upTo (r.slotOf w)
    have hq : DrainedFrom upTo ws q (q.drainWindows upTo ws) := ih q
    refine ⟨hq.maxAge, hq.windows, hq.cursor, ?_, ?_, ?_, ?_, ?_⟩
    · intro later hl
      exact (hq.stored later hl).trans (stored_drainSlot hl r _)
    · exact fun hr => hq.placed (hr.drainSlot upTo _)
    · intro i
      have hb : q.bucket i = _ := bucket_drainSlot upTo r (r.slotOf w) i
      refine (hq.window i).trans ?_
      rw [hb]
      split
      · exact Bucket.window_drained _ _
      · rfl
    · intro i
      rcases hq.kept i with h | h
      · exact Or.inl h
      · have hb : q.bucket i = _ := bucket_drainSlot upTo r (r.slotOf w) i
        change ((q.drainWindows upTo ws).bucket i).count = 0 ∨ (q.drainWindows upTo ws).bucket i = _
        rw [h, hb]
        split
        · exact Bucket.drained_cases _ _
        · exact Or.inr rfl
    · intro i
      rcases hq.bucket i with h | ⟨h, hws⟩
      · exact Or.inl h
      · have hb : q.bucket i = _ := bucket_drainSlot upTo r (r.slotOf w) i
        by_cases hi : (r.slotOf w).val = i
        · left
          rw [if_pos hi] at hb
          change ((q.drainWindows upTo ws).bucket i).due upTo = 0
          rw [h, hb, Bucket.due_drained]
        · right
          rw [if_neg hi] at hb
          refine ⟨h.trans hb, ?_⟩
          intro v hv
          rcases List.mem_cons.1 hv with rfl | hv
          · exact hi
          · exact hws v hv

theorem Placed.exists_passed {r : ExpiryRing} (hr : r.Placed) {upTo i : Nat}
    (h : (r.bucket i).due upTo ≠ 0) :
    ∃ w ∈ r.passedWindows upTo, w % (r.windows + 2) = i := by
  have hdue := mt due_eq_zero_iff.2 h
  rw [not_or] at hdue
  have hlt : r.cursor < (r.bucket i).window := (hr.ahead i).resolve_left hdue.1
  have hown := (hr.own i).resolve_left (by omega)
  generalize (r.bucket i).window = v at *
  let k := (v - (r.cursor + 1)) % (r.windows + 2)
  have hk : k < r.windows + 2 := Nat.mod_lt _ (by omega)
  have hkv : k ≤ v - (r.cursor + 1) := Nat.mod_le _ _
  refine ⟨r.cursor + 1 + k, ?_, ?_⟩
  · exact List.mem_map.2 ⟨k, List.mem_range.2 (by omega), rfl⟩
  · have hv : r.cursor + 1 + (v - (r.cursor + 1)) = v := by omega
    rw [← hown, Nat.add_mod_mod, hv]

structure Drained (upTo : Nat) (r q : ExpiryRing) : Prop where
  maxAge : q.maxAge = r.maxAge
  windows : q.windows = r.windows
  cursor : q.cursor = upTo
  placed : q.Placed
  window : ∀ i, (q.bucket i).window = (r.bucket i).window
  kept : ∀ i, (q.bucket i).count = 0 ∨ q.bucket i = r.bucket i
  stored : ∀ later, upTo ≤ later → q.stored later = r.stored later
  backlog : q.backlog = r.stored upTo

theorem drainTo_spec {r : ExpiryRing} (hr : r.Placed) {upTo : Nat} (h : r.cursor ≤ upTo) :
    Drained upTo r (r.drainTo upTo) := by
  by_cases hc : r.cursor < upTo
  · let q := r.drainWindows upTo (r.passedWindows upTo)
    have hq : DrainedFrom upTo (r.passedWindows upTo) r q := drainWindows_spec ..
    have heq : r.drainTo upTo = { q with cursor := upTo } := by rw [drainTo, if_pos hc]; rfl
    have hdue : ∀ i, (q.bucket i).due upTo = 0 := by
      intro i
      rcases hq.bucket i with hi | ⟨hi, hno⟩
      · exact hi
      · by_contra hne
        rw [hi] at hne
        obtain ⟨w, hw, hwi⟩ := hr.exists_passed hne
        exact hno w hw hwi
    rw [heq]
    refine ⟨hq.maxAge, hq.windows, rfl, ?_, hq.window, hq.kept, hq.stored, ?_⟩
    · exact ⟨(hq.placed hr).own, fun i => due_eq_zero_iff.1 (hdue i)⟩
    · rw [← hq.stored upTo (Nat.le_refl _), stored_eq_backlog hdue]
  · have heq : r.cursor = upTo := by omega
    have hdue : ∀ i, (r.bucket i).due upTo = 0 := fun i =>
      due_eq_zero_iff.2 (heq ▸ hr.ahead i)
    rw [drainTo, if_neg hc]
    exact ⟨rfl, rfl, heq, hr, fun _ => rfl, fun _ => Or.inr rfl, fun _ _ => rfl,
      (stored_eq_backlog hdue).symm⟩

theorem stored_clear (r : ExpiryRing) (c : Nat) :
    stored { r with backlog := 0 } c = r.stored c - r.backlog := by
  simp only [stored]
  grind

/-- A count for a window still to be drained goes to the slot of that window, and an older window
leaves its count to the backlog. -/
theorem record_eq_write {r : ExpiryRing} {w : Nat} (n : Int64) (hw : r.cursor < w)
    (hb : (r.bucket (r.slotOf w).val).window ≤ w) :
    r.record w n = let b := r.bucket (r.slotOf w).val
      if b.window < w then r.write b.count (r.slotOf w) ⟨w, n⟩
      else r.write 0 (r.slotOf w) ⟨w, b.count + n⟩ := by
  have hkeep : ¬(w ≤ r.cursor ∨ w < (r.bucket (r.slotOf w).val).window) := by omega
  simp only [record, Fin.getElem_fin, getElem_slots, set_slots, if_neg hkeep]
  split
  · rfl
  · simp [write]

theorem maxAge_record (r : ExpiryRing) (w : Nat) (n : Int64) :
    (r.record w n).maxAge = r.maxAge := by
  rw [record]; split <;> [rfl; split <;> rfl]

theorem windows_record (r : ExpiryRing) (w : Nat) (n : Int64) :
    (r.record w n).windows = r.windows := by
  rw [record]; split <;> [rfl; split <;> rfl]

theorem cursor_record (r : ExpiryRing) (w : Nat) (n : Int64) :
    (r.record w n).cursor = r.cursor := by
  rw [record]; split <;> [rfl; split <;> rfl]

theorem window_record_le {r : ExpiryRing} {w i bound : Nat} (n : Int64)
    (h : (r.bucket i).window ≤ bound) (hw : w ≤ bound) :
    ((r.record w n).bucket i).window ≤ bound := by
  have hwrite : ∀ k m, ((r.write k (r.slotOf w) ⟨w, m⟩).bucket i).window ≤ bound := by
    intro k m
    rw [bucket_write]
    split
    · exact hw
    · exact h
  simp only [record, Fin.getElem_fin, getElem_slots, set_slots]
  split
  · exact h
  · split
    · exact hwrite _ _
    · exact hwrite 0 _

theorem stored_record {r : ExpiryRing} {w c : Nat} (n : Int64) (hw : r.cursor < w)
    (hb : (r.bucket (r.slotOf w).val).window ≤ w)
    (hold : (r.bucket (r.slotOf w).val).window < w → (r.bucket (r.slotOf w).val).window ≤ c) :
    (r.record w n).stored c = r.stored c + if w ≤ c then n else 0 := by
  simp only [record_eq_write n hw hb]
  split
  · next hlt =>
    simp only [stored_write, Bucket.due, hold hlt, if_true]
    grind
  · next hge =>
    have heq : (r.bucket (r.slotOf w).val).window = w := by omega
    simp only [stored_write, Bucket.due, heq]
    grind

theorem Placed.record {r : ExpiryRing} (hr : r.Placed) (w : Nat) (n : Int64) :
    (r.record w n).Placed := by
  have hwrite : ∀ k m, r.cursor < w → (r.write k (r.slotOf w) ⟨w, m⟩).Placed := by
    intro k m hw
    constructor
    · intro i
      rw [bucket_write]
      split
      · next h => exact Or.inr h
      · exact hr.own i
    · intro i
      rw [bucket_write]
      split
      · exact Or.inr hw
      · exact hr.ahead i
  simp only [ExpiryRing.record, Fin.getElem_fin, getElem_slots, set_slots]
  split
  · exact ⟨hr.own, hr.ahead⟩
  · next h =>
    have hw : r.cursor < w := by omega
    split
    · exact hwrite _ _ hw
    · simpa [write] using hwrite 0 _ hw

theorem maxAge_add (r : ExpiryRing) (now : Nat) (n : Int64) (lifespan : Duration) :
    (r.add now n lifespan).maxAge = r.maxAge := by
  rw [add]; split <;> [rfl; (split <;> [rfl; exact maxAge_record ..])]

theorem windows_add (r : ExpiryRing) (now : Nat) (n : Int64) (lifespan : Duration) :
    (r.add now n lifespan).windows = r.windows := by
  rw [add]; split <;> [rfl; (split <;> [rfl; exact windows_record ..])]

theorem maxAge_purge (r : ExpiryRing) (now : Nat) : (r.purge now).2.maxAge = r.maxAge := by
  simp only [purge, drainTo]
  split
  · rfl
  · split
    · exact (drainWindows_spec _ _ r).maxAge
    · rfl

theorem windows_purge (r : ExpiryRing) (now : Nat) : (r.purge now).2.windows = r.windows := by
  simp only [purge, drainTo]
  split
  · rfl
  · split
    · exact (drainWindows_spec _ _ r).windows
    · rfl

end ExpiryRing

end LeastLoad
