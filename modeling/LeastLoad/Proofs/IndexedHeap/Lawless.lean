import LeastLoad.Proofs.IndexedHeap.Session
import Mathlib.Algebra.Group.Nat.Defs
import Mathlib.Data.Nat.Log

/-! # A heap whose comparison obeys no law

A comparison may be neither transitive nor consistent, and it may be another one at each call, as
when keys change unnoticed. The order of the heap is lost then, and nothing else: its loops still
end, its index still lists exactly what is queued, and the contents still change by the one element
of the call. -/

namespace LeastLoad

/-- A loop ends after a number of rounds, the last of which leads to the state in which no round
follows. -/
inductive EndsAfter {σ : Type} (round : σ → Option σ) : Nat → σ → σ → Prop where
  | stop {s : σ} : round s = none → EndsAfter round 0 s s
  | next {n : Nat} {s t u : σ} :
      round s = some t → EndsAfter round n t u → EndsAfter round (n + 1) s u

namespace IndexedHeap

variable {α : Type} [DecidableEq α] [Hashable α] {cmp : α → α → Ordering} {q : IndexedHeap α}
  {pos : Nat}

def riseRound (cmp : α → α → Ordering) : IndexedHeap α × Nat → Option (IndexedHeap α × Nat)
  | (q, pos) =>
    if hc : pos < q.heap.size then
      have hp : (pos - 1) / 2 < q.heap.size := by omega
      if 0 < pos ∧ cmp q.heap[pos] q.heap[(pos - 1) / 2] = .lt then
        some (q.swap pos ((pos - 1) / 2) hc hp, (pos - 1) / 2)
      else none
    else none

def sinkRound (cmp : α → α → Ordering) : IndexedHeap α × Nat → Option (IndexedHeap α × Nat)
  | (q, pos) =>
    (q.sinkTo? cmp pos).map fun c => (q.swap pos c.1 (c.2.1.trans c.2.2) c.2.2, c.1)

theorem siftUp_ends (cmp : α → α → Ordering) (q : IndexedHeap α) (pos : Nat) :
    ∃ n p, 2 ^ n ≤ pos + 1 ∧ EndsAfter (riseRound cmp) n (q, pos) (q.siftUp cmp pos, p) := by
  fun_induction siftUp cmp q pos with
  | case1 q pos h hp hc hlt ih =>
    obtain ⟨n, p, hn, hends⟩ := ih
    refine ⟨n + 1, p, ?_, .next ?_ hends⟩
    · rw [pow_succ]
      omega
    · rw [riseRound, dif_pos hc, if_pos ⟨h.1, hlt⟩]
  | case2 q pos h hp hc hnot =>
    refine ⟨0, pos, Nat.le_add_left .., .stop ?_⟩
    rw [riseRound, dif_pos hc, if_neg (mt And.right hnot)]
  | case3 q pos h =>
    refine ⟨0, pos, Nat.le_add_left .., .stop ?_⟩
    rw [riseRound]
    split
    · next hc => exact if_neg fun hlt => h ⟨hlt.1, hc⟩
    · rfl

theorem sinkTo?_parent {c : { c : Nat // pos < c ∧ c < q.heap.size }}
    (h : q.sinkTo? cmp pos = some c) : (c.1 - 1) / 2 = pos := by
  -- every comparison refines the relation that holds of all pairs
  have hany : Refines cmp fun _ _ => True :=
    ⟨fun _ _ => trivial, fun _ => trivial, fun _ => trivial⟩
  exact (sinkTo?_some hany h).1

theorem siftDown_ends (cmp : α → α → Ordering) (q : IndexedHeap α) {pos : Nat}
    (hpos : pos < q.heap.size) :
    ∃ n p, 2 ^ n * (pos + 1) ≤ q.heap.size ∧
      EndsAfter (sinkRound cmp) n (q, pos) (q.siftDown cmp pos, p) := by
  fun_induction siftDown cmp q pos with
  | case1 q pos hnone =>
    refine ⟨0, pos, ?_, .stop ?_⟩
    · omega
    · rw [sinkRound, hnone, Option.map_none]
  | case2 q pos c hc hsome ih =>
    rw [size_swap] at ih
    obtain ⟨n, p, hn, hends⟩ := ih hc.2
    have hparent := sinkTo?_parent hsome
    -- the slot number doubles at each level, so that the size bounds the rounds
    have hdouble : 2 * (pos + 1) ≤ c + 1 := by
      dsimp only at hparent
      omega
    refine ⟨n + 1, p, ?_, .next ?_ hends⟩
    · calc 2 ^ (n + 1) * (pos + 1) = 2 ^ n * (2 * (pos + 1)) := by rw [pow_succ, Nat.mul_assoc]
        _ ≤ 2 ^ n * (c + 1) := Nat.mul_le_mul_left _ hdouble
        _ ≤ q.heap.size := hn
    · rw [sinkRound, hsome, Option.map_some]

/-- Both loops end after at most as many rounds as the array has levels below the first. -/
structure SiftsEnd (cmp : α → α → Ordering) (q : IndexedHeap α) (pos : Nat) : Prop where
  rise : ∃ n ≤ Nat.log 2 q.heap.size, ∃ p,
    EndsAfter (riseRound cmp) n (q, pos) (q.siftUp cmp pos, p)
  sink : ∃ n ≤ Nat.log 2 q.heap.size, ∃ p,
    EndsAfter (sinkRound cmp) n (q, pos) (q.siftDown cmp pos, p)

theorem sifts_end (cmp : α → α → Ordering) (q : IndexedHeap α) (hpos : pos < q.heap.size) :
    q.SiftsEnd cmp pos := by
  obtain ⟨n, p, hn, hup⟩ := siftUp_ends cmp q pos
  obtain ⟨m, r, hm, hdown⟩ := siftDown_ends cmp q hpos
  refine ⟨⟨n, Nat.le_log_of_pow_le (by decide) (by omega), p, hup⟩,
    m, Nat.le_log_of_pow_le (by decide) ?_, r, hdown⟩
  exact (Nat.le_mul_of_pos_right _ pos.succ_pos).trans hm

/-- While an offer walks through the slots of its element, sifting rewrites them, but never takes
one away: each place of the walk finds a slot. -/
theorem Indexed.walk_finds (h : q.Indexed) (cmp : α → α → Ordering) {e : α} {k : Nat}
    (hk : k < (q.slots e).length) :
    (((List.range k).foldl (repositionNth cmp e) q).slots e)[k]? ≠ none := by
  have hlen : (((List.range k).foldl (repositionNth cmp e) q).slots e).length =
      (q.slots e).length := by
    rw [(h.walk e _).length_slots, h.length_slots, ← count_contents, ← count_contents,
      contents_walk]
  rw [Ne, List.getElem?_eq_none_iff, hlen]
  omega

namespace Operation

def Changes (before after : Multiset α) : Operation α → Answer α → Prop
  | push e, .nothing => after = e ::ₘ before
  | offer e, .flag absent =>
    absent = decide (e ∉ before) ∧ after = if absent then e ::ₘ before else before
  | poll, .polled none => before = 0 ∧ after = 0
  | poll, .polled (some top) => before = top ::ₘ after
  | remove e, .flag true => before = e ::ₘ after
  | remove e, .flag false => e ∉ before ∧ after = before
  | clear, .nothing => after = 0
  | _, _ => False

theorem changes_run (hi : q.Indexed) (cmp : α → α → Ordering) (o : Operation α) :
    o.Changes q.contents (o.run cmp q).2.contents (o.run cmp q).1 := by
  cases o with
  | push e => exact contents_push e
  | offer e =>
    refine ⟨fst_offer hi e, ?_⟩
    simp only [run, fst_offer hi, contents_offer hi]
    by_cases he : e ∈ q.contents <;> simp [he]
  | poll =>
    obtain ⟨h0, hp⟩ | ⟨hpos, -, hp⟩ := poll_cases cmp q
    · simp only [run, hp, Changes]
      exact ⟨h0, h0⟩
    · simp only [run, hp, Changes]
      exact contents_removeAt cmp hpos
  | remove e =>
    obtain ⟨habs, hr⟩ | ⟨p, hp, rfl, hr⟩ := hi.remove_cases cmp e
    · simp only [run, hr, Changes]
      exact ⟨habs, trivial⟩
    · simp only [run, hr, Changes]
      exact contents_removeAt cmp hp
  | clear => rfl

end Operation

structure Call (α : Type) where
  cmp : α → α → Ordering
  operation : Operation α

def Call.run (q : IndexedHeap α) (c : Call α) : Answer α × IndexedHeap α :=
  c.operation.run c.cmp q

def afterCalls (q : IndexedHeap α) (cs : List (Call α)) : IndexedHeap α :=
  cs.foldl (fun q c => (c.run q).2) q

theorem Indexed.afterCalls (h : q.Indexed) (cs : List (Call α)) : (q.afterCalls cs).Indexed := by
  induction cs generalizing q with
  | nil => exact h
  | cons c cs ih => exact ih (c.operation.indexed_run h)

structure Tracked (q : IndexedHeap α) : Prop where
  violation : ∀ cmp v, q.violation? cmp = some v → ∃ parent child, v = .heapOrder parent child
  nodup : ∀ e, (q.slots e).Nodup
  mem_slots : ∀ e p, p ∈ q.slots e ↔ q.heap[p]? = some e
  contains : ∀ e, q.contains e = true ↔ e ∈ q.heap

theorem Indexed.tracked (h : q.Indexed) : q.Tracked :=
  ⟨fun _ _ hv => eq_heapOrder_of_disorder? (h.violation?_eq.symm.trans hv), h.nodup, h.mem_slots,
    h.contains_iff⟩

/-- After any calls, whatever they compare by, the index is right and the next call changes the
contents by its own element only. Each place that an offer walks to is found, and the loops end. -/
theorem afterCalls_tracked (cs : List (Call α)) :
    let q : IndexedHeap α := empty.afterCalls cs
    q.Tracked ∧
      (∀ c : Call α, c.operation.Changes q.contents (c.run q).2.contents (c.run q).1) ∧
      (∀ cmp e k, k < (q.slots e).length →
        (((List.range k).foldl (repositionNth cmp e) q).slots e)[k]? ≠ none) ∧
      ∀ (cmp : α → α → Ordering) (p : IndexedHeap α) (pos : Nat), pos < p.heap.size →
        p.SiftsEnd cmp pos := by
  intro q
  have hq : q.Indexed := Indexed.empty.afterCalls cs
  exact ⟨hq.tracked, fun c => c.operation.changes_run hq c.cmp,
    fun cmp e k hk => hq.walk_finds cmp hk, fun cmp p pos hpos => sifts_end cmp p hpos⟩

end IndexedHeap

end LeastLoad
