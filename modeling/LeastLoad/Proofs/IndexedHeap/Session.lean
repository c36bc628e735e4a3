import LeastLoad.Proofs.IndexedHeap.Rekey
import LeastLoad.Proofs.IndexedHeap.Sound

/-! # A heap as a priority queue with changing keys

A session is a heap in use: the comparison by the present keys, the multiset that a user expects
to be queued, and the element whose key has changed unnoticed, if there is one. The key of an
element may change while it is queued at most once, and the next operation must then offer or
remove it. -/

namespace LeastLoad

theorem refines_of_transCmp {α : Type} {cmp : α → α → Ordering} [Std.TransCmp cmp] :
    Refines cmp (cmp · · ≠ .gt) := by
  constructor
  · intro a b c hab hbc
    exact Ordering.isLE_iff_ne_gt.1 (Std.TransCmp.isLE_trans (Ordering.isLE_iff_ne_gt.2 hab)
      (Ordering.isLE_iff_ne_gt.2 hbc))
  · intro a b hlt hgt
    simp [hlt] at hgt
  · intro a b hnlt hgt
    exact hnlt (Std.OrientedCmp.gt_iff_lt.1 hgt)

namespace IndexedHeap

variable {α : Type} [DecidableEq α] [Hashable α] {cmp : α → α → Ordering} {q : IndexedHeap α}
  {pos : Nat} {e : α}

theorem sinkTo?_lt {c : { c : Nat // pos < c ∧ c < q.heap.size }}
    (h : q.sinkTo? cmp pos = some c) {a b : α} (ha : q.heap[pos]? = some a)
    (hb : q.heap[c.1]? = some b) : cmp b a = .lt := by
  by_cases hleft : 2 * pos + 1 < q.heap.size
  · simp only [sinkTo?, hleft, dite_true] at h
    split at h
    · next hlt =>
      obtain rfl := Option.some.inj h
      obtain ⟨-, rfl⟩ := Array.getElem?_eq_some_iff.1 ha
      obtain ⟨-, rfl⟩ := Array.getElem?_eq_some_iff.1 hb
      exact hlt
    · cases h
  · simp [sinkTo?, hleft] at h

theorem reposition_eq_self [Std.TransCmp cmp] (h : q.Ordered (cmp · · ≠ .gt)) :
    q.reposition cmp pos = q := by
  have hstay : ∀ c a b, 0 < c → q.heap[(c - 1) / 2]? = some a → q.heap[c]? = some b →
      cmp b a ≠ .lt := by
    intro c a b hc ha hb hlt
    exact h c hc a b ha hb (Std.OrientedCmp.gt_iff_lt.2 hlt)
  have hsink : q.sinkTo? cmp pos = none := by
    cases hs : q.sinkTo? cmp pos with
    | none => rfl
    | some c =>
      obtain ⟨hp, -⟩ := sinkTo?_some refines_of_transCmp hs
      have ha := Array.getElem?_eq_getElem (c.2.1.trans c.2.2)
      have hb := Array.getElem?_eq_getElem c.2.2
      exact absurd (sinkTo?_lt hs ha hb) (hstay c.1 _ _ (by omega) (by rwa [hp]) hb)
  rw [reposition, hsink, siftUp]
  simp only [Option.isSome_none, Bool.false_eq_true, if_false]
  split
  · next hpos =>
    exact if_neg (hstay pos _ _ hpos.1 (Array.getElem?_eq_getElem _)
      (Array.getElem?_eq_getElem hpos.2))
  · rfl

theorem offer_eq_self [Std.TransCmp cmp] (hi : q.Indexed) (h : q.Ordered (cmp · · ≠ .gt))
    (he : e ∈ q.contents) : q.offer cmp e = (false, q) := by
  rw [offer, if_pos ((hi.contains_iff e).2 (mem_contents.1 he))]
  refine congrArg _ (List.foldlRecOn (motive := (· = q)) _ _ rfl fun p hp k _ => ?_)
  subst hp
  rw [repositionNth]
  split
  · exact reposition_eq_self h
  · rfl

theorem poll_cases (cmp : α → α → Ordering) (q : IndexedHeap α) :
    (q.contents = 0 ∧ q.poll cmp = none) ∨
      ∃ h : 0 < q.heap.size, q.peek = some q.heap[0] ∧
        q.poll cmp = some (q.heap[0], (q.removeAt cmp 0 h).2) := by
  rw [poll]
  split
  · next h => exact .inr ⟨h, Array.getElem?_eq_getElem h, rfl⟩
  · next h => exact .inl ⟨contents_eq_zero.2 (Nat.eq_zero_of_not_pos h), rfl⟩

theorem drain_pairwise {le : α → α → Prop} (hr : Refines cmp le) (h : q.Ordered le) :
    (q.drain cmp).Pairwise le := by
  fun_induction drain cmp q with
  | case1 q hpos ih =>
    refine List.pairwise_cons.2 ⟨fun b hb => ?_, ih (removeAt_ordered hr (h.orderedBut hr 0) hpos)⟩
    have hrest : b ∈ (q.removeAt cmp 0 hpos).2.contents := by
      rw [← drain_contents cmp]
      exact hb
    refine h.peek_le hr (Array.getElem?_eq_getElem hpos) ?_
    rw [contents_removeAt cmp hpos]
    exact Multiset.mem_cons_of_mem hrest
  | case2 => exact List.Pairwise.nil

inductive Operation (α : Type) where
  | push (e : α)
  | offer (e : α)
  | poll
  | remove (e : α)
  | clear

inductive Answer (α : Type) where
  | nothing
  | flag (b : Bool)
  | polled (top : Option α)

namespace Operation

def run (cmp : α → α → Ordering) (q : IndexedHeap α) : Operation α → Answer α × IndexedHeap α
  | push e => (.nothing, q.push cmp e)
  | offer e => (.flag (q.offer cmp e).1, (q.offer cmp e).2)
  | poll =>
    match q.poll cmp with
    | none => (.polled none, q)
    | some (top, rest) => (.polled (some top), rest)
  | remove e => (.flag (q.remove cmp e).1, (q.remove cmp e).2)
  | clear => (.nothing, .empty)

def expect (reference : Multiset α) : Operation α → Answer α → Multiset α
  | push e, _ => e ::ₘ reference
  | offer e, _ => if e ∈ reference then reference else e ::ₘ reference
  | poll, .polled (some top) => reference.erase top
  | poll, _ => reference
  | remove e, _ => reference.erase e
  | clear, _ => 0

def Right (cmp : α → α → Ordering) (reference : Multiset α) : Operation α → Answer α → Prop
  | push _, .nothing | clear, .nothing => True
  | offer e, .flag b => b = decide (e ∉ reference)
  | poll, .polled none => reference = 0
  | poll, .polled (some top) => top ∈ reference ∧ ∀ b ∈ reference, cmp b top ≠ .lt
  | remove e, .flag b => b = decide (e ∈ reference)
  | _, _ => False

def attends (e : α) : Operation α → Prop
  | offer d | remove d => d = e
  | _ => False

theorem contents_run (hi : q.Indexed) (o : Operation α) :
    (o.run cmp q).2.contents = o.expect q.contents (o.run cmp q).1 := by
  cases o with
  | push e => exact contents_push e
  | offer e => exact contents_offer hi e
  | poll =>
    obtain ⟨-, hp⟩ | ⟨hpos, -, hp⟩ := poll_cases cmp q
    · simp only [run, hp, expect]
    · simp only [run, hp, expect]
      rw [contents_removeAt cmp hpos]
      exact (Multiset.erase_cons_head _ _).symm
  | remove e => exact contents_remove hi
  | clear => rfl

theorem indexed_run (hi : q.Indexed) (o : Operation α) : (o.run cmp q).2.Indexed := by
  cases o with
  | push e => exact hi.push e
  | offer e => exact hi.offer e
  | poll =>
    obtain ⟨-, hp⟩ | ⟨hpos, -, hp⟩ := poll_cases cmp q
    · simpa only [run, hp] using hi
    · simpa only [run, hp] using hi.removeAt hpos
  | remove e => exact hi.remove
  | clear => exact .empty

theorem ordered_run [Std.TransCmp cmp] (hi : q.Indexed) (h : q.Ordered (cmp · · ≠ .gt))
    (o : Operation α) : (o.run cmp q).2.Ordered (cmp · · ≠ .gt) := by
  have hr : Refines cmp (cmp · · ≠ .gt) := refines_of_transCmp
  cases o with
  | push e => exact push_ordered hr h e
  | offer e =>
    by_cases he : e ∈ q.contents
    · simpa only [run, offer_eq_self hi h he] using h
    · exact OrderedExcept.offer hi hr ⟨by simp [he], fun _ => h, fun p _ => h.orderedBut hr p⟩
  | poll =>
    obtain ⟨-, hp⟩ | ⟨hpos, -, hp⟩ := poll_cases cmp q
    · simpa only [run, hp] using h
    · simpa only [run, hp] using removeAt_ordered hr (h.orderedBut hr 0) hpos
  | remove e => exact h.remove hi hr
  | clear => exact fun c _ => inOrder_of_size_le (Nat.zero_le c)

theorem ordered_run_of_attends [Std.TransCmp cmp] (hi : q.Indexed)
    (h : q.OrderedExcept (cmp · · ≠ .gt) e) {o : Operation α} (ho : o.attends e) :
    (o.run cmp q).2.Ordered (cmp · · ≠ .gt) := by
  cases o with
  | offer d =>
    obtain rfl : d = e := ho
    exact h.offer hi refines_of_transCmp
  | remove d =>
    obtain rfl : d = e := ho
    exact h.remove hi refines_of_transCmp
  | push _ => cases ho
  | poll => cases ho
  | clear => cases ho

theorem right_run [Std.TransCmp cmp] (hi : q.Indexed) {o : Operation α}
    (h : q.Ordered (cmp · · ≠ .gt) ∨ ∃ e, o.attends e) :
    o.Right cmp q.contents (o.run cmp q).1 := by
  cases o with
  | push _ => trivial
  | offer e => exact fst_offer hi e
  | poll =>
    obtain ⟨h0, hp⟩ | ⟨hpos, hpeek, hp⟩ := poll_cases cmp q
    · simpa only [run, hp, Right] using h0
    · obtain h | h := h
      · simp only [run, hp, Right]
        refine ⟨peek_mem hpeek, fun b hb hlt => ?_⟩
        exact h.peek_le refines_of_transCmp hpeek hb (Std.OrientedCmp.gt_iff_lt.2 hlt)
      · obtain ⟨e, he⟩ := h
        cases he
  | remove e => exact fst_remove hi
  | clear => trivial

end Operation

structure Session (α : Type) [DecidableEq α] [Hashable α] where
  queue : IndexedHeap α := .empty
  /-- Compares by the present keys. -/
  cmp : α → α → Ordering
  reference : Multiset α := 0
  /-- The queued element whose key has changed since the last operation. -/
  changed : Option α := none

namespace Session

variable {s : Session α}

def rekey (s : Session α) (e : α) (cmp : α → α → Ordering) : Session α :=
  { s with cmp, changed := if e ∈ s.queue.contents then some e else none }

def operate (s : Session α) (o : Operation α) : Session α :=
  let r := o.run s.cmp s.queue
  { s with queue := r.2, reference := o.expect s.reference r.1, changed := none }

def Permits (s : Session α) (o : Operation α) : Prop := ∀ e, s.changed = some e → o.attends e

inductive Reachable : Session α → Prop where
  | start (cmp : α → α → Ordering) : Std.TransCmp cmp → Reachable { cmp }
  | rekey {s : Session α} (e : α) (cmp : α → α → Ordering) :
      Reachable s → (∀ d, s.changed = some d → d = e) → s.queue.contents.count e ≤ 1 →
      Std.TransCmp cmp → (∀ a b, a ≠ e → b ≠ e → cmp a b = s.cmp a b) →
      Reachable (s.rekey e cmp)
  | operate {s : Session α} (o : Operation α) :
      Reachable s → s.Permits o → Reachable (s.operate o)

structure Invariant (s : Session α) : Prop where
  trans : Std.TransCmp s.cmp
  indexed : s.queue.Indexed
  contents : s.queue.contents = s.reference
  ordered : s.changed = none → s.queue.Ordered (s.cmp · · ≠ .gt)
  except : ∀ e, s.changed = some e → s.queue.OrderedExcept (s.cmp · · ≠ .gt) e

theorem Invariant.start (cmp : α → α → Ordering) (h : Std.TransCmp cmp) :
    Invariant ({ cmp } : Session α) := by
  refine ⟨h, .empty, rfl, fun _ c _ => inOrder_of_size_le (Nat.zero_le c), ?_⟩
  intro e he
  cases he

theorem Invariant.rekey (h : s.Invariant) {cmp : α → α → Ordering}
    (hsame : ∀ d, s.changed = some d → d = e) (once : s.queue.contents.count e ≤ 1)
    (htrans : Std.TransCmp cmp) (agree : ∀ a b, a ≠ e → b ≠ e → cmp a b = s.cmp a b) :
    (s.rekey e cmp).Invariant := by
  have hr := @refines_of_transCmp _ _ h.trans
  have hexcept : s.queue.OrderedExcept (cmp · · ≠ .gt) e := by
    have hagree : ∀ a b, a ≠ e → b ≠ e → s.cmp a b ≠ .gt → cmp a b ≠ .gt := by
      intro a b ha hb hab
      rwa [agree a b ha hb]
    cases hc : s.changed with
    | none => exact (h.ordered hc).rekey h.indexed hr once hagree
    | some d =>
      obtain rfl := hsame d hc
      exact (h.except d hc).rekey h.indexed hagree
  refine ⟨htrans, h.indexed, h.contents, fun hc => ?_, fun d hc => ?_⟩
  · simp only [Session.rekey, ite_eq_right_iff, reduceCtorEq, imp_false] at hc
    exact hexcept.absent hc
  · simp only [Session.rekey, Option.ite_none_right_eq_some, Option.some.injEq] at hc
    exact hc.2 ▸ hexcept

theorem Invariant.operate (h : s.Invariant) {o : Operation α} (ho : s.Permits o) :
    (s.operate o).Invariant := by
  have := h.trans
  refine ⟨h.trans, o.indexed_run h.indexed, ?_, fun _ => ?_, fun e he => ?_⟩
  · exact (o.contents_run h.indexed).trans (by rw [h.contents]; rfl)
  · cases hc : s.changed with
    | none => exact o.ordered_run h.indexed (h.ordered hc)
    | some e => exact o.ordered_run_of_attends h.indexed (h.except e hc) (ho e hc)
  · cases he

theorem Reachable.invariant (h : s.Reachable) : s.Invariant := by
  induction h with
  | start cmp h => exact .start cmp h
  | rekey e cmp _ hsame once htrans agree ih => exact ih.rekey hsame once htrans agree
  | operate o _ ho ih => exact ih.operate ho

/-- What holds of a session whenever no changed key waits to be attended to. -/
structure Sound (s : Session α) : Prop where
  valid : s.queue.violation? s.cmp = none
  contents : s.queue.contents = s.reference
  peek_eq_none : s.queue.peek = none ↔ s.reference = 0
  peek_least : ∀ top, s.queue.peek = some top →
    top ∈ s.reference ∧ ∀ b ∈ s.reference, s.cmp b top ≠ .lt
  offer_still : ∀ e ∈ s.reference, (s.queue.offer s.cmp e).2.heap = s.queue.heap
  drain_sorted : (s.queue.drain s.cmp).Pairwise (s.cmp · · ≠ .gt)
  drain_contents : (s.queue.drain s.cmp : Multiset α) = s.reference

theorem Invariant.sound (h : s.Invariant) (hc : s.changed = none) : s.Sound := by
  have := h.trans
  have hr : Refines s.cmp (s.cmp · · ≠ .gt) := refines_of_transCmp
  have ho := h.ordered hc
  constructor
  · exact violation?_eq_none h.indexed ho
  · exact h.contents
  · rw [IndexedHeap.peek_eq_none, h.contents]
  · intro top htop
    refine ⟨h.contents ▸ peek_mem htop, fun b hb hlt => ?_⟩
    exact ho.peek_le hr htop (h.contents ▸ hb) (Std.OrientedCmp.gt_iff_lt.2 hlt)
  · intro e he
    rw [offer_eq_self h.indexed ho (h.contents ▸ he)]
  · exact drain_pairwise hr ho
  · exact (IndexedHeap.drain_contents s.cmp s.queue).trans h.contents

/-- A session behaves as a priority queue over its reference multiset. -/
theorem Reachable.behaves (h : s.Reachable) :
    (s.changed = none → s.Sound) ∧
      ∀ o, s.Permits o →
        (s.operate o).Sound ∧ o.Right s.cmp s.reference (o.run s.cmp s.queue).1 := by
  have hi := h.invariant
  have := hi.trans
  refine ⟨hi.sound, fun o ho => ⟨(hi.operate ho).sound rfl, ?_⟩⟩
  rw [← hi.contents]
  cases hc : s.changed with
  | none => exact Operation.right_run hi.indexed (.inl (hi.ordered hc))
  | some e => exact Operation.right_run hi.indexed (.inr ⟨e, ho e hc⟩)

/-- Two numbers are queued and the key of the greater one drops below the other. -/
theorem Reachable.behaves_when_a_key_drops :
    let s := ((({ cmp := compare } : Session Nat).operate (.push 3)).operate (.push 5)).rekey 5
      (compareOn fun n => if n = 5 then 1 else n)
    s.Reachable ∧ s.changed = some 5 ∧ s.reference = {3, 5} ∧ (s.operate (.offer 5)).Sound := by
  intro s
  have hqueue : s.queue.contents = {3, 5} := by
    change (((empty : IndexedHeap Nat).push compare 3).push compare 5).contents = {3, 5}
    rw [contents_push, contents_push, contents_empty]
    decide
  have hs : s.Reachable := by
    refine .rekey 5 _ (.operate _ (.operate _ (.start _ inferInstance) ?_) ?_) ?_ ?_
      inferInstance ?_
    · intro e he
      cases he
    · intro e he
      cases he
    · intro d hd
      cases hd
    · exact (congrArg (Multiset.count 5) hqueue).le.trans (by decide)
    · intro a b ha hb
      simp [compareOn, ha, hb]
      rfl
  have hchanged : s.changed = some 5 := by
    refine if_pos ?_
    change 5 ∈ s.queue.contents
    rw [hqueue]
    decide
  refine ⟨hs, hchanged, ?_, (hs.behaves.2 (.offer 5) ?_).1⟩
  · decide
  · intro e he
    exact Option.some.inj (hchanged.symm.trans he)

end Session

end IndexedHeap

end LeastLoad
