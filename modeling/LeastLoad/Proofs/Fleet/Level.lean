import LeastLoad.Proofs.Fleet.Ranking
import LeastLoad.Proofs.IndexedHeap.Agree

/-! # Rankings in order of the units in flight

While nothing is disabled and failures are not penalized, the only keys that change unnoticed are
the tie-break sums, which fall due behind the back of the queue. The queue then need not be in
order of the full comparison, but it stays in order of the units in flight alone: the comparison
refines that order, every change of a number of units is followed by putting the entry in its
place, and due tie-breaks do not change the numbers of units. -/

namespace LeastLoad

namespace EndpointLoad

variable {c : LoadSettings} {l a b : EndpointLoad}

/-- A load, made with the settings `c`, that is neither disabled nor penalized. -/
structure Plain (c : LoadSettings) (l : EndpointLoad) : Prop where
  enabled : l.disabled = false
  unpenalized : l.penalty = none
  untracked : c.subStrategy = .absent → l.tieBreak = .untracked

theorem Plain.sync (h : l.Plain c) (now : Nat) : (l.sync now).Plain c := by
  rw [sync_of_penalty_none h.unpenalized]
  refine ⟨h.enabled, h.unpenalized, fun hc => ?_⟩
  simp only [h.untracked hc, TieBreak.sync]

theorem Plain.acquire (h : l.Plain c) (now : Nat) (n : Int32) : (l.acquire now n).Plain c := by
  refine ⟨h.enabled, h.unpenalized, fun hc => ?_⟩
  simp only [EndpointLoad.acquire, h.untracked hc]

theorem Plain.release (h : l.Plain c) (now : Nat) (n : Int32) (latency : Duration) :
    (l.release now n latency).Plain c := by
  refine ⟨h.enabled, h.unpenalized, fun hc => ?_⟩
  simp only [EndpointLoad.release, h.untracked hc]

theorem Plain.create {e : Endpoint} {now : Nat} (hc : c.failureSustain = none)
    (h : EndpointLoad.create e c now = .ok l) : l.Plain c := by
  obtain ⟨htie, hpen, hl⟩ := create_spec h
  rw [hc] at hpen
  refine ⟨by rw [hl], (Except.ok.inj hpen).symm, fun habs => ?_⟩
  rw [TieBreak.create, habs] at htie
  exact (Except.ok.inj htie).symm

theorem Plain.vacant : LoadTable.vacant.Plain c := ⟨rfl, rfl, fun _ => rfl⟩

theorem Plain.inFlight_sync (h : l.Plain c) (now : Nat) :
    (l.sync now).inFlight = l.inFlight := by
  rw [sync_of_penalty_none h.unpenalized]
  rfl

theorem Plain.available_iff (h : l.Plain c) :
    l.available = true ↔ l.inFlight.toNat < 2 ^ 31 := by
  rw [EndpointLoad.available_iff]
  exact and_iff_right h.enabled

theorem Plain.compare_ne_gt (hc : c.subStrategy = .absent) (ha : a.Plain c) (hb : b.Plain c)
    (h : a.inFlight ≤ b.inFlight) : a.compare b ≠ .gt := by
  rw [compare_of_disabled_eq (ha.enabled.trans hb.enabled.symm), ha.untracked hc, hb.untracked hc]
  intro hgt
  rw [show TieBreak.untracked.compare TieBreak.untracked = .eq from rfl, Ordering.then_eq] at hgt
  exact UInt32.not_le.2 (Std.compare_eq_gt.1 hgt) h

end EndpointLoad

namespace LoadTable

def Plain (c : LoadSettings) (t : LoadTable) : Prop := ∀ r, (t.load r).Plain c

def Lighter (t : LoadTable) (a b : LoadRef) : Prop := (t.load a).inFlight ≤ (t.load b).inFlight

variable {c : LoadSettings} {t : LoadTable} {r : LoadRef}

theorem Plain.refines (h : t.Plain c) : Refines t.compare t.Lighter := by
  constructor
  · intro a b c hab hbc
    exact UInt32.le_trans hab hbc
  · intro a b hlt
    exact EndpointLoad.inFlight_le_of_compare_lt ((h a).enabled.trans (h b).enabled.symm) hlt
  · intro a b hnlt
    exact EndpointLoad.inFlight_le_of_compare_ne_lt ((h a).enabled.trans (h b).enabled.symm) hnlt

theorem Plain.update (h : t.Plain c) {g : EndpointLoad → EndpointLoad}
    (hg : ∀ l : EndpointLoad, l.Plain c → (g l).Plain c) : (t.update r g).Plain c := by
  intro s
  rw [load_update]
  split
  · exact hg _ (h s)
  · exact h s

theorem Plain.inFlight_sync (h : t.Plain c) (now : Nat) (s : LoadRef) :
    ((t.update r (·.sync now)).load s).inFlight = (t.load s).inFlight := by
  rw [load_update]
  split
  · exact (h s).inFlight_sync now
  · rfl

theorem Lighter.congr {t' : LoadTable} (h : ∀ r, (t'.load r).inFlight = (t.load r).inFlight) :
    t'.Lighter = t.Lighter := by
  funext a b
  rw [Lighter, Lighter, h, h]

end LoadTable

namespace Ranking

variable {c : LoadSettings} {s : LoadTable × Ranking} {t : LoadTable} {k : Ranking} {r : LoadRef}
  {now : Nat}

structure LevelExcept (c : LoadSettings) (s : LoadTable × Ranking) (r : LoadRef) : Prop where
  tidy : Tidy s
  plain : s.1.Plain c
  ordered : s.2.queue.OrderedExcept s.1.Lighter r
  awake : s.2.wakeups = []

structure Level (c : LoadSettings) (s : LoadTable × Ranking) : Prop where
  tidy : Tidy s
  plain : s.1.Plain c
  ordered : s.2.queue.Ordered s.1.Lighter
  awake : s.2.wakeups = []

theorem Tidy.count_le_one (h : Tidy s) (r : LoadRef) : s.2.queue.contents.count r ≤ 1 :=
  Multiset.nodup_iff_count_le_one.1 h.nodup r

theorem Tidy.ne_of_slots (h : Tidy s) {i j : Nat} {r' : LoadRef}
    (hr : s.2.queue.heap[i]? = some r) (hr' : s.2.queue.heap[j]? = some r') (hij : i ≠ j) :
    r ≠ r' := by
  rintro rfl
  exact IndexedHeap.ne_of_count_le_one h.indexed (h.count_le_one r) hr' hij hr

theorem Level.update (h : Level c s) {g : EndpointLoad → EndpointLoad}
    (hg : ∀ l : EndpointLoad, l.Plain c → (g l).Plain c) (hend : ∀ l, (g l).endpoint = l.endpoint) :
    LevelExcept c (s.1.update r g, s.2) r := by
  refine ⟨h.tidy.update hend, h.plain.update hg, ?_, h.awake⟩
  refine h.ordered.rekey h.tidy.indexed h.plain.refines (h.tidy.count_le_one r) ?_
  intro a b ha hb hab
  rw [LoadTable.Lighter, LoadTable.load_update_of_ne (Ne.symm ha),
    LoadTable.load_update_of_ne (Ne.symm hb)]
  exact hab

theorem Level.except (h : Level c s) (r : LoadRef) : LevelExcept c s r :=
  ⟨h.tidy, h.plain, h.ordered.orderedExcept h.plain.refines (h.tidy.count_le_one r), h.awake⟩

theorem LevelExcept.of_not_mem (h : LevelExcept c s r) (hr : r ∉ s.2.queue.contents) : Level c s :=
  ⟨h.tidy, h.plain, h.ordered.absent hr, h.awake⟩

theorem LevelExcept.offer (h : LevelExcept c s r) (hr : r ∈ s.2.queue.contents) :
    Level c (s.1, { s.2 with queue := (s.2.queue.offer s.1.compare r).2 }) :=
  ⟨h.tidy.offer _ hr, h.plain, h.ordered.offer h.tidy.indexed h.plain.refines, h.awake⟩

theorem LevelExcept.resync (h : LevelExcept c s r) (hr : r ∈ s.2.queue.contents) :
    Level c (resync now s r) := by
  have hsynced : LevelExcept c (s.1.update r (·.sync now), s.2) r := by
    refine ⟨h.tidy.update fun _ => EndpointLoad.endpoint_sync,
      h.plain.update fun l hl => hl.sync now, ?_, h.awake⟩
    rw [LoadTable.Lighter.congr (h.plain.inFlight_sync now)]
    exact h.ordered
  exact hsynced.offer hr

/-- Nothing but tie-breaks and places differ. -/
structure Still (c : LoadSettings) (s s' : LoadTable × Ranking) : Prop where
  keeps : Keeps s s'
  level : Level c s'
  inFlight : ∀ r, (s'.1.load r).inFlight = (s.1.load r).inFlight

theorem Level.settle (h : Level c s) : Still c s (settle now s) := by
  refine settle_of_resync (P := Still c s) ?_ ⟨.refl h.tidy, h, fun _ => rfl⟩
  intro s' r hs hr
  refine ⟨hs.keeps.trans (hs.keeps.tidy.keeps_resync hr), (hs.level.except r).resync hr, ?_⟩
  intro r'
  exact (hs.level.plain.inFlight_sync now r').trans (hs.inFlight r')

theorem Level.top (h : Level c s) {top : LoadRef} (htop : s.2.queue.peek = some top)
    (hr : r ∈ s.2.queue.contents) : s.1.Lighter top r :=
  h.ordered.peek_le h.plain.refines htop hr

theorem Level.take (h : Level c s) :
    Level c (take now s).2 ∧
      (∀ top, (Ranking.take now s).1 = some top → top ∈ s.2.queue.contents ∧
        (s.1.load top).inFlight.toNat < 2 ^ 31 ∧
        ∀ r ∈ s.2.queue.contents, s.1.Lighter top r) ∧
      ((Ranking.take now s).1 = none →
        ∀ r ∈ s.2.queue.contents, 2 ^ 31 ≤ (s.1.load r).inFlight.toNat) := by
  have hs : Still c s (Ranking.settle now s) := h.settle
  rw [Ranking.take, wake_of_nil h.awake]
  generalize Ranking.settle now s = s' at hs ⊢
  dsimp only
  split
  · next hnone =>
    refine ⟨hs.level, by simp, fun _ r hr => ?_⟩
    rw [IndexedHeap.peek_eq_none, hs.keeps.contents] at hnone
    rw [hnone] at hr
    exact absurd hr (Multiset.notMem_zero r)
  · next top htop =>
    have hmem : top ∈ s'.2.queue.contents := IndexedHeap.peek_mem htop
    have hleast : ∀ r ∈ s.2.queue.contents, s.1.Lighter top r := by
      intro r hr
      rw [← LoadTable.Lighter.congr hs.inFlight]
      exact hs.level.top htop (hs.keeps.contents ▸ hr)
    have hav := (hs.level.plain top).available_iff
    rw [hs.inFlight] at hav
    split
    · next havail =>
      have hu := hs.level.update (r := top) (g := (·.acquire now 1)) (fun l hl => hl.acquire now 1)
        fun _ => rfl
      refine ⟨hu.offer hmem, fun r hr => ?_, by simp⟩
      obtain rfl := Option.some.inj hr
      exact ⟨hs.keeps.contents ▸ hmem, hav.1 havail, hleast⟩
    · next havail =>
      refine ⟨hs.level, by simp, fun _ r hr => ?_⟩
      have hbig := Nat.not_lt.1 fun hlt => havail (hav.2 hlt)
      exact hbig.trans (UInt32.le_iff_toNat_le.1 (hleast r hr))

theorem LevelExcept.loadDropped (h : LevelExcept c s r) (hr : r ∈ s.2.queue.contents) :
    Level c (loadDropped now (s.1.endpoint r) 0 s) := by
  have hmem := h.tidy.member hr
  have hcontains : s.2.members.contains (s.1.endpoint r) = true := by
    rw [Std.HashMap.contains_eq_isSome_getElem?, hmem]
    rfl
  simp only [Ranking.loadDropped, hcontains, if_true, wake_of_nil h.awake, Nat.zero_le, resift,
    hmem]
  exact h.resync hr

/-- Without tie-breaks, this order is that of the full comparison. -/
theorem Level.violation?_eq_none (h : Level c s) (hc : c.subStrategy = .absent) :
    s.2.queue.violation? s.1.compare = none := by
  refine IndexedHeap.violation?_eq_none h.tidy.indexed fun j hj a b ha hb => ?_
  exact (h.plain a).compare_ne_gt hc (h.plain b) (h.ordered j hj a b ha hb)

theorem ordered_foldl_enter {cmp : LoadRef → LoadRef → Ordering} {le : LoadRef → LoadRef → Prop}
    {p : LoadRef → Prop} (hr : Refines cmp le) (hp : ∀ a b, p a → p b → t.compare a b = cmp a b)
    {states : List LoadRef} (hstates : ∀ r ∈ states, p r) (hi : k.queue.Indexed)
    (hn : k.queue.contents.Nodup) (hk : ∀ r ∈ k.queue.contents, p r) (h : k.queue.Ordered le) :
    (states.foldl (enter t) k).queue.Ordered le := by
  induction states generalizing k with
  | nil => exact h
  | cons r states ih =>
    have hone := Multiset.nodup_iff_count_le_one.1 hn r
    have hall : ∀ a ∈ r ::ₘ k.queue.contents, p a :=
      Multiset.forall_mem_cons.2 ⟨hstates r List.mem_cons_self, hk⟩
    have hoffer : k.queue.offer t.compare r = k.queue.offer cmp r :=
      IndexedHeap.AgreeOn.offer hi fun a ha b hb => hp a b (hall a ha) (hall b hb)
    refine ih (fun a ha => hstates a (List.mem_cons_of_mem _ ha)) (hi.offer r) ?_
      (fun a ha => ?_) ?_
    · simp only [enter, IndexedHeap.contents_offer hi]
      split
      · exact hn
      · next hmem => exact Multiset.nodup_cons.2 ⟨hmem, hn⟩
    · obtain rfl | ha := (mem_contents_enter hi a).1 ha
      · exact hstates a List.mem_cons_self
      · exact hk a ha
    · rw [enter, hoffer]
      exact (h.orderedExcept hr hone).offer hi hr

theorem ordered_replace {cmp : LoadRef → LoadRef → Ordering} {le : LoadRef → LoadRef → Prop}
    {p : LoadRef → Prop} (hr : Refines cmp le) (hp : ∀ a b, p a → p b → t.compare a b = cmp a b)
    {states : List LoadRef} (hstates : ∀ r ∈ states, p r) :
    (k.replace t states).queue.Ordered le := by
  have h := Tidy.empty t
  refine ordered_foldl_enter hr hp hstates h.indexed h.nodup (fun r hr => ?_) fun c _ => ?_
  · cases hr
  · exact IndexedHeap.inOrder_of_size_le (Nat.zero_le c)

theorem Level.replace (hplain : t.Plain c) {states : List LoadRef} (hs : t.Apart states)
    (hk : k.wakeups = []) : Level c (t, k.replace t states) := by
  refine ⟨(Tidy.replace hs).1, hplain, ?_, ?_⟩
  · exact ordered_replace (p := fun _ => True) hplain.refines (fun _ _ _ _ => rfl)
      fun _ _ => trivial
  · rw [Ranking.replace, hk]
    rfl

end Ranking

end LeastLoad
