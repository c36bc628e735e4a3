import LeastLoad.Proofs.Endpoint.Synced
import LeastLoad.Proofs.Fleet.Level
import LeastLoad.Proofs.Fleet.Wakeups

/-! # Rankings in order while penalties are pending

With nothing disabled, putting an entry in its place restores the order of the units in flight
whatever has become of its own load. A ranking in that order whose wake-ups are all kept hands out
a least loaded member, counted with everything due taken off. The one step that may lose the order
is to move another entry while one is out of its place: what a dropping load is announced for must
be the only entry that waking moves. -/

namespace LeastLoad

@[simp] theorem EndpointLoad.disabled_penalize {l : EndpointLoad} {now : Nat}
    (latency : Duration) : (l.penalize now latency).2.disabled = l.disabled := by
  simp only [penalize]
  split <;> rfl

theorem EndpointLoad.inFlight_sync_acquire (l : EndpointLoad) (now : Nat) (n : Int32) :
    ((l.acquire now n).sync now).inFlight = (l.sync now).inFlight + n.toUInt32 := by
  have hconc : ((l.acquire now n).sync now).concurrency = (l.sync now).concurrency + n := by
    simp only [sync, acquire]
    split
    · rfl
    · simp only [Int32.add_assoc, Int32.add_comm n]
  rw [inFlight, hconc]
  rfl

namespace LoadTable

variable {t : LoadTable} {r : LoadRef} {g : EndpointLoad → EndpointLoad}

def Enabled (t : LoadTable) : Prop := ∀ r, (t.load r).disabled = false

theorem Enabled.refines (h : t.Enabled) : Refines t.compare t.Lighter := by
  constructor
  · intro a b c hab hbc
    exact UInt32.le_trans hab hbc
  · intro a b hlt
    exact EndpointLoad.inFlight_le_of_compare_lt ((h a).trans (h b).symm) hlt
  · intro a b hnlt
    exact EndpointLoad.inFlight_le_of_compare_ne_lt ((h a).trans (h b).symm) hnlt

theorem Enabled.update (h : t.Enabled) (hg : ∀ l, (g l).disabled = l.disabled) :
    (t.update r g).Enabled :=
  fun s => (load_update_congr (·.disabled) hg).trans (h s)

end LoadTable

namespace Ranking

variable {s : LoadTable × Ranking} {r : LoadRef} {now : Nat} {extra : List Wakeup}

theorem synced_resift (e : Endpoint) : LoadTable.Synced now s.1 (resift now s e).1 := by
  rw [resift]
  split
  · next r _ => exact .sync r .refl
  · exact .refl

theorem synced_wake : LoadTable.Synced now s.1 (wake now s).1 := by
  rw [wake_eq]
  refine List.foldlRecOn (motive := fun s' : LoadTable × Ranking =>
    LoadTable.Synced now s.1 s'.1) _ _ .refl ?_
  exact fun _ hs w _ => hs.trans (synced_resift w.endpoint)

theorem synced_settle : LoadTable.Synced now s.1 (settle now s).1 :=
  settle_of_resync (P := fun s' => LoadTable.Synced now s.1 s'.1) (fun _ r hs _ => .sync r hs) .refl

theorem synced_loadDropped (e : Endpoint) (since : Nat) :
    LoadTable.Synced now s.1 (loadDropped now e since s).1 := by
  rw [loadDropped]
  dsimp only
  split
  · split
    · exact synced_wake.trans (synced_resift e)
    · exact synced_wake
  · exact .refl

def handed (now : Nat) (s : LoadTable × Ranking) (r : LoadRef) : LoadTable × Ranking :=
  let loads := s.1.update r (·.acquire now 1)
  (loads, { s.2 with queue := (s.2.queue.offer loads.compare r).2 })

/-- Either the settled top is available and is handed a unit, or it is not and nothing is. -/
theorem take_cases (now : Nat) (s : LoadTable × Ranking) {s' : LoadTable × Ranking}
    (hs : settle now (wake now s) = s') :
    (take now s = (none, s') ∧
        ∀ top, s'.2.queue.peek = some top → (s'.1.load top).available = false) ∨
      ∃ top, s'.2.queue.peek = some top ∧ (s'.1.load top).available = true ∧
        take now s = (some top, handed now s' top) := by
  rw [take, hs]
  dsimp only
  cases hpeek : s'.2.queue.peek with
  | none => exact .inl ⟨rfl, fun _ h => (Option.some_ne_none _ h.symm).elim⟩
  | some top =>
    dsimp only
    cases hav : (s'.1.load top).available with
    | false => exact .inl ⟨rfl, fun _ h => Option.some.inj h ▸ hav⟩
    | true => exact .inr ⟨top, rfl, hav, rfl⟩

theorem queue_resync (ht : Tidy s) {p : Nat} (hp : s.2.queue.heap[p]? = some r) :
    (resync now s r).2.queue = s.2.queue.reposition (resync now s r).1.compare p :=
  ht.indexed.offer_eq_reposition (Multiset.nodup_iff_count_le_one.1 ht.nodup r) hp

theorem settle_eq_resync {top : LoadRef} (hpeek : s.2.queue.peek = some top)
    (hstay : (resync now s top).2.queue = s.2.queue) : settle now s = resync now s top := by
  obtain ⟨n, hn⟩ : ∃ n, s.2.queue.size = n + 1 := by
    refine Nat.exists_eq_succ_of_ne_zero fun hz => ?_
    rw [IndexedHeap.peek, Array.getElem?_eq_none hz.le] at hpeek
    cases hpeek
  rw [settle, hn, settleWithin, hpeek]
  dsimp only
  rw [hstay, if_pos hpeek]

theorem take_of_stays {top : LoadRef} (hw : s.2.wakeups = []) (hpeek : s.2.queue.peek = some top)
    (hstay : (resync now s top).2.queue = s.2.queue)
    (hav : ((resync now s top).1.load top).available = true) :
    settle now (wake now s) = resync now s top ∧
      take now s = (some top, handed now (resync now s top) top) := by
  have hsettled : settle now (wake now s) = resync now s top := by
    rw [wake_of_nil hw]
    exact settle_eq_resync hpeek hstay
  refine ⟨hsettled, ?_⟩
  obtain ⟨-, hun⟩ | ⟨top', hpeek', -, heq⟩ := take_cases now s hsettled
  · have hno := hun top (hstay ▸ hpeek)
    rw [hav] at hno
    cases hno
  · rw [hstay, hpeek] at hpeek'
    obtain rfl := Option.some.inj hpeek'
    exact heq

theorem load_take {p : EndpointLoad → Prop} (hsync : ∀ l, p l → p (l.sync now))
    (hacq : ∀ l, p l → p (l.acquire now 1)) (h : p (s.1.load r)) :
    p ((take now s).2.1.load r) := by
  have hsettled : p ((settle now (wake now s)).1.load r) :=
    (synced_wake.trans synced_settle).keeps hsync h
  obtain ⟨heq, -⟩ | ⟨top, -, -, heq⟩ := take_cases now s rfl
  · rwa [heq]
  · rw [heq]
    change p (((settle now (wake now s)).1.update top (·.acquire now 1)).load r)
    rw [LoadTable.load_update]
    split
    · exact hacq _ hsettled
    · exact hsettled

theorem synced_heard (r : LoadRef) (since : Nat) :
    LoadTable.Synced now s.1 (Fleet.heard now r since s).1 := by
  rw [Fleet.heard]
  split
  · exact synced_loadDropped _ since
  · exact .refl

theorem load_finished {p : EndpointLoad → Prop} (hsync : ∀ l, p l → p (l.sync now))
    (hrel : ∀ l latency, p l → p (l.release now 1 latency))
    (hpen : ∀ l latency, p l → p (l.penalize now latency).2) {r' : LoadRef} (h : p (s.1.load r))
    (succeeded : Bool) (latency : Duration) :
    p ((Fleet.finished now r' succeeded latency s).1.load r) := by
  have hupdate : ∀ {t : LoadTable} {g : EndpointLoad → EndpointLoad}, (∀ l, p l → p (g l)) →
      p (t.load r) → p ((t.update r' g).load r) := by
    intro t g hg ht
    rw [LoadTable.load_update]
    split
    · exact hg _ ht
    · exact ht
  have hfailed : p ((Fleet.penalized now r' latency s).1.load r) := by
    rw [Fleet.penalized]
    split
    · exact h
    · exact (synced_heard r' _).keeps hsync (hupdate (fun l hl => hpen l latency hl) h)
  refine (synced_heard r' 0).keeps hsync (hupdate (fun l hl => hrel l latency hl) ?_)
  split
  · exact h
  · exact hfailed

theorem Tidy.le_resync_top (h : Tidy s) {top : LoadRef} (hpeek : s.2.queue.peek = some top)
    {le : LoadRef → LoadRef → Prop} (hr : Refines (Ranking.resync now s top).1.compare le)
    {a : LoadRef} (ha : (Ranking.resync now s top).2.queue.peek = some a) {c : Nat} (hc : c ≤ 2)
    {b : LoadRef} (hb : s.2.queue.heap[c]? = some b) : le a b := by
  rw [IndexedHeap.peek, queue_resync h hpeek] at ha
  exact IndexedHeap.le_of_reposition_top hr hc ha hb

theorem Tidy.forall_or_three (h : Tidy s) {P : LoadRef → Prop}
    (hfirst : ∀ c ≤ 2, ∀ r, s.2.queue.heap[c]? = some r → P r) :
    (∀ r ∈ s.2.queue.contents, P r) ∨
      ∃ rs : List LoadRef, rs.Nodup ∧ rs.length = 3 ∧ ∀ r ∈ rs, r ∈ s.2.queue.contents ∧ P r := by
  have htake : ∀ r ∈ s.2.queue.toList.take 3, P r := by
    intro r hr
    obtain ⟨c, hc⟩ := List.mem_iff_getElem?.1 hr
    rw [List.getElem?_take] at hc
    split at hc
    · next hlt => exact hfirst c (Nat.le_of_lt_succ hlt) r (Array.getElem?_toList.symm.trans hc)
    · cases hc
  by_cases hsize : s.2.queue.toList.length ≤ 3
  · left
    intro r hr
    rw [List.take_of_length_le hsize] at htake
    exact htake r hr
  · right
    refine ⟨s.2.queue.toList.take 3, ?_, ?_, fun r hr => ⟨List.mem_of_mem_take hr, htake r hr⟩⟩
    · exact (Multiset.coe_nodup.1 h.nodup).sublist (List.take_sublist _ _)
    · rw [List.length_take]
      omega

theorem forall_of_forall_or_three {members : Multiset LoadRef} (hcard : members.card ≤ 3)
    {P : LoadRef → Prop}
    (h : (∀ r ∈ members, P r) ∨
      ∃ rs : List LoadRef, rs.Nodup ∧ rs.length = 3 ∧ ∀ r ∈ rs, r ∈ members ∧ P r) :
    ∀ r ∈ members, P r := by
  obtain hall | ⟨rs, hn, hlen, hrs⟩ := h
  · exact hall
  · have hle : (rs : Multiset LoadRef) ≤ members :=
      (Multiset.le_iff_subset (Multiset.coe_nodup.2 hn)).2 fun r hr => (hrs r hr).1
    have heq := Multiset.eq_of_le_of_card_le hle (by rw [Multiset.coe_card, hlen]; exact hcard)
    rw [← heq]
    exact fun r hr => (hrs r hr).2

/-- The settled top is in order with all members, or with three of them. -/
theorem Tidy.top_or_three (h : Tidy s) {a : LoadRef} (ha : (settle now s).2.queue.peek = some a)
    {le : LoadRef → LoadRef → Prop} (hr : Refines (settle now s).1.compare le) :
    (∀ r ∈ s.2.queue.contents, le a r) ∨
      ∃ rs : List LoadRef, rs.Nodup ∧ rs.length = 3 ∧
        ∀ r ∈ rs, r ∈ s.2.queue.contents ∧ le a r := by
  have hstep : ∀ s' r, Keeps s s' → s'.2.queue.peek = some r → Keeps s (Ranking.resync now s' r) :=
    fun _ _ hs hr => hs.trans (hs.tidy.keeps_resync (IndexedHeap.peek_mem hr))
  obtain ⟨heq, hz | hnone⟩ | ⟨s', top, hk, htop, heq⟩ :=
    settleWithin_last hstep s.2.queue.size (.refl h)
  · rw [settle, heq, IndexedHeap.peek, Array.getElem?_eq_none hz.le] at ha
    cases ha
  · rw [settle, heq, hnone] at ha
    cases ha
  · rw [settle, heq] at ha hr
    rw [← hk.contents]
    exact hk.tidy.forall_or_three fun c hc r hslot => hk.tidy.le_resync_top htop hr ha hc hslot

/-- Nothing is disabled, and the entries are in order of the units in flight. -/
structure Sorted (s : LoadTable × Ranking) : Prop where
  tidy : Tidy s
  enabled : s.1.Enabled
  ordered : s.2.queue.Ordered s.1.Lighter

structure SortedExcept (s : LoadTable × Ranking) (r : LoadRef) : Prop where
  tidy : Tidy s
  enabled : s.1.Enabled
  ordered : s.2.queue.OrderedExcept s.1.Lighter r

theorem Sorted.except (h : Sorted s) (r : LoadRef) : SortedExcept s r :=
  ⟨h.tidy, h.enabled, h.ordered.orderedExcept h.enabled.refines (h.tidy.count_le_one r)⟩

theorem SortedExcept.of_not_mem (h : SortedExcept s r) (hr : r ∉ s.2.queue.contents) : Sorted s :=
  ⟨h.tidy, h.enabled, h.ordered.absent hr⟩

theorem SortedExcept.update (h : SortedExcept s r) {g : EndpointLoad → EndpointLoad}
    (hend : ∀ l, (g l).endpoint = l.endpoint) (hdis : ∀ l, (g l).disabled = l.disabled) :
    SortedExcept (s.1.update r g, s.2) r := by
  refine ⟨h.tidy.update hend, h.enabled.update hdis, h.ordered.rekey h.tidy.indexed ?_⟩
  intro a b ha hb hab
  rw [LoadTable.Lighter, LoadTable.load_update_of_ne (Ne.symm ha),
    LoadTable.load_update_of_ne (Ne.symm hb)]
  exact hab

theorem SortedExcept.offer (h : SortedExcept s r) (hr : r ∈ s.2.queue.contents) :
    Sorted (s.1, { s.2 with queue := (s.2.queue.offer s.1.compare r).2 }) :=
  ⟨h.tidy.offer _ hr, h.enabled, h.ordered.offer h.tidy.indexed h.enabled.refines⟩

theorem SortedExcept.resync (h : SortedExcept s r) (hr : r ∈ s.2.queue.contents) :
    Sorted (resync now s r) :=
  (h.update (fun _ => EndpointLoad.endpoint_sync) fun _ => EndpointLoad.disabled_sync).offer hr

theorem Sorted.resync (h : Sorted s) (hr : r ∈ s.2.queue.contents) : Sorted (resync now s r) :=
  (h.except r).resync hr

theorem Sorted.resift (h : Sorted s) (e : Endpoint) : Sorted (resift now s e) := by
  rw [Ranking.resift]
  split
  · next r hr => exact h.resync ((h.tidy.members e r).1 hr).1
  · exact h

theorem Sorted.wakeups (h : Sorted s) (w : List Wakeup) :
    Sorted (s.1, { s.2 with wakeups := w }) :=
  ⟨(h.tidy.keeps_wakeups w).tidy, h.enabled, h.ordered⟩

theorem Sorted.wake (h : Sorted s) : Sorted (wake now s) :=
  List.foldlRecOn _ _ (h.wakeups _) fun _ hs w _ => hs.resift w.endpoint

theorem Sorted.settle (h : Sorted s) : Sorted (settle now s) :=
  settle_of_resync (fun _ _ hs hr => hs.resync hr) h

theorem Sorted.handed (h : Sorted s) (hr : r ∈ s.2.queue.contents) : Sorted (handed now s r) :=
  SortedExcept.offer (s := (s.1.update r (·.acquire now 1), s.2))
    ((h.except r).update (fun _ => rfl) fun _ => rfl) hr

theorem Sorted.take (h : Sorted s) : Sorted (take now s).2 := by
  have hs : Sorted (Ranking.settle now (Ranking.wake now s)) := h.wake.settle
  obtain ⟨heq, -⟩ | ⟨top, htop, -, heq⟩ := take_cases now s rfl
  · rw [heq]
    exact hs
  · rw [heq]
    exact hs.handed (IndexedHeap.peek_mem htop)

theorem Sorted.top (h : Sorted s) {top : LoadRef} (htop : s.2.queue.peek = some top)
    (hr : r ∈ s.2.queue.contents) : s.1.Lighter top r :=
  h.ordered.peek_le h.enabled.refines htop hr

theorem SortedExcept.wakeups (h : SortedExcept s r) (w : List Wakeup) :
    SortedExcept (s.1, { s.2 with wakeups := w }) r :=
  ⟨(h.tidy.keeps_wakeups w).tidy, h.enabled, h.ordered⟩

def DueOnlyFor (now : Nat) (e : Endpoint) (ws : List Wakeup) : Prop :=
  ∀ w ∈ ws, w.due ≤ now → w.endpoint = e

theorem SortedExcept.resift (h : SortedExcept s r) : Sorted (resift now s (s.1.endpoint r)) := by
  by_cases hr : r ∈ s.2.queue.contents
  · rw [Ranking.resift, h.tidy.member hr]
    exact h.resync hr
  · exact (h.of_not_mem hr).resift _

/-- Waking moves no other entry than the one that is out of its place. -/
theorem SortedExcept.wake (h : SortedExcept s r)
    (hdue : DueOnlyFor now (s.1.endpoint r) s.2.wakeups) : SortedExcept (wake now s) r := by
  have hall : SortedExcept (Ranking.wake now s) r ∧
      (Ranking.wake now s).1.endpoint r = s.1.endpoint r := by
    rw [wake_eq]
    refine List.foldlRecOn (motive := fun s' : LoadTable × Ranking =>
      SortedExcept s' r ∧ s'.1.endpoint r = s.1.endpoint r) _ _ ⟨h.wakeups _, rfl⟩ ?_
    rintro s' ⟨hs, hend⟩ w hw
    have hle := List.mem_takeWhile_imp hw
    have hwend := hdue w ((List.takeWhile_sublist _).mem hw) (of_decide_eq_true hle)
    rw [hwend, ← hend]
    exact ⟨hs.resift.except r, (synced_resift _).endpoint r⟩
  exact hall.1

/-- The entries are in order, or all but one are, of which a wake-up is due, and of no other. -/
def Mendable (now : Nat) (s : LoadTable × Ranking) : Prop :=
  s.2.queue.Ordered s.1.Lighter ∨ ∃ r, s.2.queue.OrderedExcept s.1.Lighter r ∧
    (∃ w ∈ s.2.wakeups, w.due ≤ now) ∧ DueOnlyFor now (s.1.endpoint r) s.2.wakeups

theorem Mendable.wake (h : Mendable now s) (ht : Tidy s) (hen : s.1.Enabled)
    (hturn : Wakeup.InTurn s.2.wakeups) : Sorted (wake now s) := by
  obtain hordered | ⟨r, hexcept, ⟨w, hw, hle⟩, hdue⟩ := h
  · exact Sorted.wake ⟨ht, hen, hordered⟩
  · have hs : SortedExcept s r := ⟨ht, hen, hexcept⟩
    obtain ⟨v, ws, hws⟩ := List.exists_cons_of_ne_nil (List.ne_nil_of_mem hw)
    have hv : v.due ≤ now := by
      rw [hws] at hw hturn
      obtain rfl | hw := List.mem_cons.1 hw
      · exact hle
      · exact (List.rel_of_pairwise_cons hturn hw).trans hle
    -- the first wake-up puts the entry in its place, and the others keep the order
    have hfirst : Sorted (Ranking.resift now
        (s.1, { s.2 with wakeups := ws.dropWhile (·.due ≤ now) }) v.endpoint) := by
      rw [hdue v (hws ▸ List.mem_cons_self) hv]
      exact (hs.wakeups (ws.dropWhile (·.due ≤ now))).resift
    simp only [wake_eq, hws, List.takeWhile_cons, List.dropWhile_cons, hv, decide_true, if_true,
      List.foldl_cons]
    exact List.foldlRecOn _ _ hfirst fun _ hs w _ => hs.resift w.endpoint

theorem wakeups_wake : (wake now s).2.wakeups = s.2.wakeups.dropWhile (·.due ≤ now) := by
  rw [wake_eq]
  refine List.foldlRecOn (motive := fun s' : LoadTable × Ranking =>
    s'.2.wakeups = s.2.wakeups.dropWhile (·.due ≤ now)) _ _ rfl ?_
  exact fun _ hs w _ => wakeups_resift.trans hs

theorem SortedExcept.heard (h : SortedExcept s r)
    (hdue : DueOnlyFor now (s.1.endpoint r) s.2.wakeups) (since : Nat) :
    SortedExcept (Fleet.heard now r since s) r ∧
      DueOnlyFor now (s.1.endpoint r) (Fleet.heard now r since s).2.wakeups ∧
      (since ≤ now → Sorted (Fleet.heard now r since s)) := by
  rw [Fleet.heard]
  split
  · next hr =>
    have hw : SortedExcept (Ranking.wake now s) r := h.wake hdue
    have hend : (Ranking.wake now s).1.endpoint r = s.1.endpoint r := synced_wake.endpoint r
    have hlater : DueOnlyFor now (s.1.endpoint r) (Ranking.wake now s).2.wakeups := by
      intro w hwake
      rw [wakeups_wake] at hwake
      exact hdue w ((List.dropWhile_sublist _).mem hwake)
    have hcontains : s.2.members.contains (s.1.endpoint r) = true := by
      rw [Std.HashMap.contains_eq_isSome_getElem?, h.tidy.member hr]
      rfl
    rw [Ranking.loadDropped, if_pos hcontains]
    dsimp only
    split
    · next hle =>
      have hsorted : Sorted (Ranking.resift now (Ranking.wake now s) (s.1.endpoint r)) :=
        hend ▸ hw.resift
      refine ⟨hsorted.except r, ?_, fun _ => hsorted⟩
      rw [wakeups_resift]
      exact hlater
    · next hlt =>
      refine ⟨hw.wakeups _, fun w hins => ?_, fun hle => absurd hle hlt⟩
      rcases Wakeup.mem_insertInto.1 hins with rfl | hins
      · exact fun _ => rfl
      · exact hlater w hins
  · next hr => exact ⟨h, hdue, fun _ => h.of_not_mem hr⟩

theorem Sorted.penalized (h : Sorted s) (hdue : DueOnlyFor now (s.1.endpoint r) s.2.wakeups)
    (latency : Duration) :
    SortedExcept (Fleet.penalized now r latency s) r ∧
      DueOnlyFor now (s.1.endpoint r) (Fleet.penalized now r latency s).2.wakeups := by
  rw [Fleet.penalized]
  split
  · exact ⟨h.except r, hdue⟩
  · next due _ =>
    have hend : ∀ l : EndpointLoad, (l.penalize now latency).2.endpoint = l.endpoint :=
      fun l => l.endpoint_penalize latency
    have hu := (h.except r).update hend fun l => l.disabled_penalize latency
    have hr : (s.1.update r fun l => (l.penalize now latency).2).endpoint r = s.1.endpoint r :=
      LoadTable.endpoint_update hend
    rw [← hr] at hdue ⊢
    have hheard := hu.heard hdue due
    exact ⟨hheard.1, hheard.2.1⟩

/-- Finishing a unit keeps the order if it finds no wake-up due of another endpoint. -/
theorem Sorted.finished (h : Sorted s) (hdue : DueOnlyFor now (s.1.endpoint r) s.2.wakeups)
    (succeeded : Bool) (latency : Duration) :
    Sorted (Fleet.finished now r succeeded latency s) := by
  obtain ⟨s₁, hs₁, hexcept, hdue₁, hend⟩ : ∃ s₁, Fleet.finished now r succeeded latency s =
      Fleet.heard now r 0 (s₁.1.update r (·.release now 1 latency), s₁.2) ∧
      SortedExcept s₁ r ∧ DueOnlyFor now (s.1.endpoint r) s₁.2.wakeups ∧
      s₁.1.endpoint r = s.1.endpoint r := by
    cases succeeded with
    | true => exact ⟨s, rfl, h.except r, hdue, rfl⟩
    | false =>
      obtain ⟨hs, hd⟩ := h.penalized hdue latency
      exact ⟨_, rfl, hs, hd, (Fleet.keeps_penalized h.tidy).endpoint r⟩
  have hkept : (s₁.1.update r (·.release now 1 latency)).endpoint r = s₁.1.endpoint r :=
    LoadTable.endpoint_update fun _ => rfl
  have hr := hkept.trans hend
  have hu := hexcept.update (g := (·.release now 1 latency)) (fun _ => rfl) fun _ => rfl
  rw [← hr] at hdue₁
  rw [hs₁]
  exact (hu.heard hdue₁ 0).2.2 (Nat.zero_le now)

/-- After waking and settling, a load shows what it shows with everything due taken off, unless a
wake-up is missing that would be due. -/
theorem Alert.inFlight_settled (h : Alert now extra s) (hnow : now ≤ horizon)
    (hr : r ∈ s.2.queue.contents)
    (hextra : ∀ w ∈ extra, w.endpoint = s.1.endpoint r → now < w.due) :
    ((Ranking.settle now (Ranking.wake now s)).1.load r).inFlight = s.1.inFlightAt now r := by
  obtain ⟨hw, hlater⟩ := h.wake
  obtain ⟨hs, hkept⟩ := hw.settle
  have hk : Keeps s (Ranking.settle now (Ranking.wake now s)) :=
    h.tidy.keeps_wake.trans hw.tidy.keeps_settle
  have hsynced : LoadTable.Synced now s.1 (Ranking.settle now (Ranking.wake now s)).1 :=
    synced_wake.trans synced_settle
  have hstill := (hs.awaits r (hk.contents ▸ hr)).concurrency_sync hnow fun d hd => by
    rw [hkept, hk.endpoint] at hd
    rcases List.mem_append.1 hd with hd | hd
    · exact hextra _ hd rfl
    · exact hlater _ hd
  rw [← hsynced.inFlightAt hnow (h.awaits r hr)]
  exact (congrArg Int32.toUInt32 hstill).symm

/-- What is handed out is least loaded once everything due is taken off, and nothing is handed out
only if all counters are then past the largest signed number. -/
theorem Sorted.least_of_take (h : Sorted s) (ha : Alert now [] s) (hnow : now ≤ horizon) :
    (∀ top, (Ranking.take now s).1 = some top → top ∈ s.2.queue.contents ∧
      (s.1.inFlightAt now top).toNat < 2 ^ 31 ∧
      ∀ r ∈ s.2.queue.contents, s.1.inFlightAt now top ≤ s.1.inFlightAt now r) ∧
    ((Ranking.take now s).1 = none →
      ∀ r ∈ s.2.queue.contents, 2 ^ 31 ≤ (s.1.inFlightAt now r).toNat) := by
  have hs : Sorted (Ranking.settle now (Ranking.wake now s)) := h.wake.settle
  have hk : Keeps s (Ranking.settle now (Ranking.wake now s)) := (ha.settled hnow).1
  have hat : ∀ r ∈ s.2.queue.contents, _ := fun r hr => ha.inFlight_settled (r := r) hnow hr nofun
  have hcases := take_cases now s rfl
  generalize Ranking.settle now (Ranking.wake now s) = s' at hs hk hat hcases
  have hav : ∀ r ∈ s.2.queue.contents, (s'.1.load r).available = true ↔
      (s.1.inFlightAt now r).toNat < 2 ^ 31 := by
    intro r hr
    rw [← hat r hr, EndpointLoad.available_iff]
    exact and_iff_right (hs.enabled r)
  have htop : ∀ top, s'.2.queue.peek = some top → top ∈ s.2.queue.contents ∧
      ∀ r ∈ s.2.queue.contents, s.1.inFlightAt now top ≤ s.1.inFlightAt now r := by
    intro top hpeek
    have hmem : top ∈ s.2.queue.contents := hk.contents ▸ IndexedHeap.peek_mem hpeek
    refine ⟨hmem, fun r hr => ?_⟩
    rw [← hat r hr, ← hat top hmem]
    exact hs.top hpeek (hk.contents ▸ hr)
  obtain ⟨heq, hun⟩ | ⟨top, hpeek, havail, heq⟩ := hcases
  · rw [heq]
    refine ⟨by simp, fun _ r hr => ?_⟩
    cases hpeek : s'.2.queue.peek with
    | none =>
      rw [IndexedHeap.peek_eq_none, hk.contents] at hpeek
      rw [hpeek] at hr
      exact absurd hr (Multiset.notMem_zero r)
    | some top =>
      obtain ⟨hmem, hleast⟩ := htop top hpeek
      have hbig : 2 ^ 31 ≤ (s.1.inFlightAt now top).toNat := by
        refine Nat.not_lt.1 fun hlt => ?_
        have hno := hun top hpeek
        rw [(hav top hmem).2 hlt] at hno
        cases hno
      exact hbig.trans (UInt32.le_iff_toNat_le.1 (hleast r hr))
  · rw [heq]
    obtain ⟨hmem, hleast⟩ := htop top hpeek
    refine ⟨fun r hr => ?_, by simp⟩
    obtain rfl := Option.some.inj hr
    exact ⟨hmem, (hav _ hmem).1 havail, hleast⟩

theorem wakeups_take : (take now s).2.2.wakeups = s.2.wakeups.dropWhile (·.due ≤ now) := by
  have hsettled : (settle now (wake now s)).2.wakeups = s.2.wakeups.dropWhile (·.due ≤ now) := by
    rw [← wakeups_wake (s := s)]
    exact settle_of_resync (P := fun s' => s'.2.wakeups = (wake now s).2.wakeups)
      (fun _ _ hs _ => hs) rfl
  obtain ⟨heq, -⟩ | ⟨top, -, -, heq⟩ := take_cases now s rfl
  · rwa [heq]
  · rwa [heq]

theorem Alert.inFlightAt_take (h : Alert now extra s) (hnow : now ≤ horizon)
    (hr : r ∈ s.2.queue.contents) :
    (Ranking.take now s).2.1.inFlightAt now r =
      if (Ranking.take now s).1 = some r then s.1.inFlightAt now r + 1
      else s.1.inFlightAt now r := by
  have hsynced : LoadTable.Synced now s.1 (Ranking.settle now (Ranking.wake now s)).1 :=
    synced_wake.trans synced_settle
  have hsame := hsynced.inFlightAt hnow (h.awaits r hr)
  obtain ⟨heq, -⟩ | ⟨top, -, -, heq⟩ := take_cases now s rfl
  · rw [heq, if_neg (by simp)]
    exact hsame
  · rw [heq]
    change ((((Ranking.settle now (Ranking.wake now s)).1.update top (·.acquire now 1)).load r).sync
      now).inFlight = _
    have hplace : r.place < (Ranking.settle now (Ranking.wake now s)).1.states.size := by
      rw [hsynced.size]
      exact h.tidy.placed r hr
    rw [LoadTable.load_update, ← hsame]
    by_cases htop : top = r
    · subst htop
      rw [if_pos ⟨rfl, hplace⟩, if_pos rfl, EndpointLoad.inFlight_sync_acquire]
      rfl
    · rw [if_neg fun h => htop h.1, if_neg fun h => htop (Option.some.inj h)]
      rfl

/-- However the entries stand, what is handed out is no more loaded than all members, or than three
of them. -/
theorem Alert.least_or_three (h : Alert now extra s) (hextra : ∀ w ∈ extra, now < w.due)
    (hen : s.1.Enabled) (hnow : now ≤ horizon) {top : LoadRef}
    (htake : (Ranking.take now s).1 = some top) :
    top ∈ s.2.queue.contents ∧
      ((∀ r ∈ s.2.queue.contents, s.1.inFlightAt now top ≤ s.1.inFlightAt now r) ∨
        ∃ rs : List LoadRef, rs.Nodup ∧ rs.length = 3 ∧ ∀ r ∈ rs,
          r ∈ s.2.queue.contents ∧ s.1.inFlightAt now top ≤ s.1.inFlightAt now r) := by
  have hw : Keeps s (Ranking.wake now s) := h.tidy.keeps_wake
  have hk : Keeps s (Ranking.settle now (Ranking.wake now s)) := hw.trans hw.tidy.keeps_settle
  have hsynced : LoadTable.Synced now s.1 (Ranking.settle now (Ranking.wake now s)).1 :=
    synced_wake.trans synced_settle
  have hen' : (Ranking.settle now (Ranking.wake now s)).1.Enabled :=
    fun r => (hsynced.disabled r).trans (hen r)
  have hat : ∀ r ∈ s.2.queue.contents, _ := fun r hr =>
    h.inFlight_settled (r := r) hnow hr fun w hw _ => hextra w hw
  have hthree : ∀ {a}, (Ranking.settle now (Ranking.wake now s)).2.queue.peek = some a → _ :=
    fun ha => hw.tidy.top_or_three ha hen'.refines
  rw [hw.contents] at hthree
  obtain ⟨heq, -⟩ | ⟨a, hpeek, -, heq⟩ := take_cases now s rfl
  · rw [heq] at htake
    cases htake
  · rw [heq] at htake
    obtain rfl := Option.some.inj htake
    have hmem : a ∈ s.2.queue.contents := hk.contents ▸ IndexedHeap.peek_mem hpeek
    have hle : ∀ r ∈ s.2.queue.contents,
        (Ranking.settle now (Ranking.wake now s)).1.Lighter a r →
        s.1.inFlightAt now a ≤ s.1.inFlightAt now r := by
      intro r hr hlighter
      rwa [LoadTable.Lighter, hat a hmem, hat r hr] at hlighter
    refine ⟨hmem, (hthree hpeek).imp (fun hall r hr => hle r hr (hall r hr)) ?_⟩
    rintro ⟨rs, hn, hlen, hrs⟩
    exact ⟨rs, hn, hlen, fun r hr => ⟨(hrs r hr).1, hle r (hrs r hr).1 (hrs r hr).2⟩⟩

end Ranking

end LeastLoad
