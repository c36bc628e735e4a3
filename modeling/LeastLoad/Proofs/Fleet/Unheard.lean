import LeastLoad.Proofs.Fleet.Failing
import LeastLoad.Proofs.Fleet.Heard

/-! # A penalty that a balancer does not hear of

A balancer that is built while a penalty is pending has no wake-up for it. The endpoint then keeps
its place below endpoints that are more loaded when the penalty is off, since only an entry at the
top is looked at. -/

namespace LeastLoad

namespace Ranking

variable {s : LoadTable × Ranking} {r top : LoadRef} {now : Nat}

theorem Tidy.take_of_two (h : Tidy s) (hw : s.2.wakeups = []) (hb : ∀ r, (s.1.load r).Bare)
    (hpeek : s.2.queue.peek = some top) (hmem : ∀ x ∈ s.2.queue.contents, x = r ∨ x = top)
    (hav : (s.1.inFlightAt now top).toNat < 2 ^ 31)
    (hle : s.1.inFlightAt now top ≤ (s.1.load r).inFlight) :
    (settle now (wake now s) = Ranking.resync now s top ∧
      take now s = (some top, handed now (Ranking.resync now s top) top)) ∧
      (s.1.inFlightAt now top < (s.1.load r).inFlight →
        (handed now (Ranking.resync now s top) top).2.queue = s.2.queue) := by
  have hchild : ∀ c x, c = 1 ∨ c = 2 → s.2.queue.heap[c]? = some x → x = r := by
    intro c x hc hx
    have hne : x ≠ top := h.ne_of_slots hx hpeek (by omega)
    exact (hmem x (IndexedHeap.mem_of_slot hx)).resolve_right hne
  obtain ⟨htake, hstay⟩ := h.take_top hw hb hpeek hav fun c x hc hx => by
    rw [hchild c x hc hx]
    exact hle
  refine ⟨htake, fun hlt => hstay fun c x hc hx => ?_⟩
  rw [hchild c x hc hx]
  exact hlt

end Ranking

namespace Solo

variable {s start : Solo}

theorem fleet_apply_next (s : Solo) : (s.apply .next).fleet = s.fleet.apply (.next s.place) := by
  rw [apply, Fleet.apply]
  cases s.fleet.next s.place with
  | mk t f => cases t <;> rfl

theorem Reachable.reaches (h : Reachable Serving start s) :
    Fleet.Reaches Fleet.Forward start.fleet s.fleet := by
  induction h with
  | start => exact .start
  | @step s call _ hcall ih =>
    cases call with
    | next =>
      rw [fleet_apply_next]
      exact ih.step (.next s.place) trivial
    | complete t succeeded latency => exact ih.step (.complete t succeeded latency) trivial
    | update es => exact hcall.1.elim
    | disable e disabled => exact absurd rfl (hcall.2 e disabled)
    | advance d => exact ih.step (.advance d) hcall.1
    | set d => exact ih.step (.set d) trivial

end Solo

namespace Fleet

open Ranking (Alert Sorted)

variable {f f' start : Fleet} {b due : Nat} {r r' : LoadRef} {k : Ranking} {c : LoadSettings}
  {p : FailureSustain} {e e' : Endpoint}

theorem lasting_bare (hc : c.subStrategy = .absent) : Lasting c fun _ l => l.Bare where
  later _ h := h
  sync h := h.sync _
  acquire h := h.acquire _ 1
  release latency h := h.release _ 1 latency
  penalize latency _ h := h.penalize _ latency
  create _ h := .create hc h
  vacant _ := .vacant

/-- The unit on one of two endpoints has failed, and its penalty is pending; the other endpoint is
idle, and nothing is pending of it. -/
structure Burdened (start f : Fleet) (e e' : Endpoint) (due : Nat) (r r' : LoadRef) : Prop where
  reaches : Reaches Forward start f
  ahead : f.now < due
  due_le : due ≤ horizon
  ne : r ≠ r'
  listed : ∀ d ∈ [e, e'], ∃ x, f.find? d = some x
  members : ∀ x, (∃ d ∈ [e, e'], f.find? d = some x) ↔ x = r ∨ x = r'
  shown : 0 < (f.loads.load r).inFlight
  gone : f.loads.inFlightAt due r = 0
  idle : (f.loads.load r').inFlight = 0
  calm : (f.loads.load r').Awaited (fun _ => False) f.now

theorem Fresh.exists_spread (hstart : start.Fresh c) (hw : 0 < c.windows)
    (hc : c.subStrategy = .absent) (hp : c.failureSustain = some p) (he : e ≠ e') :
    ∃ s₁ s q r r', Reaches Forward start s₁.fleet ∧ s₁.fleet.now = start.now ∧ s₁.Starts c ∧
      s₁.endpoints = [e, e'] ∧ Solo.Spread p c s₁ {r'} s q ∧ r ≠ r' ∧
      ∀ x, x ∈ q.2.queue.contents ↔ x = r ∨ x = r' := by
  obtain ⟨s₁, hstarts, hfleet, -, hes, hnow₁⟩ := hstart.exists_solo hw [e, e']
  have hreach₁ : Reaches Forward start s₁.fleet := by
    have hcall : Forward start (.build {} .ranked [] [e, e']) := trivial
    exact hfleet ▸ Reaches.start.step _ hcall
  obtain ⟨p₁, hspread₁⟩ := hstarts.spread hp
  have hcard : p₁.2.queue.contents.toFinset.card = 2 := by
    rw [Multiset.toFinset_card_of_nodup hspread₁.rests.tidy.nodup, hspread₁.rests.card_contents,
      hes]
    simp [he]
  obtain ⟨r, hr, hspread⟩ := hspread₁.next hstarts hc (Finset.card_pos.1 (by omega))
  obtain ⟨r', herase⟩ : ∃ r', p₁.2.queue.contents.toFinset.erase r = {r'} := by
    rw [← Finset.card_eq_one, Finset.card_erase_of_mem hr, hcard]
  have hr' : r' ∈ p₁.2.queue.contents.toFinset.erase r := herase ▸ Finset.mem_singleton_self r'
  rw [herase] at hspread
  refine ⟨s₁, _, _, r, r', hreach₁, hnow₁, hstarts, hes, hspread,
    (Finset.ne_of_mem_erase hr').symm, fun x => ?_⟩
  rw [hspread₁.rests.tidy.keeps_take.contents, ← Multiset.mem_toFinset, ← Finset.insert_erase hr,
    herase, Finset.mem_insert, Finset.mem_singleton]

theorem Fresh.exists_burdened (hstart : start.Fresh c) (hw : 0 < c.windows)
    (hc : c.subStrategy = .absent) (hp : c.failureSustain = some p) (hS : p.duration.nanos ≠ 0)
    (hweight : 0 < p.weight) (hfit : p.removal c.windows start.now ⟨0⟩ ≤ horizon) (he : e ≠ e') :
    ∃ f due r r', Burdened start f e e' due r r' := by
  obtain ⟨s₁, s, q, r, r', hreach, hnow, hstarts, hends, hspread, hne, hmembers⟩ :=
    hstart.exists_spread hw hc hp he
  have hserving : Solo.Reachable Solo.Serving s₁ s :=
    hspread.reachable.mono fun _ _ hcall => hcall.1
  obtain ⟨-, halert⟩ := hserving.bare_alert hc hstarts hspread.rests
  have hmem' := (hmembers r').2 (.inr rfl)
  rw [← hnow] at hfit
  obtain ⟨i, ticket, due, -, -, -, -, hclock, hfailed⟩ :=
    hspread.fails hS hweight hfit ((hmembers r).2 (.inl rfl)) (Finset.notMem_singleton.2 hne)
  have hrun := hserving.step _ (Solo.serving_complete i false none)
  generalize s.apply (.complete i false none) = s' at hclock hfailed hrun
  generalize finished s.fleet.now r false (s.fleet.elapsed ticket) q = q' at hfailed
  have hends' : s'.endpoints = [e, e'] :=
    (Solo.Reachable.endpoints_eq (hrun.mono fun _ _ hcall => hcall.1)).trans hends
  refine ⟨s'.fleet, due, r, r', hreach.trans hrun.reaches, hfailed.ahead, hfailed.due_le, hne,
    fun d hd => ?_, fun x => ?_, ?_, ?_, ?_, ?_⟩
  · obtain ⟨x, -, hx⟩ := hfailed.rests.serves.covers.found d (hends' ▸ hd)
    exact ⟨x, hx⟩
  · have hiff := hfailed.rests.mem_contents (r := x)
    rw [hfailed.keeps.contents, hmembers] at hiff
    exact hends' ▸ hiff.symm
  · rw [hfailed.rests.loads]
    exact hfailed.shown
  · rw [hfailed.rests.loads]
    exact hfailed.gone
  · rw [hfailed.rests.loads, hfailed.others r' hne,
      halert.inFlight_eq s.now_le hmem' (by simp [hspread.asleep])]
    exact hspread.idle r' (Finset.mem_singleton_self r')
  · rw [hfailed.rests.loads, hfailed.others r' hne, Fleet.now, hclock]
    refine (halert.awaits r' hmem').mono fun d hd => ?_
    simp [hspread.asleep] at hd

/-- A balancer over two endpoints that does not wait for the penalty of the one below the top. -/
structure Deaf (start f : Fleet) (b : Nat) (k : Ranking) (due : Nat) (r r' : LoadRef)
    (units : UInt32) : Prop where
  reaches : Reaches Forward start f
  ahead : f.now < due
  due_le : due ≤ horizon
  ne : r ≠ r'
  ranked : f.ranking? b = some k
  asleep : k.wakeups = []
  members : ∀ x, x ∈ k.queue.contents ↔ x = r ∨ x = r'
  top : k.queue.peek = some r'
  shown : 0 < (f.loads.load r).inFlight
  gone : f.loads.inFlightAt due r = 0
  units : (f.loads.load r').inFlight = units
  calm : (f.loads.load r').Awaited (fun _ => False) f.now

theorem Burdened.deaf (h : Burdened start f e e' due r r') (hstart : start.Fresh c)
    (hw : 0 < c.windows) : ∃ f' b k, Deaf start f' b k due r r' 0 := by
  have hsound := h.reaches.sound hstart.sound
  obtain ⟨states, ha, hrank, hapart, hstates⟩ := hsound.exists_build hw h.listed
  have hcall : Forward f (.build {} .ranked [] [e, e']) := trivial
  have hreach := h.reaches.step _ hcall
  generalize f.apply (.build {} .ranked [] [e, e']) = f' at ha hrank hapart hreach
  have hmembers : ∀ x, x ∈ states ↔ x = r ∨ x = r' := fun x => (hstates x).trans (h.members x)
  have hload : ∀ x, x = r ∨ x = r' → f'.loads.load x = f.loads.load x := by
    intro x hx
    obtain ⟨d, hd, -, hlists, -⟩ := hsound.registered
    obtain ⟨e, -, hfind⟩ := (h.members x).2 hx
    rw [find?, hd] at hfind
    exact ha.grows.loads x (hlists e x hfind).1
  obtain ⟨-, hcontents⟩ := Ranking.Tidy.replace (k := {}) hapart
  have hsorted : Sorted (f'.loads, Ranking.replace f'.loads {} states) :=
    .replace (hreach.attentive hstart).enabled hapart
  have hnow : f'.now = f.now := congrArg Clock.now ha.clock
  refine ⟨f', _, Ranking.replace f'.loads {} states, hreach, hnow ▸ h.ahead, h.due_le, h.ne, hrank,
    rfl, fun x => (hcontents x).trans (hmembers x), ?_, ?_, ?_, ?_, ?_⟩
  · -- a new queue is in order, and the failed endpoint still shows its penalty
    cases hpeek : (Ranking.replace f'.loads {} states).queue.peek with
    | none =>
      rw [IndexedHeap.peek_eq_none] at hpeek
      have hr := (hcontents r).2 ((hmembers r).2 (.inl rfl))
      rw [hpeek] at hr
      exact absurd hr (Multiset.notMem_zero r)
    | some top =>
      rcases (hmembers top).1 ((hcontents top).1 (IndexedHeap.peek_mem hpeek)) with rfl | rfl
      · have hle := hsorted.top hpeek ((hcontents r').2 ((hmembers r').2 (.inr rfl)))
        rw [LoadTable.Lighter, hload top (.inl rfl), hload r' (.inr rfl), h.idle] at hle
        exact absurd h.shown (UInt32.not_lt.2 hle)
      · rfl
  · rw [hload r (.inl rfl)]
    exact h.shown
  · rw [LoadTable.inFlightAt, hload r (.inl rfl)]
    exact h.gone
  · rw [hload r' (.inr rfl)]
    exact h.idle
  · rw [hload r' (.inr rfl), hnow]
    exact h.calm

theorem Deaf.take {units : UInt32} (h : Deaf start f b k due r r' units) (hstart : start.Fresh c)
    (hc : c.subStrategy = .absent) (hunits : units ≤ 1) {now : Nat} (hnow : f.now ≤ now)
    (hle : now ≤ horizon) :
    f.loads.inFlightAt now r' = units ∧
      (Ranking.settle now (Ranking.wake now (f.loads, k)) = Ranking.resync now (f.loads, k) r' ∧
        Ranking.take now (f.loads, k) =
          (some r', Ranking.handed now (Ranking.resync now (f.loads, k) r') r')) ∧
      (units < (f.loads.load r).inFlight →
        (Ranking.handed now (Ranking.resync now (f.loads, k) r') r').2.queue = k.queue) := by
  have hat : f.loads.inFlightAt now r' = units := by
    rw [← h.units]
    exact congrArg Int32.toUInt32 ((h.calm.later hnow).concurrency_sync hle fun _ hd => hd.elim)
  have hshown := UInt32.lt_iff_toNat_lt.1 h.shown
  have hone := UInt32.le_iff_toNat_le.1 hunits
  rw [show (0 : UInt32).toNat = 0 from rfl] at hshown
  rw [show (1 : UInt32).toNat = 1 from rfl] at hone
  have hav : (f.loads.inFlightAt now r').toNat < 2 ^ 31 := by
    rw [hat]
    omega
  have hleast : f.loads.inFlightAt now r' ≤ (f.loads.load r).inFlight := by
    rw [hat, UInt32.le_iff_toNat_le]
    omega
  have hb : ∀ x, (f.loads.load x).Bare := fun x =>
    h.reaches.forall_loads hstart (lasting_bare hc) (fun _ _ hcall => hcall) x
  have htake := ((h.reaches.sound hstart.sound).tidy b k h.ranked).take_of_two h.asleep hb h.top
    (fun x hx => (h.members x).1 hx) hav hleast
  rw [hat] at htake
  exact ⟨hat, htake⟩

theorem Deaf.next (h : Deaf start f b k due r r' 0) (hstart : start.Fresh c)
    (hc : c.subStrategy = .absent) : ∃ k', Deaf start (f.apply (.next b)) b k' due r r' 1 := by
  obtain ⟨hat, ⟨-, htake⟩, hqueue⟩ := h.take hstart hc (by decide) le_rfl f.clock.now_le
  have hqueue := hqueue h.shown
  have hcall : Forward f (.next b) := trivial
  have hplace := ((h.reaches.sound hstart.sound).tidy b k h.ranked).placed r'
    ((h.members r').2 (.inr rfl))
  obtain ⟨hloads, hrank, hnow⟩ := f.apply_next b
  obtain ⟨-, hloads', hrank'⟩ := next_of_ranking? h.ranked
  rw [hloads', htake] at hloads
  have hrank := (hrank b).trans ((hrank' b).trans (if_pos rfl))
  rw [htake] at hrank
  have hload : (f.apply (.next b)).loads.load r = f.loads.load r := by
    rw [hloads]
    exact (LoadTable.load_update_of_ne (Ne.symm h.ne) _).trans
      (LoadTable.load_update_of_ne (Ne.symm h.ne) _)
  have hplace' : r'.place < (Ranking.resync f.now (f.loads, k) r').1.states.size :=
    LoadTable.size_update.symm ▸ hplace
  have hload' : (f.apply (.next b)).loads.load r' =
      ((f.loads.load r').sync f.now).acquire f.now 1 := by
    rw [hloads]
    exact (LoadTable.load_update_self hplace' _).trans
      (congrArg (·.acquire f.now 1) (LoadTable.load_update_self hplace _))
  refine ⟨_, h.reaches.step _ hcall, hnow ▸ h.ahead, h.due_le, h.ne, hrank, h.asleep, ?_, ?_, ?_,
    ?_, ?_, ?_⟩
  · rw [hqueue]
    exact h.members
  · rw [hqueue]
    exact h.top
  · rw [hload]
    exact h.shown
  · rw [LoadTable.inFlightAt, hload]
    exact h.gone
  · rw [hload']
    change f.loads.inFlightAt f.now r' + 1 = 1
    rw [hat]
    rfl
  · rw [hload', hnow]
    exact (h.calm.sync.mono fun _ hd => hd.1).of_penalty_eq rfl

/-- A member whose penalty is off still shows it when a choice is made, and an endpoint with more
units in flight is handed out. -/
def Neglects (f : Fleet) (b : Nat) : Prop :=
  ∃ k r t, f.ranking? b = some k ∧ r ∈ k.queue.contents ∧ (f.next b).1 = some t ∧
    ((Ranking.settle f.now (Ranking.wake f.now (f.loads, k))).1.load r).inFlight ≠
      f.loads.inFlightAt f.now r ∧
    f.loads.inFlightAt f.now r < f.loads.inFlightAt f.now t.load

theorem Deaf.neglects (h : Deaf start f b k due r r' 1) (hstart : start.Fresh c)
    (hc : c.subStrategy = .absent) :
    ∃ f', Reaches Forward start f' ∧ f'.Neglects b := by
  have hcall : Forward f (.set ⟨due⟩) := trivial
  have hnow : (f.apply (.set ⟨due⟩)).now = due := Clock.now_set h.ahead.le h.due_le
  obtain ⟨hat, ⟨hsettled, htake⟩, -⟩ := h.take hstart hc (by decide) h.ahead.le h.due_le
  have hrank : (f.apply (.set ⟨due⟩)).ranking? b = some k := h.ranked
  obtain ⟨hanswer, -⟩ := next_of_ranking? hrank
  rw [hnow] at hanswer
  change _ = (Ranking.take due (f.loads, k)).1.map _ at hanswer
  rw [htake] at hanswer
  refine ⟨_, h.reaches.step _ hcall, k, r, _, hrank, (h.members r).2 (.inl rfl), hanswer, ?_, ?_⟩
  · rw [hnow]
    change ((Ranking.settle due (Ranking.wake due (f.loads, k))).1.load r).inFlight ≠
      f.loads.inFlightAt due r
    rw [hsettled, h.gone]
    change ((f.loads.update r' (·.sync due)).load r).inFlight ≠ 0
    rw [LoadTable.load_update_of_ne (Ne.symm h.ne)]
    exact (UInt32.ne_of_lt h.shown).symm
  · rw [hnow]
    change f.loads.inFlightAt due r < f.loads.inFlightAt due r'
    rw [h.gone, hat]
    decide

theorem Fresh.exists_neglects (hstart : start.Fresh c) (hw : 0 < c.windows)
    (hc : c.subStrategy = .absent) (hp : c.failureSustain = some p) (hS : p.duration.nanos ≠ 0)
    (hweight : 0 < p.weight) (hfit : p.removal c.windows start.now ⟨0⟩ ≤ horizon) (he : e ≠ e') :
    ∃ f b, Reaches Forward start f ∧ f.Neglects b := by
  obtain ⟨f, due, r, r', hburdened⟩ := hstart.exists_burdened hw hc hp hS hweight hfit he
  obtain ⟨f', b, k, hdeaf⟩ := hburdened.deaf hstart hw
  obtain ⟨k', hdeaf'⟩ := hdeaf.next hstart hc
  obtain ⟨f'', hreach, hneglects⟩ := hdeaf'.neglects hstart hc
  exact ⟨f'', b, hreach, hneglects⟩

/-- What a balancer has followed since nothing of it was pending is seen without what has fallen
due. If waking finds no more than one entry out of its place, it puts that back, and no endpoint
that shows more units is handed out before one that the balancer has followed; however many entries
are out of their places, what is handed out is no more loaded than all members or than three of
them, if the balancer has followed all. A penalty that was pending when a balancer was built is not
seen to come off: with any two endpoints, whatever the duration and the weight, there is a run after
which an endpoint is passed over for it. -/
theorem Fresh.penalties_noticed (hstart : start.Fresh c) :
    (∀ f, Reaches Forward start f → ∀ b k, f.ranking? b = some k →
      (∀ r, Follows start f b r →
        ((Ranking.settle f.now (Ranking.wake f.now (f.loads, k))).1.load r).inFlight =
          f.loads.inFlightAt f.now r) ∧
      (Ranking.Mendable f.now (f.loads, k) →
        Sorted (Ranking.wake f.now (f.loads, k)) ∧ ∀ r, Follows start f b r →
          (∀ t, (f.next b).1 = some t →
            ((Ranking.settle f.now (Ranking.wake f.now (f.loads, k))).1.load t.load).inFlight ≤
              f.loads.inFlightAt f.now r) ∧
          ((f.next b).1 = none → 2 ^ 31 ≤ (f.loads.inFlightAt f.now r).toNat)) ∧
      ((∀ r, f.Ranks b r → Follows start f b r) → ∀ t, (f.next b).1 = some t →
        f.Ranks b t.load ∧
          ((∀ r, f.Ranks b r → f.loads.inFlightAt f.now t.load ≤ f.loads.inFlightAt f.now r) ∨
            ∃ rs : List LoadRef, rs.Nodup ∧ rs.length = 3 ∧ ∀ r ∈ rs, f.Ranks b r ∧
              f.loads.inFlightAt f.now t.load ≤ f.loads.inFlightAt f.now r))) ∧
    (0 < c.windows → c.subStrategy = .absent → ∀ p, c.failureSustain = some p →
      p.duration.nanos ≠ 0 → 0 < p.weight → p.removal c.windows start.now ⟨0⟩ ≤ horizon →
      ∀ e e' : Endpoint, e ≠ e' → ∃ f b, Reaches Forward start f ∧ f.Neglects b) := by
  refine ⟨fun f hf b k hk => ⟨fun r hr => ?_, fun hmend => ?_, fun hall t ht => ?_⟩, ?_⟩
  · obtain ⟨missed, hhears, hahead⟩ := hr.hears hstart
    exact hhears.inFlight_settled (hf.attentive hstart) hahead hk
  · have hattentive := hf.attentive hstart
    have hsorted := hmend.wake (hattentive.sound.tidy b k hk) hattentive.enabled
      (hattentive.inTurn b k hk)
    refine ⟨hsorted, fun r hr => ?_⟩
    obtain ⟨missed, hhears, hahead⟩ := hr.hears hstart
    exact hhears.not_passed_over hattentive hahead hk hsorted
  · exact (hf.attentive hstart).least_or_three (fun r hr => (hall r hr).hears hstart) hk ht
  · intro hw hc p hp hS hweight hfit e e' he
    exact hstart.exists_neglects hw hc hp hS hweight hfit he

/-- A unit of `r` has failed, whose penalty is pending, and each other member has one unit. The
balancer has kept its members since before the failure, and they are in order. -/
structure Awaiting (start f : Fleet) (b : Nat) (k : Ranking) (due : Nat) (r : LoadRef) : Prop where
  reaches : Reaches Forward start f
  ranked : f.ranking? b = some k
  ordered : k.queue.Ordered f.loads.Lighter
  ahead : f.now < due
  due_le : due ≤ horizon
  member : r ∈ k.queue.contents
  shown : 0 < (f.loads.load r).inFlight
  gone : f.loads.inFlightAt due r = 0
  others : ∀ r' ∈ k.queue.contents, r ≠ r' → f.loads.inFlightAt due r' = 1
  kept : ∀ r' ∈ k.queue.contents, ∃ f₀, Reaches Forward start f₀ ∧ f₀.Ranks b r' ∧
    (f₀.loads.load r').Awaited (fun _ => False) f₀.now ∧ Reaches (Keeping b r') f₀ f

theorem Fresh.exists_awaiting (hstart : start.Fresh c) (hw : 0 < c.windows)
    (hc : c.subStrategy = .absent) (hp : c.failureSustain = some p) (hS : p.duration.nanos ≠ 0)
    (hweight : 0 < p.weight) (hfit : p.removal c.windows start.now ⟨0⟩ ≤ horizon)
    {es : List Endpoint} (hes : es ≠ []) :
    ∃ f b k due r, Awaiting start f b k due r ∧ k.queue.contents.card = es.toFinset.card ∧
      (∀ e ∈ es, ∃ x, f.find? e = some x) ∧
      ∀ x, x ∈ k.queue.contents ↔ ∃ e ∈ es, f.find? e = some x := by
  obtain ⟨s₁, hstarts, hfleet, -, hends₁, hnow₁⟩ := hstart.exists_solo hw es
  have hreach₁ : Reaches Forward start s₁.fleet := by
    have hcall : Forward start (.build {} .ranked [] es) := trivial
    exact hfleet ▸ Reaches.start.step _ hcall
  obtain ⟨p₁, hspread₁⟩ := hstarts.spread hp
  obtain ⟨s, q, hspread⟩ := hspread₁.full hstarts hc
  have hserving : Solo.Reachable Solo.Serving s₁ s :=
    hspread.reachable.mono fun _ _ hcall => hcall.1
  have hends : s.endpoints = es :=
    (Solo.Reachable.endpoints_eq (hserving.mono fun _ _ hcall => hcall.1)).trans hends₁
  obtain ⟨-, halert⟩ := hserving.bare_alert hc hstarts hspread.rests
  have hcalm : ∀ x ∈ q.2.queue.contents, (q.1.load x).Awaited (fun _ => False) s.fleet.now :=
    fun x hx => (halert.awaits x hx).mono fun d hd => by simp [hspread.asleep] at hd
  obtain ⟨e, he⟩ := List.exists_mem_of_ne_nil es hes
  obtain ⟨r, hr, -⟩ := hspread.rests.serves.covers.found e (hends ▸ he)
  rw [← hnow₁] at hfit
  obtain ⟨i, ticket, due, -, -, -, -, hclock, hfailed⟩ :=
    hspread.fails hS hweight hfit hr (Finset.notMem_empty r)
  have hprompt : Solo.Prompt s (.complete i false none) := by
    refine ⟨Solo.serving_complete i false none, fun _ _ _ _ ticket k _ hk w hmem => ?_⟩
    obtain rfl := Option.some.inj (hspread.rests.serves.alone.ranked.symm.trans hk)
    rw [hspread.asleep] at hmem
    cases hmem
  have hrun := hspread.reachable.step _ hprompt
  have hreach₀ := hreach₁.trans hserving.reaches
  generalize finished s.fleet.now r false (s.fleet.elapsed ticket) q = q' at hfailed
  obtain ⟨q'', hat, hsorted⟩ := hrun.sorted hc hstarts
  obtain rfl := hfailed.rests.unique hat
  have hends' : (s.apply (.complete i false none)).endpoints = es := hends
  refine ⟨(s.apply (.complete i false none)).fleet, s.place, q'.2, due, r,
    ⟨hreach₀.step (.complete i false none) trivial, hfailed.rests.serves.alone.ranked, ?_,
      hfailed.ahead, hfailed.due_le, ?_, ?_, ?_, ?_, ?_⟩, ?_, fun d hd => ?_,
    fun x => hends' ▸ hfailed.rests.mem_contents⟩
  · rw [hfailed.rests.loads]
    exact hsorted.ordered
  · rw [hfailed.keeps.contents]
    exact hr
  · rw [hfailed.rests.loads]
    exact hfailed.shown
  · rw [hfailed.rests.loads]
    exact hfailed.gone
  · intro x hx hne
    rw [hfailed.keeps.contents] at hx
    have hlater := (hcalm x hx).later
      (le_of_eq_of_le (congrArg Clock.now hclock).symm hfailed.ahead.le)
    have hone := halert.inFlight_eq s.now_le hx (by simp [hspread.asleep])
    rw [hfailed.rests.loads, LoadTable.inFlightAt, hfailed.others x hne]
    rw [(hspread.busy x hx (Finset.notMem_empty x)).1] at hone
    exact (congrArg Int32.toUInt32
      (hlater.concurrency_sync hfailed.due_le fun _ hd => hd.elim)).trans hone
  · intro x hx
    rw [hfailed.keeps.contents] at hx
    refine ⟨s.fleet, hreach₀, ⟨_, hspread.rests.serves.alone.ranked, hx⟩, ?_,
      Reaches.start.step (.complete i false none) ⟨trivial, fun _ hcall => by cases hcall⟩⟩
    rw [hspread.rests.loads]
    exact hcalm x hx
  · rw [hfailed.rests.card_contents, hends']
  · obtain ⟨x, -, hx⟩ := hfailed.rests.serves.covers.found d (hends' ▸ hd)
    exact ⟨x, hx⟩

theorem Awaiting.build (h : Awaiting start f b k due r) (hstart : start.Fresh c)
    (hw : 0 < c.windows) {es : List Endpoint} (hes : ∀ e ∈ es, ∃ x, f.find? e = some x)
    (hmembers : ∀ x, x ∈ k.queue.contents ↔ ∃ e ∈ es, f.find? e = some x) :
    Awaiting start (f.apply (.build {} .ranked [] es)) b k due r ∧
      ∃ b', b ≠ b' ∧ ∀ x ∈ k.queue.contents, (f.apply (.build {} .ranked [] es)).Ranks b' x := by
  have hsound := h.reaches.sound hstart.sound
  obtain ⟨states, ha, hrank, hapart, hstates⟩ := hsound.exists_build hw hes
  have hne := ne_size_of_ranking? h.ranked
  have hload : ∀ x ∈ k.queue.contents,
      (f.apply (.build {} .ranked [] es)).loads.load x = f.loads.load x := fun x hx =>
    ha.grows.loads x ((hsound.tidy b k h.ranked).placed x hx)
  obtain ⟨-, hcontents⟩ := Ranking.Tidy.replace (k := {}) hapart
  have hreach := h.reaches.step (.build {} .ranked [] es) trivial
  have hkept : ∀ x, Keeping b x f (.build {} .ranked [] es) := fun x => ⟨trivial, nofun⟩
  have hstep : ∀ {x f₀}, Reaches (Keeping b x) f₀ f →
      Reaches (Keeping b x) f₀ (f.apply (.build {} .ranked [] es)) := fun hrun =>
    hrun.step _ (hkept _)
  generalize f.apply (.build {} .ranked [] es) = f' at ha hrank hload hapart hcontents hreach hstep
  refine ⟨⟨hreach, (ha.others b hne).trans h.ranked, fun j hj x y hx hy => ?_,
    (congrArg Clock.now ha.clock).trans_lt h.ahead, h.due_le, h.member, ?_, ?_, fun x hx hrx => ?_,
    fun x hx => ?_⟩, f.seats.size, hne.symm, fun x hx => ?_⟩
  · rw [LoadTable.Lighter, hload x (IndexedHeap.mem_of_slot hx),
      hload y (IndexedHeap.mem_of_slot hy)]
    exact h.ordered j hj x y hx hy
  · rw [hload r h.member]
    exact h.shown
  · rw [LoadTable.inFlightAt, hload r h.member]
    exact h.gone
  · rw [LoadTable.inFlightAt, hload x hx]
    exact h.others x hx hrx
  · obtain ⟨f₀, hf₀, hranks, hcalm, hrun⟩ := h.kept x hx
    exact ⟨f₀, hf₀, hranks, hcalm, hstep hrun⟩
  · exact ⟨_, hrank, (hcontents x).2 ((hstates x).2 ((hmembers x).1 hx))⟩

/-- A unit fails on one of four endpoints that have one unit each, and a second balancer is built
over them. When the penalty is off, it is still in the counter, and the first balancer hands out
that endpoint. -/
theorem Fresh.penalties_noticed_of_four :
    ∃ start f : Fleet, start.Fresh { failureSustain := some ⟨.ofSeconds 10, 5⟩ } ∧
      Reaches Forward start f ∧ ∃ b b' k r, b ≠ b' ∧ f.Ranks b' r ∧
        f.ranking? b = some k ∧ k.queue.contents.card = 4 ∧ Ranking.Mendable f.now (f.loads, k) ∧
        (∀ r', f.Ranks b r' → Follows start f b r') ∧ 0 < (f.loads.load r).inFlight ∧
        ((Ranking.settle f.now (Ranking.wake f.now (f.loads, k))).1.load r).inFlight = 0 ∧
        (∀ r', f.Ranks b r' → r ≠ r' → f.loads.inFlightAt f.now r' = 1) ∧
        (f.next b).1.map (·.load) = some r := by
  obtain ⟨start, hstart, hzero⟩ := exists_fresh { failureSustain := some ⟨.ofSeconds 10, 5⟩ }
  obtain ⟨f₁, b, k, due, r, hone, hcard, hfound, hmembers⟩ :=
    hstart.exists_awaiting (by decide) rfl rfl (by decide) (by decide) (by rw [hzero]; decide)
      (by decide : [(⟨0⟩ : Endpoint), ⟨1⟩, ⟨2⟩, ⟨3⟩] ≠ [])
  obtain ⟨htwo, b', hne, hboth⟩ := hone.build hstart (by decide) hfound hmembers
  have hr' := hboth r hone.member
  generalize f₁.apply (.build {} .ranked [] [⟨0⟩, ⟨1⟩, ⟨2⟩, ⟨3⟩]) = f at htwo hr'
  have hreach := htwo.reaches.step (.set ⟨due⟩) trivial
  have hnow : (f.apply (.set ⟨due⟩)).now = due := Clock.now_set htwo.ahead.le htwo.due_le
  have hranks : ∀ x, (f.apply (.set ⟨due⟩)).Ranks b x → x ∈ k.queue.contents :=
    fun x hx => (ranks_iff htwo.ranked).1 hx
  have hmend : Ranking.Mendable (f.apply (.set ⟨due⟩)).now ((f.apply (.set ⟨due⟩)).loads, k) :=
    .inl htwo.ordered
  have hfollows : ∀ x, (f.apply (.set ⟨due⟩)).Ranks b x →
      Follows start (f.apply (.set ⟨due⟩)) b x := by
    intro x hx
    obtain ⟨f₀, hf₀, hranked, hcalm, hrun⟩ := htwo.kept x (hranks x hx)
    have hcall : Keeping b x f (.set ⟨due⟩) := ⟨trivial, nofun⟩
    exact ⟨f₀, fun _ => False, hf₀, hranked, hcalm, hrun.step _ hcall, fun _ hd => hd.elim⟩
  have hr : (f.apply (.set ⟨due⟩)).Ranks b r := ⟨k, htwo.ranked, htwo.member⟩
  have hgone : (f.apply (.set ⟨due⟩)).loads.inFlightAt (f.apply (.set ⟨due⟩)).now r = 0 :=
    hnow.symm ▸ htwo.gone
  have hothers : ∀ x, (f.apply (.set ⟨due⟩)).Ranks b x → r ≠ x →
      (f.apply (.set ⟨due⟩)).loads.inFlightAt (f.apply (.set ⟨due⟩)).now x = 1 :=
    fun x hx hrx => hnow.symm ▸ htwo.others x (hranks x hx) hrx
  obtain ⟨hsettled, hmended, hmember⟩ := hstart.penalties_noticed.1 _ hreach b k htwo.ranked
  obtain ⟨hleast, hanswered⟩ := (hmended hmend).2 r (hfollows r hr)
  refine ⟨start, _, hstart, hreach, b, b', k, r, hne, hr', htwo.ranked, ?_, hmend, hfollows,
    htwo.shown, (hsettled r (hfollows r hr)).trans hgone, hothers, ?_⟩
  · rw [hcard]
    rfl
  · rw [hgone] at hleast hanswered
    cases hn : ((f.apply (.set ⟨due⟩)).next b).1 with
    | none => exact absurd (hanswered hn) (by decide)
    | some t =>
      by_contra htr
      have ht := (hmember hfollows t hn).1
      have hle := hleast t hn
      rw [hsettled t.load (hfollows _ ht), hothers t.load ht fun heq => htr (heq ▸ rfl)] at hle
      exact absurd hle (by decide)

/-- Two endpoints, and failures penalized with five units for ten seconds. -/
theorem Fresh.neglects_of_two :
    ∃ start : Fleet, start.Fresh { failureSustain := some ⟨.ofSeconds 10, 5⟩ } ∧
      ∃ f b, Reaches Forward start f ∧ f.Neglects b := by
  obtain ⟨start, hstart, hnow⟩ := exists_fresh { failureSustain := some ⟨.ofSeconds 10, 5⟩ }
  have hapart : (⟨0⟩ : Endpoint) ≠ ⟨1⟩ := by decide
  refine ⟨start, hstart, hstart.exists_neglects (by decide) rfl rfl (by decide) (by decide) ?_
    hapart⟩
  rw [hnow]
  decide

end Fleet

end LeastLoad
