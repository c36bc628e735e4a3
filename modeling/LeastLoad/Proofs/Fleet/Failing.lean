import LeastLoad.Proofs.Fleet.Misplaced

/-! # A failure that hides the least loaded endpoint

Let one unit be handed to each of at least four endpoints, let the unit on the last entry of the
queue fail, and let the unit on the entry above it be finished once the penalty is off. What was
penalized is then idle at the bottom of the queue, below an entry that rose past it, and stays there
while units are handed out above. -/

namespace LeastLoad

namespace Solo

open Ranking (Alert Sorted)

variable {s start : Solo} {c : LoadSettings} {f : FailureSustain} {p : LoadTable × Ranking}
  {r : LoadRef} {rest : Finset LoadRef}

def Holds (s : Solo) (r : LoadRef) : Prop :=
  ∃ i ticket, s.fleet.task? i = some (.tracked ticket) ∧ ticket.load = r ∧ ticket.completed = false

theorem Holds.next (h : s.Holds r) : (s.apply .next).Holds r := by
  obtain ⟨i, ticket, ht, hr, hopen⟩ := h
  have hi := Fleet.lt_size_of_task? ht
  have htasks := Fleet.tasks_next s.fleet s.place
  refine ⟨i, ticket, ?_, hr, hopen⟩
  rw [apply]
  cases hn : s.fleet.next s.place with
  | mk t f =>
    rw [hn] at htasks
    cases t with
    | none => exact (congrArg (fun ts => ts[i]?.join) htasks).trans ht
    | some t =>
      change (f.keep (.tracked t)).2.task? i = _
      rw [Fleet.task?_keep_of_lt (htasks ▸ hi)]
      exact (congrArg (fun ts => ts[i]?.join) htasks).trans ht

theorem holds_next {t : Ticket} (h : (s.fleet.next s.place).1 = some t)
    (hopen : t.completed = false) : (s.apply .next).Holds t.load := by
  refine ⟨(s.fleet.next s.place).2.tasks.size, t, ?_, rfl, hopen⟩
  rw [apply]
  cases hn : s.fleet.next s.place with
  | mk t' f =>
    rw [hn] at h
    obtain rfl : t' = some t := h
    exact Fleet.task?_keep_size f _

theorem Holds.complete (h : s.Holds r) {i : Nat} {ticket : Ticket}
    (hi : s.fleet.task? i = some (.tracked ticket)) (hne : ticket.load ≠ r) (succeeded : Bool)
    (latency : Option Duration) : (s.apply (.complete i succeeded latency)).Holds r := by
  obtain ⟨j, ticket', hj, hr, hopen⟩ := h
  refine ⟨j, ticket', ?_, hr, hopen⟩
  refine (Fleet.task?_complete_of_ne ?_ succeeded latency).trans hj
  rintro rfl
  obtain ⟨rfl⟩ : ticket = ticket' := by simpa using hi.symm.trans hj
  exact hne hr

theorem serving_complete (i : Nat) (succeeded : Bool) (latency : Option Duration) :
    Serving s (.complete i succeeded latency) := ⟨trivial, fun _ _ h => nomatch h⟩

theorem serving_next : Serving s .next := ⟨trivial, fun _ _ h => nomatch h⟩

theorem prompt_next : Prompt s .next := ⟨serving_next, fun _ _ _ h => nomatch h⟩

def Unpenalized (f : FailureSustain) (windows : Nat) (s : Solo) (l : EndpointLoad) : Prop :=
  ∃ units pending p, ClockedLoad.Accounts f windows units [] pending p ⟨s.fleet.clock, l⟩

/-- One unit has been handed to each member but those in `rest`, and nothing else has
happened. -/
structure Spread (f : FailureSustain) (c : LoadSettings) (start : Solo) (rest : Finset LoadRef)
    (s : Solo) (p : LoadTable × Ranking) : Prop where
  reachable : Reachable Prompt start s
  rests : s.At c p
  clock : s.fleet.clock = start.fleet.clock
  asleep : p.2.wakeups = []
  unpenalized : ∀ r ∈ p.2.queue.contents, Unpenalized f c.windows s (p.1.load r)
  members : ∀ r ∈ rest, r ∈ p.2.queue.contents
  idle : ∀ r ∈ rest, p.1.inFlightAt s.fleet.now r = 0
  busy : ∀ r ∈ p.2.queue.contents, r ∉ rest → p.1.inFlightAt s.fleet.now r = 1 ∧ s.Holds r

theorem Unpenalized.sync {l : EndpointLoad} (h : Unpenalized f c.windows s l) :
    Unpenalized f c.windows s (l.sync s.fleet.now) := by
  obtain ⟨_, _, _, h⟩ := h
  exact ⟨_, h.sync.2⟩

theorem Unpenalized.acquire {l : EndpointLoad} (h : Unpenalized f c.windows s l) :
    Unpenalized f c.windows s (l.acquire s.fleet.now 1) := by
  obtain ⟨_, _, _, h⟩ := h
  exact ⟨_, _, _, h.count (n := 1) rfl rfl⟩

theorem Starts.created (h : start.Starts c) (hr : r.place < start.fleet.loads.states.size) :
    ∃ e, EndpointLoad.create e c start.fleet.now = .ok (start.fleet.loads.load r) := by
  obtain ⟨f, telemetry, listeners, hfresh, hbuild⟩ := h
  obtain ⟨states, h⟩ := hfresh.build hbuild
  rw [Fleet.now, h.clock]
  refine h.grows.fresh r ?_ hr
  rw [hfresh.loads]
  exact Nat.zero_le _

theorem Starts.spread (h : start.Starts c) (hf : c.failureSustain = some f) :
    ∃ p, Spread f c start p.2.queue.contents.toFinset start p := by
  obtain ⟨t, states, hs, hunused, -⟩ := h.unused
  refine ⟨_, .start, hs, rfl, rfl, fun r hr => ?_, fun r hr => Multiset.mem_toFinset.1 hr,
    fun r _ => ?_, fun r hr hnot => absurd (Multiset.mem_toFinset.2 hr) hnot⟩
  · have hplace := hs.tidy.placed r hr
    obtain rfl := hs.loads
    obtain ⟨e, he⟩ := h.created hplace
    obtain ⟨q, hq⟩ := ClockedLoad.Accounts.of_create hf he
    exact ⟨_, _, q, hq⟩
  · exact congrArg Int32.toUInt32 (hunused r).1.synced.concurrency

theorem Spread.next (h : Spread f c start rest s p) (hstart : start.Starts c)
    (hc : c.subStrategy = .absent) (hrest : rest.Nonempty) :
    ∃ top ∈ rest, Spread f c start (rest.erase top) (s.apply .next)
      (Ranking.take s.fleet.now p).2 := by
  obtain ⟨r, hr⟩ := hrest
  obtain ⟨hanswer, hs, hclock⟩ := h.rests.next
  have hsorted : Sorted p := by
    obtain ⟨p', hs', hsorted⟩ := h.reachable.sorted hc hstart
    rwa [h.rests.unique hs']
  have halert : Alert s.fleet.now [] p := by
    obtain ⟨p', hs', halert⟩ := Reachable.alert hstart
      (h.reachable.mono fun _ _ hcall => hcall.1.1)
    rwa [h.rests.unique hs']
  obtain ⟨hleast, hnone⟩ := hsorted.least_of_take halert s.now_le
  cases htake : (Ranking.take s.fleet.now p).1 with
  | none =>
    have hbig := hnone htake r (h.members r hr)
    rw [h.idle r hr] at hbig
    exact absurd hbig (by decide)
  | some top =>
    obtain ⟨hmem, -, hle⟩ := hleast top htake
    have htop : top ∈ rest := by
      by_contra hnot
      have hle' := hle r (h.members r hr)
      rw [(h.busy top hmem hnot).1, h.idle r hr] at hle'
      exact absurd hle' (by decide)
    have hk : Ranking.Keeps p (Ranking.take s.fleet.now p).2 := halert.tidy.keeps_take
    have hnow : (s.apply .next).fleet.now = s.fleet.now := congrArg Clock.now hclock
    have hload : ∀ r ∈ p.2.queue.contents, _ := fun r hr =>
      halert.inFlightAt_take (r := r) s.now_le hr
    rw [htake, Option.map_some] at hanswer
    refine ⟨top, htop, h.reachable.step .next prompt_next, hs, hclock.trans h.clock, ?_, ?_, ?_, ?_,
      ?_⟩
    · rw [Ranking.wakeups_take, h.asleep]
      rfl
    · intro r hr
      rw [hk.contents] at hr
      rw [Unpenalized, hclock]
      exact Ranking.load_take (fun l hl => Unpenalized.sync hl) (fun l hl => Unpenalized.acquire hl)
        (h.unpenalized r hr)
    · intro r hr
      rw [hk.contents]
      exact h.members r (Finset.mem_of_mem_erase hr)
    · intro r hr
      obtain ⟨hne, hr⟩ := Finset.mem_erase.1 hr
      rw [hnow, hload r (h.members r hr), htake, if_neg fun heq => hne (Option.some.inj heq).symm]
      exact h.idle r hr
    · intro r hr hnot
      rw [hk.contents] at hr
      rw [hnow, hload r hr, htake]
      by_cases heq : top = r
      · obtain rfl := heq
        rw [if_pos rfl, h.idle top htop]
        exact ⟨rfl, holds_next hanswer rfl⟩
      · rw [if_neg fun he => heq (Option.some.inj he)]
        obtain ⟨hone, hholds⟩ :=
          h.busy r hr fun hin => hnot (Finset.mem_erase.2 ⟨Ne.symm heq, hin⟩)
        exact ⟨hone, hholds.next⟩

theorem Spread.full (h : Spread f c start rest s p) (hstart : start.Starts c)
    (hc : c.subStrategy = .absent) : ∃ s p, Spread f c start ∅ s p := by
  -- each request leaves one member fewer without a unit
  induction rest using Finset.strongInduction generalizing s p with
  | H rest ih =>
    rcases rest.eq_empty_or_nonempty with rfl | hrest
    · exact ⟨s, p, h⟩
    · obtain ⟨top, htop, hnext⟩ := h.next hstart hc hrest
      exact ih _ (Finset.erase_ssubset htop) hnext

def PassesOver (s : Solo) : Prop :=
  ∃ t, (s.fleet.next s.place).1 = some t ∧ ∃ e ∈ s.endpoints, ∃ r, s.fleet.find? e = some r ∧
    s.fleet.loads.inFlightAt s.fleet.now r < s.fleet.loads.inFlightAt s.fleet.now t.load

/-- An idle entry at the top is handed a unit and stays there, and is handed another one, whatever
stands behind its two children. -/
theorem At.passesOver (hs : s.At c p) (h : Alert s.fleet.now [] p) (hasleep : p.2.wakeups = [])
    (hb : ∀ r, (p.1.load r).Bare) {top behind : LoadRef} (hpeek : p.2.queue.peek = some top)
    (htop : p.1.inFlightAt s.fleet.now top = 0)
    (hchild : ∀ i r, i = 1 ∨ i = 2 → p.2.queue.heap[i]? = some r →
      p.1.inFlightAt s.fleet.now r = 1)
    (hmem : behind ∈ p.2.queue.contents) (hne : top ≠ behind)
    (hbehind : p.1.inFlightAt s.fleet.now behind = 0) :
    (s.apply .next).PassesOver := by
  have hfirst := h.take_top s.now_le hasleep hb hpeek (by rw [htop]; decide) fun i r hi hr => by
    rw [htop, hchild i r hi hr]
    decide
  have hqueue := hfirst.2 fun i r hi hr => by
    rw [htop, hchild i r hi hr]
    decide
  obtain ⟨-, hs', hclock⟩ := hs.next
  have hnow : (s.apply .next).fleet.now = s.fleet.now := congrArg Clock.now hclock
  have hload : ∀ r ∈ p.2.queue.contents, _ := fun r hr => h.inFlightAt_take (r := r) s.now_le hr
  rw [hfirst.1] at hload
  have htop' : (Ranking.take s.fleet.now p).2.1.inFlightAt s.fleet.now top = 1 := by
    rw [hload top (IndexedHeap.peek_mem hpeek), if_pos rfl, htop]
    rfl
  have hbehind' : (Ranking.take s.fleet.now p).2.1.inFlightAt s.fleet.now behind = 0 := by
    rw [hload behind hmem, if_neg fun heq => hne (Option.some.inj heq), hbehind]
  have hagain := h.take.take_top s.now_le (by rw [Ranking.wakeups_take, hasleep]; rfl)
    (fun r => Ranking.load_take (fun _ hl => hl.sync _) (fun _ hl => hl.acquire _ 1) (hb r))
    (by rw [hqueue]; exact hpeek) (by rw [htop']; decide) fun i r hi hr => by
      rw [hqueue] at hr
      rw [htop', hload r (IndexedHeap.mem_of_slot hr), hchild i r hi hr]
      split <;> decide
  have hanswer := hs'.next.1
  rw [hnow, hagain.1] at hanswer
  have hin : behind ∈ (Ranking.take s.fleet.now p).2.2.queue.contents := by rwa [hqueue]
  obtain ⟨e, he, hfind⟩ := hs'.mem_contents.1 hin
  refine ⟨_, hanswer, e, he, behind, hfind, ?_⟩
  rw [hs'.loads, hnow, hbehind', htop']
  decide

theorem Reachable.bare_alert (h : Reachable Serving start s) (hc : c.subStrategy = .absent)
    (hstart : start.Starts c) (hs : s.At c p) :
    (∀ r, (p.1.load r).Bare) ∧ Alert s.fleet.now [] p := by
  obtain ⟨p', hs', hb⟩ := h.bare hc hstart
  obtain ⟨p'', hs'', halert⟩ := Reachable.alert hstart (h.mono fun _ _ hcall => hcall.1)
  obtain rfl := hs.unique hs'
  obtain rfl := hs.unique hs''
  exact ⟨hb, halert⟩

/-- The unit on `r` has failed: a penalty of it is pending until `due`, and no other load is
touched. -/
structure Failed (c : LoadSettings) (due : Nat) (r : LoadRef) (p : LoadTable × Ranking) (s' : Solo)
    (p' : LoadTable × Ranking) : Prop where
  rests : s'.At c p'
  keeps : Ranking.Keeps p p'
  ahead : s'.fleet.now < due
  due_le : due ≤ horizon
  shown : 0 < (p'.1.load r).inFlight
  gone : p'.1.inFlightAt due r = 0
  others : ∀ r', r ≠ r' → p'.1.load r' = p.1.load r'

theorem Spread.fails (h : Spread f c start rest s p) (hS : f.duration.nanos ≠ 0) (hw : 0 < f.weight)
    (hfit : f.removal c.windows start.fleet.now ⟨0⟩ ≤ horizon) (hr : r ∈ p.2.queue.contents)
    (hbusy : r ∉ rest) :
    ∃ i ticket due, s.fleet.task? i = some (.tracked ticket) ∧ ticket.load = r ∧
      ((p.1.load r).penalize s.fleet.now (s.fleet.elapsed ticket)).1 = some due ∧
      s.fleet.now < due ∧ (s.apply (.complete i false none)).fleet.clock = s.fleet.clock ∧
      Failed c due r p (s.apply (.complete i false none))
        (Fleet.finished s.fleet.now r false (s.fleet.elapsed ticket) p) := by
  obtain ⟨hone, i, ticket, hi, rfl, hopen⟩ := h.busy r hr hbusy
  obtain ⟨units, pending, q, hacc⟩ := h.unpenalized ticket.load hr
  rw [Fleet.now, ← h.clock] at hfit
  obtain ⟨due, hdue, hlt, hle, hshow, hgone⟩ := hacc.failed hS hfit hone (s.fleet.elapsed ticket)
  obtain ⟨hload, hloads⟩ :=
    Ranking.load_finished_failure h.rests.tidy hr h.asleep hdue hlt
  obtain ⟨hs, hclock⟩ := h.rests.complete_open hi hopen false none
  refine ⟨i, ticket, due, hi, rfl, hdue, hlt, hclock, hs, Fleet.keeps_finished h.rests.tidy, ?_,
    hle, ?_, ?_, hloads⟩
  · rw [Fleet.now, hclock]
    exact hlt
  · refine UInt32.lt_iff_toNat_lt.2 ?_
    rw [Fleet.now, hload, hshow]
    exact Nat.lt_min.2 ⟨hw, by decide⟩
  · rw [LoadTable.inFlightAt, Fleet.now, hload]
    exact hgone ⟨due, hle⟩ le_rfl

/-- The unit of the last entry has failed, and its penalty is pending; each other member has one
unit. -/
structure Struck (c : LoadSettings) (start : Solo) (due : Nat) (last above : LoadRef) (s : Solo)
    (p : LoadTable × Ranking) : Prop where
  reachable : Reachable Serving start s
  rests : s.At c p
  ahead : s.fleet.now < due
  due_le : due ≤ horizon
  size : 4 ≤ p.2.queue.heap.size
  lastSlot : p.2.queue.heap[p.2.queue.heap.size - 1]? = some last
  aboveSlot : p.2.queue.heap[(p.2.queue.heap.size - 1 - 1) / 2]? = some above
  ne : above ≠ last
  pending : p.2.wakeups = [⟨due, p.1.endpoint last⟩]
  one : ∀ r ∈ p.2.queue.contents, r ≠ last → (p.1.load r).inFlight = 1
  gone : p.1.inFlightAt due last = 0
  holds : s.Holds above

theorem Spread.strike (h : Spread f c start ∅ s p) (hstart : start.Starts c)
    (hc : c.subStrategy = .absent) (hS : f.duration.nanos ≠ 0) (hw : 0 < f.weight)
    (hfit : f.removal c.windows start.fleet.now ⟨0⟩ ≤ horizon) (hsize : 4 ≤ p.2.queue.heap.size) :
    ∃ due last above s p, Struck c start due last above s p := by
  have hserving : Reachable Serving start s := h.reachable.mono fun _ _ hcall => hcall.1
  obtain ⟨hb, halert⟩ := hserving.bare_alert hc hstart h.rests
  obtain ⟨last, hlast⟩ : ∃ r, p.2.queue.heap[p.2.queue.heap.size - 1]? = some r :=
    ⟨_, Array.getElem?_eq_getElem (by omega)⟩
  obtain ⟨above, habove⟩ : ∃ r, p.2.queue.heap[(p.2.queue.heap.size - 1 - 1) / 2]? = some r :=
    ⟨_, Array.getElem?_eq_getElem (by omega)⟩
  have hne : above ≠ last := h.rests.tidy.ne_of_slots habove hlast (by omega)
  have hlastmem := IndexedHeap.mem_of_slot hlast
  have habovemem := IndexedHeap.mem_of_slot habove
  have hbusy : ∀ r ∈ p.2.queue.contents, p.1.inFlightAt s.fleet.now r = 1 ∧ s.Holds r :=
    fun r hr => h.busy r hr (Finset.notMem_empty r)
  have hone : ∀ r ∈ p.2.queue.contents, (p.1.load r).inFlight = 1 := by
    intro r hr
    rw [halert.inFlight_eq s.now_le hr (by simp [h.asleep])]
    exact (hbusy r hr).1
  obtain ⟨i, ticket, due, hi, hticket, hdue, hlt, -, hfailed⟩ :=
    h.fails hS hw hfit hlastmem (Finset.notMem_empty last)
  obtain ⟨hqueue, hwakeups⟩ := Ranking.finished_failure_last h.rests.tidy hb hlast
    (by omega) habove hne h.asleep hdue hlt <| by
      rw [hone above habovemem]
      exact UInt32.le_iff_toNat_le.2 (UInt32.lt_iff_toNat_lt.1 hfailed.shown)
  generalize Fleet.finished s.fleet.now last false (s.fleet.elapsed ticket) p = p₁
    at hfailed hqueue hwakeups
  refine ⟨due, last, above, _, p₁, hserving.step _ (serving_complete i false none), hfailed.rests,
    hfailed.ahead, hfailed.due_le, ?_, ?_, ?_, hne, ?_, ?_, hfailed.gone, ?_⟩
  · rw [hqueue]
    exact hsize
  · rw [hqueue]
    exact hlast
  · rw [hqueue]
    exact habove
  · rw [hwakeups, hfailed.keeps.endpoint last]
  · intro r hr hrl
    rw [hqueue] at hr
    rw [hfailed.others r (Ne.symm hrl)]
    exact hone r hr
  · exact (hbusy above habovemem).2.complete hi (hticket ▸ Ne.symm hne) false none

/-- The entry above is finished when the penalty is off: it rises to the top, and the last entry
stays behind. -/
theorem Struck.misled {due : Nat} {last above : LoadRef} (h : Struck c start due last above s p)
    (hstart : start.Starts c) (hc : c.subStrategy = .absent) :
    ∃ s', Reachable Serving start s' ∧ s'.PassesOver := by
  -- nothing is called while the penalty falls due, so its wake-up stays
  have hset : Serving s (.set ⟨due⟩) := ⟨trivial, fun _ _ h => nomatch h⟩
  have hreach := h.reachable.step _ hset
  have hs : (s.apply (.set ⟨due⟩)).At c p := h.rests.clock _
  have hnow : (s.apply (.set ⟨due⟩)).fleet.now = due := Clock.now_set h.ahead.le h.due_le
  have hholds : (s.apply (.set ⟨due⟩)).Holds above := h.holds
  generalize s.apply (.set ⟨due⟩) = s₂ at hreach hs hnow hholds
  obtain ⟨hb, halert⟩ := hreach.bare_alert hc hstart hs
  have hlastmem := IndexedHeap.mem_of_slot h.lastSlot
  have habovemem := IndexedHeap.mem_of_slot h.aboveSlot
  have hat : ∀ r ∈ p.2.queue.contents, r ≠ last → p.1.inFlightAt s₂.fleet.now r = 1 := by
    intro r hr hrl
    rw [← h.one r hr hrl]
    refine (halert.inFlight_eq s₂.now_le hr fun w hw hend => absurd ?_ hrl).symm
    rw [h.pending, List.mem_singleton] at hw
    rw [hw] at hend
    exact (hs.tidy.eq_of_endpoint_eq hlastmem hr hend).symm
  -- the unit on the entry above is finished, which wakes the last entry too early
  obtain ⟨i, ticket, hi, hticket, hopen⟩ := hholds
  obtain ⟨hs₃, hclock⟩ := hs.complete_open hi hopen true none
  have hreach₃ := hreach.step _ (serving_complete i true none)
  obtain ⟨hb₃, halert₃⟩ := hreach₃.bare_alert hc hstart hs₃
  obtain ⟨htop, hlast, hasleep, hvalue⟩ := Ranking.finished_misplaces hs.tidy hb h.size h.lastSlot
    h.aboveSlot h.pending hnow.ge h.one (hat above habovemem h.ne) (hnow ▸ h.gone)
    (s₂.fleet.elapsed ticket)
  have hk : Ranking.Keeps p
      (Fleet.finished s₂.fleet.now above true (s₂.fleet.elapsed ticket) p) :=
    Fleet.keeps_finished hs.tidy
  rw [hticket] at hs₃ halert₃ hb₃
  change (s₂.apply (.complete i true none)).At c
    (Fleet.finished s₂.fleet.now above true (s₂.fleet.elapsed ticket) p) at hs₃
  change ∀ r, ((Fleet.finished s₂.fleet.now above true (s₂.fleet.elapsed ticket) p).1.load r).Bare
    at hb₃
  change Alert _ [] (Fleet.finished s₂.fleet.now above true (s₂.fleet.elapsed ticket) p) at halert₃
  generalize Fleet.finished s₂.fleet.now above true (s₂.fleet.elapsed ticket) p = p₃ at *
  have hshown : ∀ r ∈ p.2.queue.contents,
      p₃.1.inFlightAt (s₂.apply (.complete i true none)).fleet.now r =
        if r = above ∨ r = last then 0 else 1 := by
    intro r hr
    rw [← halert₃.inFlight_eq (Solo.now_le _) (hk.contents ▸ hr) (by simp [hasleep])]
    exact hvalue r hr
  refine ⟨_, hreach₃.step _ serving_next, hs₃.passesOver halert₃ hasleep hb₃ htop ?_ ?_
    (hk.contents ▸ hlastmem) h.ne ?_⟩
  · rw [hshown above habovemem, if_pos (.inl rfl)]
  · intro j r hj hr
    have hsize := h.size
    have hra : r ≠ above := hk.tidy.ne_of_slots hr htop (by omega)
    have hrl : r ≠ last := hk.tidy.ne_of_slots hr hlast (by omega)
    have hmem : r ∈ p₃.2.queue.contents := IndexedHeap.mem_of_slot hr
    rw [hshown r (hk.contents ▸ hmem), if_neg (by tauto)]
  · rw [hshown last hlastmem, if_pos (.inr rfl)]

theorem Starts.exists_passesOver (h : start.Starts c) (hc : c.subStrategy = .absent)
    (hf : c.failureSustain = some f) (hS : f.duration.nanos ≠ 0) (hw : 0 < f.weight)
    (hfit : f.removal c.windows start.fleet.now ⟨0⟩ ≤ horizon)
    (hcard : 3 < start.endpoints.toFinset.card) :
    ∃ s, Reachable Serving start s ∧ s.PassesOver := by
  obtain ⟨p₀, hspread⟩ := h.spread hf
  obtain ⟨s, p, hfull⟩ := hspread.full h hc
  have hends : s.endpoints = start.endpoints :=
    Reachable.endpoints_eq (hfull.reachable.mono fun _ _ hcall => hcall.1.1)
  have hsize : 4 ≤ p.2.queue.heap.size := by
    rw [← hends, ← hfull.rests.card_contents] at hcard
    exact hcard
  obtain ⟨due, last, above, s₁, p₁, hstruck⟩ := hfull.strike h hc hS hw hfit hsize
  exact hstruck.misled h hc

/-- Failures are penalized without harm as long as no task is finished while a wake-up of another
endpoint is due: the queue stays in order, and what is handed out is least loaded. Otherwise this
holds if there are at most three endpoints. With four or more, there is a run after which another
endpoint is handed out than a least loaded one, whatever the duration and the weight. -/
theorem Starts.exact_despite_failures (h : start.Starts c) (hc : c.subStrategy = .absent) :
    (∀ s, Reachable Prompt start s → s.Exact ∧ ∀ k, s.fleet.ranking? s.place = some k →
      k.queue.violation? s.fleet.loads.compare = none) ∧
    (start.endpoints.toFinset.card ≤ 3 → ∀ s, Reachable Serving start s → s.Exact) ∧
    (3 < start.endpoints.toFinset.card → ∀ f, c.failureSustain = some f →
      f.duration.nanos ≠ 0 → 0 < f.weight → f.removal c.windows start.fleet.now ⟨0⟩ ≤ horizon →
      ∃ s, Reachable Serving start s ∧ s.PassesOver) := by
  refine ⟨fun s hs => ⟨hs.exact_of_prompt hc h, fun k hk => ?_⟩,
    fun hcard s hs => hs.exact_of_three hc h hcard,
    fun hcard f hf hS hw hfit => h.exists_passesOver hc hf hS hw hfit hcard⟩
  obtain ⟨p, hrests, hsorted⟩ := hs.sorted hc h
  obtain ⟨hb, -⟩ := Reachable.bare_alert (hs.mono fun _ _ hcall => hcall.1) hc h hrests
  obtain rfl : p.2 = k := Option.some.inj (hrests.serves.alone.ranked.symm.trans hk)
  rw [hrests.loads]
  exact hsorted.violation?_eq_none hb

/-- Three endpoints are too few to lose the least loaded one. -/
theorem Starts.exact_despite_failures_of_three :
    ∃ start : Solo, start.Starts { failureSustain := some ⟨.ofSeconds 10, 2⟩ } ∧
      start.endpoints = [⟨0⟩, ⟨1⟩, ⟨2⟩] ∧ ∀ s, Reachable Serving start s → s.Exact := by
  obtain ⟨start, hstart, hes, -⟩ := exists_starts_with
    (c := { failureSustain := some ⟨.ofSeconds 10, 2⟩ }) (by decide) [⟨0⟩, ⟨1⟩, ⟨2⟩]
  refine ⟨start, hstart, hes, (hstart.exact_despite_failures rfl).2.1 ?_⟩
  rw [hes]
  decide

/-- Four endpoints, and failures penalized with two units for ten seconds. -/
theorem Starts.passesOver_of_four :
    ∃ start : Solo, start.Starts { failureSustain := some ⟨.ofSeconds 10, 2⟩ } ∧
      start.endpoints = [⟨0⟩, ⟨1⟩, ⟨2⟩, ⟨3⟩] ∧ ∃ s, Reachable Serving start s ∧ s.PassesOver := by
  obtain ⟨start, hstart, hes, hnow⟩ := exists_starts_with
    (c := { failureSustain := some ⟨.ofSeconds 10, 2⟩ }) (by decide) [⟨0⟩, ⟨1⟩, ⟨2⟩, ⟨3⟩]
  refine ⟨start, hstart, hes, hstart.exists_passesOver rfl rfl (by decide) (by decide) ?_ ?_⟩
  · rw [hnow]
    decide
  · rw [hes]
    decide

end Solo

end LeastLoad
