import LeastLoad.Proofs.Endpoint.Uses
import LeastLoad.Proofs.Fleet.Accounted
import LeastLoad.Proofs.Fleet.Even
import LeastLoad.Proofs.Fleet.Standing

/-! # One unit at a time, to the least frequently used endpoint

Where each task is finished before the next request, no load has a unit in flight when it is chosen,
so that all depends on the sums that break ties. As long as nothing that these count is over, they
are the numbers of times that the endpoints have been handed out. -/

namespace LeastLoad

theorem LoadTable.Apart.congr {t t' : LoadTable} {states : List LoadRef} (h : t.Apart states)
    (ht : Kindred t t') : t'.Apart states := by
  refine ⟨fun r hr => ht.size ▸ h.place r hr, fun r hr r' hr' he => ?_⟩
  rw [ht.endpoint, ht.endpoint] at he
  exact h.one r hr r' hr' he

namespace Fleet

open LoadTable (Kindred Synced)
open Ranking (Standing)

variable {f f' : Fleet} {b i size last : Nat} {c : LoadSettings} {states : List LoadRef}
  {strategy : Strategy} {es : List Endpoint} {uses : Endpoint → Nat} {unit : Option LoadRef}
  {r : LoadRef} {t : Ticket}

def Done (f : Fleet) (i : Nat) : Prop := ∀ t, f.task? i = some (.tracked t) → t.completed = true

inductive Out (f : Fleet) : Option LoadRef → Prop
  | idle : (∀ i, f.Done i) → Out f none
  | busy {i : Nat} {t : Ticket} : f.task? i = some (.tracked t) → t.completed = false →
      (∀ j ≠ i, f.Done j) → Out f (some t.load)

theorem Out.done (h : f.Out none) (i : Nat) : f.Done i := by
  cases h with
  | idle hall => exact hall i

theorem Out.eq_none (h : f.Out unit) (hall : ∀ i, f.Done i) : unit = none := by
  cases h with
  | idle => rfl
  | busy hi hc =>
    rw [hall _ _ hi] at hc
    cases hc

theorem Out.congr (h : f.Out unit) (ht : f'.tasks = f.tasks) : f'.Out unit := by
  have htask : ∀ i, f'.task? i = f.task? i := fun i => by rw [task?, task?, ht]
  cases h with
  | idle hall => exact .idle fun i t hi => hall i t ((htask i).symm.trans hi)
  | busy hi hc hall =>
    exact .busy ((htask _).trans hi) hc fun j hj t ht => hall j hj t ((htask j).symm.trans ht)

theorem Out.keep (h : f.Out none) (hc : t.completed = false) :
    (f.keep (.tracked t)).2.Out (some t.load) := by
  refine .busy (task?_keep_size f _) hc fun j hj t' ht' => ?_
  refine h.done j t' ?_
  simpa only [task?, Fleet.keep, Array.getElem?_push, hj, if_false] using ht'

theorem task?_dropTask (j : Nat) :
    (f.dropTask i).2.task? j = if i = j then none else f.task? j := by
  simp only [dropTask, task?, Array.getElem?_modify]
  split
  · cases f.tasks[j]? <;> rfl
  · rfl

theorem Out.dropTask (h : f.Out unit) (hi : f.Done i) : (f.dropTask i).2.Out unit := by
  have hdone : ∀ j, f.Done j → (f.dropTask i).2.Done j := fun j hj t ht => by
    rw [task?_dropTask] at ht
    split at ht
    · cases ht
    · exact hj t ht
  cases h with
  | idle hall => exact .idle fun j => hdone j (hall j)
  | @busy j t hj hc hall =>
    have hne : i ≠ j := by
      rintro rfl
      rw [hi t hj] at hc
      cases hc
    exact .busy (by rw [task?_dropTask, if_neg hne, hj]) hc fun j' hj' => hdone j' (hall j' hj')

theorem Out.mark (h : f.Out unit) (hi : f.task? i = some (.tracked t)) (hc : t.completed = false) :
    unit = some t.load ∧ (f.mark i t).Out none := by
  cases h with
  | idle hall =>
    rw [hall i t hi] at hc
    cases hc
  | @busy j t' hj hc' hall =>
    obtain rfl : i = j := by
      by_contra hne
      rw [hall i hne t hi] at hc
      cases hc
    obtain rfl : t' = t := Task.tracked.inj (Option.some.inj (hj.symm.trans hi))
    refine ⟨rfl, .idle fun k u hk => ?_⟩
    rw [task?_mark hi] at hk
    split at hk
    · cases hk
      rfl
    · next hne => exact hall k (Ne.symm hne) u hk

@[simp] theorem ranking?_notify (f : Fleet) (listeners : List Listener) (event : Event) (b : Nat) :
    (f.notify listeners event).ranking? b = f.ranking? b := rfl

theorem finish_of_unpenalized (hpen : (f.loads.load t.load).penalty = none) (succeeded : Bool)
    (latency : Duration) :
    (f.finish t succeeded latency).loads = (f.release t.load 1 latency).loads ∧
      (f.finish t succeeded latency).clock = (f.release t.load 1 latency).clock ∧
      ∀ b, (f.finish t succeeded latency).ranking? b =
        (f.release t.load 1 latency).ranking? b := by
  have hsame : (if succeeded then f else (f.penalize t.load latency).2) = f := by
    split
    · rfl
    · simp only [penalize, EndpointLoad.penalize, hpen]
  rw [finish, hsame]
  refine ⟨rfl, rfl, fun b => ?_⟩
  rw [ranking?_notify]
  refine ranking?_modifyBalancer ?_ t.balancer b
  exact fun _ => rfl

theorem Sound.finished (h : f.Sound c) (hpen : (f.loads.load t.load).penalty = none)
    (succeeded : Bool) (latency : Duration) {loads : LoadTable}
    (hloads : loads = f.loads.update t.load (·.release f.now 1 latency)) :
    Synced f.now loads (f.finish t succeeded latency).loads ∧
      (f.finish t succeeded latency).clock = f.clock ∧
      ∀ b k, f.ranking? b = some k → ∃ t', Synced f.now loads t' ∧
        (f.finish t succeeded latency).ranking? b = some (heard f.now t.load 0 (t', k)).2 ∧
        Synced f.now (heard f.now t.load 0 (t', k)).1 (f.finish t succeeded latency).loads := by
  obtain ⟨hframe, hsynced, -, htold⟩ := h.announced t.load 0 loads
  have hrelease : announce { f with loads } t.load 0 = f.release t.load 1 latency := by
    rw [hloads, release]
  obtain ⟨hl, hclock, hrank⟩ := finish_of_unpenalized hpen succeeded latency
  rw [hrelease] at hframe hsynced htold
  simp only [hl, hclock, hrank]
  exact ⟨hsynced, hframe.clock, htold⟩

/-- A balancer of a kind over the given states, in order of the comparison if it is ranked. -/
inductive Lined (f : Fleet) (b size : Nat) (states : List LoadRef) : Strategy → Prop
  | grouped : 0 < size → f.selection? b = some (.grouped (.layout size states)) →
      Lined f b size states .grouped
  | ranked {k : Ranking} : f.ranking? b = some k → Standing (f.loads, k) →
      (∀ r, r ∈ k.queue.contents ↔ r ∈ states) → Lined f b size states .ranked

theorem Lined.still (h : f.Lined b size states strategy) (hl : f'.loads = f.loads)
    (hseats : f'.seats = f.seats) : f'.Lined b size states strategy := by
  cases h with
  | grouped hpos hsel =>
    refine .grouped hpos (Eq.trans ?_ hsel)
    rw [selection?, balancer?, hseats]
    rfl
  | ranked hrank hstanding hmem =>
    exact .ranked ((ranking?_of_seats hseats b).trans hrank) (hl ▸ hstanding) hmem

/-- Each endpoint has been handed out so many times, none of which is over at `last`, and no unit is
out but that of one task. -/
structure Rotation (f : Fleet) (b size : Nat) (states : List LoadRef) (strategy : Strategy)
    (c : LoadSettings) (es : List Endpoint) (last : Nat) (uses : Endpoint → Nat)
    (unit : Option LoadRef) : Prop where
  sound : f.Sound c
  apart : f.loads.Apart states
  endpoints : states.map f.loads.endpoint = es
  used : ∀ r ∈ states, (f.loads.load r).Used c f.clock last (uses (f.loads.endpoint r))
    (if unit = some r then 1 else 0)
  lined : f.Lined b size states strategy
  out : f.Out unit
  listed : ∀ r, unit = some r → r ∈ states

theorem Sound.coherent (h : f.Sound c) : f.Coherent :=
  fun b k hk => h.tidy b k (ranking?_eq_some_iff.2 hk)

theorem Rotation.of_kindred {uses' : Endpoint → Nat} {unit' : Option LoadRef}
    (h : f.Rotation b size states strategy c es last uses unit) (hs : f'.Sound c)
    (ht : Kindred f.loads f'.loads)
    (hused : ∀ r ∈ states, (f'.loads.load r).Used c f'.clock last (uses' (f.loads.endpoint r))
      (if unit' = some r then 1 else 0))
    (hlined : f'.Lined b size states strategy) (hout : f'.Out unit')
    (hlisted : ∀ r, unit' = some r → r ∈ states) :
    f'.Rotation b size states strategy c es last uses' unit' := by
  refine ⟨hs, h.apart.congr ht, ?_, fun r hr => ?_, hlined, hout, hlisted⟩
  · rw [← h.endpoints]
    exact List.map_congr_left fun r _ => ht.endpoint r
  · rw [ht.endpoint]
    exact hused r hr

theorem Rotation.still (h : f.Rotation b size states strategy c es last uses unit) (hs : f'.Sound c)
    (hl : f'.loads = f.loads) (hseats : f'.seats = f.seats) (hnow : f.now ≤ f'.now)
    (hout : f'.Out unit) : f'.Rotation b size states strategy c es last uses unit := by
  refine h.of_kindred hs (hl ▸ .refl) (fun r hr => ?_) (h.lined.still hl hseats) hout h.listed
  rw [hl]
  exact (h.used r hr).later hnow

theorem Rotation.hands_grouped (h : f.Rotation b size states .grouped c es last uses none)
    (hone : states.length ≤ size) (hne : states ≠ []) (hlast : f.now ≤ last) :
    ∃ t, (f.next b).1 = some t ∧ t.load ∈ states ∧
      (uses (f.loads.endpoint t.load) < 2 ^ 64 →
        ∀ r ∈ states, uses (f.loads.endpoint t.load) ≤ uses (f.loads.endpoint r)) := by
  obtain ⟨hpos, hsel⟩ := h.lined
  obtain ⟨s, hs, place, hdraw⟩ := Grouping.exists_draw_layout hpos hne f.words
  have hslice : s.slice states = states := by
    have hmem : s.slice states ∈ Strategy.rows size states .grouped := List.mem_map_of_mem hs
    rw [Strategy.rows_eq (.inr hone) hne] at hmem
    exact List.mem_singleton.1 hmem
  rw [hslice] at hdraw
  have hpicks := Grouping.take_of_draw f.now hdraw hne
    fun r hr => ⟨h.apart.place r hr, (h.used r hr).kind⟩
  rw [← (next_of_grouped hsel).1] at hpicks
  have hused : ∀ r ∈ states, ((f.loads.load r).sync f.now).Used c f.clock last
      (uses (f.loads.endpoint r)) 0 := fun r hr => (h.used r hr).sync hlast
  cases hn : (f.next b).1 with
  | none =>
    rw [hn] at hpicks
    obtain ⟨r, hr⟩ := List.exists_mem_of_ne_nil _ hne
    have hun := hpicks.eq_none_iff.1 rfl r hr
    rw [(hused r hr).available] at hun
    cases hun
  | some t =>
    rw [hn] at hpicks
    have hrow : ∀ r, r ∈ states.rotateLeft place ↔ r ∈ states :=
      fun r => (perm_rotateLeft _ place).mem_iff
    have hfirst := hpicks.first
    have hmem : t.load ∈ states := (hrow _).1 hfirst.mem
    obtain ⟨-, -, -, -, -, hleast⟩ := hfirst
    refine ⟨t, rfl, hmem, fun hfit r hr => (hused _ hmem).le_of_standing (hused r hr) hfit ?_⟩
    have hle := hleast r ((hrow r).2 hr) (hused r hr).available
    rwa [EndpointLoad.compare_eq_standing ((hused _ hmem).kind.trans (hused r hr).kind.symm)] at hle

theorem Rotation.hands_ranked (h : f.Rotation b size states .ranked c es last uses none)
    (hne : states ≠ []) (hlast : f.now ≤ last) :
    ∃ t, (f.next b).1 = some t ∧ t.load ∈ states ∧
      (uses (f.loads.endpoint t.load) < 2 ^ 64 →
        ∀ r ∈ states, uses (f.loads.endpoint t.load) ≤ uses (f.loads.endpoint r)) := by
  obtain - | ⟨hrank, hstanding, hmem⟩ := h.lined
  obtain ⟨loads, hsynced, hsome, hnone⟩ := hstanding.first_of_take f.now
  have hused : ∀ r ∈ states, (loads.load r).Used c f.clock last (uses (f.loads.endpoint r)) 0 :=
    fun r hr => hsynced.keeps (fun _ hl => hl.sync hlast) (h.used r hr)
  obtain ⟨hanswer, -⟩ := next_of_ranking? hrank
  cases htake : (Ranking.take f.now (f.loads, _)).1 with
  | none =>
    exfalso
    obtain hempty | ⟨r, hr, hun⟩ := hnone htake
    · obtain ⟨r, hr⟩ := List.exists_mem_of_ne_nil _ hne
      have hr' := (hmem r).2 hr
      rw [hempty] at hr'
      exact Multiset.notMem_zero r hr'
    · rw [(hused r ((hmem r).1 hr)).available] at hun
      cases hun
  | some top =>
    obtain ⟨htop, hfirst⟩ := hsome top htake
    rw [htake] at hanswer
    have htop' := (hmem top).1 htop
    exact ⟨_, hanswer, htop', fun hfit r hr =>
      (hused top htop').le_of_standing (hused r hr) hfit (hfirst r ((hmem r).2 hr))⟩

theorem Rotation.hands (h : f.Rotation b size states strategy c es last uses none)
    (hone : strategy = .ranked ∨ es.length ≤ size) (hne : es ≠ []) (hlast : f.now ≤ last) :
    ∃ t, (f.next b).1 = some t ∧ t.load ∈ states ∧
      (uses (f.loads.endpoint t.load) < 2 ^ 64 →
        ∀ e ∈ es, uses (f.loads.endpoint t.load) ≤ uses e) := by
  have hstates : states ≠ [] := fun hnil => hne (by rw [← h.endpoints, hnil]; rfl)
  rw [← h.endpoints] at hone ⊢
  rw [List.length_map] at hone
  simp only [List.forall_mem_map]
  cases strategy with
  | grouped => exact h.hands_grouped (hone.resolve_left nofun) hstates hlast
  | ranked => exact h.hands_ranked hstates hlast

theorem Rotation.used_next (h : f.Rotation b size states strategy c es last uses none)
    (hn : (f.next b).1 = some t) (ht : t.load ∈ states) (hlast : f.now ≤ last)
    (hdue : last < roundedExpiry c.lookBack c.windows f.now c.lookBack) {r : LoadRef}
    (hr : r ∈ states) :
    ((f.next b).2.loads.load r).Used c f.clock last
      (uses (f.loads.endpoint r) + if f.loads.endpoint t.load = f.loads.endpoint r then 1 else 0)
      (if some t.load = some r then 1 else 0) := by
  obtain ⟨loads, hsynced, hloads⟩ := f.loads_next b
  have hr' : (loads.load r).Used c f.clock last (uses (f.loads.endpoint r)) 0 :=
    hsynced.keeps (fun _ hl => hl.sync hlast) (h.used r hr)
  rw [hloads, hn]
  change ((loads.update t.load (·.acquire f.now 1)).load r).Used _ _ _ _ _
  by_cases hrr : t.load = r
  · subst hrr
    rw [LoadTable.load_update_self (hsynced.size ▸ h.apart.place _ ht), if_pos rfl, if_pos rfl]
    exact hr'.acquire hdue
  · have hend : f.loads.endpoint t.load ≠ f.loads.endpoint r := fun heq =>
      hrr (h.apart.one r hr _ ht heq)
    rw [LoadTable.load_update_of_ne hrr, if_neg hend, if_neg fun heq => hrr (Option.some.inj heq)]
    exact hr'

theorem Lined.next (h : f.Lined b size states strategy) (hco : f.Coherent) :
    (f.next b).2.Lined b size states strategy := by
  have hshifts := (hco.shifts_next b).1
  cases h with
  | grouped hpos hsel => exact .grouped hpos (hshifts.grouped_iff.2 hsel)
  | ranked hrank hstanding hmem =>
    obtain ⟨-, hloads, hranks⟩ := next_of_ranking? hrank
    refine .ranked ((hranks b).trans (if_pos rfl)) ?_ fun r => ?_
    · rw [hloads]
      exact hstanding.take
    · have hkeeps : Ranking.Keeps _ (Ranking.take f.now (f.loads, _)).2 :=
        hstanding.tidy.keeps_take
      rw [hkeeps.contents]
      exact hmem r

theorem Rotation.next (h : f.Rotation b size states strategy c es last uses none)
    (hn : (f.next b).1 = some t) (ht : t.load ∈ states) (hlast : f.now ≤ last)
    (hdue : last < roundedExpiry c.lookBack c.windows f.now c.lookBack) :
    (f.perform (.call (.next b))).Rotation b size states strategy c es last
      (fun e => uses e + if f.loads.endpoint t.load = e then 1 else 0) (some t.load) := by
  have hco := h.sound.coherent
  have hsound := h.sound.apply (.next b)
  have hclock : (f.next b).2.clock = f.clock := (f.frame_next b).clock
  change (f.perform (.call (.next b))).Sound c at hsound
  rw [perform_next_some hn] at hsound ⊢
  refine h.of_kindred hsound (hco.shifts_next b).1.loads (fun r hr => ?_)
    ((h.lined.next hco).still rfl rfl)
    ((h.out.congr (f.tasks_next b)).keep (hco.records_next hn).2) fun r hr => ?_
  · change ((f.next b).2.loads.load r).Used c (f.next b).2.clock _ _ _
    rw [hclock]
    exact h.used_next hn ht hlast hdue hr
  · exact Option.some.inj hr ▸ ht

theorem Rotation.used_release
    (h : f.Rotation b size states strategy c es last uses (some r)) (hlast : f.now ≤ last)
    {latency : Duration} {loads : LoadTable}
    (hsynced : Synced f.now (f.loads.update r (·.release f.now 1 latency)) loads) {a : LoadRef}
    (ha : a ∈ states) :
    (loads.load a).Used c f.clock last (uses (f.loads.endpoint a)) 0 := by
  refine hsynced.keeps (fun _ hl => hl.sync hlast) ?_
  have ha' := h.used a ha
  by_cases hra : r = a
  · subst hra
    rw [LoadTable.load_update_self (h.apart.place _ ha)]
    rw [if_pos rfl] at ha'
    exact ha'.release latency
  · rw [LoadTable.load_update_of_ne hra]
    rwa [if_neg fun heq => hra (Option.some.inj heq)] at ha'

theorem Rotation.standing_heard
    (h : f.Rotation b size states strategy c es last uses (some r)) (hlast : f.now ≤ last)
    {latency : Duration} {loads : LoadTable}
    (hsynced : Synced f.now (f.loads.update r (·.release f.now 1 latency)) loads) {k : Ranking}
    (hstanding : Standing (f.loads, k)) (hmem : ∀ a, a ∈ k.queue.contents ↔ a ∈ states) :
    Standing (heard f.now r 0 (loads, k)) ∧
      ∀ a, a ∈ (heard f.now r 0 (loads, k)).2.queue.contents ↔ a ∈ states := by
  have hkin : Kindred f.loads loads :=
    .trans (.update r (g := (·.release f.now 1 latency)) (fun _ => rfl)
      fun _ => EndpointLoad.kind_release 1 latency) hsynced.kindred
  have hkeeps : Ranking.Keeps (loads, k) (heard f.now r 0 (loads, k)) :=
    keeps_heard (hstanding.tidy.congr hkin.size hkin.endpoint)
  refine ⟨hstanding.heard hkin ((hmem r).2 (h.listed r rfl)) fun a ha hne => ?_,
    fun a => hkeeps.contents ▸ hmem a⟩
  have ha' := h.used a ((hmem a).1 ha)
  rw [if_neg fun heq => hne (Option.some.inj heq).symm] at ha'
  exact (h.used_release hlast hsynced ((hmem a).1 ha)).standing_eq ha'

theorem Rotation.complete (h : f.Rotation b size states strategy c es last uses unit)
    (hi : f.task? i = some (.tracked t)) (hc : t.completed = false) (hlast : f.now ≤ last)
    (succeeded : Bool) (latency : Option Duration) :
    (f.complete i succeeded latency).2.Rotation b size states strategy c es last uses none := by
  obtain ⟨rfl, hout⟩ := h.out.mark hi hc
  have hshifts := h.sound.coherent.shifts_complete i succeeded latency
  have hsound := h.sound.apply (.complete i succeeded latency)
  change (f.complete i succeeded latency).2.Sound c at hsound
  rw [complete_of_open hi hc succeeded latency] at hshifts hsound ⊢
  have hmark : Stirred (fun _ _ => False) f (f.mark i t) :=
    .still ⟨rfl, rfl, rfl, fun _ => rfl⟩ rfl fun _ => rfl
  have hplain := (h.used _ (h.listed _ rfl)).plain
  obtain ⟨hloads, hclock, hranks⟩ :=
    (h.sound.stirred hmark).finished (t := t) hplain.unpenalized succeeded
      (latency.getD (f.elapsed t)) rfl
  refine h.of_kindred hsound hshifts.loads (fun r hr => ?_) ?_ (hout.congr (tasks_finish ..)) nofun
  · rw [hclock]
    exact h.used_release hlast hloads hr
  · cases h.lined with
    | grouped hpos hsel => exact .grouped hpos (hshifts.grouped_iff.2 hsel)
    | @ranked k hrank hstanding hmem =>
      obtain ⟨loads, hsynced, hrank', hlater⟩ := hranks b k hrank
      obtain ⟨hheard, hmem'⟩ := h.standing_heard hlast hsynced hstanding hmem
      refine .ranked hrank' (hheard.congr hlater.kindred fun a ha => ?_) hmem'
      have ha' := (hmem' a).1 ha
      have hlooked := hsynced.trans (Ranking.synced_heard t.load 0 (s := (loads, k)))
      exact (h.used_release hlast hloads ha').standing_eq (h.used_release hlast hlooked ha')

end Fleet

end LeastLoad
