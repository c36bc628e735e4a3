import LeastLoad.Proofs.Endpoint.Unused
import LeastLoad.Proofs.Fleet.Grouped
import LeastLoad.Proofs.Fleet.Prompt

/-! # Balancers over calm loads

A load is calm if it is enabled and no penalty is left to come off. A request leaves calm loads
calm and counts up only the one that it hands out. As long as no counter has passed the largest
signed number, the request is answered, with a least loaded state of the row that it looks at: the
group that was drawn, or all that is ranked. -/

namespace LeastLoad

namespace EndpointLoad

variable {l : EndpointLoad} {now : Nat}

structure Calm (now : Nat) (l : EndpointLoad) : Prop where
  enabled : l.disabled = false
  awaited : l.Awaited (fun _ => False) now

theorem Calm.sync (h : l.Calm now) : (l.sync now).Calm now :=
  ⟨disabled_sync.trans h.enabled, h.awaited.sync.mono fun _ hd => hd.1⟩

theorem Calm.acquire (h : l.Calm now) (n : Int32) : (l.acquire now n).Calm now :=
  ⟨h.enabled, h.awaited.of_penalty_eq rfl⟩

theorem Calm.later {later : Nat} (h : l.Calm now) (hl : now ≤ later) : l.Calm later :=
  ⟨h.enabled, h.awaited.later hl⟩

theorem Calm.inFlight_sync (h : l.Calm now) (hnow : now ≤ horizon) :
    (l.sync now).inFlight = l.inFlight :=
  congrArg Int32.toUInt32 (h.awaited.concurrency_sync hnow fun _ hd => hd.elim)

theorem Calm.vacant : LoadTable.vacant.Calm now := ⟨rfl, .of_penalty_none rfl⟩

theorem Calm.create {e : Endpoint} {c : LoadSettings} (hnow : now ≤ horizon)
    (h : EndpointLoad.create e c now = .ok l) : l.Calm now ∧ l.inFlight = 0 := by
  obtain ⟨hun, hen⟩ := Unused.create hnow h
  exact ⟨⟨hen, .create h⟩, congrArg Int32.toUInt32 hun.idle.concurrency⟩

end EndpointLoad

/-- The rows over which a balancer of the given kind evens out: each group, or everything. -/
def Strategy.rows {α : Type} (size : Nat) (xs : List α) : Strategy → List (List α)
  | .grouped => (partition xs.length size).map (·.slice xs)
  | .ranked => [xs]

namespace Fleet

open Ranking (Sorted Alert)

variable {f f' start : Fleet} {b size : Nat} {c : LoadSettings} {states : List LoadRef}
  {strategy : Strategy} {es : List Endpoint}

def Calm (f : Fleet) : Prop := ∀ r, (f.loads.load r).Calm f.now

theorem Calm.next (h : f.Calm) (b : Nat) :
    (f.next b).2.Calm ∧ ∀ r : LoadRef, ((f.next b).2.loads.load r).inFlight =
      if (f.next b).1.map (·.load) = some r ∧ r.place < f.loads.states.size
      then (f.loads.load r).inFlight + 1 else (f.loads.load r).inFlight := by
  obtain ⟨t, ht, hloads⟩ := f.loads_next b
  have hsynced : ∀ r, (t.load r).Calm f.now ∧ (t.load r).inFlight = (f.loads.load r).inFlight :=
    fun r => ht.keeps (p := fun l => l.Calm f.now ∧ l.inFlight = (f.loads.load r).inFlight)
      (fun l hl => ⟨hl.1.sync, (hl.1.inFlight_sync f.clock.now_le).trans hl.2⟩) ⟨h r, rfl⟩
  rw [Calm, (f.frame_next b).now, hloads]
  cases (f.next b).1 with
  | none => exact ⟨fun r => (hsynced r).1, fun r => (hsynced r).2⟩
  | some ticket =>
    refine ⟨fun r => ?_, fun r => ?_⟩
    · change ((t.update ticket.load (·.acquire f.now 1)).load r).Calm f.now
      rw [LoadTable.load_update]
      split
      · exact (hsynced r).1.acquire 1
      · exact (hsynced r).1
    · change ((t.update ticket.load (·.acquire f.now 1)).load r).inFlight = _
      rw [LoadTable.load_update, ht.size, ← (hsynced r).2]
      simp only [Option.map_some, Option.some_inj]
      by_cases heq : ticket.load = r
      · subst heq
        split <;> rfl
      · rw [if_neg fun hif => heq hif.1, if_neg fun hif => heq hif.1]

def drawn (f : Fleet) (b : Nat) : Option (List LoadRef) :=
  match f.selection? b with
  | some (.grouped g) => (g.draw f.words).map (·.1)
  | _ => none

/-- A balancer of a kind over the given states: laid out in groups, or ranked with nothing out of
its place and no wake-up missing. -/
inductive Over (f : Fleet) (b size : Nat) (states : List LoadRef) : Strategy → Prop
  | grouped : 0 < size → f.selection? b = some (.grouped (.layout size states)) →
      Over f b size states .grouped
  | ranked {k : Ranking} : f.selection? b = some (.ranked k) → Sorted (f.loads, k) →
      Alert f.now [] (f.loads, k) → (∀ r, r ∈ k.queue.contents ↔ r ∈ states) →
      Over f b size states .ranked

structure Steady (f : Fleet) (b size : Nat) (states : List LoadRef) (strategy : Strategy)
    (c : LoadSettings) : Prop where
  coherent : f.Coherent
  calm : f.Calm
  apart : f.loads.Apart states
  kinds : ∀ r ∈ states, (f.loads.load r).kind = c.subStrategy
  members : f.Over b size states strategy

theorem ranking?_eq_some_iff {k : Ranking} :
    f.ranking? b = some k ↔ f.selection? b = some (.ranked k) := by
  rw [ranking?, selection?]
  cases f.balancer? b with
  | none => simp
  | some x =>
    change x.selection.ranking? = some k ↔ some x.selection = some (.ranked k)
    cases x.selection <;> simp [Selection.ranking?]

structure Hands (f : Fleet) (b : Nat) (row : List LoadRef) (t : Ticket) : Prop where
  answer : (f.next b).1 = some t
  mem : t.load ∈ row
  least : ∀ r ∈ row, (f.loads.load t.load).inFlight ≤ (f.loads.load r).inFlight

theorem Steady.hands_grouped (h : f.Steady b size states strategy c) (hpos : 0 < size)
    (hsel : f.selection? b = some (.grouped (.layout size states))) (hne : states ≠ [])
    (hsmall : ∀ r, (f.loads.load r).inFlight.toNat < 2 ^ 31) :
    ∃ s ∈ partition states.length size, ∃ t,
      f.drawn b = some (s.slice states) ∧ f.Hands b (s.slice states) t := by
  obtain ⟨s, hs, place, hdraw⟩ := Grouping.exists_draw_layout hpos hne f.words
  have hpicks := Grouping.take_of_draw f.now hdraw (slice_ne_nil hs)
    fun r hr => ⟨h.apart.place r (mem_of_mem_slice hr), h.kinds r (mem_of_mem_slice hr)⟩
  obtain ⟨hanswer, -⟩ := next_of_grouped hsel
  rw [← hanswer] at hpicks
  have hsync : ∀ r, ((f.loads.load r).sync f.now).inFlight = (f.loads.load r).inFlight :=
    fun r => (h.calm r).inFlight_sync f.clock.now_le
  have hav : ∀ r, ((f.loads.load r).sync f.now).available = true := fun r =>
    EndpointLoad.available_iff.2 ⟨(h.calm r).sync.enabled, by rw [hsync]; exact hsmall r⟩
  refine ⟨s, hs, ?_⟩
  cases hn : (f.next b).1 with
  | none =>
    rw [hn] at hpicks
    obtain ⟨r, hr⟩ := List.exists_mem_of_ne_nil _ (slice_ne_nil hs)
    have hun := hpicks.eq_none_iff.1 rfl r hr
    rw [hav] at hun
    cases hun
  | some t =>
    rw [hn] at hpicks
    have hrow : ∀ r, r ∈ (s.slice states).rotateLeft place ↔ r ∈ s.slice states :=
      fun r => (perm_rotateLeft _ place).mem_iff
    have hfirst := hpicks.first
    have hmem : t.load ∈ s.slice states := (hrow _).1 hfirst.mem
    obtain ⟨-, -, -, -, -, hleast⟩ := hfirst
    refine ⟨t, ?_, hn, hmem, fun r hr => ?_⟩
    · simp only [drawn, hsel, hdraw, Option.map_some]
    · have hle := EndpointLoad.inFlight_le_of_compare_ne_gt
        ((h.calm t.load).sync.enabled.trans (h.calm r).sync.enabled.symm)
        (hleast r ((hrow r).2 hr) (hav r))
      rwa [hsync, hsync] at hle

theorem Steady.hands_ranked (h : f.Steady b size states strategy c) {k : Ranking}
    (hsel : f.selection? b = some (.ranked k)) (hsorted : Sorted (f.loads, k))
    (halert : Alert f.now [] (f.loads, k)) (hmem : ∀ r, r ∈ k.queue.contents ↔ r ∈ states)
    (hne : states ≠ []) (hsmall : ∀ r, (f.loads.load r).inFlight.toNat < 2 ^ 31) :
    ∃ t, f.Hands b states t := by
  have hat : ∀ r, f.loads.inFlightAt f.now r = (f.loads.load r).inFlight :=
    fun r => (h.calm r).inFlight_sync f.clock.now_le
  obtain ⟨hsome, hnone⟩ := hsorted.least_of_take halert f.clock.now_le
  obtain ⟨hanswer, -⟩ := next_of_ranking? (ranking?_eq_some_iff.2 hsel)
  cases htake : (Ranking.take f.now (f.loads, k)).1 with
  | none =>
    obtain ⟨r, hr⟩ := List.exists_mem_of_ne_nil _ hne
    have hbig := hnone htake r ((hmem r).2 hr)
    rw [hat] at hbig
    exact absurd (hsmall r) (Nat.not_lt.2 hbig)
  | some top =>
    obtain ⟨htop, -, hleast⟩ := hsome top htake
    rw [htake] at hanswer
    refine ⟨_, hanswer, (hmem top).1 htop, fun r hr => ?_⟩
    have hle := hleast r ((hmem r).2 hr)
    rwa [hat, hat] at hle

/-- A request is answered from one of the rows, which is the one drawn if there are several. -/
theorem Steady.hands (h : f.Steady b size states strategy c) (hne : states ≠ [])
    (hsmall : ∀ r, (f.loads.load r).inFlight.toNat < 2 ^ 31) :
    ∃ row ∈ strategy.rows size states, ∃ t, f.Hands b row t ∧
      (strategy = .grouped → f.drawn b = some row) := by
  obtain ⟨hpos, hsel⟩ | ⟨hsel, hsorted, halert, hmem⟩ := h.members
  · obtain ⟨s, hs, t, hdrawn, ht⟩ := h.hands_grouped hpos hsel hne hsmall
    exact ⟨_, List.mem_map_of_mem hs, t, ht, fun _ => hdrawn⟩
  · obtain ⟨t, ht⟩ := h.hands_ranked hsel hsorted halert hmem hne hsmall
    exact ⟨states, List.mem_singleton_self _, t, ht, nofun⟩

theorem Steady.next (h : f.Steady b size states strategy c) :
    (f.next b).2.Steady b size states strategy c := by
  have hs := (h.coherent.shifts_next b).1
  refine ⟨hs.coherent, (h.calm.next b).1, ⟨fun r hr => ?_, fun r hr r' hr' he => ?_⟩,
    fun r hr => (hs.loads.kind r).trans (h.kinds r hr), ?_⟩
  · rw [hs.loads.size]
    exact h.apart.place r hr
  · rw [hs.loads.endpoint, hs.loads.endpoint] at he
    exact h.apart.one r hr r' hr' he
  · obtain ⟨hpos, hsel⟩ | ⟨hsel, hsorted, halert, hmem⟩ := h.members
    · exact .grouped hpos (hs.grouped_iff.2 hsel)
    · obtain ⟨-, hloads, hrank⟩ := next_of_ranking? (ranking?_eq_some_iff.2 hsel)
      have hk : Ranking.Keeps _ (Ranking.take f.now (f.loads, _)).2 := halert.tidy.keeps_take
      refine .ranked (ranking?_eq_some_iff.1 ((hrank b).trans (if_pos rfl))) ?_ ?_ fun r => ?_
      · rw [hloads]
        exact hsorted.take
      · rw [hloads, (f.frame_next b).now]
        exact halert.take
      · rw [hk.contents]
        exact hmem r

theorem Steady.still (h : f.Steady b size states strategy c) (hl : f'.loads = f.loads)
    (hsel : ∀ b, f'.selection? b = f.selection? b) (hnow : f.now ≤ f'.now) :
    f'.Steady b size states strategy c := by
  refine ⟨fun b k hk => ?_, fun r => ?_, ?_, ?_, ?_⟩
  · rw [hl]
    exact h.coherent b k ((hsel b).symm.trans hk)
  · rw [hl]
    exact (h.calm r).later hnow
  · rw [hl]
    exact h.apart
  · rw [hl]
    exact h.kinds
  · obtain ⟨hpos, hb⟩ | ⟨hb, hsorted, halert, hmem⟩ := h.members
    · exact .grouped hpos ((hsel b).trans hb)
    · refine .ranked ((hsel b).trans hb) ?_ ?_ hmem
      · rw [hl]
        exact hsorted
      · rw [hl]
        exact halert.later hnow

theorem Blank.steady (h : start.Blank c) {s : Settings} {listeners : List Listener}
    (hok : start.build (strategy.selection s) s.telemetry listeners es = .ok (b, f))
    (hsize : strategy = .grouped → 0 < s.groupSize) :
    ∃ states, states.map f.loads.endpoint = es ∧ f.Steady b s.groupSize states strategy c ∧
      ∀ r, (f.loads.load r).inFlight = 0 := by
  have hrooted := h.rooted.build hok
  obtain ⟨-, states, f₁, hres, hloads, hsel⟩ := h.rooted.selection?_build hok
  have hnow : f.now = start.now := congrArg Clock.now (h.rooted.rest_build hok).1
  obtain ⟨d, -, hstates⟩ := hres.resolved
  rw [← hloads] at hstates
  have hunused : ∀ r, (f.loads.load r).Calm f.now ∧ (f.loads.load r).inFlight = 0 := by
    rw [hloads, hnow]
    refine hres.grows.forall (p := fun l => l.Calm start.now ∧ l.inFlight = 0) (fun r => ?_)
      (fun e l hl => EndpointLoad.Calm.create start.clock.now_le hl) ⟨.vacant, rfl⟩
    rw [h.load_eq]
    exact ⟨.vacant, rfl⟩
  refine ⟨states, hstates.map_endpoint, ⟨hrooted.coherent, fun r => (hunused r).1, hstates.apart,
    fun r hr => hrooted.kinds r (hstates.apart.place r hr), ?_⟩, fun r => (hunused r).2⟩
  cases strategy with
  | grouped => exact .grouped (hsize rfl) hsel
  | ranked =>
    exact .ranked hsel (.replace (fun r => (hunused r).1.enabled) hstates.apart)
      (.replace (fun r => (hunused r).1.awaited) hstates.apart)
      (Ranking.Tidy.replace hstates.apart).2

end Fleet

end LeastLoad
