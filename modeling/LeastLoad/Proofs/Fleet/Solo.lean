import LeastLoad.Proofs.Fleet.Install
import Mathlib.Data.Finset.Card

/-! # Runs of a lone ranked balancer

A solo is a fleet in which one ranked balancer was built, together with the endpoints it was last
given. Its calls ask for units and keep them, finish units that are kept, give other endpoints,
disable or enable an endpoint, and move the clock. -/

namespace LeastLoad

structure Solo where
  fleet : Fleet
  place : Nat
  endpoints : List Endpoint

namespace Solo

inductive Call where
  | next
  | complete (task : Nat) (succeeded : Bool) (latency : Option Duration)
  | update (es : List Endpoint)
  | disable (e : Endpoint) (disabled : Bool)
  | advance (d : Duration)
  | set (d : Duration)

/-- A request that is answered is kept as a task; endpoints that cannot be resolved change
nothing. -/
def apply (s : Solo) : Call → Solo
  | .next =>
    match s.fleet.next s.place with
    | (none, f) => { s with fleet := f }
    | (some t, f) => { s with fleet := (f.keep (.tracked t)).2 }
  | .complete t succeeded latency => { s with fleet := (s.fleet.complete t succeeded latency).2 }
  | .update es =>
    match s.fleet.update s.place es with
    | .ok f => { s with fleet := f, endpoints := es }
    | .error _ => s
  | .disable e disabled =>
    match s.fleet.find? e with
    | some r => { s with fleet := s.fleet.setDisabled r disabled }
    | none => s
  | .advance d => { s with fleet := s.fleet.advance d }
  | .set d => { s with fleet := s.fleet.setClock d }

/-- A ranked balancer has been built in a fresh fleet, whose loads are made with the settings
`c`. -/
def Starts (c : LoadSettings) (s : Solo) : Prop :=
  ∃ (f : Fleet) (telemetry : TelemetrySettings) (listeners : List Listener), f.Fresh c ∧
    f.build (.ranked {}) telemetry listeners s.endpoints = .ok (s.place, s.fleet)

theorem exists_starts_with {c : LoadSettings} (hc : 0 < c.windows) (es : List Endpoint) :
    ∃ s : Solo, s.Starts c ∧ s.endpoints = es ∧ s.fleet.now = 0 := by
  obtain ⟨f, hf, hnow⟩ := Fleet.exists_fresh c
  obtain ⟨b, f', hbuild⟩ := Fleet.exists_build hf.directory hc (.ranked {})
    ⟨.ofSeconds 1, 10, 8, ""⟩ (by decide) [] es
  obtain ⟨states, hinst⟩ := hf.build hbuild
  exact ⟨⟨f', b, es⟩, ⟨f, _, _, hf, hbuild⟩, rfl, (congrArg Clock.now hinst.clock).trans hnow⟩

theorem exists_starts (es : List Endpoint) : ∃ s : Solo, s.Starts {} ∧ s.endpoints = es := by
  obtain ⟨s, hs, hes, -⟩ := exists_starts_with (c := {}) (by decide) es
  exact ⟨s, hs, hes⟩

inductive Reachable (permits : Solo → Call → Prop) (start : Solo) : Solo → Prop where
  | start : Reachable permits start start
  | step {s : Solo} (c : Call) :
      Reachable permits start s → permits s c → Reachable permits start (s.apply c)

end Solo

namespace Fleet

variable {f f' : Fleet} {b : Nat} {k : Ranking} {c : LoadSettings} {es : List Endpoint}
  {s : LoadTable × Ranking}

theorem Serves.moves (h : f.Serves b k c es) (hm : Moves b f f' s)
    (hk : Ranking.Keeps (f.loads, k) s) : f'.Serves b s.2 c es := by
  obtain ⟨d, hreg, hc⟩ := h.registered
  have hend : ∀ r, f'.loads.endpoint r = f.loads.endpoint r := by
    intro r
    rw [hm.loads]
    exact hk.endpoint r
  refine ⟨hm.alone, ?_, ⟨d, ⟨hm.directory.trans hreg.directory, fun e r hr => ?_, fun r hr => ?_⟩,
    hc⟩, fun e he => ?_, fun r hr => ?_⟩
  · rw [hm.loads]
    exact hk.tidy
  · rw [hend, hm.loads, hk.size]
    exact hreg.lists e r hr
  · rw [hend]
    exact hreg.members r (hk.contents ▸ hr)
  · rw [hk.contents, find?, hm.directory]
    exact h.covers.found e he
  · rw [hend]
    exact h.covers.only r (hk.contents ▸ hr)

theorem Serves.clock (h : f.Serves b k c es) (clock : Clock) :
    ({ f with clock } : Fleet).Serves b k c es :=
  ⟨⟨h.alone.only, h.alone.held, h.alone.ranked, h.alone.watched⟩, h.tidy,
    h.registered.imp fun _ hd => ⟨⟨hd.1.directory, hd.1.lists, hd.1.members⟩, hd.2⟩,
    ⟨h.covers.found, h.covers.only⟩⟩

theorem Serves.tasks (h : f.Serves b k c es) (tasks : Array (Option Task)) :
    ({ f with tasks } : Fleet).Serves b k c es :=
  ⟨⟨h.alone.only, h.alone.held, h.alone.ranked, h.alone.watched⟩, h.tidy,
    h.registered.imp fun _ hd => ⟨⟨hd.1.directory, hd.1.lists, hd.1.members⟩, hd.2⟩,
    ⟨h.covers.found, h.covers.only⟩⟩

end Fleet

namespace Solo

variable {s : Solo} {k : Ranking} {c : LoadSettings}

structure At (s : Solo) (c : LoadSettings) (p : LoadTable × Ranking) : Prop where
  serves : s.fleet.Serves s.place p.2 c s.endpoints
  loads : s.fleet.loads = p.1

variable {p : LoadTable × Ranking}

theorem At.tidy (h : s.At c p) : Ranking.Tidy p := by
  have ht := h.serves.tidy
  rwa [h.loads] at ht

theorem At.find?_endpoint (h : s.At c p) {r : LoadRef} (hr : r ∈ p.2.queue.contents) :
    p.1.endpoint r ∈ s.endpoints ∧ s.fleet.find? (p.1.endpoint r) = some r := by
  obtain ⟨d, hreg, -⟩ := h.serves.registered
  have hfind := hreg.members r hr
  have hmem := h.serves.covers.only r hr
  rw [h.loads] at hfind hmem
  rw [Fleet.find?, hreg.directory]
  exact ⟨hmem, hfind⟩

theorem At.mem_contents (h : s.At c p) {r : LoadRef} :
    r ∈ p.2.queue.contents ↔ ∃ e ∈ s.endpoints, s.fleet.find? e = some r := by
  constructor
  · intro hr
    exact ⟨_, h.find?_endpoint hr⟩
  · rintro ⟨e, he, hfind⟩
    obtain ⟨r', hr', hfind'⟩ := h.serves.covers.found e he
    exact Option.some.inj (hfind'.symm.trans hfind) ▸ hr'

theorem At.endpoint_of_find? (h : s.At c p) {e : Endpoint} {r : LoadRef}
    (hr : s.fleet.find? e = some r) : p.1.endpoint r = e ∧ r.place < p.1.states.size := by
  obtain ⟨d, hreg, -⟩ := h.serves.registered
  rw [Fleet.find?, hreg.directory] at hr
  obtain ⟨hplace, hend⟩ := hreg.lists e r hr
  rw [h.loads] at hplace hend
  exact ⟨hend, hplace⟩

theorem At.card_contents (h : s.At c p) :
    p.2.queue.contents.card = s.endpoints.toFinset.card := by
  have hn : p.2.queue.toList.Nodup := Multiset.coe_nodup.1 h.tidy.nodup
  have hends : (p.2.queue.toList.map p.1.endpoint).Nodup :=
    hn.map_on fun r hr r' hr' he => h.tidy.eq_of_endpoint_eq hr hr' he
  have heq : s.endpoints.toFinset = (p.2.queue.toList.map p.1.endpoint).toFinset := by
    ext e
    rw [List.mem_toFinset, List.mem_toFinset, List.mem_map]
    constructor
    · intro he
      obtain ⟨r, hr, hfind⟩ := h.serves.covers.found e he
      exact ⟨r, hr, (h.endpoint_of_find? hfind).1⟩
    · rintro ⟨r, hr, rfl⟩
      exact (h.find?_endpoint hr).1
  rw [heq, List.toFinset_card_of_nodup hends, List.length_map]
  rfl

theorem At.next (h : s.At c p) :
    (s.fleet.next s.place).1 =
        (Ranking.take s.fleet.now p).1.map (fun r => ⟨r, s.place, s.fleet.now, false⟩) ∧
      (s.apply .next).At c (Ranking.take s.fleet.now p).2 ∧
      (s.apply .next).fleet.clock = s.fleet.clock := by
  obtain ⟨t, k⟩ := p
  obtain rfl : s.fleet.loads = t := h.loads
  obtain ⟨hanswer, hm⟩ := Fleet.Alone.next h.serves.alone h.serves.tidy
  have hs := Fleet.Serves.moves h.serves hm h.serves.tidy.keeps_take
  refine ⟨hanswer, ?_⟩
  simp only [apply]
  cases hn : s.fleet.next s.place with
  | mk t f =>
    rw [hn] at hm hs
    cases t with
    | none => exact ⟨⟨hs, hm.loads⟩, hm.clock⟩
    | some t => exact ⟨⟨hs.tasks _, hm.loads⟩, hm.clock⟩

theorem apply_complete_eq_self {t : Nat}
    (h : ∀ ticket, s.fleet.task? t = some (.tracked ticket) → ticket.completed = true)
    (succeeded : Bool) (latency : Option Duration) :
    s.apply (.complete t succeeded latency) = s := by
  simp only [apply, Fleet.complete]
  split
  · rfl
  · rfl
  · next ticket ht => rw [if_pos (h ticket ht)]

theorem At.complete_open (h : s.At c p) {t : Nat} {ticket : Ticket}
    (ht : s.fleet.task? t = some (.tracked ticket)) (hopen : ticket.completed = false)
    (succeeded : Bool) (latency : Option Duration) :
    (s.apply (.complete t succeeded latency)).At c (Fleet.finished s.fleet.now ticket.load succeeded
        (latency.getD (s.fleet.elapsed ticket)) p) ∧
      (s.apply (.complete t succeeded latency)).fleet.clock = s.fleet.clock := by
  obtain ⟨loads, k⟩ := p
  obtain rfl : s.fleet.loads = loads := h.loads
  have htasks := h.serves.tasks (s.fleet.tasks.modify t fun _ =>
    some (.tracked { ticket with completed := true }))
  have hm := htasks.alone.moves_finish htasks.tidy ticket succeeded
    (latency.getD (s.fleet.elapsed ticket))
  simp only [apply, Fleet.complete, ht, hopen, Bool.false_eq_true, if_false]
  exact ⟨⟨htasks.moves hm (Fleet.keeps_finished htasks.tidy), hm.loads⟩, hm.clock⟩

theorem At.complete (h : s.At c p) (t : Nat) (succeeded : Bool) (latency : Option Duration) :
    ((∃ r l, (s.apply (.complete t succeeded latency)).At c
        (Fleet.finished s.fleet.now r succeeded l p)) ∨
      (s.apply (.complete t succeeded latency)).At c p) ∧
      (s.apply (.complete t succeeded latency)).fleet.clock = s.fleet.clock := by
  by_cases hopen : ∃ ticket, s.fleet.task? t = some (.tracked ticket) ∧ ticket.completed = false
  · obtain ⟨ticket, ht, hopen⟩ := hopen
    obtain ⟨hs, hclock⟩ := h.complete_open ht hopen succeeded latency
    exact ⟨.inl ⟨_, _, hs⟩, hclock⟩
  · rw [apply_complete_eq_self fun ticket ht =>
      eq_true_of_ne_false fun hfalse => hopen ⟨ticket, ht, hfalse⟩]
    exact ⟨.inr h, rfl⟩

theorem At.disable (h : s.At c p) (e : Endpoint) (disabled : Bool) :
    ((∃ r, s.fleet.find? e = some r ∧
        (s.apply (.disable e disabled)).At c (Fleet.switched s.fleet.now r disabled p)) ∨
      s.fleet.find? e = none ∧ (s.apply (.disable e disabled)).At c p) ∧
      (s.apply (.disable e disabled)).fleet.clock = s.fleet.clock := by
  obtain ⟨loads, k⟩ := p
  obtain rfl : s.fleet.loads = loads := h.loads
  simp only [apply]
  split
  · next r hr =>
    have hm := h.serves.alone.moves_setDisabled (r := r) h.serves.tidy disabled
    exact ⟨.inl ⟨r, hr, h.serves.moves hm (Fleet.keeps_switched h.serves.tidy), hm.loads⟩, hm.clock⟩
  · next hr => exact ⟨.inr ⟨hr, h⟩, rfl⟩

theorem At.clock (h : s.At c p) (clock : Clock) :
    ({ s with fleet := { s.fleet with clock } } : Solo).At c p :=
  ⟨h.serves.clock clock, h.loads⟩

end Solo

end LeastLoad
