import LeastLoad.Proofs.Fleet.Rooted

/-! # What is counted and who is told

A balancer counts the units that it hands out, those that are finished and the times when it found
nothing, and tells its listeners of each unit handed out or finished. Nothing else that happens in
a fleet is counted or told. -/

namespace LeastLoad

structure Tally where
  requests : Nat := 0
  exhausted : Nat := 0
  successes : Nat := 0
  failures : Nat := 0
  inflight : Int := 0

namespace Tally

def request (t : Tally) : Tally :=
  { t with requests := t.requests + 1, inflight := t.inflight + 1 }

def exhaust (t : Tally) : Tally := { t with exhausted := t.exhausted + 1 }

def complete (succeeded : Bool) (t : Tally) : Tally :=
  if succeeded then { t with successes := t.successes + 1, inflight := t.inflight - 1 }
  else { t with failures := t.failures + 1, inflight := t.inflight - 1 }

def of (tasks : List Nat) (n : Nat) (o : Nat → Option Bool) : Tally where
  requests := tasks.length
  exhausted := n
  successes := tasks.countP (o · = some true)
  failures := tasks.countP (o · = some false)
  inflight := tasks.countP (o · = none)

variable {tasks : List Nat} {n i : Nat} {o o' : Nat → Option Bool}

theorem of_cons (h : o i = none) : of (i :: tasks) n o = (of tasks n o).request := by
  simp [of, request, h]

theorem inflight_of : (of tasks n o).inflight =
    (of tasks n o).requests - (of tasks n o).successes - (of tasks n o).failures := by
  simp only [of]
  induction tasks with
  | nil => rfl
  | cons i tasks ih =>
    simp only [List.countP_cons, List.length_cons]
    rcases o i with _ | _ | _ <;> simp <;> omega

theorem countP_update (p p' : Nat → Bool) (hnodup : tasks.Nodup) (hi : i ∈ tasks)
    (hp : ∀ j, j ≠ i → p' j = p j) :
    tasks.countP p' + (if p i then 1 else 0) = tasks.countP p + if p' i then 1 else 0 := by
  have hperm := List.perm_cons_erase hi
  have herase : (tasks.erase i).countP p' = (tasks.erase i).countP p := by
    refine List.countP_congr fun j hj => ?_
    rw [hp j fun hji => hnodup.not_mem_erase (hji ▸ hj)]
  rw [hperm.countP_eq, hperm.countP_eq p, List.countP_cons, List.countP_cons, herase]
  omega

theorem of_complete {succeeded : Bool} (hnodup : tasks.Nodup) (hi : i ∈ tasks) (h : o i = none)
    (h' : o' i = some succeeded) (hrest : ∀ j, j ≠ i → o' j = o j) :
    of tasks n o' = (of tasks n o).complete succeeded := by
  have hcount : ∀ x : Option Bool, tasks.countP (o' · = x) + (if none = x then 1 else 0) =
      tasks.countP (o · = x) + if some succeeded = x then 1 else 0 := by
    intro x
    have hx := countP_update (o · = x) (o' · = x) hnodup hi fun j hj => by
      rw [hrest j hj]
    simpa [h, h'] using hx
  have hnone := hcount none
  have hfalse := hcount (some false)
  have htrue := hcount (some true)
  cases succeeded <;> simp [of, complete] at * <;> omega

theorem of_congr (h : ∀ j ∈ tasks, o' j = o j) : of tasks n o' = of tasks n o := by
  have hcount : ∀ x : Option Bool, tasks.countP (o' · = x) = tasks.countP (o · = x) :=
    fun x => List.countP_congr fun j hj => by rw [h j hj]
  simp only [of, hcount]

end Tally

def LogEntry.listener : LogEntry → Nat
  | heard place _ | failed place _ => place

namespace Listener

theorem filter_call (l : Listener) (place p : Nat) (event : Event) :
    (l.call place event).filter (·.listener = p) =
      if place = p then l.call place event else [] := by
  by_cases hp : place = p
  · subst hp
    rw [if_pos rfl, call]
    cases l.records <;> cases l.failsOn event <;> simp [LogEntry.listener]
  · rw [if_neg hp, call]
    cases l.records <;> cases l.failsOn event <;> simp [LogEntry.listener, hp]

/-- What a listener is called with does not depend on the others. -/
theorem filter_notifyAll (listeners : List Listener) (event : Event) (p : Nat) :
    (notifyAll listeners event).filter (·.listener = p) =
      listeners[p]?.elim [] (·.call p event) := by
  have hfrom : ∀ k, ((listeners.zipIdx k).flatMap fun x => x.1.call x.2 event).filter
      (·.listener = p) =
        if k ≤ p then listeners[p - k]?.elim [] (·.call p event) else [] := by
    induction listeners with
    | nil => simp
    | cons l listeners ih =>
      intro k
      rw [List.zipIdx_cons, List.flatMap_cons, List.filter_append, filter_call, ih]
      rcases Nat.lt_trichotomy k p with hlt | rfl | hgt
      · obtain ⟨j, rfl⟩ : ∃ j, p = k + 1 + j := ⟨p - (k + 1), by omega⟩
        have hj : k + 1 + j - k = j + 1 := by omega
        simp [hlt.ne, hlt.le, hj]
      · simp
      · simp [hgt.ne', hgt.not_ge, (Nat.lt_succ_of_lt hgt).not_ge]
  exact (hfrom 0).trans (if_pos p.zero_le)

end Listener

namespace Telemetry

def tally (t : Telemetry) : Tally :=
  ⟨t.series.requests, t.series.exhausted, t.series.successes, t.series.failures, t.series.inflight⟩

variable {t : Telemetry} {now : Nat}

theorem tally_create {s : TelemetrySettings} {seed : UInt64} (h : create s seed now = .ok t) :
    t.tally = {} := by
  simp only [create, bind, Except.bind, pure, Except.pure] at h
  split at h
  · cases h
  · cases h
    rfl

@[simp] theorem tally_onRequest : (t.onRequest now).tally = t.tally.request := by
  rw [onRequest]
  dsimp only
  split <;> rfl

@[simp] theorem tally_onComplete (succeeded : Bool) :
    (t.onComplete now succeeded).tally = t.tally.complete succeeded := by
  cases succeeded <;> rfl

end Telemetry

theorem Balancer.take_record (x : Balancer) (now : Nat) (t : LoadTable) (words : Words) :
    (x.take now t words).2.1.telemetry = x.telemetry ∧
      (x.take now t words).2.1.listeners = x.listeners := by
  rw [take]
  split <;> exact ⟨rfl, rfl⟩

namespace Fleet

variable {f f' f'' : Fleet} {b : Nat} {r : LoadRef} {c : LoadSettings} {es : List Endpoint}
  {states : List LoadRef} {g : Tally → Tally} {events : List Event}

def account? (f : Fleet) (b : Nat) : Option (Tally × List Listener) :=
  (f.balancer? b).map fun x => (x.telemetry.tally, x.listeners)

def listeners (f : Fleet) (b : Nat) : List Listener := (f.account? b).elim [] (·.2)

/-- Nothing is counted or told, and no task changes. -/
structure Quiet (f f' : Fleet) : Prop where
  tasks : f'.tasks = f.tasks
  places : f'.seats.size = f.seats.size
  accounts : ∀ b, f'.account? b = f.account? b
  log : f'.log = f.log

/-- The counts of one balancer change by `g`, and its listeners are told of the events. -/
structure Records (b : Nat) (g : Tally → Tally) (events : List Event) (f f' : Fleet) : Prop where
  tasks : f'.tasks = f.tasks
  places : f'.seats.size = f.seats.size
  accounts : ∀ b', f'.account? b' = (f.account? b').map (Prod.map (if b = b' then g else id) id)
  log : f'.log.toList = f.log.toList ++ events.flatMap (Listener.notifyAll (f.listeners b))

theorem Quiet.refl : Quiet f f := ⟨rfl, rfl, fun _ => rfl, rfl⟩

theorem Quiet.trans (h : Quiet f f') (h' : Quiet f' f'') : Quiet f f'' :=
  ⟨h'.tasks.trans h.tasks, h'.places.trans h.places, fun b => (h'.accounts b).trans (h.accounts b),
    h'.log.trans h.log⟩

theorem Quiet.records (h : Quiet f f') (h' : Records b g events f' f'') :
    Records b g events f f'' := by
  refine ⟨h'.tasks.trans h.tasks, h'.places.trans h.places, fun b' => ?_, ?_⟩
  · rw [h'.accounts, h.accounts]
  · rw [h'.log, h.log, listeners, h.accounts, listeners]

theorem account?_modifyBalancer (f : Fleet) (b b' : Nat) (u : Balancer → Balancer) :
    (f.modifyBalancer b u).account? b' = if b = b'
      then (f.balancer? b').map fun x => ((u x).telemetry.tally, (u x).listeners)
      else f.account? b' := by
  rw [account?, balancer?_modifyBalancer]
  split
  · rw [Option.map_map]
    rfl
  · rfl

theorem quiet_modifyBalancer {u : Balancer → Balancer}
    (hu : ∀ x, f.balancer? b = some x →
      (u x).telemetry.tally = x.telemetry.tally ∧ (u x).listeners = x.listeners) :
    Quiet f (f.modifyBalancer b u) := by
  refine ⟨rfl, places_modifyBalancer _ _ _, fun b' => ?_, rfl⟩
  rw [account?_modifyBalancer]
  split
  · next hb =>
    subst hb
    rw [account?]
    cases hx : f.balancer? b with
    | none => rfl
    | some x => simp [hu x hx]
  · rfl

theorem quiet_loads (f : Fleet) (t : LoadTable) (words : Words) :
    Quiet f { f with loads := t, words := words } :=
  ⟨rfl, rfl, fun _ => rfl, rfl⟩

theorem quiet_modifyRanking (f : Fleet) (b : Nat)
    (u : LoadTable × Ranking → LoadTable × Ranking) : Quiet f (f.modifyRanking b u) := by
  rw [modifyRanking]
  split
  · next k telemetry listeners hx =>
    refine (f.quiet_loads _ f.words).trans (quiet_modifyBalancer fun x hx' => ?_)
    obtain rfl := Option.some.inj (hx.symm.trans hx')
    exact ⟨rfl, rfl⟩
  · exact .refl

theorem quiet_announce (f : Fleet) (r : LoadRef) (since : Nat) : Quiet f (f.announce r since) := by
  rw [announce]
  exact List.foldlRecOn (motive := fun f' : Fleet => Quiet f f') _ _ .refl
    fun f' hf b _ => hf.trans (f'.quiet_modifyRanking b _)

theorem quiet_release (f : Fleet) (r : LoadRef) (n : Int32) (latency : Duration) :
    Quiet f (f.release r n latency) :=
  (f.quiet_loads _ f.words).trans (quiet_announce _ r 0)

theorem quiet_penalize (f : Fleet) (r : LoadRef) (latency : Duration) :
    Quiet f (f.penalize r latency).2 := by
  rw [penalize]
  split
  · exact .refl
  · exact (f.quiet_loads _ f.words).trans (quiet_announce _ r _)

theorem quiet_setDisabled (f : Fleet) (r : LoadRef) (disabled : Bool) :
    Quiet f (f.setDisabled r disabled) := by
  rw [setDisabled]
  split
  · exact (f.quiet_loads _ f.words).trans (quiet_announce _ r 0)
  · exact f.quiet_loads _ f.words

theorem quiet_report (f : Fleet) (b : Nat) : Quiet f (f.report b).2 := by
  rw [report]
  split
  · exact .refl
  · next x hx =>
    refine quiet_modifyBalancer fun y hy => ?_
    obtain rfl := Option.some.inj (hx.symm.trans hy)
    exact ⟨rfl, rfl⟩

theorem quiet_dropBalancer (f : Fleet) (b : Nat) : Quiet f (f.dropBalancer b).2 := by
  refine ⟨rfl, by simp [dropBalancer], fun b' => ?_, rfl⟩
  simp only [dropBalancer, account?, balancer?, Array.getElem?_modify]
  split
  · cases f.seats[b']? <;> rfl
  · rfl

theorem quiet_prune (f : Fleet) : Quiet f f.prune.2 := by
  rw [rest_prune]
  exact ⟨rfl, rfl, fun _ => rfl, rfl⟩

theorem quiet_publish (f : Fleet) (b : Nat) : Quiet f (f.publish b) := by
  rw [rest_publish]
  exact ⟨rfl, rfl, fun _ => rfl, rfl⟩

theorem Resolves.quiet (h : Resolves c es states f f') : Quiet f f' := by
  rw [h.rest]
  exact ⟨rfl, rfl, fun _ => rfl, rfl⟩

theorem Installs.quiet (h : Installs b states f f') : Quiet f f' := by
  refine ⟨by rw [h.rest], h.places, fun b' => ?_, by rw [h.rest]⟩
  rw [account?, h.balancer?, account?]
  split
  · rw [Option.map_map]
    rfl
  · rfl

theorem Rooted.quiet_update (h : f.Rooted c) (hok : f.update b es = .ok f') : Quiet f f' := by
  obtain ⟨states, f₁, hres, rfl⟩ := h.update_cases hok
  exact hres.quiet.trans ((f₁.installs b states).quiet.trans (quiet_prune _))

theorem account?_seat (f : Fleet) (x : Option Balancer) (b : Nat) :
    (f.seat x).2.account? b = if b = f.seats.size
      then x.map fun x => (x.telemetry.tally, x.listeners) else f.account? b := by
  simp only [account?, balancer?, seat, Array.getElem?_push]
  split <;> rfl

theorem Rooted.account?_build (h : f.Rooted c) {selection : Selection}
    {settings : TelemetrySettings} {listeners : List Listener}
    (hok : f.build selection settings listeners es = .ok (b, f')) :
    f'.tasks = f.tasks ∧ f'.log = f.log ∧ b = f.seats.size ∧ f'.seats.size = f.seats.size + 1 ∧
      ∀ b', f'.account? b' = if b' = b then some ({}, listeners) else f.account? b' := by
  obtain ⟨telemetry, states, f₁, htel, hres, rfl, rfl⟩ := h.build_cases hok
  have hq := hres.quiet
  have hq' := ((f₁.seat (some ⟨selection, telemetry, listeners⟩)).2.installs f.seats.size
    states).quiet.trans (quiet_publish _ f.seats.size)
  refine ⟨hq'.tasks.trans hq.tasks, hq'.log.trans hq.log, rfl, ?_, fun b' => ?_⟩
  · rw [hq'.places, ← hq.places]
    exact Array.size_push _
  · rw [hq'.accounts, account?_seat, hq.places, hq.accounts]
    split
    · rw [← Telemetry.tally_create htel]
      rfl
    · rfl

theorem records_modifyBalancer {u : Balancer → Balancer}
    (hu : ∀ x, f.balancer? b = some x →
      (u x).telemetry.tally = g x.telemetry.tally ∧ (u x).listeners = x.listeners) :
    Records b g [] f (f.modifyBalancer b u) := by
  refine ⟨rfl, places_modifyBalancer _ _ _, fun b' => ?_, (List.append_nil _).symm⟩
  rw [account?_modifyBalancer]
  split
  · next hb =>
    subst hb
    rw [account?]
    cases hx : f.balancer? b with
    | none => rfl
    | some x => simp [hu x hx]
  · exact Option.map_id_apply.symm

theorem Records.notify (h : Records b g [] f f') {listeners : List Listener}
    (hl : listeners = f.listeners b) (event : Event) :
    Records b g [event] f (f'.notify listeners event) := by
  refine ⟨h.tasks, h.places, h.accounts, ?_⟩
  rw [Fleet.notify, Array.toList_append, h.log, hl]
  simp

theorem listeners_of_balancer? {x : Balancer} (hx : f.balancer? b = some x) :
    f.listeners b = x.listeners := by
  rw [listeners, account?, hx]
  rfl

theorem records_next_none (hn : (f.next b).1 = none) : Records b .exhaust [] f (f.next b).2 := by
  rw [next] at hn ⊢
  cases hx : f.balancer? b with
  | none =>
    refine ⟨rfl, rfl, fun b' => ?_, (List.append_nil _).symm⟩
    change f.account? b' = _
    split
    · next hb =>
      rw [← hb, account?, hx]
      rfl
    · exact Option.map_id_apply.symm
  | some x =>
    rw [hx] at hn
    have hrecord := x.take_record f.now f.loads f.words
    dsimp only at hn ⊢
    generalize x.take f.now f.loads f.words = taken at hn hrecord
    obtain ⟨choice, y, loads, words⟩ := taken
    cases choice with
    | some r => cases hn
    | none =>
      refine (f.quiet_loads loads words).records (records_modifyBalancer fun x' hx' => ?_)
      obtain rfl := Option.some.inj (hx.symm.trans hx')
      exact ⟨congrArg (·.tally.exhaust) hrecord.1, hrecord.2⟩

theorem Coherent.records_next (h : f.Coherent) {t : Ticket} (hn : (f.next b).1 = some t) :
    Records b .request [.created (f.loads.endpoint t.load)] f (f.next b).2 ∧
      t.completed = false := by
  have hend := (h.shifts_next b).1.loads.endpoint t.load
  rw [next] at hn hend ⊢
  cases hx : f.balancer? b with
  | none =>
    rw [hx] at hn
    cases hn
  | some x =>
    rw [hx] at hn hend
    have hrecord := x.take_record f.now f.loads f.words
    dsimp only at hn hend ⊢
    generalize x.take f.now f.loads f.words = taken at hn hend hrecord
    obtain ⟨choice, y, loads, words⟩ := taken
    cases choice with
    | none => cases hn
    | some r =>
      obtain rfl := Option.some.inj hn
      have hset : Records b .request [] f (setBalancer { f with loads := loads, words := words } b
          { y with telemetry := y.telemetry.onRequest f.now }) := by
        refine (f.quiet_loads loads words).records (records_modifyBalancer fun x' hx' => ?_)
        obtain rfl := Option.some.inj (hx.symm.trans hx')
        refine ⟨?_, hrecord.2⟩
        rw [Telemetry.tally_onRequest, hrecord.1]
      have hl : y.listeners = f.listeners b := hrecord.2.trans (listeners_of_balancer? hx).symm
      have hend : loads.endpoint r = f.loads.endpoint r := hend
      refine ⟨?_, rfl⟩
      change Records b .request [.created (f.loads.endpoint r)] f _
      rw [← hend]
      exact hset.notify hl _

theorem Coherent.records_finish (h : f.Coherent) (t : Ticket) (succeeded : Bool)
    (latency : Duration) : Records t.balancer (.complete succeeded)
      [.completed (f.loads.endpoint t.load) succeeded] f (f.finish t succeeded latency) := by
  have hend := (h.shifts_finish t succeeded latency).loads.endpoint t.load
  have hq : Quiet f ((if succeeded then f else (f.penalize t.load latency).2).release t.load 1
      latency) := by
    refine Quiet.trans ?_ (quiet_release _ _ _ _)
    split
    · exact .refl
    · exact f.quiet_penalize t.load latency
  rw [finish] at hend ⊢
  generalize (if succeeded then f else (f.penalize t.load latency).2).release t.load 1 latency = f₁
    at hq hend
  have hset := records_modifyBalancer (f := f₁) (b := t.balancer) (g := .complete succeeded)
    (u := fun x => { x with telemetry := x.telemetry.onComplete f₁.now succeeded })
    fun x _ => ⟨Telemetry.tally_onComplete succeeded, rfl⟩
  have hl : ((f₁.modifyBalancer t.balancer fun x =>
      { x with telemetry := x.telemetry.onComplete f₁.now succeeded }).balancer? t.balancer).elim []
        (·.listeners) = f₁.listeners t.balancer := by
    rw [balancer?_modifyBalancer, if_pos rfl, listeners, account?]
    cases f₁.balancer? t.balancer <;> rfl
  refine hq.records ?_
  rw [← hend]
  exact hset.notify hl _

end Fleet

end LeastLoad
