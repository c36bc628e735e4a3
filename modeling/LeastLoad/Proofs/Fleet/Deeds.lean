import LeastLoad.Proofs.Fleet.Rooted

/-! # Everything that can be done with a fleet

Beside what is done with balancers and tasks, a state may be held from outside and worked on
directly, handles may be given up in any order, and what nobody holds may be forgotten at any time.
A run keeps what was done, and in which state of the fleet. -/

namespace LeastLoad

inductive Adjustment where
  | acquire (n : Int32)
  | release (n : Int32) (latency : Duration)
  | penalize (latency : Duration)
  | sync
  | disable (disabled : Bool)

namespace Fleet

variable {f f' start : Fleet} {b : Nat} {r : LoadRef} {c : LoadSettings} {es : List Endpoint}

inductive Deed where
  | call (c : Call)
  | adjust (r : LoadRef) (a : Adjustment)
  | resolve (es : List Endpoint)
  | hold (e : Endpoint)
  | letGo (e : Endpoint)
  | dropTask (t : Nat)
  | dropBalancer (b : Nat)
  | prune
  | refresh (b : Nat)
  | report (b : Nat)

def Deed.asks : Deed → Option Nat
  | .call (.next b) => some b
  | _ => none

def adjust (f : Fleet) (r : LoadRef) : Adjustment → Fleet
  | .acquire n => f.acquire r n
  | .release n latency => f.release r n latency
  | .penalize latency => (f.penalize r latency).2
  | .sync => f.sync r
  | .disable disabled => f.setDisabled r disabled

def perform (f : Fleet) : Deed → Fleet
  | .call c => f.apply c
  | .adjust r a => f.adjust r a
  | .resolve es =>
    match f.resolve es with
    | .ok (_, f) => f
    | .error _ => f
  | .hold e =>
    match f.getOrCreate e with
    | .ok (some r, f) => f.hold r
    | .ok (none, f) => f
    | .error _ => f
  | .letGo e => f.letGo e
  | .dropTask t => (f.dropTask t).2
  | .dropBalancer b => (f.dropBalancer b).2
  | .prune => f.prune.2
  | .refresh b => f.refresh b
  | .report b => (f.report b).2

theorem perform_build {s : Settings} {strategy : Strategy} {listeners : List Listener}
    (h : f.build (strategy.selection s) s.telemetry listeners es = .ok (b, f')) :
    f.perform (.call (.build s strategy listeners es)) = f' := by
  simp only [perform, apply, h]

theorem perform_next_some {t : Ticket} (h : (f.next b).1 = some t) :
    f.perform (.call (.next b)) = ((f.next b).2.keep (.tracked t)).2 := by
  simp only [perform, apply]
  generalize f.next b = asked at h
  obtain ⟨answer, f'⟩ := asked
  obtain rfl := h
  rfl

theorem perform_next_none (h : (f.next b).1 = none) :
    f.perform (.call (.next b)) = (f.next b).2 := by
  simp only [perform, apply]
  generalize f.next b = asked at h
  obtain ⟨answer, f'⟩ := asked
  obtain rfl := h
  rfl

/-- A balancer is called only while its handle is kept. -/
def Allowed (f : Fleet) : Deed → Prop
  | .call (.next b) | .call (.update b _) | .refresh b | .report b => f.isHeld b = true
  | _ => True

/-- What was done, and in which states, the latest first. -/
inductive Runs (permits : Fleet → Deed → Prop) (start : Fleet) : List (Fleet × Deed) → Fleet → Prop
  | start : Runs permits start [] start
  | step {past : List (Fleet × Deed)} {f : Fleet} (d : Deed) : Runs permits start past f →
      permits f d → Runs permits start ((f, d) :: past) (f.perform d)

theorem Runs.mono {permits permits' : Fleet → Deed → Prop} {past : List (Fleet × Deed)}
    (h : Runs permits start past f) (hp : ∀ f d, permits f d → permits' f d) :
    Runs permits' start past f := by
  induction h with
  | start => exact .start
  | step d _ hd ih => exact ih.step d (hp _ _ hd)

def assigned (f : Fleet) (b : Nat) : Deed → Option (List Endpoint)
  | .call (.build s strategy listeners es) =>
    match f.build (strategy.selection s) s.telemetry listeners es with
    | .ok (b', _) => if b' = b then some es else none
    | .error _ => none
  | .call (.update b' es) =>
    match f.update b' es with
    | .ok _ => if b' = b then some es else none
    | .error _ => none
  | _ => none

/-- What a deed makes of a fleet: loads move, or a task is kept, or endpoints are resolved and
perhaps given to somebody, or something is given up or forgotten. -/
inductive Effect (c : LoadSettings) (f : Fleet) : Deed → Fleet → Prop
  | shifts {d : Deed} {f' : Fleet} : (∀ b, f.assigned b d = none) → Shifts f f' → Effect c f d f'
  | keeps {b : Nat} {t : Ticket} : f.isHeld b = true → (f.next b).1 = some t →
      Effect c f (.call (.next b)) ((f.next b).2.keep (.tracked t)).2
  | resolves {es : List Endpoint} {states : List LoadRef} {f' : Fleet} :
      Resolves c es states f f' → Effect c f (.resolve es) f'
  | holds {e : Endpoint} {r : LoadRef} {f' : Fleet} :
      Resolves c [e] [r] f f' → Effect c f (.hold e) (f'.hold r)
  | builds {s : Settings} {strategy : Strategy} {listeners : List Listener} {es : List Endpoint}
      {b : Nat} {f' : Fleet} :
      f.build (strategy.selection s) s.telemetry listeners es = .ok (b, f') →
      Effect c f (.call (.build s strategy listeners es)) f'
  | updates {b : Nat} {es : List Endpoint} {f' : Fleet} :
      f.update b es = .ok f' → Effect c f (.call (.update b es)) f'
  | drops {d : Deed} {f' : Fleet} : (∀ b, f.assigned b d = none) → Fewer f f' → Effect c f d f'
  | prunes : Effect c f .prune f.prune.2

theorem Coherent.shifts_adjust (h : f.Coherent) (r : LoadRef) (a : Adjustment) :
    Shifts f (f.adjust r a) := by
  cases a with
  | acquire n => exact h.shifts_update r (fun _ => rfl) fun _ => EndpointLoad.kind_acquire n
  | release n latency => exact h.shifts_release r n latency
  | penalize latency => exact h.shifts_penalize r latency
  | sync =>
    exact h.shifts_update r (fun _ => EndpointLoad.endpoint_sync) fun _ => EndpointLoad.kind_sync
  | disable disabled => exact h.shifts_setDisabled r disabled

theorem Coherent.shifts_clock (h : f.Coherent) (clock : Clock) : Shifts f { f with clock } :=
  ⟨rfl, rfl, rfl, fun _ => rfl, fun _ => rfl, .refl, h.still .refl⟩

theorem resolve_of_getOrCreate {e : Endpoint} {found : Option LoadRef}
    (hok : f.getOrCreate e = .ok (found, f')) : f.resolve [e] = .ok (found.toList, f') := by
  cases hd : f.directory with
  | none =>
    simp only [getOrCreate, hd] at hok
    cases hok
    simp only [resolve, hd]
    rfl
  | some d =>
    simp only [getOrCreate, hd, bind, Except.bind, pure, Except.pure] at hok
    split at hok
    · cases hok
    · next x hx =>
      cases hok
      simp only [resolve, hd, Directory.resolve, hx, bind, Except.bind, pure, Except.pure]
      rfl

theorem Rooted.effect (h : f.Rooted c) {d : Deed} (hd : Allowed f d) :
    Effect c f d (f.perform d) := by
  have hco := h.coherent
  cases d with
  | call call =>
    cases call with
    | build s strategy listeners es =>
      simp only [perform, apply]
      cases hok : f.build (strategy.selection s) s.telemetry listeners es with
      | error e => exact .shifts (fun b => by simp only [assigned, hok]) hco.refl
      | ok x => exact .builds hok
    | next b =>
      cases hn : (f.next b).1 with
      | none =>
        rw [perform_next_none hn]
        exact .shifts (fun _ => rfl) (hco.shifts_next b).1
      | some t =>
        rw [perform_next_some hn]
        exact .keeps hd hn
    | complete t succeeded latency =>
      exact .shifts (fun _ => rfl) (hco.shifts_complete t succeeded latency)
    | update b es =>
      simp only [perform, apply]
      cases hok : f.update b es with
      | error e => exact .shifts (fun b => by simp only [assigned, hok]) hco.refl
      | ok f' => exact .updates hok
    | advance d => exact .shifts (fun _ => rfl) (hco.shifts_clock _)
    | set d => exact .shifts (fun _ => rfl) (hco.shifts_clock _)
  | adjust r a => exact .shifts (fun _ => rfl) (hco.shifts_adjust r a)
  | resolve es =>
    simp only [perform]
    cases hok : f.resolve es with
    | error e => exact .shifts (fun _ => rfl) hco.refl
    | ok x => exact .resolves (h.resolve hok)
  | hold e =>
    simp only [perform]
    cases hok : f.getOrCreate e with
    | error e => exact .shifts (fun _ => rfl) hco.refl
    | ok x =>
      obtain ⟨found, f'⟩ := x
      have hres := h.resolve (resolve_of_getOrCreate hok)
      cases found with
      | none =>
        -- there is a directory, so a state is found
        obtain ⟨d, -, hd⟩ := hres.resolved
        cases hd.found
      | some r => exact .holds hres
  | letGo e => exact .drops (fun _ => rfl) (f.fewer_letGo e)
  | dropTask t => exact .drops (fun _ => rfl) (f.fewer_dropTask t)
  | dropBalancer b => exact .drops (fun _ => rfl) (f.fewer_dropBalancer b)
  | prune => exact .prunes
  | refresh b => exact .shifts (fun _ => rfl) (hco.shifts_refresh b)
  | report b => exact .shifts (fun _ => rfl) (hco.shifts_report b)

theorem Rooted.hold (h : f.Rooted c) (hr : f.find? (f.loads.endpoint r) = some r) :
    (f.hold r).Rooted c := by
  refine h.of_holds rfl rfl (fun _ => rfl) fun x s hs => ?_
  cases x with
  | task i => exact h.listed (.task i) s hs
  | balancer b => exact h.listed (.balancer b) s hs
  | outside =>
    rcases List.mem_cons.1 hs with rfl | hs
    · exact hr
    · exact h.listed .outside s hs

theorem Resolves.find?_endpoint {states : List LoadRef} (h : Resolves c es states f f')
    (hr : r ∈ states) : f'.find? (f'.loads.endpoint r) = some r := by
  obtain ⟨d, hd, hres⟩ := h.resolved
  rw [find?, hd]
  exact (hres.find?_endpoint hr).1

theorem Rooted.perform (h : f.Rooted c) {d : Deed} (hd : Allowed f d) :
    (f.perform d).Rooted c := by
  have heffect := h.effect hd
  generalize f.perform d = f' at heffect
  cases heffect with
  | shifts _ hs => exact h.shifts hs
  | @keeps b t hb ht =>
    obtain ⟨hs, hmember⟩ := h.coherent.shifts_next b
    obtain ⟨rfl, x, hx, hr⟩ := hmember t ht
    have hsel := hs.selections t.balancer
    rw [hx] at hsel
    cases hx' : (f.next t.balancer).2.selection? t.balancer with
    | none =>
      rw [hx'] at hsel
      cases hsel
    | some x' =>
      rw [hx'] at hsel
      cases hsel with
      | some hsel =>
        exact (h.shifts hs).keep ((hs.handles _).trans hb) hx' (hsel.mem_members.2 hr)
  | resolves hres => exact hres.rooted
  | holds hres => exact hres.rooted.hold (hres.find?_endpoint List.mem_cons_self)
  | builds hok => exact h.build hok
  | updates hok => exact h.update hok
  | drops _ hf => exact h.fewer hf
  | prunes => exact h.prune

theorem Rooted.loads_cases (h : f.Rooted c) {d : Deed} (hd : Allowed f d) :
    LoadTable.Kindred f.loads (f.perform d).loads ∨
      f.loads.Grows c f.now (f.perform d).loads := by
  have heffect := h.effect hd
  generalize f.perform d = f' at heffect
  cases heffect with
  | shifts _ hs => exact .inl hs.loads
  | @keeps b t _ _ => exact .inl (h.coherent.shifts_next b).1.loads
  | resolves hres => exact .inr hres.grows
  | holds hres => exact .inr hres.grows
  | builds hok =>
    obtain ⟨-, states, f₁, hres, hloads, -⟩ := h.selection?_build hok
    rw [hloads]
    exact .inr hres.grows
  | @updates b es _ hok =>
    obtain ⟨states, f₁, hres, rfl⟩ := h.update_cases hok
    rw [loads_prune, (f₁.installs b states).rest]
    exact .inr hres.grows
  | drops _ hf =>
    rw [hf.loads]
    exact .inr .refl
  | prunes =>
    rw [loads_prune]
    exact .inr .refl

theorem Rooted.loads_perform (h : f.Rooted c) {d : Deed} (hd : Allowed f d) :
    f.loads.states.size ≤ (f.perform d).loads.states.size ∧
      ∀ r : LoadRef, r.place < f.loads.states.size →
        (f.perform d).loads.endpoint r = f.loads.endpoint r := by
  obtain hk | hg := h.loads_cases hd
  · exact ⟨hk.size.ge, fun r _ => hk.endpoint r⟩
  · exact ⟨hg.size, fun r hr => congrArg EndpointLoad.endpoint (hg.loads r hr)⟩

theorem Rooted.made_perform (h : f.Rooted c) {d : Deed} (hd : Allowed f d)
    (hr : f.loads.states.size ≤ r.place) (hlt : r.place < (f.perform d).loads.states.size) :
    ∃ e, EndpointLoad.create e c f.now = .ok ((f.perform d).loads.load r) := by
  obtain hk | hg := h.loads_cases hd
  · rw [hk.size] at hlt
    exact absurd hlt (Nat.not_lt.2 hr)
  · exact hg.fresh r hr hlt

/-- A fleet in which nothing has been made but the directory, and nothing is kept. -/
structure Blank (f : Fleet) (c : LoadSettings) : Prop extends Fresh f c where
  tasks : f.tasks = #[]
  held : f.held = []

theorem exists_blank (c : LoadSettings) : ∃ f : Fleet, f.Blank c ∧ f.now = 0 :=
  ⟨{ clock := ⟨0, Nat.zero_le _⟩, directory := some { settings := c } },
    ⟨⟨rfl, rfl, fun _ => by simp, rfl⟩, rfl, rfl⟩, rfl⟩

theorem Blank.stub? (h : f.Blank c) (i : Nat) : f.stub? i = none := by
  rw [Fleet.stub?, task?, h.tasks]
  rfl

theorem Blank.selection? (h : f.Blank c) (b : Nat) : f.selection? b = none := by
  rw [Fleet.selection?, balancer?, h.seats]
  rfl

theorem Blank.rooted (h : f.Blank c) : f.Rooted c := by
  refine ⟨fun b k hk => ?_, ⟨_, h.directory, rfl, fun e r hr => ?_⟩, fun x r hr => ?_,
    fun r hr => ?_⟩
  · rw [h.selection?] at hk
    cases hk
  · simp [Directory.find?] at hr
  · cases x with
    | task i =>
      obtain ⟨b, hi⟩ := hr
      rw [h.stub?] at hi
      cases hi
    | balancer b =>
      obtain ⟨-, x, hx, -⟩ := hr
      rw [h.selection?] at hx
      cases hx
    | outside =>
      rw [Holds, h.held] at hr
      cases hr
  · rw [h.loads] at hr
    cases hr

theorem Runs.rooted {past : List (Fleet × Deed)} (h : Runs Allowed start past f)
    (hstart : start.Blank c) : f.Rooted c := by
  induction h with
  | start => exact hstart.rooted
  | step d _ hd ih => exact ih.perform hd

end Fleet

end LeastLoad
