import LeastLoad.Proofs.Fleet.Deeds

/-! # What a builder shares

The directory is opened by the first call that needs it and finds nothing wrong with the settings,
and keeps these settings whatever the builder is told later. Nothing but the settings can be wrong:
once they have been found right, meters, endpoint states and balancers can always be made, and a
call that fails has changed nothing. -/

namespace LeastLoad

theorem Settings.windows_pos {s : Settings} (h : s.validate = .ok ()) : 0 < s.windows := by
  rw [validate] at h
  split at h
  · cases h
  · split at h
    · cases h
    · next hw => exact Nat.pos_of_ne_zero hw

/-- A fleet in which nothing has been made, not even the directory. -/
structure Fleet.Unopened (f : Fleet) : Prop where
  directory : f.directory = none
  loads : f.loads = {}
  watchers : ∀ r, f.watchers.getD r [] = []
  seats : f.seats = #[]
  tasks : f.tasks = #[]
  held : f.held = []

theorem Fleet.Unopened.blank {f : Fleet} (h : f.Unopened) (c : LoadSettings) :
    ({ f with directory := some { settings := c } } : Fleet).Blank c :=
  ⟨⟨rfl, h.loads, h.watchers, h.seats⟩, h.tasks, h.held⟩

namespace Builder

variable {b start : Builder} {s : Settings} {e : BuildError}

theorem validate_of_settings (h : b.settings = .ok s) : s.validate = .ok () := by
  rw [settings, Config.Layers.settings] at h
  split at h
  · cases h
  · split at h
    · cases h
    · next hv =>
      cases h
      exact hv

theorem openDirectory_of_some {d : Directory} (hd : b.fleet.directory = some d) :
    b.openDirectory = (.ok (), b) := by
  rw [openDirectory, hd]

theorem openDirectory_of_error (hd : b.fleet.directory = none) (hs : b.settings = .error e) :
    b.openDirectory = (.error e, b) := by
  rw [openDirectory, hd, hs]

theorem openDirectory_of_ok (hd : b.fleet.directory = none) (hs : b.settings = .ok s) :
    b.openDirectory = (.ok (),
      { b with fleet := { b.fleet with directory := some { settings := s.load } } }) := by
  rw [openDirectory, hd, hs]

theorem build_of_error (hs : b.settings = .error e) (strategy : Strategy) :
    b.build strategy = (.error e, b) := by
  rw [build, hs]

/-- A fleet that shares its loads as settings ask for that nothing was wrong with. -/
structure Opened (f : Fleet) (s : Settings) : Prop where
  valid : s.validate = .ok ()
  rooted : f.Rooted s.load

theorem Opened.directory {f : Fleet} (h : Opened f s) :
    ∃ d, f.directory = some d ∧ d.settings = s.load ∧ 0 < d.settings.windows := by
  obtain ⟨d, hd, hsettings, -⟩ := h.rooted.registered
  refine ⟨d, hd, hsettings, ?_⟩
  rw [hsettings]
  exact Settings.windows_pos h.valid

theorem build_of_opened {c s : Settings} {b' : Builder} (hs : b.settings = .ok s)
    (hopen : b.openDirectory = (.ok (), b')) (h : Opened b'.fleet c) (strategy : Strategy) :
    ∃ place f, b'.fleet.build (strategy.selection s) s.telemetry b.listeners b.endpoints =
        .ok (place, f) ∧ b.build strategy = (.ok place, { b' with fleet := f }) := by
  obtain ⟨d, hd, -, hw⟩ := h.directory
  obtain ⟨place, f, hok⟩ := Fleet.exists_build hd hw (strategy.selection s) s.telemetry
    (Settings.windows_pos (validate_of_settings hs)) b.listeners b.endpoints
  refine ⟨place, f, hok, ?_⟩
  rw [build, hs]
  simp only [withDirectory, hopen, Fleet.tryBuild, hok]
  rfl

inductive Deed where
  | configure (s : Config.Source)
  | use (es : List Endpoint)
  | listen (l : Listener)
  | openDirectory
  | build (strategy : Strategy)
  | time (clock : Clock)
  | fleet (d : Fleet.Deed)

def perform (b : Builder) : Deed → Builder
  | .configure s => b.configure s
  | .use es => { b with endpoints := es }
  | .listen l => { b with listeners := b.listeners ++ [l] }
  | .openDirectory => b.openDirectory.2
  | .build strategy => (b.build strategy).2
  | .time clock => { b with fleet := { b.fleet with clock } }
  | .fleet d => { b with fleet := b.fleet.perform d }

/-- Only builders build, and there is nothing to work on before there is a directory. -/
def Allowed (b : Builder) : Deed → Prop
  | .fleet d => b.fleet.directory.isSome ∧ Fleet.Allowed b.fleet d ∧
      ∀ s strategy listeners es, d ≠ .call (.build s strategy listeners es)
  | _ => True

def opens (b : Builder) : Deed → Bool
  | .openDirectory => b.openDirectory.1.isOk
  | .build strategy => (b.build strategy).1.isOk
  | _ => false

/-- What was done, and with which builders, the latest first. -/
inductive Runs (start : Builder) : List (Builder × Deed) → Builder → Prop
  | start : Runs start [] start
  | step {past : List (Builder × Deed)} {b : Builder} (d : Deed) : Runs start past b →
      b.Allowed d → Runs start ((b, d) :: past) (b.perform d)

/-- The settings at the first deed that needed the directory and succeeded. -/
def opening (past : List (Builder × Deed)) : Option Settings :=
  (past.reverse.find? fun (b, d) => b.opens d).bind fun (b, _) => b.settings.toOption

theorem opening_cons_of_some {past : List (Builder × Deed)} (x : Builder × Deed)
    (h : opening past = some s) : opening (x :: past) = some s := by
  obtain ⟨first, hfirst, hs⟩ := Option.bind_eq_some_iff.1 h
  rw [opening, List.reverse_cons, List.find?_append, hfirst]
  exact hs

theorem opening_cons_of_none {past : List (Builder × Deed)} {d : Deed}
    (h : ∀ x ∈ past, x.1.opens x.2 = false) :
    opening ((b, d) :: past) = if b.opens d then b.settings.toOption else none := by
  have hnone : past.reverse.find? (fun x => x.1.opens x.2) = none :=
    List.find?_eq_none.2 fun x hx => by simp [h x (List.mem_reverse.1 hx)]
  rw [opening, List.reverse_cons, List.find?_append, hnone]
  cases hd : b.opens d <;> simp [hd]

theorem opening_eq_none {past : List (Builder × Deed)} (h : ∀ x ∈ past, x.1.opens x.2 = false) :
    opening past = none := by
  rw [opening, List.find?_eq_none.2 fun x hx => by simp [h x (List.mem_reverse.1 hx)]]
  rfl

theorem Opened.of_build {f f' : Fleet} {c : Settings} {strategy : Strategy} {place : Nat}
    {listeners : List Listener} {es : List Endpoint} (h : Opened f c)
    (hok : f.build (strategy.selection s) s.telemetry listeners es = .ok (place, f')) :
    Opened f' c ∧ f.loads.Grows c.load f.now f'.loads := by
  obtain ⟨-, states, f₁, hres, hloads, -⟩ := h.rooted.selection?_build hok
  rw [hloads]
  exact ⟨⟨h.valid, h.rooted.build hok⟩, hres.grows⟩

def Adds (c : LoadSettings) (f f' : Fleet) : Prop :=
  ∀ r : LoadRef, f.loads.states.size ≤ r.place → r.place < f'.loads.states.size →
    ∃ e, EndpointLoad.create e c f.now = .ok (f'.loads.load r)

theorem adds_of_loads_eq {c : LoadSettings} {f f' : Fleet} (h : f'.loads = f.loads) :
    Adds c f f' := by
  intro r hr hlt
  rw [h] at hlt
  exact absurd hlt (Nat.not_lt.2 hr)

theorem Opened.perform {d : Deed} (h : Opened b.fleet s) (hd : b.Allowed d) :
    Opened (b.perform d).fleet s ∧ Adds s.load b.fleet (b.perform d).fleet := by
  have hopen : b.openDirectory = (.ok (), b) := by
    obtain ⟨d, hd, -⟩ := h.directory
    exact openDirectory_of_some hd
  cases d with
  | configure s => exact ⟨h, adds_of_loads_eq rfl⟩
  | use es => exact ⟨h, adds_of_loads_eq rfl⟩
  | listen l => exact ⟨h, adds_of_loads_eq rfl⟩
  | openDirectory =>
    rw [Builder.perform, hopen]
    exact ⟨h, adds_of_loads_eq rfl⟩
  | build strategy =>
    cases hs : b.settings with
    | error e =>
      rw [Builder.perform, build_of_error hs]
      exact ⟨h, adds_of_loads_eq rfl⟩
    | ok now =>
      obtain ⟨place, f, hok, hbuild⟩ := build_of_opened hs hopen h strategy
      obtain ⟨hopened, hgrows⟩ := h.of_build hok
      rw [Builder.perform, hbuild]
      exact ⟨hopened, hgrows.fresh⟩
  | time clock =>
    exact ⟨⟨h.valid, h.rooted.shifts (h.rooted.coherent.shifts_clock clock)⟩, adds_of_loads_eq rfl⟩
  | fleet d =>
    exact ⟨⟨h.valid, h.rooted.perform hd.2.1⟩, fun r => h.rooted.made_perform hd.2.1⟩

theorem perform_of_unopened {d : Deed} (h : b.fleet.Unopened) (hd : b.Allowed d) :
    b.opens d = false ∧ (b.perform d).fleet.Unopened ∨
    b.opens d = true ∧ ∃ s, b.settings = .ok s ∧ Opened (b.perform d).fleet s ∧
      Adds s.load b.fleet (b.perform d).fleet := by
  cases d with
  | configure s => exact .inl ⟨rfl, h⟩
  | use es => exact .inl ⟨rfl, h⟩
  | listen l => exact .inl ⟨rfl, h⟩
  | openDirectory =>
    cases hs : b.settings with
    | error e =>
      rw [opens, Builder.perform, openDirectory_of_error h.directory hs]
      exact .inl ⟨rfl, h⟩
    | ok s =>
      rw [opens, Builder.perform, openDirectory_of_ok h.directory hs]
      exact .inr ⟨rfl, s, rfl, ⟨validate_of_settings hs, (h.blank s.load).rooted⟩,
        adds_of_loads_eq rfl⟩
  | build strategy =>
    cases hs : b.settings with
    | error e =>
      rw [opens, Builder.perform, build_of_error hs]
      exact .inl ⟨rfl, h⟩
    | ok s =>
      have hopened : Opened { b.fleet with directory := some { settings := s.load } } s :=
        ⟨validate_of_settings hs, (h.blank s.load).rooted⟩
      obtain ⟨place, f, hok, hbuild⟩ :=
        build_of_opened hs (openDirectory_of_ok h.directory hs) hopened strategy
      obtain ⟨hbuilt, hgrows⟩ := hopened.of_build hok
      rw [opens, Builder.perform, hbuild]
      exact .inr ⟨rfl, s, rfl, hbuilt, hgrows.fresh⟩
  | time clock => exact .inl ⟨rfl, h.directory, h.loads, h.watchers, h.seats, h.tasks, h.held⟩
  | fleet d =>
    obtain ⟨hsome, -⟩ := hd
    rw [h.directory] at hsome
    cases hsome

theorem Runs.opened {past : List (Builder × Deed)} (h : Runs start past b)
    (hstart : start.fleet.Unopened) :
    (b.fleet.Unopened ∧ ∀ x ∈ past, x.1.opens x.2 = false) ∨
      ∃ s, opening past = some s ∧ Opened b.fleet s := by
  induction h with
  | start => exact .inl ⟨hstart, fun _ hx => absurd hx List.not_mem_nil⟩
  | step d _ hd ih =>
    obtain ⟨hun, hpast⟩ | ⟨s, hs, hopened⟩ := ih
    · obtain ⟨hno, hun⟩ | ⟨hyes, s, hs, hopened, -⟩ := perform_of_unopened hun hd
      · exact .inl ⟨hun, List.forall_mem_cons.2 ⟨hno, hpast⟩⟩
      · refine .inr ⟨s, ?_, hopened⟩
        rw [opening_cons_of_none hpast, hyes, hs]
        rfl
    · exact .inr ⟨s, opening_cons_of_some _ hs, (hopened.perform hd).1⟩

/-- A balancer over the endpoints of `b` has been seated at `place`, which was free, and its handle
is kept. -/
structure Seats (b : Builder) (strategy : Strategy) (place : Nat) (b' : Builder) : Prop where
  free : place = b.fleet.seats.size
  held : b'.fleet.isHeld place = true
  selection : ∃ s states, b.settings = .ok s ∧
    states.map b'.fleet.loads.endpoint = b.endpoints ∧ b'.fleet.selection? place =
      some ((strategy.selection s).refilled b'.fleet.loads states)

theorem Opened.seats {f f' : Fleet} {c : Settings} {strategy : Strategy} {place : Nat}
    (h : Opened f c) (hseats : f.seats = b.fleet.seats) (hs : b.settings = .ok s)
    (hok : f.build (strategy.selection s) s.telemetry b.listeners b.endpoints = .ok (place, f')) :
    b.Seats strategy place { b with fleet := f' } := by
  obtain ⟨hplace, states, f₁, hres, hloads, hsel⟩ := h.rooted.selection?_build hok
  obtain ⟨d, -, hstates⟩ := hres.resolved
  exact ⟨hseats ▸ hplace, (h.rooted.rest_build hok).2, s, states, hs,
    hloads ▸ hstates.map_endpoint, hsel⟩

theorem Runs.exists_build {past : List (Builder × Deed)} (h : Runs start past b)
    (hstart : start.fleet.Unopened) (hs : b.settings = .ok s) (strategy : Strategy) :
    ∃ place b', b.build strategy = (.ok place, b') ∧ b.Seats strategy place b' := by
  obtain ⟨hun, -⟩ | ⟨c, -, hopened⟩ := h.opened hstart
  · have hopened : Opened { b.fleet with directory := some { settings := s.load } } s :=
      ⟨validate_of_settings hs, (hun.blank s.load).rooted⟩
    obtain ⟨place, f, hok, hbuild⟩ :=
      build_of_opened hs (openDirectory_of_ok hun.directory hs) hopened strategy
    exact ⟨place, _, hbuild, hopened.seats rfl hs hok⟩
  · obtain ⟨d, hd, -⟩ := hopened.directory
    obtain ⟨place, f, hok, hbuild⟩ :=
      build_of_opened hs (openDirectory_of_some hd) hopened strategy
    exact ⟨place, _, hbuild, hopened.seats rfl hs hok⟩

theorem Runs.build_error_iff {past : List (Builder × Deed)} (h : Runs start past b)
    (hstart : start.fleet.Unopened) (strategy : Strategy) :
    (b.build strategy).1 = .error e ↔ b.settings = .error e := by
  refine ⟨fun herr => ?_, fun hs => by rw [build_of_error hs]⟩
  cases hs : b.settings with
  | error e' =>
    rw [build_of_error hs] at herr
    exact congrArg _ (Except.error.inj herr)
  | ok s =>
    obtain ⟨place, b', hok, -⟩ := h.exists_build hstart hs strategy
    rw [hok] at herr
    cases herr

theorem openDirectory_error_iff :
    b.openDirectory.1 = .error e ↔ b.fleet.directory = none ∧ b.settings = .error e := by
  refine ⟨fun herr => ?_, fun ⟨hd, hs⟩ => by rw [openDirectory_of_error hd hs]⟩
  cases hd : b.fleet.directory with
  | some d =>
    rw [openDirectory_of_some hd] at herr
    cases herr
  | none =>
    cases hs : b.settings with
    | error e' =>
      rw [openDirectory_of_error hd hs] at herr
      exact ⟨rfl, congrArg _ (Except.error.inj herr)⟩
    | ok s =>
      rw [openDirectory_of_ok hd hs] at herr
      cases herr

/-- What a builder and its balancers keep to, after what has been done in the past. -/
structure Shares (past : List (Builder × Deed)) (b : Builder) : Prop where
  build_error : ∀ strategy e, (b.build strategy).1 = .error e ↔ b.settings = .error e
  build_failed : ∀ strategy e, (b.build strategy).1 = .error e → (b.build strategy).2 = b
  seats : ∀ strategy place b', b.build strategy = (.ok place, b') → b.Seats strategy place b'
  openDirectory_error : ∀ e, b.openDirectory.1 = .error e ↔
    b.fleet.directory = none ∧ b.settings = .error e
  openDirectory_failed : ∀ e, b.openDirectory.1 = .error e → b.openDirectory.2 = b
  settings : b.fleet.directory.map (·.settings) = (opening past).map (·.load)
  members : ∀ place x r, b.fleet.isAlive place = true → b.fleet.selection? place = some x →
    r ∈ x.members → b.fleet.find? (b.fleet.loads.endpoint r) = some r
  adds : ∀ d, b.Allowed d → ∀ c, opening ((b, d) :: past) = some c →
    Adds c.load b.fleet (b.perform d).fleet
  meters : ∀ s, b.settings = .ok s → ∀ seed now, ∃ t, Telemetry.create s.telemetry seed now = .ok t
  states : ∀ c, opening past = some c → ∀ e now, ∃ l, EndpointLoad.create e c.load now = .ok l
  updates : ∀ place es, ∃ f, b.fleet.update place es = .ok f

/-- Building fails for bad settings only, and then changes nothing; all balancers share the loads
with the settings of the first call that needed them and succeeded. -/
theorem Runs.shares {past : List (Builder × Deed)} (h : Runs start past b)
    (hstart : start.fleet.Unopened) : Shares past b where
  build_error _ _ := h.build_error_iff hstart _
  build_failed strategy e herr := by
    rw [build_of_error ((h.build_error_iff hstart strategy).1 herr)]
  seats strategy place b' hok := by
    cases hs : b.settings with
    | error e =>
      rw [build_of_error hs] at hok
      cases hok
    | ok s =>
      obtain ⟨place', b'', hbuild, hseats⟩ := h.exists_build hstart hs strategy
      rw [hok] at hbuild
      obtain ⟨rfl⟩ : place = place' := Except.ok.inj (Prod.mk.inj hbuild).1
      obtain rfl : b' = b'' := (Prod.mk.inj hbuild).2
      exact hseats
  openDirectory_error _ := openDirectory_error_iff
  openDirectory_failed e herr := by
    obtain ⟨hd, hs⟩ := openDirectory_error_iff.1 herr
    rw [openDirectory_of_error hd hs]
  settings := by
    obtain ⟨hun, hpast⟩ | ⟨c, hc, hopened⟩ := h.opened hstart
    · rw [hun.directory, opening_eq_none hpast]
      rfl
    · obtain ⟨d, hd, hsettings, -⟩ := hopened.directory
      rw [hd, hc, Option.map_some, Option.map_some, hsettings]
  members place x r halive hx hr := by
    obtain ⟨hun, -⟩ | ⟨c, -, hopened⟩ := h.opened hstart
    · cases ((hun.blank {}).selection? place).symm.trans hx
    · exact hopened.rooted.listed (.balancer place) r ⟨halive, x, hx, hr⟩
  adds d hd c hc := by
    obtain ⟨hun, hpast⟩ | ⟨c', hc', hopened⟩ := h.opened hstart
    · rw [opening_cons_of_none hpast] at hc
      obtain ⟨hno, -⟩ | ⟨hyes, s, hs, -, hadds⟩ := perform_of_unopened hun hd
      · rw [hno] at hc
        cases hc
      · rw [hyes, hs] at hc
        cases hc
        exact hadds
    · cases (opening_cons_of_some (b, d) hc').symm.trans hc
      exact (hopened.perform hd).2
  meters s hs := Fleet.exists_telemetry (Settings.windows_pos (validate_of_settings hs))
  states c hc e now := by
    obtain ⟨-, hpast⟩ | ⟨c', hc', hopened⟩ := h.opened hstart
    · cases (opening_eq_none hpast).symm.trans hc
    · cases hc'.symm.trans hc
      exact EndpointLoad.exists_create (Settings.windows_pos hopened.valid) e now
  updates place es := by
    obtain ⟨hun, -⟩ | ⟨c, -, hopened⟩ := h.opened hstart
    · rw [Fleet.update, Fleet.resolve, hun.directory]
      exact ⟨_, rfl⟩
    · obtain ⟨d, hd, -, hw⟩ := hopened.directory
      exact Fleet.exists_update hd hw place es

/-- A first build that fails, a directory with five windows, and a balancer built when seven are
asked for. -/
theorem Runs.shares_after_failure :
    ∃ (start b : Builder) (past : List (Builder × Deed)), start.fleet.Unopened ∧
      Runs start past b ∧ past.reverse.map (·.2) =
        [.configure (.override (.windows 0)), .build .ranked, .configure (.override (.windows 5)),
          .openDirectory, .configure (.override (.windows 7)), .use [⟨1⟩, ⟨2⟩], .build .grouped] ∧
      opening past = some { windows := 5 } ∧ Shares past b ∧ ∃ (before : Builder) (place : Nat),
        before.endpoints = [⟨1⟩, ⟨2⟩] ∧ before.build .grouped = (.ok place, b) ∧
        before.Seats .grouped place b := by
  have hstart : ({ clock := ⟨0, Nat.zero_le _⟩ } : Fleet).Unopened :=
    ⟨rfl, rfl, fun _ => by simp, rfl, rfl, rfl⟩
  have hnew : Runs { fleet := { clock := ⟨0, Nat.zero_le _⟩ } } [] _ := .start
  have hfailed := hnew.step (.configure (.override (.windows 0))) trivial
    |>.step (.build .ranked) trivial
  have hopened := hfailed.step (.configure (.override (.windows 5))) trivial
    |>.step .openDirectory trivial
  have hused := hopened.step (.configure (.override (.windows 7))) trivial
    |>.step (.use [⟨1⟩, ⟨2⟩]) trivial
  have hbuilt := hused.step (.build .grouped) trivial
  obtain ⟨place, b, hok, -⟩ := hused.exists_build hstart (s := { windows := 7 }) rfl .grouped
  obtain rfl : (build _ .grouped).2 = b := congrArg Prod.snd hok
  exact ⟨_, _, _, hstart, hbuilt, rfl, by decide +kernel, hbuilt.shares hstart, _, place, rfl, hok,
    (hused.shares hstart).seats .grouped place _ hok⟩

end Builder

end LeastLoad
