import LeastLoad.Fleet.Builder
import LeastLoad.Proofs.Fleet.Joined
import LeastLoad.Proofs.Fleet.Solo

/-! # Runs of several balancers over shared loads

Balancers of both kinds are built at any time over any endpoints, in a fleet whose loads are all
made with the same settings. Any of them may be asked for units and be given other endpoints, and
any task may be finished. -/

namespace LeastLoad

theorem Strategy.ranking?_selection {s : Settings} {strategy : Strategy} {k : Ranking}
    (h : (strategy.selection s).ranking? = some k) : k = {} := by
  cases strategy with
  | grouped => cases h
  | ranked => exact (Option.some.inj h).symm

namespace Fleet

variable {f f' f'' start : Fleet} {b : Nat} {r : LoadRef} {k : Ranking} {c : LoadSettings}
  {es : List Endpoint} {call : Call}

inductive Call where
  | build (s : Settings) (strategy : Strategy) (listeners : List Listener) (es : List Endpoint)
  | next (b : Nat)
  | complete (t : Nat) (succeeded : Bool) (latency : Option Duration)
  | update (b : Nat) (es : List Endpoint)
  | advance (d : Duration)
  | set (d : Duration)

/-- A request that is answered is kept as a task; a call that is refused changes nothing. -/
def apply (f : Fleet) : Call → Fleet
  | .build s strategy listeners es =>
    match f.build (strategy.selection s) s.telemetry listeners es with
    | .ok (_, f) => f
    | .error _ => f
  | .next b =>
    match f.next b with
    | (none, f) => f
    | (some t, f) => (f.keep (.tracked t)).2
  | .complete t succeeded latency => (f.complete t succeeded latency).2
  | .update b es =>
    match f.update b es with
    | .ok f => f
    | .error _ => f
  | .advance d => f.advance d
  | .set d => f.setClock d

inductive Reaches (permits : Fleet → Call → Prop) (start : Fleet) : Fleet → Prop where
  | start : Reaches permits start start
  | step {f : Fleet} (call : Call) :
      Reaches permits start f → permits f call → Reaches permits start (f.apply call)

def Forward (f : Fleet) : Call → Prop
  | .advance d => f.now + d.nanos ≤ horizon
  | _ => True

def Call.Assigns (f : Fleet) (b : Nat) (es : List Endpoint) (call : Call) : Prop :=
  call = .update b es ∨
    b = f.seats.size ∧ ∃ s strategy listeners, call = .build s strategy listeners es

/-- What a call makes of a fleet: it stirs the loads and rankings, or gives a balancer members, or
moves the clock. -/
theorem Sound.apply_cases (h : f.Sound c) (call : Call) :
    (∃ may, Stirred may f (f.apply call) ∧
      ∀ b r, may b r → ∃ b', call = .next b' ∧ f.HandedElsewhere b' b r) ∨
    (∃ b es own, call.Assigns f b es ∧ (∀ k, f.ranking? b = some k → own = some k) ∧
      (∀ k, own = some k → f.ranking? b = some k ∨ k = {}) ∧
      Assigned c b own es f (f.apply call)) ∨
    ∃ clock, (Forward f call → f.now ≤ clock.now) ∧ f.apply call = { f with clock } := by
  cases call with
  | build s strategy listeners es =>
    simp only [Fleet.apply]
    split
    · next b f' hok =>
      obtain ⟨hb, hassigned⟩ := h.build (fun _ => Strategy.ranking?_selection) hok
      refine .inr (.inl ⟨b, es, _, .inr ⟨hb, s, strategy, listeners, rfl⟩, fun k hk => ?_,
        fun k hk => .inr (Strategy.ranking?_selection hk), hassigned⟩)
      rw [hb, ranking?_size] at hk
      cases hk
    · exact .inl ⟨fun _ _ => False, .refl, fun _ _ hf => hf.elim⟩
  | next b =>
    refine .inl ⟨f.HandedElsewhere b, ?_, fun b' r hr => ⟨b, rfl, hr⟩⟩
    have hs := f.stirred_next b
    simp only [Fleet.apply]
    split
    · next heq =>
      rw [heq] at hs
      exact hs
    · next t f' heq =>
      rw [heq] at hs
      exact hs.trans (.still ⟨rfl, rfl, rfl, fun _ => rfl⟩ rfl fun _ => rfl)
  | complete t succeeded latency =>
    exact .inl ⟨fun _ _ => False, h.stirred_complete t succeeded latency, fun _ _ hf => hf.elim⟩
  | update b es =>
    simp only [Fleet.apply]
    split
    · next f' hok =>
      exact .inr (.inl ⟨b, es, _, .inl rfl, fun k hk => hk, fun k hk => .inl hk, h.update hok⟩)
    · exact .inl ⟨fun _ _ => False, .refl, fun _ _ hf => hf.elim⟩
  | advance d =>
    exact .inr (.inr ⟨_, fun hd => (Nat.le_add_right _ _).trans (Clock.now_advance hd).ge, rfl⟩)
  | set d => exact .inr (.inr ⟨_, fun _ => Clock.le_now_set _ d, rfl⟩)

theorem Sound.clock (h : f.Sound c) (clock : Clock) : ({ f with clock } : Fleet).Sound c :=
  ⟨h.tidy, h.held, h.watched, h.registered⟩

theorem Sound.apply (h : f.Sound c) (call : Call) : (f.apply call).Sound c := by
  obtain ⟨may, hs, -⟩ | ⟨b, es, own, -, -, -, ha⟩ | ⟨clock, -, heq⟩ := h.apply_cases call
  · exact h.stirred hs
  · exact ha.sound
  · rw [heq]
    exact h.clock clock

theorem Fresh.ranking?_eq_none (h : f.Fresh c) (b : Nat) : f.ranking? b = none := by
  rw [ranking?, balancer?, h.seats]
  rfl

theorem Fresh.sound (h : f.Fresh c) : f.Sound c := by
  have hranks : ∀ b r, ¬ f.Ranks b r := by
    rintro b r ⟨k, hk, -⟩
    rw [h.ranking?_eq_none] at hk
    cases hk
  refine ⟨fun b k hk => ?_, fun b k hk => ?_, fun r => ?_, _, h.directory, rfl, fun e r hr => ?_,
    fun b r hr => absurd hr (hranks b r)⟩
  · rw [h.ranking?_eq_none] at hk
    cases hk
  · rw [h.ranking?_eq_none] at hk
    cases hk
  · rw [h.watchers]
    exact ⟨List.nodup_nil, fun b => ⟨fun hb => absurd hb List.not_mem_nil,
      fun hr => absurd hr (hranks b r)⟩⟩
  · simp [Directory.find?] at hr

theorem Reaches.sound {permits : Fleet → Call → Prop} (hstart : start.Sound c)
    (h : Reaches permits start f) : f.Sound c := by
  induction h with
  | start => exact hstart
  | step call _ _ ih => exact ih.apply call

theorem Reaches.mono {permits permits' : Fleet → Call → Prop} (h : Reaches permits start f)
    (hp : ∀ f call, permits f call → permits' f call) : Reaches permits' start f := by
  induction h with
  | start => exact .start
  | step call _ hcall ih => exact ih.step call (hp _ _ hcall)

theorem Reaches.trans {permits : Fleet → Call → Prop} (h : Reaches permits start f)
    (h' : Reaches permits f f') : Reaches permits start f' := by
  induction h' with
  | start => exact h
  | step call _ hcall ih => exact ih.step call hcall

theorem apply_next (f : Fleet) (b : Nat) : (f.apply (.next b)).loads = (f.next b).2.loads ∧
    (∀ b', (f.apply (.next b)).ranking? b' = (f.next b).2.ranking? b') ∧
      (f.apply (.next b)).now = f.now := by
  have hclock := (f.frame_next b).now
  rw [apply]
  cases hn : f.next b with
  | mk t f' =>
    rw [hn] at hclock
    cases t <;> exact ⟨rfl, fun _ => rfl, hclock⟩

theorem Fresh.exists_solo (h : f.Fresh c) (hw : 0 < c.windows) (es : List Endpoint) :
    ∃ s : Solo, s.Starts c ∧ s.fleet = f.apply (.build {} .ranked [] es) ∧ s.place = 0 ∧
      s.endpoints = es ∧ s.fleet.now = f.now := by
  obtain ⟨b, f', hbuild⟩ := exists_build h.directory hw (.ranked {})
    ({} : Settings).telemetry (by decide) [] es
  have happly : f.apply (.build {} .ranked [] es) = f' := by
    simp only [Fleet.apply, Strategy.selection, hbuild]
  have hempty : ∀ k, (Selection.ranked {}).ranking? = some k → k = {} :=
    fun _ hk => (Option.some.inj hk).symm
  obtain ⟨hb, ha⟩ := h.sound.build hempty hbuild
  refine ⟨⟨f', b, es⟩, ⟨f, _, _, h, hbuild⟩, happly.symm, ?_, rfl, congrArg Clock.now ha.clock⟩
  rw [hb, h.seats]
  rfl

theorem Sound.exists_build (h : f.Sound c) (hw : 0 < c.windows)
    (hes : ∀ e ∈ es, ∃ r, f.find? e = some r) :
    ∃ states, Assigned c f.seats.size (some {}) es f (f.apply (.build {} .ranked [] es)) ∧
      (f.apply (.build {} .ranked [] es)).ranking? f.seats.size =
        some (Ranking.replace (f.apply (.build {} .ranked [] es)).loads {} states) ∧
      (f.apply (.build {} .ranked [] es)).loads.Apart states ∧
      ∀ r, r ∈ states ↔ ∃ e ∈ es, f.find? e = some r := by
  obtain ⟨d, hd, hsettings, hlists, -⟩ := h.registered
  obtain ⟨b, f', hbuild⟩ := Fleet.exists_build hd (hsettings.symm ▸ hw) (.ranked {})
    ({} : Settings).telemetry (by decide) [] es
  have happly : f.apply (.build {} .ranked [] es) = f' := by
    simp only [Fleet.apply, Strategy.selection, hbuild]
  have hempty : ∀ k, (Selection.ranked {}).ranking? = some k → k = {} :=
    fun _ hk => (Option.some.inj hk).symm
  obtain ⟨rfl, ha⟩ := h.build hempty hbuild
  rw [happly]
  obtain ⟨states, hrank, hapart, hends, hfound⟩ := ha.own
  refine ⟨states, ha, hrank, hapart, fun r => ⟨fun hr => ?_, fun ⟨e, he, hr⟩ => hfound e he r hr⟩⟩
  have he : f'.loads.endpoint r ∈ es := hends ▸ List.mem_map_of_mem hr
  obtain ⟨r', hr'⟩ := hes _ he
  have hmem := hfound _ he r' hr'
  have hlisted := hr'
  rw [find?, hd] at hlisted
  obtain ⟨hplace, hend⟩ := hlists _ r' hlisted
  have hsame : f'.loads.endpoint r' = f.loads.endpoint r' :=
    congrArg EndpointLoad.endpoint (ha.grows.loads r' hplace)
  obtain rfl := hapart.one r' hmem r hr (hend.symm.trans hsame.symm)
  exact ⟨_, he, hr'⟩

/-- What time, every operation on a load and its making keep of it. -/
structure Lasting (c : LoadSettings) (p : Nat → EndpointLoad → Prop) : Prop where
  later : ∀ {now later l}, now ≤ later → p now l → p later l
  sync : ∀ {now l}, p now l → p now (l.sync now)
  acquire : ∀ {now l}, p now l → p now (l.acquire now 1)
  release : ∀ {now l} latency, p now l → p now (l.release now 1 latency)
  penalize : ∀ {now l} latency, now ≤ horizon → p now l → p now (l.penalize now latency).2
  create : ∀ {now e l}, now ≤ horizon → EndpointLoad.create e c now = .ok l → p now l
  vacant : ∀ now, p now LoadTable.vacant

variable {p : Nat → EndpointLoad → Prop}

theorem Sound.forall_apply (h : f.Sound c) (hp : Lasting c p)
    (hf : ∀ r, p f.now (f.loads.load r)) (hcall : Forward f call) (r : LoadRef) :
    p (f.apply call).now ((f.apply call).loads.load r) := by
  obtain ⟨may, hs, -⟩ | ⟨b, es, own, -, -, -, ha⟩ | ⟨clock, hle, heq⟩ := h.apply_cases call
  · rw [hs.frame.now]
    exact hs.touched.keeps (fun _ => hp.sync) (fun _ => hp.acquire) (fun _ => hp.release)
      (fun _ latency => hp.penalize latency f.clock.now_le) (hf r)
  · rw [Fleet.now, ha.clock]
    exact ha.grows.forall hf (fun _ _ => hp.create f.clock.now_le) (hp.vacant _) r
  · rw [heq]
    exact hp.later (hle hcall) (hf r)

theorem Reaches.forall_loads {permits : Fleet → Call → Prop} (hstart : start.Fresh c)
    (hp : Lasting c p) (h : Reaches permits start f)
    (hpermits : ∀ f call, permits f call → Forward f call) (r : LoadRef) :
    p f.now (f.loads.load r) := by
  induction h generalizing r with
  | start =>
    rw [hstart.load_eq]
    exact hp.vacant _
  | step call hf hcall ih =>
    exact (hf.sound hstart.sound).forall_apply hp ih (hpermits _ _ hcall) r

end Fleet

end LeastLoad
