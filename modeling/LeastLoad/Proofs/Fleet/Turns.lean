import LeastLoad.Proofs.Fleet.Rotation

/-! # Requests that go round

As long as each task is finished before the next request and no use that was counted is over, the
least frequently used endpoint goes first, so that all take turns. -/

namespace LeastLoad

namespace Fleet

variable {f f' f₀ start : Fleet} {b size last : Nat} {c : LoadSettings} {states : List LoadRef}
  {strategy : Strategy} {es : List Endpoint} {unit : Option LoadRef} {past : List (Fleet × Deed)}

/-- One balancer is asked only when all its tasks are finished, no task is given up before that, and
the clock moves forward. -/
def Rotating (b : Nat) (f : Fleet) : Deed → Prop
  | .call (.next b') => b' = b ∧ ∀ i, f.Done i
  | .call (.complete _ _ _) | .call (.set _) => True
  | .call (.advance d) => f.now + d.nanos ≤ horizon
  | .dropTask i => f.Done i
  | _ => False

theorem Sound.dropTask (h : f.Sound c) (i : Nat) : (f.dropTask i).2.Sound c := by
  have hs : Stirred (fun _ _ => False) f (f.dropTask i).2 :=
    .still ⟨rfl, rfl, rfl, fun _ => rfl⟩ rfl fun _ => rfl
  exact h.stirred hs

theorem Sound.perform_rotating (h : f.Sound c) {d : Deed} (hd : Rotating b f d) :
    (f.perform d).Sound c ∧ f.now ≤ (f.perform d).now := by
  cases d with
  | call call =>
    have hforward : Forward f call := by
      cases call with
      | advance d => exact hd
      | _ => trivial
    refine ⟨h.apply call, ?_⟩
    obtain ⟨may, hs, -⟩ | ⟨b', es, own, -, -, -, ha⟩ | ⟨clock, hle, heq⟩ := h.apply_cases call
    · exact hs.frame.now.ge
    · exact (congrArg Clock.now ha.clock).ge
    · change f.now ≤ (f.apply call).now
      rw [heq]
      exact hle hforward
  | dropTask i => exact ⟨h.dropTask i, le_rfl⟩
  | _ => exact hd.elim

theorem Runs.sound_rotating (h : Runs (Rotating b) f₀ past f) (h₀ : f₀.Sound c) : f.Sound c := by
  induction h with
  | start => exact h₀
  | step d _ hd ih => exact (ih.perform_rotating hd).1

theorem Runs.exists_earlier {recent earlier : List (Fleet × Deed)}
    (h : Runs (Rotating b) f₀ (recent ++ earlier) f) (h₀ : f₀.Sound c) :
    ∃ f', Runs (Rotating b) f₀ earlier f' ∧ f'.now ≤ f.now := by
  induction recent generalizing f with
  | nil => exact ⟨f, h, le_rfl⟩
  | cons x recent ih =>
    cases h with
    | step d hrun hd =>
      obtain ⟨f', hf', hle⟩ := ih hrun
      exact ⟨f', hf', hle.trans ((hrun.sound_rotating h₀).perform_rotating hd).2⟩

/-- Loads show how often each endpoint was handed out, which is equally often up to one. -/
structure Turns (f : Fleet) (b size : Nat) (states : List LoadRef) (strategy : Strategy)
    (c : LoadSettings) (es : List Endpoint) (last : Nat) (past : List (Fleet × Deed))
    (unit : Option LoadRef) : Prop where
  rotation : f.Rotation b size states strategy c es last (handed b · past) unit
  within : WithinOne (handed b · past) es
  total : (es.map (handed b · past)).sum = asked b past

theorem Turns.idle {d : Deed} {unit' : Option LoadRef}
    (h : f.Turns b size states strategy c es last past unit) (hd : d.asks = none)
    (hr : f'.Rotation b size states strategy c es last (handed b · past) unit') :
    f'.Turns b size states strategy c es last ((f, d) :: past) unit' := by
  have hhanded : (handed b · ((f, d) :: past)) = (handed b · past) := by
    funext e
    simp [handed, hd]
  have hasked : asked b ((f, d) :: past) = asked b past := by simp [asked, hd]
  refine ⟨?_, ?_, ?_⟩
  · rwa [hhanded]
  · rw [hhanded]
    exact h.within
  · rw [hhanded, hasked]
    exact h.total

theorem Turns.next (h : f.Turns b size states strategy c es last past none) (hes : es.Nodup)
    (hone : strategy = .ranked ∨ es.length ≤ size) (hne : es ≠ []) (hlast : f.now ≤ last)
    (hdue : last < roundedExpiry c.lookBack c.windows f.now c.lookBack)
    (hfit : ∀ e ∈ es, handed b e ((f, .call (.next b)) :: past) ≤ 2 ^ 64) :
    ∃ unit, (f.perform (.call (.next b))).Turns b size states strategy c es last
      ((f, .call (.next b)) :: past) unit := by
  obtain ⟨t, hn, ht, hleast⟩ := h.rotation.hands hone hne hlast
  have hhanded : ∀ e, handed b e ((f, .call (.next b)) :: past) =
      handed b e past + if f.loads.endpoint t.load = e then 1 else 0 := fun e => by
    simp [handed, Deed.asks, hn, List.countP_cons]
  have hasked : asked b ((f, .call (.next b)) :: past) = asked b past + 1 := by
    simp [asked, Deed.asks]
  have hmem : f.loads.endpoint t.load ∈ es := by
    rw [← h.rotation.endpoints]
    exact List.mem_map_of_mem ht
  have hroom : handed b (f.loads.endpoint t.load) past < 2 ^ 64 := by
    have hle := hfit _ hmem
    rw [hhanded, if_pos rfl] at hle
    exact hle
  refine ⟨some t.load, ?_, h.within.step hhanded fun _ => hleast hroom, ?_⟩
  · simp only [hhanded]
    exact h.rotation.next hn ht hlast hdue
  · rw [sum_step hhanded, h.total, hasked, List.count_eq_one_of_mem hes hmem]

theorem Runs.turns (h : Runs (Rotating b) f₀ past f) (hes : es.Nodup)
    (hone : strategy = .ranked ∨ es.length ≤ size) (hne : es ≠ [])
    (h₀ : f₀.Turns b size states strategy c es last [] none) (hlast : f.now ≤ last)
    (hdue : ∀ x ∈ past, x.2.asks = some b →
      last < roundedExpiry c.lookBack c.windows x.1.now c.lookBack)
    (hfit : ∀ e ∈ es, handed b e past ≤ 2 ^ 64) :
    ∃ unit, f.Turns b size states strategy c es last past unit := by
  induction h with
  | start => exact ⟨none, h₀⟩
  | @step past f d hrun hd ih =>
    obtain ⟨hsound, hnow⟩ := (hrun.sound_rotating h₀.rotation.sound).perform_rotating hd
    obtain ⟨unit, ih⟩ := ih (hnow.trans hlast) (fun x hx => hdue x (List.mem_cons_of_mem _ hx))
      fun e he => le_trans (by simp [handed, List.countP_cons]) (hfit e he)
    have hout := ih.rotation.out
    cases d with
    | call call =>
      cases call with
      | next b' =>
        obtain ⟨rfl, hall⟩ := hd
        obtain rfl := hout.eq_none hall
        exact ih.next hes hone hne (hnow.trans hlast) (hdue _ List.mem_cons_self rfl) hfit
      | complete i succeeded latency =>
        obtain hi | ⟨t, hi, hc⟩ := f.done_or_open i
        · have hsame : f.perform (.call (.complete i succeeded latency)) = f :=
            complete_of_completed hi succeeded latency
          rw [hsame]
          exact ⟨unit, ih.idle rfl ih.rotation⟩
        · exact ⟨none, ih.idle rfl
            (ih.rotation.complete hi hc (hnow.trans hlast) succeeded latency)⟩
      | advance d | set d =>
        exact ⟨unit, ih.idle rfl (ih.rotation.still hsound rfl rfl hnow (hout.congr rfl))⟩
      | _ => exact hd.elim
    | dropTask i =>
      exact ⟨unit, ih.idle rfl (ih.rotation.still hsound rfl rfl hnow (hout.dropTask hd))⟩
    | _ => exact hd.elim

theorem Blank.turns (h : start.Blank c) (last : Nat) (hsub : c.subStrategy = .leastFrequency)
    (hfail : c.failureSustain = none) {s : Settings} {listeners : List Listener}
    (hok : start.build (strategy.selection s) s.telemetry listeners es = .ok (b, f))
    (hsize : strategy = .grouped → 0 < s.groupSize) :
    ∃ states, f.Turns b s.groupSize states strategy c es last [] none := by
  obtain ⟨-, states, f₁, hres, hloads, hsel⟩ := h.rooted.selection?_build hok
  obtain ⟨d, -, hstates⟩ := hres.resolved
  rw [← hloads] at hstates
  have hclock : f.clock = start.clock := (h.rooted.rest_build hok).1
  have hsound : f.Sound c :=
    (h.toFresh.sound.build (fun _ => Strategy.ranking?_selection) hok).2.sound
  have hused : ∀ r ∈ states, (f.loads.load r).Used c f.clock last 0 0 := by
    intro r hr
    have hplace := hstates.apart.place r hr
    rw [hloads] at hplace ⊢
    obtain ⟨e, he⟩ := hres.grows.fresh r (by rw [h.loads]; exact Nat.zero_le _) hplace
    rw [hclock]
    exact .create hsub hfail he
  have hlined : f.Lined b s.groupSize states strategy := by
    cases strategy with
    | grouped => exact .grouped (hsize rfl) hsel
    | ranked =>
      refine .ranked (ranking?_eq_some_iff.2 hsel) ?_ (Ranking.Tidy.replace hstates.apart).2
      refine .replace hstates.apart (fun a ha b hb => ?_) rfl
      rw [(hused a ha).kind, (hused b hb).kind]
  have hout : f.Out none := by
    refine .idle fun i t ht => ?_
    rw [task?, (h.rooted.account?_build hok).1, h.tasks] at ht
    cases ht
  refine ⟨states, ⟨hsound, hstates.apart, hstates.map_endpoint, hused, hlined, hout, by simp⟩,
    fun _ _ _ _ => Nat.zero_le 1, ?_⟩
  exact List.sum_eq_zero fun x hx => by simp_all [handed]

/-- As long as no use that was counted is over and no sum has wrapped, every request is answered,
and no endpoint has been handed out more than once more than another: where all have been handed out
equally often, as many requests as there are endpoints go to each of them once. -/
theorem Runs.rotates {s : Settings} {listeners : List Listener} (hstart : start.Blank c)
    (hsub : c.subStrategy = .leastFrequency) (hfail : c.failureSustain = none)
    (hbuild : start.build (strategy.selection s) s.telemetry listeners es = .ok (b, f₀))
    (hes : es.Nodup) (hne : es ≠ []) (hone : strategy = .ranked ∨ es.length ≤ s.groupSize)
    (h : Runs (Rotating b) f₀ past f)
    (hdue : ∀ x ∈ past, x.2.asks = some b →
      f.now < roundedExpiry c.lookBack c.windows x.1.now c.lookBack)
    (hfit : ∀ e ∈ es, handed b e past ≤ 2 ^ 64) :
    (es.map (handed b · past)).sum = asked b past ∧
    (∀ e ∈ es, ∀ e' ∈ es, handed b e past ≤ handed b e' past + 1) ∧
    ∀ recent earlier, past = recent ++ earlier →
      (∀ e ∈ es, ∀ e' ∈ es, handed b e earlier = handed b e' earlier) →
      asked b recent = es.length → ∀ e ∈ es, handed b e recent = 1 := by
  have hsize : strategy = .grouped → 0 < s.groupSize := by
    rintro rfl
    exact (List.length_pos_iff.2 hne).trans_le (hone.resolve_left nofun)
  obtain ⟨states, h₀⟩ := hstart.turns f.now hsub hfail hbuild hsize
  obtain ⟨unit, hturns⟩ := h.turns hes hone hne h₀ le_rfl hdue hfit
  refine ⟨hturns.total, hturns.within, ?_⟩
  rintro recent earlier rfl hequal hround e he
  have hsplit : ∀ e, handed b e (recent ++ earlier) = handed b e recent + handed b e earlier :=
    fun e => List.countP_append
  obtain ⟨f', hf', hle⟩ := h.exists_earlier h₀.rotation.sound
  obtain ⟨unit', hbefore⟩ := hf'.turns hes hone hne h₀ hle
    (fun x hx => hdue x (List.mem_append_right _ hx))
    fun e he => (Nat.le_add_left ..).trans ((hsplit e).symm.trans_le (hfit e he))
  have htotal := hturns.total
  rw [show asked b (recent ++ earlier) = asked b recent + asked b earlier from List.countP_append,
    ← hbefore.total] at htotal
  simp only [hsplit, List.sum_map_add] at htotal
  have hcounts : WithinOne id (es.map (handed b · recent)) := by
    intro x hx y hy
    obtain ⟨e, he, rfl⟩ := List.mem_map.1 hx
    obtain ⟨e', he', rfl⟩ := List.mem_map.1 hy
    have hwithin := hturns.within e he e' he'
    simp only [hsplit, hequal e he e' he'] at hwithin
    simp only [id]
    omega
  have hpos : 0 < es.length := List.length_pos_iff.2 hne
  have hdiv := eq_div_or_of_within hcounts (List.mem_map_of_mem he)
  rw [Nat.add_right_cancel htotal, hround, List.length_map, Nat.div_self hpos] at hdiv
  refine hdiv.elim id fun heq => heq.trans ?_
  exact Nat.div_eq_of_lt_le (by omega) (by omega)

/-- Two requests, the first of which fails in between, to a ranked balancer over two endpoints. -/
theorem Runs.rotates_of_two :
    ∃ (start f₀ f : Fleet) (past : List (Fleet × Deed)),
      start.Blank { subStrategy := .leastFrequency } ∧
      start.build (Strategy.selection {} .ranked) ({} : Settings).telemetry [] [⟨1⟩, ⟨2⟩] =
        .ok (0, f₀) ∧ Runs (Rotating 0) f₀ past f ∧
      asked 0 past = 2 ∧ handed 0 ⟨1⟩ past = 1 ∧ handed 0 ⟨2⟩ past = 1 := by
  obtain ⟨start, hstart, hzero⟩ := exists_blank { subStrategy := .leastFrequency }
  obtain ⟨b, f₀, hok⟩ := exists_build hstart.directory (by decide)
    (Strategy.selection {} .ranked) ({} : Settings).telemetry (by decide) [] [⟨1⟩, ⟨2⟩]
  obtain ⟨hb, -⟩ := hstart.rooted.selection?_build hok
  rw [hstart.seats] at hb
  obtain rfl : b = 0 := hb
  have hes : ([⟨1⟩, ⟨2⟩] : List Endpoint).Nodup := by decide
  obtain ⟨states, ⟨h₀, -, -⟩⟩ := hstart.turns 0 rfl rfl hok nofun
  have hnow : f₀.now = 0 := (congrArg Clock.now (hstart.rooted.rest_build hok).1).trans hzero
  have hdue : 0 < roundedExpiry (.ofSeconds 300) 100 0 (.ofSeconds 300) :=
    Nat.lt_of_lt_of_le (by decide) (le_roundedExpiry (by decide) _ 0 _)
  obtain ⟨t, hn, ht, -⟩ := h₀.hands (.inl rfl) (by decide) hnow.le
  have hnow₁ : (f₀.perform (.call (.next 0))).now = 0 := (f₀.apply_next 0).2.2.trans hnow
  have h₁ := h₀.next hn ht hnow.le (hnow.symm ▸ hdue)
  have htask : (f₀.perform (.call (.next 0))).task? 0 = some (.tracked t) := by
    have hempty : (f₀.next 0).2.tasks.size = 0 := by
      rw [tasks_next, (hstart.rooted.account?_build hok).1, hstart.tasks]
      rfl
    have hkept := task?_keep_size (f₀.next 0).2 (.tracked t)
    rwa [hempty, ← perform_next_some hn] at hkept
  have hopen := (h₀.sound.coherent.records_next hn).2
  have h₂ := h₁.complete htask hopen hnow₁.le false none
  have hstirred : Stirred (fun _ _ => False) (f₀.perform (.call (.next 0)))
      ((f₀.perform (.call (.next 0))).perform (.call (.complete 0 false none))) :=
    h₁.sound.stirred_complete 0 false none
  have hnow₂ := hstirred.frame.now.trans hnow₁
  have hrun := (((@Runs.start (Rotating 0) f₀).step (.call (.next 0)) ⟨rfl, h₀.out.done⟩).step
    (.call (.complete 0 false none)) trivial).step (.call (.next 0)) ⟨rfl, h₂.out.done⟩
  have hnow₃ := (apply_next _ 0).2.2.trans hnow₂
  obtain ⟨past, hpast⟩ : ∃ past : List (Fleet × Deed), past =
      [((f₀.perform (.call (.next 0))).perform (.call (.complete 0 false none)), .call (.next 0)),
        (f₀.perform (.call (.next 0)), .call (.complete 0 false none)),
        (f₀, .call (.next 0))] := ⟨_, rfl⟩
  rw [← hpast] at hrun
  have hasked : asked 0 past = 2 := by rw [hpast]; rfl
  have hlength : past.length = 3 := by rw [hpast]; rfl
  obtain ⟨htotal, hwithin, -⟩ := hrun.rotates hstart rfl rfl hok hes (by decide) (.inl rfl)
    (fun x hx _ => by
      have hx0 : x.1.now = 0 := by
        rw [hpast] at hx
        simp only [List.mem_cons, List.not_mem_nil, or_false] at hx
        obtain rfl | rfl | rfl := hx
        · exact hnow₂
        · exact hnow₁
        · exact hnow
      rw [hx0]
      exact hnow₃.trans_lt hdue)
    fun e _ => List.countP_le_length.trans (hlength.trans_le (by decide))
  have h12 := hwithin ⟨1⟩ (by decide) ⟨2⟩ (by decide)
  have h21 := hwithin ⟨2⟩ (by decide) ⟨1⟩ (by decide)
  simp only [List.map_cons, List.map_nil, List.sum_cons, List.sum_nil, hasked] at htotal
  exact ⟨start, f₀, _, past, hstart, hok, hrun, hasked, by omega, by omega⟩

end Fleet

end LeastLoad
