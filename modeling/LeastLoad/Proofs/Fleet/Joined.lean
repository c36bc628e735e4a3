import LeastLoad.Proofs.Fleet.Shared

/-! # Giving one of several balancers its members

A balancer that is built or given new endpoints gets the listed states of these, which may be new.
The rankings of the other balancers stay as they are, and forgetting spares their members. -/

namespace LeastLoad

namespace Fleet

variable {f f' : Fleet} {b b' : Nat} {r : LoadRef} {k : Ranking} {c : LoadSettings}
  {es : List Endpoint} {states : List LoadRef} {d : Directory}

theorem Sound.resolve (h : f.Sound c) (hok : f.resolve es = .ok (states, f')) :
    f'.Sound c ∧ f'.clock = f.clock ∧ f'.seats = f.seats ∧ f.loads.Grows c f.now f'.loads ∧
      (∀ e ∈ es, ∀ r, f.find? e = some r → r ∈ states) ∧
      ∃ d, f'.directory = some d ∧ d.Resolved f'.loads es states := by
  obtain ⟨d, hd, rfl, hlists, hmembers⟩ := h.registered
  obtain ⟨d', t, rfl, hext, hres⟩ := resolve_spec hd hlists hok
  have hfound : ∀ e ∈ es, ∀ r, f.find? e = some r → r ∈ states := by
    intro e he r hr
    rw [find?, hd] at hr
    obtain ⟨r', hr', hfind⟩ := hres.exists_state he
    exact Option.some.inj ((hext.found e r hr).symm.trans hfind) ▸ hr'
  refine ⟨⟨fun b k hk => (h.tidy b k hk).grows hext.grows, h.held, h.watched, d', rfl,
    hext.settings, hres.lists, ?_⟩, rfl, rfl, hext.grows, hfound, d', rfl, hres⟩
  rintro b r ⟨k, hk, hr⟩
  have hload : t.endpoint r = f.loads.endpoint r :=
    congrArg EndpointLoad.endpoint (hext.grows.loads r ((h.tidy b k hk).placed r hr))
  change d'.find? (t.endpoint r) = some r
  rw [hload]
  exact hext.found _ r (hmembers b r ⟨k, hk, hr⟩)

theorem ranking?_seat (f : Fleet) (x : Option Balancer) (b : Nat) :
    (f.seat x).2.ranking? b =
      if b = f.seats.size then x.bind (·.selection.ranking?) else f.ranking? b := by
  simp only [ranking?, balancer?, seat, Array.getElem?_push]
  split
  · rfl
  · rfl

theorem ranking?_size (f : Fleet) : f.ranking? f.seats.size = none := by
  rw [ranking?, balancer?, Array.getElem?_eq_none le_rfl]
  rfl

theorem ne_size_of_ranking? (hk : f.ranking? b = some k) : f.seats.size ≠ b := by
  rintro rfl
  rw [ranking?_size] at hk
  cases hk

theorem isHeld_seat (f : Fleet) (x : Option Balancer) (b : Nat) :
    (f.seat x).2.isHeld b = if b = f.seats.size then true else f.isHeld b := by
  simp only [isHeld, seat, Array.getElem?_push]
  split <;> rfl

theorem Sound.seat (h : f.Sound c) {x : Option Balancer}
    (hx : ∀ k, x.bind (·.selection.ranking?) = some k → k = {}) : (f.seat x).2.Sound c := by
  have hrank : ∀ b k, (f.seat x).2.ranking? b = some k → k = {} ∧ b = f.seats.size ∨
      b ≠ f.seats.size ∧ f.ranking? b = some k := by
    intro b k hk
    rw [ranking?_seat] at hk
    split at hk
    · next hb => exact .inl ⟨hx k hk, hb⟩
    · next hb => exact .inr ⟨hb, hk⟩
  have hranks : ∀ b r, f.Ranks b r ↔ (f.seat x).2.Ranks b r := by
    intro b r
    constructor
    · rintro ⟨k, hk, hr⟩
      refine ⟨k, ?_, hr⟩
      rw [ranking?_seat, if_neg]
      · exact hk
      · rintro rfl
        rw [ranking?_size] at hk
        cases hk
    · rintro ⟨k, hk, hr⟩
      obtain ⟨rfl, -⟩ | ⟨-, hk⟩ := hrank b k hk
      · exact absurd hr (Multiset.notMem_zero r)
      · exact ⟨k, hk, hr⟩
  obtain ⟨d, hd, hc, hlists, hmembers⟩ := h.registered
  refine ⟨fun b k hk => ?_, fun b k hk => ?_, h.watched.congr hranks, d, hd, hc, hlists,
    fun b r hr => hmembers b r ((hranks b r).2 hr)⟩
  · obtain ⟨rfl, -⟩ | ⟨-, hk⟩ := hrank b k hk
    · exact .empty f.loads
    · exact h.tidy b k hk
  · rw [isHeld_seat]
    obtain ⟨-, hb⟩ | ⟨hb, hk⟩ := hrank b k hk
    · rw [if_pos hb]
    · rw [if_neg hb]
      exact h.held b k hk

theorem stirred_install_of_unranked (may : Nat → LoadRef → Prop) (h : f.ranking? b = none)
    (states : List LoadRef) :
    Stirred may f (f.install b states) ∧ (f.install b states).loads = f.loads ∧
      ∀ b', (f.install b states).ranking? b' = f.ranking? b' := by
  rw [install]
  cases hx : f.balancer? b with
  | none => exact ⟨.refl, rfl, fun _ => rfl⟩
  | some x =>
    obtain ⟨selection, telemetry, listeners⟩ := x
    cases selection with
    | ranked k =>
      rw [ranking?, hx] at h
      cases h
    | grouped g =>
      have hr : ∀ b', (f.setBalancer b
          ⟨.grouped (.layout g.maxGroup states), telemetry, listeners⟩).ranking? b' =
          f.ranking? b' := by
        intro b'
        rw [ranking?_setBalancer (Option.isSome_iff_exists.2 ⟨_, hx⟩)]
        split
        · next hb => rw [← hb, h]; rfl
        · rfl
      exact ⟨.still (frame_modifyBalancer f b _) rfl hr, rfl, hr⟩

theorem Sound.install_of_ranking? (h : f.Sound c) (hd : f.directory = some d)
    (hres : d.Resolved f.loads es states) (hk : f.ranking? b = some k) :
    ∃ W x, x.selection = .ranked (k.replace f.loads states) ∧
      f.install b states = { f.setBalancer b x with watchers := W } ∧
      Watched W fun b' r => b ≠ b' ∧ f.Ranks b' r ∨ b = b' ∧ r ∈ states := by
  obtain ⟨telemetry, listeners, hx⟩ := balancer_of_ranking? hk
  have halive : ∀ b r, f.Ranks b r → f.isAlive b = true := fun _ _ hr => h.isAlive hr
  have hb : f.isAlive b = true := by
    rw [Fleet.isAlive, h.held b k hk, Bool.true_or]
  have hreg : f.Registered d k := by
    obtain ⟨d', hd', -, -, hmembers⟩ := h.registered
    obtain rfl : d = d' := Option.some.inj (hd.symm.trans hd')
    exact ⟨hd, hres.lists, fun r hr => hmembers b r ⟨k, hk, hr⟩⟩
  have hdeparted : ∀ r, r ∈ k.departed f.loads states ↔ r ∈ k.queue.contents ∧ r ∉ states :=
    fun r => mem_departed (h.tidy b k hk) hreg fun r hr => (hres.find?_endpoint hr).1
  obtain ⟨W, hW, hwatched⟩ := h.watched.foldl_watch halive hb states
  simp only [install, hx, hW]
  generalize hy : (⟨.ranked (k.replace f.loads states), telemetry, listeners⟩ : Balancer) = x
  have halive' : ∀ b' r, (f.Ranks b' r ∨ b' = b ∧ r ∈ states) →
      (setBalancer { f with watchers := W } b x).isAlive b' = true := by
    intro b' r hr
    have hold : f.isHeld b' = true := by
      obtain ⟨k', hk', -⟩ | ⟨rfl, -⟩ := hr
      · exact h.held b' k' hk'
      · exact h.held _ k hk
    have hheld := (isHeld_modifyBalancer { f with watchers := W } b b' fun _ => x).trans hold
    rw [Fleet.isAlive, setBalancer, hheld, Bool.true_or]
  obtain ⟨W', hW', hwatched'⟩ := Watched.foldl_unwatch
    (f := setBalancer { f with watchers := W } b x) hwatched halive' (k.departed f.loads states)
  refine ⟨W', x, by rw [← hy], hW', hwatched'.congr fun b' r => ?_⟩
  rw [hdeparted]
  by_cases hbb : b = b'
  · subst hbb
    rw [ranks_iff hk]
    tauto
  · have hbb' : b' ≠ b := Ne.symm hbb
    tauto

theorem Sound.install (h : f.Sound c) (hd : f.directory = some d)
    (hres : d.Resolved f.loads es states) (b : Nat) :
    (f.install b states).Sound c ∧ (f.install b states).clock = f.clock ∧
      (f.install b states).loads = f.loads ∧
      ∀ b', (f.install b states).ranking? b' =
        if b = b' then (f.ranking? b').map (·.replace f.loads states) else f.ranking? b' := by
  cases hk : f.ranking? b with
  | none =>
    obtain ⟨hs, hloads, hrank⟩ := stirred_install_of_unranked (fun _ _ => False) hk states
    refine ⟨h.stirred hs, hs.frame.clock, hloads, fun b' => (hrank b').trans ?_⟩
    split
    · next hb => rw [← hb, hk]; rfl
    · rfl
  | some k =>
    -- only the ranking of `b` and the watchers change, and both change to the new members
    obtain ⟨W, x, hx, heq, hwatched⟩ := h.install_of_ranking? hd hres hk
    obtain ⟨telemetry, listeners, hbal⟩ := balancer_of_ranking? hk
    obtain ⟨htidy, hmem⟩ := Ranking.Tidy.replace (k := k) hres.apart
    have hrank : ∀ b', (f.install b states).ranking? b' =
        if b = b' then some (k.replace f.loads states) else f.ranking? b' := by
      intro b'
      rw [heq]
      refine (ranking?_setBalancer (f := f) (Option.isSome_iff_exists.2 ⟨_, hbal⟩)).trans ?_
      rw [hx]
      rfl
    have hranks : ∀ b' r, (f.install b states).Ranks b' r ↔
        b ≠ b' ∧ f.Ranks b' r ∨ b = b' ∧ r ∈ states := by
      intro b' r
      rw [Ranks, hrank]
      by_cases hb : b = b'
      · simp [hb, hmem]
      · simp [hb, Ranks]
    have hdir : (f.install b states).directory = some d := by rw [heq]; exact hd
    have hloads : (f.install b states).loads = f.loads := by rw [heq]; rfl
    obtain ⟨d', hd', hc, -, hmembers⟩ := h.registered
    obtain rfl : d = d' := Option.some.inj (hd.symm.trans hd')
    refine ⟨⟨fun b' k' hk' => ?_, fun b' k' hk' => ?_, ?_, d, hdir, hc, ?_, fun b' r hr => ?_⟩,
      by rw [heq]; rfl, hloads, fun b' => ?_⟩
    · rw [hloads]
      rw [hrank] at hk'
      split at hk'
      · obtain rfl := Option.some.inj hk'
        exact htidy
      · exact h.tidy b' k' hk'
    · rw [heq]
      refine (isHeld_modifyBalancer f b b' fun _ => x).trans ?_
      rw [hrank] at hk'
      split at hk'
      · next hb => exact hb ▸ h.held b k hk
      · exact h.held b' k' hk'
    · refine Watched.congr ?_ fun b' r => (hranks b' r).symm
      rw [heq]
      exact hwatched
    · rw [hloads]
      exact hres.lists
    · rw [hloads]
      obtain ⟨-, hr⟩ | ⟨-, hr⟩ := (hranks b' r).1 hr
      · exact hmembers b' r hr
      · exact (hres.find?_endpoint hr).1
    · rw [hrank]
      split
      · next hb => rw [← hb, hk]; rfl
      · rfl

theorem Sound.isReferenced (h : f.Sound c) (hr : f.Ranks b r) : f.isReferenced r = true := by
  obtain ⟨k, hk, hmem⟩ := hr
  obtain ⟨telemetry, listeners, hx⟩ := balancer_of_ranking? hk
  have hb : b < f.seats.size := by
    refine Nat.lt_of_not_le fun hle => ?_
    rw [balancer?, Array.getElem?_eq_none hle] at hx
    cases hx
  have hholds : (Selection.ranked k).holds r = true := List.contains_iff_mem.2 hmem
  rw [Fleet.isReferenced, Bool.or_eq_true]
  refine .inr (List.any_eq_true.2 ⟨b, List.mem_range.2 hb, ?_⟩)
  rw [h.isAlive ⟨k, hk, hmem⟩, hx, Bool.true_and]
  exact hholds

theorem Sound.prune (h : f.Sound c) :
    f.prune.2.Sound c ∧ f.prune.2.loads = f.loads ∧ f.prune.2.clock = f.clock ∧
      ∀ b, f.prune.2.ranking? b = f.ranking? b := by
  obtain ⟨d, hd, hc, hlists, hmembers⟩ := h.registered
  have hprune : f.prune.2 = { f with directory := some (d.prune f.isReferenced).2 } := by
    simp only [Fleet.prune, hd]
  rw [hprune]
  refine ⟨⟨h.tidy, h.held, h.watched, _, rfl, hc, fun e r hr => ?_, fun b r hr => ?_⟩, rfl, rfl,
    fun _ => rfl⟩
  · rw [find?_prune, Option.filter_eq_some_iff] at hr
    exact hlists e r hr.1
  · change (d.prune f.isReferenced).2.find? (f.loads.endpoint r) = some r
    rw [find?_prune, hmembers b r hr, Option.filter_some, if_pos (h.isReferenced hr)]

theorem stirred_publish (may : Nat → LoadRef → Prop) (f : Fleet) (b : Nat) :
    Stirred may f (f.publish b) ∧ (f.publish b).loads = f.loads ∧
      ∀ b', (f.publish b).ranking? b' = f.ranking? b' := by
  rw [publish]
  split
  · exact ⟨.still ⟨rfl, rfl, rfl, fun _ => rfl⟩ rfl fun _ => rfl, rfl, fun _ => rfl⟩
  · exact ⟨.refl, rfl, fun _ => rfl⟩

/-- From `f` to `f'` states of `es` have become the members of `b`, whose ranking, if it has one,
was `own` before. -/
structure Assigned (c : LoadSettings) (b : Nat) (own : Option Ranking) (es : List Endpoint)
    (f f' : Fleet) : Prop where
  sound : f'.Sound c
  clock : f'.clock = f.clock
  grows : f.loads.Grows c f.now f'.loads
  others : ∀ b', b ≠ b' → f'.ranking? b' = f.ranking? b'
  own : ∃ states, f'.ranking? b = own.map (·.replace f'.loads states) ∧ f'.loads.Apart states ∧
    states.map f'.loads.endpoint = es ∧ ∀ e ∈ es, ∀ r, f.find? e = some r → r ∈ states

theorem Sound.update (h : f.Sound c) (hok : f.update b es = .ok f') :
    Assigned c b (f.ranking? b) es f f' := by
  simp only [Fleet.update, bind, Except.bind, pure, Except.pure] at hok
  split at hok
  · cases hok
  · next x hx =>
    obtain ⟨states, f₁⟩ := x
    obtain ⟨h₁, hclock, hseats, hgrows, hfound, d, hd, hres⟩ := h.resolve hx
    obtain ⟨h₂, hclock₂, hloads₂, hrank₂⟩ := h₁.install hd hres b
    obtain ⟨h₃, hloads₃, hclock₃, hrank₃⟩ := h₂.prune
    cases hok
    rw [hloads₂] at hloads₃
    rw [← hloads₃] at hgrows hres
    refine ⟨h₃, hclock₃.trans (hclock₂.trans hclock), hgrows, fun b' hb => ?_, states, ?_,
      hres.apart, hres.map_endpoint, hfound⟩
    · rw [hrank₃, hrank₂, if_neg hb, ranking?_of_seats hseats]
    · rw [hrank₃, hrank₂, if_pos rfl, ranking?_of_seats hseats, hloads₃]

theorem Sound.build (h : f.Sound c) {selection : Selection} {telemetry : TelemetrySettings}
    {listeners : List Listener} (hsel : ∀ k, selection.ranking? = some k → k = {})
    (hok : f.build selection telemetry listeners es = .ok (b, f')) :
    b = f.seats.size ∧ Assigned c b selection.ranking? es f f' := by
  simp only [Fleet.build, bind, Except.bind, pure, Except.pure] at hok
  split at hok
  · cases hok
  · next tel _ =>
    split at hok
    · cases hok
    · next x hx =>
      obtain ⟨states, f₁⟩ := x
      obtain ⟨h₁, hclock, hseats, hgrows, hfound, d, hd, hres⟩ := h.resolve hx
      have hb : f₁.seats.size = b := congrArg Prod.fst (Except.ok.inj hok)
      have hf' : ((f₁.seat (some ⟨selection, tel, listeners⟩)).2.install f₁.seats.size
        states).publish f₁.seats.size = f' := congrArg Prod.snd (Except.ok.inj hok)
      have h₂ := h₁.seat (x := some ⟨selection, tel, listeners⟩) hsel
      have hd₂ : (f₁.seat (some ⟨selection, tel, listeners⟩)).2.directory = some d := hd
      obtain ⟨h₃, hclock₃, hloads₃, hrank₃⟩ := h₂.install hd₂ hres f₁.seats.size
      obtain ⟨hs, hloads₄, hrank₄⟩ := stirred_publish (fun _ _ => False)
        ((f₁.seat (some ⟨selection, tel, listeners⟩)).2.install f₁.seats.size states)
        f₁.seats.size
      rw [hf'] at hs hloads₄ hrank₄
      have hloads : f'.loads = f₁.loads := hloads₄.trans hloads₃
      have hsize : b = f.seats.size := by rw [← hb, hseats]
      rw [← hloads] at hgrows hres
      refine ⟨hsize, h₃.stirred hs, hs.frame.clock.trans (hclock₃.trans hclock), hgrows,
        fun b' hne => ?_, states, ?_, hres.apart, hres.map_endpoint, hfound⟩
      · rw [hrank₄, hrank₃, if_neg (hb ▸ hne), ranking?_seat, if_neg (hb ▸ Ne.symm hne),
          ranking?_of_seats hseats]
      · rw [hrank₄, hrank₃, if_pos hb, ranking?_seat, if_pos hb.symm, hloads]
        rfl

end Fleet

end LeastLoad
