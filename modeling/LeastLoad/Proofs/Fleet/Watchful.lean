import LeastLoad.Proofs.Fleet.Calm
import LeastLoad.Proofs.Fleet.References

/-! # Who is told, while balancers come and go

The requests of a balancer that is no longer alive may stay behind for a while. They do no harm, and
they are not taken for those of another balancer, since places are never given out twice. Each
balancer that is alive has one request for each of its ranked members and none besides. -/

namespace LeastLoad

namespace Fleet

variable {f f' start : Fleet} {b b' : Nat} {r r' : LoadRef} {c : LoadSettings} {d : Directory}
  {es : List Endpoint} {states : List LoadRef} {P Q : Nat → LoadRef → Prop}
  {W : Std.HashMap LoadRef (List Nat)} {g : LoadTable × Ranking → LoadTable × Ranking}

/-- Each living balancer watches once the loads that `P` tells. -/
structure Heeds (f : Fleet) (W : Std.HashMap LoadRef (List Nat)) (P : Nat → LoadRef → Prop) :
    Prop where
  placed : ∀ b r, b ∈ W.getD r [] → b < f.seats.size
  once : ∀ b r, f.isAlive b = true → (W.getD r []).count b ≤ 1
  watches : ∀ b r, f.isAlive b = true → (b ∈ W.getD r [] ↔ P b r)

theorem Heeds.congr (h : f.Heeds W P) (hPQ : ∀ b r, P b r ↔ Q b r) : f.Heeds W Q :=
  ⟨h.placed, h.once, fun b r hb => (h.watches b r hb).trans (hPQ b r)⟩

theorem mem_liveWatchers : b ∈ f.liveWatchers r ↔ b ∈ f.watchers.getD r [] ∧ f.isAlive b = true :=
  List.mem_filter

theorem count_liveWatchers (h : f.isAlive b = true) :
    (f.liveWatchers r).count b = (f.watchers.getD r []).count b :=
  List.count_filter h

theorem Heeds.nodup_liveWatchers (h : f.Heeds f.watchers P) (r : LoadRef) :
    (f.liveWatchers r).Nodup := by
  refine List.nodup_iff_count_le_one.2 fun b => ?_
  by_cases hb : b ∈ f.liveWatchers r
  · obtain ⟨-, hb⟩ := mem_liveWatchers.1 hb
    rw [count_liveWatchers hb]
    exact h.once b r hb
  · simp [List.count_eq_zero_of_not_mem hb]

theorem getD_watch : (f.watch b r).watchers.getD r' [] =
    if r = r' then
      if b ∈ f.liveWatchers r then f.liveWatchers r else f.liveWatchers r ++ [b]
    else f.watchers.getD r' [] := by
  simp only [watch, Std.HashMap.getD_insert, beq_iff_eq, List.contains_eq_mem, decide_eq_true_eq]

theorem getD_unwatch : (f.unwatch b r).watchers.getD r' [] =
    if r = r' then (f.liveWatchers r).filter (· ≠ b) else f.watchers.getD r' [] := by
  simp only [unwatch, Std.HashMap.getD_insert, beq_iff_eq]

theorem Heeds.watch (h : f.Heeds f.watchers P) (hb : f.isHeld b = true) (r : LoadRef) :
    f.Heeds (f.watch b r).watchers fun b' r' => P b' r' ∨ b' = b ∧ r' = r := by
  constructor
  · intro b' r' hb'
    rw [getD_watch] at hb'
    split at hb'
    · split at hb'
      · exact h.placed b' r (mem_liveWatchers.1 hb').1
      · obtain hb' | hb' := List.mem_append.1 hb'
        · exact h.placed b' r (mem_liveWatchers.1 hb').1
        · exact List.mem_singleton.1 hb' ▸ lt_size_of_isHeld hb
    · exact h.placed b' r' hb'
  · intro b' r' hb'
    have hlive := List.nodup_iff_count_le_one.1 (h.nodup_liveWatchers r) b'
    rw [getD_watch]
    split
    · split
      · exact hlive
      · next hnot =>
        rw [List.count_append]
        by_cases heq : b = b'
        · subst heq
          simp [List.count_eq_zero_of_not_mem hnot]
        · simpa [heq] using hlive
    · exact h.once b' r' hb'
  · intro b' r' hb'
    have hlive : b' ∈ f.liveWatchers r ↔ P b' r := by simp [mem_liveWatchers, hb', h.watches b' r]
    rw [getD_watch]
    by_cases hrr : r = r'
    · subst hrr
      by_cases hmem : b ∈ f.liveWatchers r
      · have hP : b' = b → P b' r := fun heq => hlive.1 (heq ▸ hmem)
        simp only [if_true, if_pos hmem, hlive, and_true]
        exact ⟨.inl, fun hor => hor.elim id hP⟩
      · simp only [if_true, if_neg hmem, List.mem_append, hlive, List.mem_singleton, and_true]
    · simp [hrr, Ne.symm hrr, h.watches b' r' hb']

theorem Heeds.unwatch (h : f.Heeds f.watchers P) (b : Nat) (r : LoadRef) :
    f.Heeds (f.unwatch b r).watchers fun b' r' => P b' r' ∧ ¬ (b' = b ∧ r' = r) := by
  constructor
  · intro b' r' hb'
    rw [getD_unwatch] at hb'
    split at hb'
    · exact h.placed b' r (mem_liveWatchers.1 (List.mem_filter.1 hb').1).1
    · exact h.placed b' r' hb'
  · intro b' r' hb'
    rw [getD_unwatch]
    split
    · exact List.nodup_iff_count_le_one.1 ((h.nodup_liveWatchers r).filter _) b'
    · exact h.once b' r' hb'
  · intro b' r' hb'
    rw [getD_unwatch]
    by_cases hrr : r = r'
    · subst hrr
      simp [mem_liveWatchers, hb', h.watches b' r]
    · simp [hrr, Ne.symm hrr, h.watches b' r' hb']

theorem Heeds.foldl_watch (h : f.Heeds f.watchers P) (hb : f.isHeld b = true)
    (states : List LoadRef) :
    ∃ W, states.foldl (Fleet.watch · b) f = { f with watchers := W } ∧
      f.Heeds W fun b' r => P b' r ∨ b' = b ∧ r ∈ states := by
  induction states generalizing f P with
  | nil => exact ⟨f.watchers, rfl, h.congr fun _ _ => by simp⟩
  | cons r states ih =>
    have hnext := h.watch hb r
    obtain ⟨W, hW, hheeds⟩ := ih (f := f.watch b r) ⟨hnext.placed, hnext.once, hnext.watches⟩ hb
    refine ⟨W, hW, hheeds.placed, hheeds.once, fun b' r' hb' => (hheeds.watches b' r' hb').trans ?_⟩
    rw [List.mem_cons]
    tauto

theorem Heeds.foldl_unwatch (h : f.Heeds f.watchers P) (b : Nat) (states : List LoadRef) :
    ∃ W, states.foldl (Fleet.unwatch · b) f = { f with watchers := W } ∧
      f.Heeds W fun b' r => P b' r ∧ ¬ (b' = b ∧ r ∈ states) := by
  induction states generalizing f P with
  | nil => exact ⟨f.watchers, rfl, h.congr fun _ _ => by simp⟩
  | cons r states ih =>
    have hnext := h.unwatch b r
    obtain ⟨W, hW, hheeds⟩ := ih (f := f.unwatch b r) ⟨hnext.placed, hnext.once, hnext.watches⟩
    refine ⟨W, hW, hheeds.placed, hheeds.once, fun b' r' hb' => (hheeds.watches b' r' hb').trans ?_⟩
    rw [List.mem_cons]
    tauto

/-- Each living balancer watches its ranked members. -/
def Watchful (f : Fleet) : Prop := f.Heeds f.watchers f.Ranks

theorem ranks_iff_selection :
    f.Ranks b r ↔ ∃ k, f.selection? b = some (.ranked k) ∧ r ∈ k.queue.contents := by
  simp only [Ranks, ranking?_eq_some_iff]

theorem Shifts.ranks (h : Shifts f f') : f'.Ranks b r ↔ f.Ranks b r := by
  rw [ranks_iff_selection, ranks_iff_selection]
  have hb := h.selections b
  generalize f.selection? b = x, f'.selection? b = x' at hb
  cases hb with
  | none => rfl
  | some hs =>
    cases hs with
    | grouped g => simp
    | ranked hk => simp [hk.contents]

theorem Watchful.of_fewer (h : f.Watchful) (hw : f'.watchers = f.watchers)
    (hsize : f.seats.size ≤ f'.seats.size)
    (hb : ∀ b, f'.isAlive b = true → (f.isAlive b = true ∧ ∀ r, f'.Ranks b r ↔ f.Ranks b r) ∨
      f.seats.size ≤ b ∧ ∀ r, ¬ f'.Ranks b r) : f'.Watchful := by
  have hnew : ∀ b r, f.seats.size ≤ b → b ∉ f.watchers.getD r [] := fun b r hle hmem =>
    Nat.not_lt.2 hle (h.placed b r hmem)
  rw [Watchful, hw]
  refine ⟨fun b r hmem => (h.placed b r hmem).trans_le hsize, fun b r halive => ?_,
    fun b r halive => ?_⟩
  · obtain ⟨hold, -⟩ | ⟨hle, -⟩ := hb b halive
    · exact h.once b r hold
    · simp [List.count_eq_zero_of_not_mem (hnew b r hle)]
  · obtain ⟨hold, hranks⟩ | ⟨hle, hranks⟩ := hb b halive
    · exact (h.watches b r hold).trans (hranks r).symm
    · exact iff_of_false (hnew b r hle) (hranks r)

theorem Watchful.still (h : f.Watchful) (hw : f'.watchers = f.watchers)
    (hseats : f'.seats = f.seats) (htasks : f'.tasks = f.tasks) : f'.Watchful := by
  refine h.of_fewer hw (congrArg Array.size hseats).ge fun b hb => .inl ⟨?_, fun r => ?_⟩
  · rw [← hb]
    simp only [isAlive, isHeld, tickets, hseats, htasks]
  · rw [Ranks, ranking?_of_seats hseats, Ranks]

theorem Watchful.shifts (h : f.Watchful) (hs : Shifts f f') (hw : f'.watchers = f.watchers) :
    f'.Watchful :=
  h.of_fewer hw hs.places.ge fun b hb => .inl ⟨hs.isAlive b ▸ hb, fun _ => hs.ranks⟩

theorem Heeds.of_alive (h : f.Heeds W P) (hsize : f'.seats.size = f.seats.size)
    (hb : ∀ b, f'.isAlive b = f.isAlive b) : f'.Heeds W P :=
  ⟨fun b r hmem => hsize ▸ h.placed b r hmem, fun b r halive => h.once b r (hb b ▸ halive),
    fun b r halive => h.watches b r (hb b ▸ halive)⟩

theorem Installs.ranking? (h : Installs b states f f') (b' : Nat) :
    f'.ranking? b' = if b = b' then (f.ranking? b').map (·.replace f.loads states)
      else f.ranking? b' := by
  rw [Fleet.ranking?, h.balancer?]
  split
  · rw [Fleet.ranking?]
    cases f.balancer? b' with
    | none => rfl
    | some x =>
      obtain ⟨selection, telemetry, listeners⟩ := x
      cases selection <;> rfl
  · rfl

theorem Rooted.mem_departed {k : Ranking} (h : f.Rooted c) (hb : f.isHeld b = true)
    (hk : f.ranking? b = some k) (hd : f.directory = some d)
    (hres : d.Resolved f.loads es states) :
    r ∈ k.departed f.loads states ↔ r ∈ k.queue.contents ∧ r ∉ states := by
  have hsel := ranking?_eq_some_iff.1 hk
  refine Fleet.mem_departed (h.coherent b k hsel) ⟨hd, hres.lists, fun r hr => ?_⟩
    fun r hr => (hres.find?_endpoint hr).1
  have hlisted := h.listed (.balancer b) r ⟨isAlive_iff.2 (.inl hb), _, hsel, Multiset.mem_coe.1 hr⟩
  rwa [find?, hd] at hlisted

theorem watchers_install_of_unranked (h : f.ranking? b = none) (states : List LoadRef) :
    (f.install b states).watchers = f.watchers := by
  rw [Fleet.install]
  split
  · rfl
  · next x hx =>
    split
    · rfl
    · next k hsel =>
      rw [Fleet.ranking?, hx] at h
      cases (congrArg Selection.ranking? hsel).symm.trans h

/-- A ranked balancer asks to be told of the given states before it takes back what it has asked for
the departed ones. -/
theorem Watchful.heeds_install {k : Ranking} (h : f.Watchful) (hb : f.isHeld b = true)
    (hk : f.ranking? b = some k) (states : List LoadRef) :
    (f.install b states).Heeds (f.install b states).watchers fun b' r =>
      (f.Ranks b' r ∨ b' = b ∧ r ∈ states) ∧ ¬ (b' = b ∧ r ∈ k.departed f.loads states) := by
  obtain ⟨telemetry, listeners, hx⟩ := balancer_of_ranking? hk
  obtain ⟨W, hW, hheeds⟩ := Heeds.foldl_watch h hb states
  obtain ⟨y, hy⟩ : ∃ y : Balancer,
      y = ⟨.ranked (k.replace f.loads states), telemetry, listeners⟩ := ⟨_, rfl⟩
  have hset : (setBalancer { f with watchers := W } b y).Heeds W _ :=
    hheeds.of_alive (places_modifyBalancer _ _ _) fun b' => by
      rw [Fleet.isAlive, Fleet.isAlive, setBalancer, isHeld_modifyBalancer]
      rfl
  obtain ⟨W', hW', hheeds'⟩ := Heeds.foldl_unwatch (f := setBalancer { f with watchers := W } b y)
    hset b (k.departed f.loads states)
  have hinstall : f.install b states =
      { setBalancer { f with watchers := W } b y with watchers := W' } := by
    rw [← hW', hy]
    simp only [Fleet.install, hx, hW]
  rw [hinstall]
  exact hheeds'.of_alive rfl fun _ => rfl

theorem Rooted.ranks_install {k : Ranking} (h : f.Rooted c) (hb : f.isHeld b = true)
    (hk : f.ranking? b = some k) (hd : f.directory = some d)
    (hres : d.Resolved f.loads es states) (b' : Nat) (r : LoadRef) :
    (f.install b states).Ranks b' r ↔
      (f.Ranks b' r ∨ b' = b ∧ r ∈ states) ∧ ¬ (b' = b ∧ r ∈ k.departed f.loads states) := by
  have hi := f.installs b states
  rw [h.mem_departed hb hk hd hres]
  by_cases hbb : b = b'
  · subst hbb
    have hreplaced : (f.install b states).Ranks b r ↔ r ∈ states := by
      refine (ranks_iff (k := k.replace f.loads states) ?_).trans
        ((Ranking.Tidy.replace hres.apart).2 r)
      rw [hi.ranking?, if_pos rfl, hk]
      rfl
    rw [hreplaced, ranks_iff hk]
    tauto
  · have hother : (f.install b states).Ranks b' r ↔ f.Ranks b' r := by
      rw [Ranks, hi.ranking?, if_neg hbb, Ranks]
    rw [hother]
    simp [Ne.symm hbb]

theorem Watchful.install (h : f.Watchful) (hrooted : f.Rooted c) (hb : f.isHeld b = true)
    (hd : f.directory = some d) (hres : d.Resolved f.loads es states) :
    (f.install b states).Watchful := by
  have hi := f.installs b states
  cases hk : f.ranking? b with
  | none =>
    have hrank : ∀ b', (f.install b states).ranking? b' = f.ranking? b' := fun b' => by
      rw [hi.ranking?]
      split
      · next hbb => rw [← hbb, hk]; rfl
      · rfl
    refine h.of_fewer (watchers_install_of_unranked hk states) hi.places.ge fun b' hb' =>
      .inl ⟨hi.isAlive b' ▸ hb', fun r => ?_⟩
    rw [Ranks, hrank, Ranks]
  | some k =>
    exact (h.heeds_install hb hk states).congr fun b' r =>
      (hrooted.ranks_install hb hk hd hres b' r).symm

@[simp] theorem watchers_announce (f : Fleet) (r : LoadRef) (since : Nat) :
    (f.announce r since).watchers = f.watchers := by
  refine List.foldlRecOn (motive := fun f' : Fleet => f'.watchers = f.watchers) _ _ rfl ?_
  exact fun f' hf b _ => frame_modifyRanking.watchers.trans hf

@[simp] theorem watchers_release (f : Fleet) (r : LoadRef) (n : Int32) (latency : Duration) :
    (f.release r n latency).watchers = f.watchers := by
  simp [release]

@[simp] theorem watchers_penalize (f : Fleet) (r : LoadRef) (latency : Duration) :
    (f.penalize r latency).2.watchers = f.watchers := by
  simp only [penalize]
  split <;> simp

@[simp] theorem watchers_setDisabled (f : Fleet) (r : LoadRef) (disabled : Bool) :
    (f.setDisabled r disabled).watchers = f.watchers := by
  simp only [setDisabled]
  split <;> simp

@[simp] theorem watchers_adjust (f : Fleet) (r : LoadRef) (a : Adjustment) :
    (f.adjust r a).watchers = f.watchers := by
  cases a <;> simp [adjust, acquire, sync]

@[simp] theorem watchers_finish (f : Fleet) (t : Ticket) (succeeded : Bool) (latency : Duration) :
    (f.finish t succeeded latency).watchers = f.watchers := by
  cases succeeded <;> simp [finish, notify, modifyBalancer]

@[simp] theorem watchers_complete (f : Fleet) (i : Nat) (succeeded : Bool)
    (latency : Option Duration) : (f.complete i succeeded latency).2.watchers = f.watchers := by
  simp only [complete]
  split
  · rfl
  · rfl
  · split <;> simp

@[simp] theorem watchers_report (f : Fleet) (b : Nat) :
    (f.report b).2.watchers = f.watchers := by
  simp only [report]
  split <;> simp [setBalancer, modifyBalancer]

theorem Rooted.watchers_perform (h : f.Rooted c) {d : Deed} (hnone : ∀ b, f.assigned b d = none) :
    (f.perform d).watchers = f.watchers ∧ (f.perform d).seats.size = f.seats.size := by
  have hco := h.coherent
  cases d with
  | call call =>
    cases call with
    | build s strategy listeners es =>
      simp only [assigned] at hnone
      simp only [Fleet.perform, apply]
      cases hok : f.build (strategy.selection s) s.telemetry listeners es with
      | error e => exact ⟨rfl, rfl⟩
      | ok x => simp [hok] at hnone
    | next b =>
      have hs := (hco.shifts_next b).1
      cases hn : (f.next b).1 with
      | none =>
        rw [perform_next_none hn]
        exact ⟨(f.frame_next b).watchers, hs.places⟩
      | some t =>
        rw [perform_next_some hn]
        exact ⟨(f.frame_next b).watchers, hs.places⟩
    | complete i succeeded latency =>
      exact ⟨f.watchers_complete i succeeded latency,
        (hco.shifts_complete i succeeded latency).places⟩
    | update b es =>
      simp only [assigned] at hnone
      simp only [Fleet.perform, apply]
      cases hok : f.update b es with
      | error e => exact ⟨rfl, rfl⟩
      | ok f' => simp [hok] at hnone
    | advance d => exact ⟨rfl, rfl⟩
    | set d => exact ⟨rfl, rfl⟩
  | adjust r a => exact ⟨f.watchers_adjust r a, (hco.shifts_adjust r a).places⟩
  | resolve es =>
    simp only [Fleet.perform]
    cases hok : f.resolve es with
    | error e => exact ⟨rfl, rfl⟩
    | ok x =>
      obtain ⟨states, f'⟩ := x
      change f'.watchers = f.watchers ∧ f'.seats.size = f.seats.size
      rw [(h.resolve hok).rest]
      exact ⟨rfl, rfl⟩
  | hold e =>
    simp only [Fleet.perform]
    cases hok : f.getOrCreate e with
    | error e => exact ⟨rfl, rfl⟩
    | ok x =>
      obtain ⟨found, f'⟩ := x
      have hkept : f'.watchers = f.watchers ∧ f'.seats.size = f.seats.size := by
        rw [(h.resolve (resolve_of_getOrCreate hok)).rest]
        exact ⟨rfl, rfl⟩
      cases found <;> exact hkept
  | letGo e => exact ⟨rfl, rfl⟩
  | dropTask i => exact ⟨rfl, rfl⟩
  | dropBalancer b => exact ⟨rfl, by simp [Fleet.perform, dropBalancer]⟩
  | prune =>
    simp only [Fleet.perform]
    rw [rest_prune]
    exact ⟨rfl, rfl⟩
  | refresh b => exact ⟨frame_modifyRanking.watchers, (hco.shifts_refresh b).places⟩
  | report b => exact ⟨f.watchers_report b, (hco.shifts_report b).places⟩

theorem Fewer.isAlive (h : Fewer f f') (hb : f'.isAlive b = true) : f.isAlive b = true := by
  rw [isAlive_iff] at hb ⊢
  exact hb.imp (h.handles b) fun ⟨i, s, hi, hsb⟩ => ⟨i, s, h.stubs i s hi, hsb⟩

theorem isAlive_keep {t : Ticket} (ht : f.isHeld t.balancer = true)
    (hb : (f.keep (.tracked t)).2.isAlive b = true) : f.isAlive b = true := by
  rw [isAlive_iff] at hb ⊢
  refine hb.elim .inl ?_
  rintro ⟨i, s, hs, rfl⟩
  rw [stub?_keep] at hs
  split at hs
  · obtain rfl := Option.some.inj hs
    exact .inl ht
  · exact .inr ⟨i, s, hs, rfl⟩

theorem Watchful.build (h : f.Watchful) (hrooted : f.Rooted c) {s : Settings} {strategy : Strategy}
    {listeners : List Listener}
    (hok : f.build (strategy.selection s) s.telemetry listeners es = .ok (b, f')) :
    f'.Watchful := by
  obtain ⟨telemetry, states, f₁, -, hres, rfl, rfl⟩ := hrooted.build_cases hok
  obtain ⟨d, hd, hstates⟩ := hres.resolved
  have hsize : f.seats.size = f₁.seats.size := by rw [hres.rest]
  have hf₁ : f₁.Watchful := h.still (by rw [hres.rest]) (by rw [hres.rest]) (by rw [hres.rest])
  -- nobody has asked in the name of the new balancer
  have hseat : (f₁.seat (some ⟨strategy.selection s, telemetry, listeners⟩)).2.Watchful := by
    refine hf₁.of_fewer rfl (by simp [seat]) fun b hb => ?_
    have hranks : ∀ r, (f₁.seat (some ⟨strategy.selection s, telemetry, listeners⟩)).2.Ranks b r ↔
        b ≠ f₁.seats.size ∧ f₁.Ranks b r := by
      intro r
      simp only [Ranks, ranking?_seat]
      split
      · next hnew =>
        simp only [hnew, ne_eq, not_true_eq_false, false_and, iff_false]
        rintro ⟨k, hk, hr⟩
        rw [Strategy.ranking?_selection hk] at hr
        cases hr
      · next hne => simp [hne]
    by_cases hnew : b = f₁.seats.size
    · exact .inr ⟨hnew.ge, fun r hr => ((hranks r).1 hr).1 hnew⟩
    · refine .inl ⟨?_, fun r => (hranks r).trans (and_iff_right hnew)⟩
      rw [isAlive_iff, isHeld_seat, if_neg hnew] at hb
      exact isAlive_iff.2 hb
  have hheld : (f₁.seat (some ⟨strategy.selection s, telemetry, listeners⟩)).2.isHeld
      f.seats.size = true := by
    rw [isHeld_seat, if_pos hsize]
  refine (hseat.install (hres.rooted.seat_new s strategy telemetry listeners) hheld hd
    hstates).still ?_ ?_ ?_ <;> rw [rest_publish]

theorem Watchful.update (h : f.Watchful) (hrooted : f.Rooted c) (hb : f.isHeld b = true)
    (hok : f.update b es = .ok f') : f'.Watchful := by
  obtain ⟨states, f₁, hres, rfl⟩ := hrooted.update_cases hok
  obtain ⟨d, hd, hstates⟩ := hres.resolved
  have hf₁ : f₁.Watchful := h.still (by rw [hres.rest]) (by rw [hres.rest]) (by rw [hres.rest])
  have hb₁ : f₁.isHeld b = true := by
    rw [hres.rest]
    exact hb
  refine (hf₁.install hres.rooted hb₁ hd hstates).still ?_ ?_ ?_ <;> rw [rest_prune]

theorem Watchful.perform (h : f.Watchful) (hrooted : f.Rooted c) {d : Deed} (hd : Allowed f d) :
    (f.perform d).Watchful := by
  have heffect := hrooted.effect hd
  have hkept : (∀ b, f.assigned b d = none) → _ := hrooted.watchers_perform
  generalize f.perform d = f' at heffect hkept
  cases heffect with
  | shifts hnone hs => exact h.shifts hs (hkept hnone).1
  | @keeps b t hb ht =>
    obtain ⟨hs, hmember⟩ := hrooted.coherent.shifts_next b
    obtain ⟨rfl, -⟩ := hmember t ht
    have hheld : (f.next t.balancer).2.isHeld t.balancer = true := (hs.handles _).trans hb
    exact (h.shifts hs (f.frame_next _).watchers).of_fewer rfl le_rfl fun b' hb' =>
      .inl ⟨isAlive_keep hheld hb', fun _ => Iff.rfl⟩
  | resolves hres => exact h.still (by rw [hres.rest]) (by rw [hres.rest]) (by rw [hres.rest])
  | holds hres =>
    refine h.still ?_ ?_ ?_ <;> rw [hres.rest] <;> rfl
  | builds hok => exact h.build hrooted hok
  | updates hok => exact h.update hrooted hd hok
  | drops hnone hf =>
    refine h.of_fewer (hkept hnone).1 (hkept hnone).2.ge fun b hb =>
      .inl ⟨hf.isAlive hb, fun r => ?_⟩
    rw [ranks_iff_selection, ranks_iff_selection, hf.selections]
  | prunes => exact h.still (by rw [rest_prune]) (by rw [rest_prune]) (by rw [rest_prune])

theorem Blank.watchful (h : start.Blank c) : start.Watchful := by
  refine ⟨fun b r hb => ?_, fun b r _ => ?_, fun b r hb => ?_⟩
  · simp [h.watchers] at hb
  · simp [h.watchers]
  · have hnone : ¬ start.Ranks b r := by simp [ranks_iff_selection, h.selection?]
    simp [h.watchers, hnone]

theorem Runs.watchful {past : List (Fleet × Deed)} (h : Runs Allowed start past f)
    (hstart : start.Blank c) : f.Watchful := by
  induction h with
  | start => exact hstart.watchful
  | step d hf hd ih => exact ih.perform (hf.rooted hstart) hd

end Fleet

end LeastLoad
