import LeastLoad.Proofs.Endpoint.Directory
import LeastLoad.Proofs.Fleet.Watched

/-! # Giving a lone balancer its members

A balancer that is built or given new endpoints watches exactly the states that become its members,
and the directory keeps all of them: forgetting spares what a living balancer holds. -/

namespace LeastLoad

theorem Ranking.Tidy.grows {t t' : LoadTable} {k : Ranking} {c : LoadSettings} {now : Nat}
    (ht : Ranking.Tidy (t, k)) (hg : t.Grows c now t') : Ranking.Tidy (t', k) := by
  refine ⟨ht.indexed, ht.nodup, fun r hr => Nat.lt_of_lt_of_le (ht.placed r hr) hg.size, ?_⟩
  intro e r
  rw [ht.members]
  refine and_congr_right fun hr => ?_
  rw [LoadTable.endpoint, LoadTable.endpoint, hg.loads r (ht.placed r hr)]

namespace Fleet

variable {f f' : Fleet} {b : Nat} {k : Ranking} {r : LoadRef} {p : LoadRef → Prop}
  {W : Std.HashMap LoadRef (List Nat)} {d : Directory}

theorem Watch.congr {p' : LoadRef → Prop} (h : Watch W b p) (hp : ∀ r, p r ↔ p' r) :
    Watch W b p' :=
  fun r => ⟨fun hr => (h r).1 ((hp r).2 hr), fun hr => (h r).2 (mt (hp r).1 hr)⟩

theorem watch_iff : Watch W b p ↔ Watched W fun b' r => b' = b ∧ p r := by
  refine forall_congr' fun r => ⟨fun h => ?_, fun ⟨hn, hmem⟩ => ⟨fun hr => ?_, fun hr => ?_⟩⟩
  · by_cases hr : p r
    · simp [h.1 hr, hr]
    · simp [h.2 hr, hr]
  · refine List.perm_singleton.1 ((List.perm_ext_iff_of_nodup hn (List.nodup_singleton b)).2 ?_)
    exact fun b' => by simp [hmem, hr]
  · exact List.eq_nil_iff_forall_not_mem.2 fun b' hb' => hr ((hmem b').1 hb').2

theorem foldl_watch (h : Watch f.watchers b p) (ha : f.isAlive b = true) (states : List LoadRef) :
    ∃ W, states.foldl (watch · b) f = { f with watchers := W } ∧
      Watch W b (fun r => p r ∨ r ∈ states) := by
  obtain ⟨W, hW, hwatched⟩ := (watch_iff.1 h).foldl_watch (fun _ _ hb => hb.1 ▸ ha) ha states
  exact ⟨W, hW, watch_iff.2 (hwatched.congr fun _ _ => and_or_left.symm)⟩

theorem foldl_unwatch (h : Watch f.watchers b p) (ha : f.isAlive b = true)
    (states : List LoadRef) :
    ∃ W, states.foldl (unwatch · b) f = { f with watchers := W } ∧
      Watch W b (fun r => p r ∧ r ∉ states) := by
  obtain ⟨W, hW, hwatched⟩ := (watch_iff.1 h).foldl_unwatch (fun _ _ hb => hb.1 ▸ ha) states
  exact ⟨W, hW, watch_iff.2 (hwatched.congr fun _ _ => by tauto)⟩

/-- The directory lists the loads of the fleet, those of the members among them. -/
structure Registered (f : Fleet) (d : Directory) (k : Ranking) : Prop where
  directory : f.directory = some d
  lists : d.Lists f.loads
  members : ∀ r ∈ k.queue.contents, d.find? (f.loads.endpoint r) = some r

theorem mem_departed (ht : Ranking.Tidy (f.loads, k)) (hreg : f.Registered d k)
    {states : List LoadRef} (hs : ∀ r ∈ states, d.find? (f.loads.endpoint r) = some r) :
    r ∈ k.departed f.loads states ↔ r ∈ k.queue.contents ∧ r ∉ states := by
  simp only [Ranking.departed, List.mem_map, List.mem_filter, Prod.exists,
    Std.HashMap.mem_toList_iff_getElem?_eq_some, ht.members, Bool.not_eq_true',
    List.contains_eq_mem, decide_eq_false_iff_not]
  constructor
  · rintro ⟨e, r', ⟨⟨hr, he⟩, hnot⟩, rfl⟩
    exact ⟨hr, fun hmem => hnot ⟨r', hmem, he⟩⟩
  · rintro ⟨hr, hnot⟩
    refine ⟨f.loads.endpoint r, r, ⟨⟨hr, rfl⟩, ?_⟩, rfl⟩
    rintro ⟨r', hmem, he⟩
    have hrr : r' = r := hreg.lists.eq_of_endpoint_eq (hreg.members r hr) (hs r' hmem) he
    exact hnot (hrr ▸ hmem)

theorem Alone.moves_install (h : f.Alone b k) (ht : Ranking.Tidy (f.loads, k))
    (hreg : f.Registered d k) {states : List LoadRef}
    (hs : ∀ r ∈ states, d.find? (f.loads.endpoint r) = some r)
    (hk : ∀ r, r ∈ (k.replace f.loads states).queue.contents ↔ r ∈ states) :
    Moves b f (f.install b states) (f.loads, k.replace f.loads states) := by
  obtain ⟨x, hx, hsel⟩ := h.balancer
  obtain ⟨W, hW, hwatch⟩ := foldl_watch h.watched h.alive states
  simp only [install, hx, hsel, hW]
  generalize hy : ({ x with selection := .ranked (k.replace f.loads states) } : Balancer) = y
  have hheld : (setBalancer { f with watchers := W } b y).isHeld b = true :=
    (isHeld_modifyBalancer f b b _).trans h.held
  have halive : (setBalancer { f with watchers := W } b y).isAlive b = true := by
    rw [isAlive, hheld, Bool.true_or]
  obtain ⟨W', hW', hwatch'⟩ := foldl_unwatch (f := setBalancer { f with watchers := W } b y)
    hwatch halive (k.departed f.loads states)
  rw [hW']
  refine ⟨⟨fun c hne => ?_, hheld, ?_, hwatch'.congr fun r => ?_⟩, rfl, rfl, rfl⟩
  · exact (balancer?_modifyBalancer f b c _).trans ((if_neg hne).trans (h.only c hne))
  · have hset : (setBalancer { f with watchers := W } b y).balancer? b = some y := by
      rw [setBalancer, balancer?_modifyBalancer, if_pos rfl]
      change (f.balancer? b).map _ = some y
      rw [hx]
      rfl
    change (setBalancer { f with watchers := W } b y).ranking? b = _
    rw [ranking?, hset, ← hy]
    rfl
  · rw [mem_departed ht hreg hs, hk]
    tauto

structure Covers (f : Fleet) (k : Ranking) (es : List Endpoint) : Prop where
  found : ∀ e ∈ es, ∃ r ∈ k.queue.contents, f.find? e = some r
  only : ∀ r ∈ k.queue.contents, f.loads.endpoint r ∈ es

/-- What a lone balancer over `es` is like, its loads made with the settings `c`. -/
structure Serves (f : Fleet) (b : Nat) (k : Ranking) (c : LoadSettings) (es : List Endpoint) :
    Prop where
  alone : f.Alone b k
  tidy : Ranking.Tidy (f.loads, k)
  registered : ∃ d, f.Registered d k ∧ d.settings = c
  covers : f.Covers k es

variable {c : LoadSettings} {es es' : List Endpoint} {states : List LoadRef} {t : LoadTable}

theorem resolve_spec (hd : f.directory = some d) (hl : d.Lists f.loads)
    (hok : f.resolve es = .ok (states, f')) :
    ∃ d' t, f' = { f with directory := some d', loads := t } ∧
      Directory.Extends f.now d f.loads d' t ∧ d'.Resolved t es states := by
  simp only [resolve, hd, bind, Except.bind, pure, Except.pure] at hok
  split at hok
  · cases hok
  · next x hx =>
    obtain ⟨rs, d', t⟩ := x
    obtain ⟨hext, hres⟩ := Directory.resolve_spec hl hx
    cases hok
    exact ⟨d', t, rfl, hext, hres⟩

theorem Registered.extend (h : f.Registered d k) (ht : Ranking.Tidy (f.loads, k)) {d' : Directory}
    (hext : Directory.Extends f.now d f.loads d' t) (hl : d'.Lists t) :
    ({ f with directory := some d', loads := t } : Fleet).Registered d' k := by
  refine ⟨rfl, hl, fun r hr => ?_⟩
  have hload : t.endpoint r = f.loads.endpoint r :=
    congrArg EndpointLoad.endpoint (hext.grows.loads r (ht.placed r hr))
  change d'.find? (t.endpoint r) = some r
  rw [hload]
  exact hext.found _ r (h.members r hr)

theorem Moves.serves (hm : Moves b f f' (t, k)) (ht : Ranking.Tidy (t, k))
    (hd : f.directory = some d) (hres : d.Resolved t es states)
    (hmem : ∀ r, r ∈ k.queue.contents ↔ r ∈ states) : f'.Serves b k d.settings es := by
  have hd' : f'.directory = some d := hm.directory.trans hd
  have hloads : f'.loads = t := hm.loads
  refine ⟨hm.alone, ?_, ⟨d, ⟨hd', ?_, fun r hr => ?_⟩, rfl⟩, fun e he => ?_, fun r hr => ?_⟩
  · rw [hloads]
    exact ht
  · rw [hloads]
    exact hres.lists
  · rw [hloads]
    exact (hres.find?_endpoint ((hmem r).1 hr)).1
  · obtain ⟨r, hr, hfind⟩ := hres.exists_state he
    refine ⟨r, (hmem r).2 hr, ?_⟩
    rw [find?, hd']
    exact hfind
  · rw [hloads]
    exact (hres.find?_endpoint ((hmem r).1 hr)).2

/-- From `f` to `f'` the states of `es` have become the members in place of those of `k`. -/
structure Installed (f : Fleet) (b : Nat) (k : Ranking) (c : LoadSettings) (es : List Endpoint)
    (states : List LoadRef) (f' : Fleet) : Prop where
  serves : f'.Serves b (k.replace f'.loads states) c es
  clock : f'.clock = f.clock
  grows : f.loads.Grows c f.now f'.loads
  apart : f'.loads.Apart states
  endpoints : states.map f'.loads.endpoint = es

theorem Installed.followed {f'' : Fleet} (h : Installed f b k c es states f')
    (hserves : f''.Serves b (k.replace f'.loads states) c es) (hloads : f''.loads = f'.loads)
    (hclock : f''.clock = f'.clock) : Installed f b k c es states f'' := by
  refine ⟨?_, hclock.trans h.clock, ?_, ?_, ?_⟩
  all_goals rw [hloads]
  · exact hserves
  · exact h.grows
  · exact h.apart
  · exact h.endpoints

theorem Alone.install_resolved (h : f.Alone b k) (ht : Ranking.Tidy (f.loads, k))
    (hreg : f.Registered d k) {f₁ : Fleet} (hok : f.resolve es = .ok (states, f₁)) :
    Installed f b k d.settings es states (f₁.install b states) := by
  obtain ⟨d', t, rfl, hext, hres⟩ := resolve_spec hreg.directory hreg.lists hok
  obtain ⟨htidy, hmem⟩ := Ranking.Tidy.replace (k := k) hres.apart
  have hm := Alone.moves_install (f := { f with directory := some d', loads := t })
    ⟨h.only, h.held, h.ranked, h.watched⟩ (ht.grows hext.grows)
    (hreg.extend ht hext hres.lists) (fun r hr => (hres.find?_endpoint hr).1) hmem
  have hserves := hm.serves htidy rfl hres hmem
  rw [hext.settings] at hserves
  have hloads : (install { f with directory := some d', loads := t } b states).loads = t := hm.loads
  refine ⟨?_, hm.clock, ?_, ?_, ?_⟩
  all_goals rw [hloads]
  · exact hserves
  · exact hext.grows
  · exact hres.apart
  · exact hres.map_endpoint

theorem find?_prune (d : Directory) (held : LoadRef → Bool) (e : Endpoint) :
    (d.prune held).2.find? e = (d.find? e).filter held := by
  simp only [Directory.find?, Directory.prune, Std.HashMap.getElem?_filter']

theorem Alone.isReferenced (h : f.Alone b k) (hr : r ∈ k.queue.contents) :
    f.isReferenced r = true := by
  obtain ⟨x, hx, hsel⟩ := h.balancer
  have hb : b < f.seats.size := by
    refine Nat.lt_of_not_le fun hle => ?_
    have hheld := h.held
    simp [isHeld, Array.getElem?_eq_none hle] at hheld
  have hholds : x.selection.holds r = true := by
    rw [Selection.holds, hsel]
    exact List.contains_iff_mem.2 hr
  rw [Fleet.isReferenced, Bool.or_eq_true]
  refine .inr (List.any_eq_true.2 ⟨b, List.mem_range.2 hb, ?_⟩)
  rw [h.alive, hx, Bool.true_and]
  exact hholds

theorem Serves.prune (h : f.Serves b k c es) :
    f.prune.2.Serves b k c es ∧ f.prune.2.loads = f.loads ∧ f.prune.2.clock = f.clock := by
  obtain ⟨d, hreg, hc⟩ := h.registered
  have hprune : f.prune.2 = { f with directory := some (d.prune f.isReferenced).2 } := by
    simp only [Fleet.prune, hreg.directory]
  have hkeep : ∀ e r, r ∈ k.queue.contents → d.find? e = some r →
      (d.prune f.isReferenced).2.find? e = some r := by
    intro e r hr he
    rw [find?_prune, he, Option.filter_some, if_pos (h.alone.isReferenced hr)]
  rw [hprune]
  refine ⟨⟨⟨h.alone.only, h.alone.held, h.alone.ranked, h.alone.watched⟩, h.tidy,
    ⟨_, ⟨rfl, fun e r hr => ?_, fun r hr => ?_⟩, hc⟩, fun e he => ?_, h.covers.only⟩, rfl, rfl⟩
  · rw [find?_prune, Option.filter_eq_some_iff] at hr
    exact hreg.lists e r hr.1
  · exact hkeep _ r hr (hreg.members r hr)
  · obtain ⟨r, hr, her⟩ := h.covers.found e he
    refine ⟨r, hr, hkeep e r hr ?_⟩
    rwa [find?, hreg.directory] at her

theorem Serves.update (h : f.Serves b k c es) (hok : f.update b es' = .ok f') :
    ∃ states, Installed f b k c es' states f' := by
  obtain ⟨d, hreg, rfl⟩ := h.registered
  simp only [Fleet.update, bind, Except.bind, pure, Except.pure] at hok
  split at hok
  · cases hok
  · next x hx =>
    obtain ⟨states, f₁⟩ := x
    have hinst := h.alone.install_resolved h.tidy hreg hx
    obtain ⟨hserves, hloads, hclock⟩ := hinst.serves.prune
    cases hok
    exact ⟨states, hinst.followed hserves hloads hclock⟩

/-- A fleet in which nothing has been made but the directory. -/
structure Fresh (f : Fleet) (c : LoadSettings) : Prop where
  directory : f.directory = some { settings := c }
  loads : f.loads = {}
  watchers : ∀ r, f.watchers.getD r [] = []
  seats : f.seats = #[]

theorem exists_fresh (c : LoadSettings) : ∃ f : Fleet, f.Fresh c ∧ f.now = 0 :=
  ⟨{ clock := ⟨0, Nat.zero_le _⟩, directory := some { settings := c } },
    ⟨rfl, rfl, fun _ => by simp, rfl⟩, rfl⟩

theorem Fresh.load_eq (h : f.Fresh c) (r : LoadRef) : f.loads.load r = LoadTable.vacant := by
  rw [h.loads]
  exact LoadTable.load_of_size_le (Nat.zero_le _)

theorem resolve_seat (x : Option Balancer)
    (hok : f.resolve es = .ok (states, f')) :
    (f.seat x).2.resolve es = .ok (states, (f'.seat x).2) := by
  cases hd : f.directory with
  | none =>
    simp only [resolve, hd] at hok
    cases hok
    simp only [resolve, seat, hd]
  | some d =>
    have hd' : (f.seat x).2.directory = some d := hd
    simp only [resolve, hd, bind, Except.bind, pure, Except.pure] at hok
    split at hok
    · cases hok
    · next y hy =>
      have hy' : d.resolve (f.seat x).2.loads (f.seat x).2.now es = .ok y := hy
      cases hok
      simp only [resolve, hd', bind, hy']
      rfl

theorem Fresh.alone_seat (h : f.Fresh c) (telemetry : Telemetry) (listeners : List Listener) :
    (f.seat (some ⟨.ranked {}, telemetry, listeners⟩)).2.Alone f.seats.size {} := by
  have hseats : (f.seat (some ⟨.ranked {}, telemetry, listeners⟩)).2.seats =
      #[{ balancer := some ⟨.ranked {}, telemetry, listeners⟩ }] := by
    simp [seat, h.seats]
  rw [h.seats]
  refine ⟨fun c hc => ?_, ?_, ?_, fun r => ⟨fun hr => absurd hr ?_, fun _ => h.watchers r⟩⟩
  · have hnone : (f.seat (some ⟨.ranked {}, telemetry, listeners⟩)).2.seats[c]? = none := by
      rw [hseats]
      exact Array.getElem?_eq_none (Nat.one_le_iff_ne_zero.2 (Ne.symm hc))
    rw [balancer?, hnone]
    rfl
  · rw [isHeld, hseats]
    rfl
  · rw [ranking?, balancer?, hseats]
    rfl
  · exact Multiset.notMem_zero r

theorem Serves.publish (h : f.Serves b k c es) :
    (f.publish b).Serves b k c es ∧ (f.publish b).loads = f.loads ∧
      (f.publish b).clock = f.clock := by
  obtain ⟨d, hreg, hc⟩ := h.registered
  rw [Fleet.publish]
  split
  · refine ⟨⟨⟨h.alone.only, h.alone.held, h.alone.ranked, h.alone.watched⟩, h.tidy,
      ⟨d, ⟨hreg.directory, hreg.lists, hreg.members⟩, hc⟩, ⟨h.covers.found, h.covers.only⟩⟩,
      rfl, rfl⟩
  · exact ⟨h, rfl, rfl⟩

theorem Fresh.build (h : f.Fresh c) {telemetry : TelemetrySettings} {listeners : List Listener}
    (hok : f.build (.ranked {}) telemetry listeners es = .ok (b, f')) :
    ∃ states, Installed f b {} c es states f' := by
  simp only [Fleet.build, bind, Except.bind, pure, Except.pure] at hok
  split at hok
  · cases hok
  · next tel _ =>
    split at hok
    · cases hok
    · next x hx =>
      obtain ⟨states, f₁⟩ := x
      have hlists : ({ settings := c } : Directory).Lists f.loads := by
        intro e r hr
        simp [Directory.find?] at hr
      obtain ⟨d, t, hf₁, -⟩ := resolve_spec h.directory hlists hx
      have hsize : f.seats.size = f₁.seats.size := by rw [hf₁]
      have hreg : (f.seat (some ⟨.ranked {}, tel, listeners⟩)).2.Registered { settings := c } {} :=
        ⟨h.directory, hlists, fun r hr => absurd hr (Multiset.notMem_zero r)⟩
      have hinst := (h.alone_seat tel listeners).install_resolved (Ranking.Tidy.empty _) hreg
        (resolve_seat _ hx)
      rw [hsize] at hinst
      obtain ⟨hserves, hloads, hclock⟩ := hinst.serves.publish
      have hb : f₁.seats.size = b := congrArg Prod.fst (Except.ok.inj hok)
      have hf' : (install (f₁.seat (some ⟨.ranked {}, tel, listeners⟩)).2 f₁.seats.size
        states).publish f₁.seats.size = f' := congrArg Prod.snd (Except.ok.inj hok)
      have hall := hinst.followed hserves hloads hclock
      rw [hf', hb] at hall
      exact ⟨states, hall.serves, hall.clock, hall.grows, hall.apart, hall.endpoints⟩

theorem exists_telemetry {s : TelemetrySettings} (h : 0 < s.windows) (seed : UInt64) (now : Nat) :
    ∃ t, Telemetry.create s seed now = .ok t := by
  simp only [Telemetry.create, RateMeter.create, SlidingSum.create, DeferredSum.create,
    ExpiryRing.create, Nat.ne_of_gt h, if_false]
  exact ⟨_, rfl⟩

theorem exists_build {d : Directory} (hd : f.directory = some d) (hw : 0 < d.settings.windows)
    (selection : Selection) (telemetry : TelemetrySettings) (ht : 0 < telemetry.windows)
    (listeners : List Listener) (es : List Endpoint) :
    ∃ b f', f.build selection telemetry listeners es = .ok (b, f') := by
  obtain ⟨x, hx⟩ := Directory.exists_resolve hw f.loads f.now es
  obtain ⟨tel, htel⟩ := exists_telemetry ht f.sampleSeed f.now
  simp only [Fleet.build, htel, resolve, hd, hx, bind, Except.bind, pure, Except.pure]
  exact ⟨_, _, rfl⟩

theorem exists_update {d : Directory} (hd : f.directory = some d) (hw : 0 < d.settings.windows)
    (b : Nat) (es : List Endpoint) : ∃ f', f.update b es = .ok f' := by
  obtain ⟨x, hx⟩ := Directory.exists_resolve hw f.loads f.now es
  simp only [Fleet.update, resolve, hd, hx, bind, Except.bind, pure, Except.pure]
  exact ⟨_, rfl⟩

end Fleet

end LeastLoad
