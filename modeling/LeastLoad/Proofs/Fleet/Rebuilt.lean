import LeastLoad.Proofs.Fleet.Refreshed
import LeastLoad.Proofs.Fleet.Watchful
import LeastLoad.Proofs.IndexedHeap.Session

/-! # Giving a ranked balancer new endpoints

Whatever has happened to the loads behind the back of a ranked balancer, giving it endpoints
rebuilds everything that it keeps: its queue, its table of members, its wake-ups and its requests to
be told. No load changes by that, and the notices for endpoints that are not among the given ones
pass it by from then on. -/

namespace LeastLoad

namespace Ranking

variable {t : LoadTable} {k : Ranking} {states : List LoadRef} {es : List Endpoint} {e : Endpoint}

theorem contains_members_replace (hs : t.Apart states) :
    (k.replace t states).members.contains e = true ↔ e ∈ states.map t.endpoint := by
  obtain ⟨htidy, hmem⟩ := Tidy.replace (k := k) hs
  rw [Std.HashMap.contains_eq_isSome_getElem?, Option.isSome_iff_exists, List.mem_map]
  refine exists_congr fun r => ?_
  rw [htidy.members, hmem]

theorem wakeups_replace (hs : t.Apart states) :
    (k.replace t states).wakeups = k.wakeups.filter (·.endpoint ∈ states.map t.endpoint) := by
  refine List.filter_congr fun w _ => ?_
  rw [Bool.eq_iff_iff, decide_eq_true_eq]
  exact contains_members_replace (k := k) hs

theorem violation?_replace (hs : t.Apart states)
    (hkinds : ∀ r ∈ states, ∀ r' ∈ states, (t.load r).kind = (t.load r').kind) :
    (k.replace t states).queue.violation? t.compare = none := by
  obtain ⟨htidy, hmem⟩ := Tidy.replace (k := k) hs
  have hstanding : ∀ a b, a ∈ states → b ∈ states → t.compare a b = t.standing a b :=
    fun a b ha hb => EndpointLoad.compare_eq_standing (hkinds a ha b hb)
  have hagree : (k.replace t states).queue.AgreeOn t.compare t.standing :=
    fun a ha b hb => hstanding a b ((hmem a).1 ha) ((hmem b).1 hb)
  rw [hagree.violation?]
  exact IndexedHeap.violation?_eq_none htidy.indexed
    (ordered_replace refines_of_transCmp hstanding fun _ hr => hr)

theorem loadDropped_of_not_mem {now since : Nat} (he : k.members[e]? = none) :
    loadDropped now e since (t, k) = (t, k) := by
  rw [loadDropped, if_neg]
  simp [Std.HashMap.contains_eq_isSome_getElem?, he]

end Ranking

namespace Fleet

variable {f f' start : Fleet} {b : Nat} {r : LoadRef} {c : LoadSettings} {k k' : Ranking}
  {es : List Endpoint} {past : List (Fleet × Deed)}

theorem ranking?_modifyRanking_of_ne {b' : Nat} {g : LoadTable × Ranking → LoadTable × Ranking}
    (h : b' ≠ b) : (f.modifyRanking b' g).ranking? b = f.ranking? b := by
  cases hk : f.ranking? b' with
  | none => rw [modifyRanking_of_none hk]
  | some k => rw [ranking?_modifyRanking hk, if_neg h]

theorem ranking?_announce_of_not_mem (h : b ∉ f.watchers.getD r []) (since : Nat) :
    (f.announce r since).ranking? b = f.ranking? b := by
  refine List.foldlRecOn (motive := fun f' : Fleet => f'.ranking? b = f.ranking? b) _ _ rfl ?_
  intro f' hf b' hb'
  have hne : b' ≠ b := by
    rintro rfl
    exact h (mem_liveWatchers.1 hb').1
  rw [ranking?_modifyRanking_of_ne hne, hf]

theorem ranking?_adjust_of_not_mem (h : b ∉ f.watchers.getD r []) (a : Adjustment) :
    (f.adjust r a).ranking? b = f.ranking? b := by
  have hloads : ∀ (t : LoadTable) (since : Nat),
      ({ f with loads := t }.announce r since).ranking? b = f.ranking? b :=
    fun t since => ranking?_announce_of_not_mem (f := { f with loads := t }) h since
  cases a with
  | acquire n => rfl
  | release n latency => exact hloads _ 0
  | penalize latency =>
    rw [adjust, penalize]
    split
    · rfl
    · exact hloads _ _
  | sync => rfl
  | disable disabled =>
    simp only [adjust, setDisabled]
    split
    · exact hloads _ 0
    · rfl

/-- What giving the endpoints `es` to a balancer with the ranking `k` makes of a fleet. -/
structure Rebuilt (b : Nat) (es : List Endpoint) (f : Fleet) (k : Ranking) (f' : Fleet)
    (k' : Ranking) : Prop where
  ranked : f'.ranking? b = some k'
  entries : k'.queue.contents.map f'.loads.endpoint = es.dedup
  listed : ∀ r ∈ k'.queue.contents, f'.find? (f'.loads.endpoint r) = some r
  members : ∀ e r, k'.members[e]? = some r ↔ r ∈ k'.queue.contents ∧ f'.loads.endpoint r = e
  valid : k'.queue.violation? f'.loads.compare = none
  watched : ∀ r, (f'.watchers.getD r []).count b = if r ∈ k'.queue.contents then 1 else 0
  stays : ∀ r ∈ k.queue.contents, f.loads.endpoint r ∈ es → r ∈ k'.queue.contents
  wakeups : k'.wakeups = k.wakeups.filter (·.endpoint ∈ es)
  loads : ∀ r : LoadRef, r.place < f.loads.states.size → f'.loads.load r = f.loads.load r
  ignores : ∀ e ∉ es, ∀ now since t, Ranking.loadDropped now e since (t, k') = (t, k')
  passed : ∀ r ∉ k'.queue.contents,
    (∀ since, (f'.announce r since).ranking? b = some k') ∧
      ∀ a, (f'.adjust r a).ranking? b = some k'

theorem Rooted.rebuilt (h : f.Rooted c) (hw : f.Watchful) (hb : f.isHeld b = true)
    (hk : f.ranking? b = some k) (hok : f.update b es = .ok f') :
    ∃ k', Rebuilt b es f k f' k' := by
  have hrooted' := h.update hok
  have hw' := hw.update h hb hok
  obtain ⟨states, f₁, hres, heq⟩ := h.update_cases hok
  obtain ⟨d, hd, hstates⟩ := hres.resolved
  have hi := f₁.installs b states
  have hloads : f'.loads = f₁.loads := by
    rw [heq, loads_prune, hi.rest]
  have hrank : f'.ranking? b = some (k.replace f'.loads states) := by
    have hk₁ : f₁.ranking? b = some k := by
      rw [hres.rest]
      exact hk
    rw [hloads, heq, rest_prune]
    change (f₁.install b states).ranking? b = _
    rw [hi.ranking?, if_pos rfl, hk₁]
    rfl
  rw [← hloads] at hstates
  have hapart := hstates.apart
  have hes := hstates.map_endpoint
  have hsel := ranking?_eq_some_iff.1 hrank
  obtain ⟨htidy, hmem⟩ := Ranking.Tidy.replace (k := k) hapart
  have halive : f'.isAlive b = true := by
    refine isAlive_iff.2 (.inl ?_)
    rw [heq, rest_prune]
    change (f₁.install b states).isHeld b = true
    rw [hi.handles, hres.rest]
    exact hb
  have hwatched : ∀ r, b ∈ f'.watchers.getD r [] ↔
      r ∈ (k.replace f'.loads states).queue.contents := fun r =>
    (hw'.watches b r halive).trans (ranks_iff hrank)
  refine ⟨_, hrank, ?_, fun r hr => ?_, htidy.members, ?_, fun r => ?_, fun r hr he => ?_, ?_,
    fun r hr => ?_, fun e he now since t => ?_, fun r hr => ⟨fun since => ?_, fun a => ?_⟩⟩
  · rw [Ranking.map_endpoint_contents_replace hapart, hes]
  · exact hrooted'.listed (.balancer b) r ⟨halive, _, hsel, Multiset.mem_coe.1 hr⟩
  · refine Ranking.violation?_replace hapart fun r hr r' hr' => ?_
    rw [hrooted'.kinds r (hapart.place r hr), hrooted'.kinds r' (hapart.place r' hr')]
  · split
    · next hr =>
      exact (hw'.once b r halive).antisymm (List.count_pos_iff.2 ((hwatched r).2 hr))
    · next hr => exact List.count_eq_zero_of_not_mem fun hmem => hr ((hwatched r).1 hmem)
  · have hlisted := h.listed (.balancer b) r
      ⟨isAlive_iff.2 (.inl hb), _, ranking?_eq_some_iff.1 hk, Multiset.mem_coe.1 hr⟩
    obtain ⟨r', hr', hfind⟩ := hstates.exists_state he
    have hfound := hres.found _ r hlisted
    rw [find?, hd, Option.bind_eq_bind, Option.bind_some, hfind] at hfound
    exact (hmem r).2 (Option.some.inj hfound ▸ hr')
  · rw [Ranking.wakeups_replace hapart, hes]
  · rw [hloads]
    exact hres.grows.loads r hr
  · refine Ranking.loadDropped_of_not_mem (Option.eq_none_iff_forall_ne_some.2 fun r hr => he ?_)
    obtain ⟨hqueued, rfl⟩ := (htidy.members e r).1 hr
    exact hes ▸ List.mem_map_of_mem ((hmem r).1 hqueued)
  · rw [ranking?_announce_of_not_mem (fun hmem => hr ((hwatched r).1 hmem)), hrank]
  · rw [ranking?_adjust_of_not_mem (fun hmem => hr ((hwatched r).1 hmem)), hrank]

/-- At any point of a run, with any loads, order and wake-ups that it has led to. -/
theorem Runs.update_rebuilds (h : Runs Allowed start past f) (hstart : start.Blank c)
    (hb : f.isHeld b = true) (hk : f.ranking? b = some k) (es : List Endpoint) :
    (0 < c.windows → ∃ f', f.update b es = .ok f') ∧
      ∀ f', f.update b es = .ok f' → ∃ k', Rebuilt b es f k f' k' := by
  have hrooted := h.rooted hstart
  refine ⟨fun hwindows => ?_, fun f' hok => hrooted.rebuilt (h.watchful hstart) hb hk hok⟩
  obtain ⟨d, hd, rfl, -⟩ := hrooted.registered
  obtain ⟨x, hx⟩ := Directory.exists_resolve hwindows f.loads f.now es
  simp only [update, resolve, hd, hx, bind, Except.bind, pure, Except.pure]
  exact ⟨_, rfl⟩

/-- Of two endpoints with 3 and 1 units one leaves, and one that is new is given with the other. -/
theorem Runs.update_rebuilds_of_two :
    ∃ (start f f' : Fleet) (past : List (Fleet × Deed)) (k k' : Ranking), start.Blank {} ∧
      Runs Allowed start past f ∧ f.isHeld 0 = true ∧ f.ranking? 0 = some k ∧
      k.queue.toList.map f.loads.endpoint = [⟨1⟩, ⟨2⟩] ∧
      f.update 0 [⟨2⟩, ⟨3⟩, ⟨2⟩] = .ok f' ∧ Rebuilt 0 [⟨2⟩, ⟨3⟩, ⟨2⟩] f k f' k' ∧
      k'.queue.contents.map f'.loads.endpoint = ([⟨3⟩, ⟨2⟩] : List Endpoint) := by
  obtain ⟨start, hstart, -⟩ := exists_blank {}
  obtain ⟨past, f, k, hrun, h⟩ :=
    hstart.exists_drifted (by decide) rfl [⟨1⟩, ⟨2⟩] [3, 1] (by decide) rfl
  obtain ⟨hok, hrebuilt⟩ := hrun.update_rebuilds hstart h.held h.ranked [⟨2⟩, ⟨3⟩, ⟨2⟩]
  obtain ⟨f', hf'⟩ := hok (by decide)
  obtain ⟨k', hk'⟩ := hrebuilt f' hf'
  exact ⟨start, f, f', past, k, k', hstart, hrun, h.held, h.ranked, h.endpoints, hf', hk',
    hk'.entries⟩

end Fleet

end LeastLoad
