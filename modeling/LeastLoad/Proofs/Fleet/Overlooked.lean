import LeastLoad.Proofs.Endpoint.Unused
import LeastLoad.Proofs.Fleet.Exhausted

/-! # Endpoints that are overlooked

In a new queue all loads compare as equal. With the endpoints of the first three slots disabled the
top stays where it is, and a request is refused whatever stands behind; so four endpoints are enough
for a refusal while an endpoint may be handed out. -/

namespace LeastLoad

namespace Ranking

variable {t : LoadTable} {k : Ranking} {r top : LoadRef} {now : Nat} {states : List LoadRef}

theorem queue_resync_eq_self (ht : Tidy (t, k)) (hpeek : k.queue.peek = some top)
    (hunused : ∀ r ∈ k.queue.contents, (t.load r).Unused now)
    (hfirst : ∀ c ≤ 2, ∀ r, k.queue.heap[c]? = some r → (t.load r).disabled = true) :
    (resync now (t, k) top).2.queue = k.queue := by
  have hone := Multiset.nodup_iff_count_le_one.1 ht.nodup top
  have hdis : ∀ c ≤ 2, ∀ r, k.queue.heap[c]? = some r →
      ((t.update top (·.sync now)).load r).disabled = true := by
    intro c hc r hr
    rw [LoadTable.load_update_congr (·.disabled) fun _ => EndpointLoad.disabled_sync]
    exact hfirst c hc r hr
  have hidle : ∀ r ∈ k.queue.contents, ((t.update top (·.sync now)).load r).Idle := by
    intro r hr
    rw [LoadTable.load_update]
    split
    · exact (hunused r hr).synced
    · exact (hunused r hr).idle
  change (k.queue.offer (t.update top (·.sync now)).compare top).2 = k.queue
  rw [ht.indexed.offer_eq_reposition hone hpeek]
  refine IndexedHeap.reposition_top_eq_self hpeek fun c r hc hr => ?_
  have hmem := IndexedHeap.mem_contents_iff_getElem?.2 ⟨c, hr⟩
  rw [LoadTable.compare, (hidle r hmem).compare (hidle top (IndexedHeap.peek_mem hpeek)),
    hdis c (by omega) r hr, hdis 0 (Nat.zero_le 2) top hpeek]
  decide

theorem take_eq_none (ht : Tidy (t, k)) (hw : k.wakeups = [])
    (hunused : ∀ r ∈ k.queue.contents, (t.load r).Unused now)
    (hfirst : ∀ c ≤ 2, ∀ r, k.queue.heap[c]? = some r → (t.load r).disabled = true) :
    (take now (t, k)).1 = none := by
  have hwake : wake now (t, k) = (t, k) := wake_of_nil hw
  rw [take, hwake]
  dsimp only
  cases hpeek : k.queue.peek with
  | none =>
    have hsize : k.queue.size = 0 := Nat.le_zero.1 (Array.getElem?_eq_none_iff.1 hpeek)
    rw [settle, hsize, settleWithin, hpeek]
  | some top =>
    have hstay := queue_resync_eq_self ht hpeek hunused hfirst
    have hav : ((resync now (t, k) top).1.load top).available = false := by
      change ((t.update top (·.sync now)).load top).available = false
      rw [EndpointLoad.available,
        LoadTable.load_update_congr (·.disabled) fun _ => EndpointLoad.disabled_sync,
        hfirst 0 (Nat.zero_le 2) top hpeek]
      rfl
    rw [settle_eq_resync hpeek hstay, hstay, hpeek]
    dsimp only
    rw [if_neg (Bool.not_eq_true _ ▸ hav)]

/-- States that compare as equal are queued in the order in which they enter. -/
theorem toList_foldl_enter (heq : ∀ a b, t.compare a b ≠ .lt) (hi : k.queue.Indexed)
    (hn : (k.queue.toList ++ states).Nodup) :
    (states.foldl (enter t) k).queue.toList = k.queue.toList ++ states := by
  induction states generalizing k with
  | nil => rw [List.append_nil]; rfl
  | cons r states ih =>
    have hnot : r ∉ k.queue.toList := fun hr =>
      List.disjoint_of_nodup_append hn hr List.mem_cons_self
    have henter : (k.enter t r).queue.toList = k.queue.toList ++ [r] := by
      have hc : ¬ k.queue.contains r = true := by
        rw [hi.contains_iff]
        exact fun hr => hnot (Array.mem_toList_iff.2 hr)
      simp only [enter, IndexedHeap.offer, if_neg hc, IndexedHeap.toList,
        IndexedHeap.heap_push_of_not_lt fun a _ => heq r a, Array.toList_push]
    rw [List.foldl_cons, ih (hi.offer r), henter, List.append_assoc, List.singleton_append]
    rwa [henter, List.append_assoc]

end Ranking

namespace Solo

variable {s start : Solo} {c : LoadSettings} {t : LoadTable} {k : Ranking} {es : List Endpoint}
  {r : LoadRef}

def disableAll (s : Solo) (es : List Endpoint) : Solo :=
  es.foldl (fun s e => s.apply (.disable e true)) s

theorem Reachable.disableAll (h : Reachable Forward start s) (es : List Endpoint) :
    Reachable Forward start (s.disableAll es) :=
  List.foldlRecOn _ _ h fun _ hs e _ => hs.step (.disable e true) trivial

theorem At.disableAll (h : s.At c (t, k)) (es : List Endpoint) :
    ∃ t', (s.disableAll es).At c (t', k) ∧ (s.disableAll es).fleet.clock = s.fleet.clock ∧
      (∀ r, t'.endpoint r = t.endpoint r) ∧
      ∀ r ∈ k.queue.contents, t'.load r =
        if t.endpoint r ∈ es then (t.load r).setDisabled true else t.load r := by
  induction es generalizing s t with
  | nil => exact ⟨t, h, rfl, fun _ => rfl, fun r _ => by simp⟩
  | cons e es ih =>
    obtain ⟨⟨r, hr, hs⟩ | ⟨hnone, hs⟩, hclock⟩ := h.disable e true
    · obtain ⟨hend, hplace⟩ := h.endpoint_of_find? hr
      have hsw : Fleet.switched s.fleet.now r true (t, k) =
          (t.update r (·.setDisabled true), k) := by
        rw [Fleet.switched, Bool.not_true, Bool.and_false]
        rfl
      have hkeep : ∀ r', (t.update r (·.setDisabled true)).endpoint r' = t.endpoint r' :=
        fun _ => LoadTable.endpoint_update fun _ => rfl
      rw [hsw] at hs
      obtain ⟨t', hs', hclock', hend', hload⟩ := ih hs
      refine ⟨t', hs', hclock'.trans hclock, fun r' => (hend' r').trans (hkeep r'), ?_⟩
      intro r' hr'
      rw [hload r' hr', hkeep, LoadTable.load_update]
      by_cases hrr : r = r'
      · subst hrr
        simp [hend, hplace, EndpointLoad.setDisabled]
      · have hne : t.endpoint r' ≠ e := by
          rintro rfl
          exact hrr (Option.some.inj (hr.symm.trans (h.find?_endpoint hr').2))
        simp [hrr, hne]
    · obtain ⟨t', hs', hclock', hend', hload⟩ := ih hs
      refine ⟨t', hs', hclock'.trans hclock, hend', fun r' hr' => ?_⟩
      have hne : t.endpoint r' ≠ e := by
        rintro rfl
        rw [(h.find?_endpoint hr').2] at hnone
        cases hnone
      rw [hload r' hr']
      simp [hne]

theorem At.overlooks (h : s.At c (t, k)) (hw : k.wakeups = [])
    (hunused : ∀ r, (t.load r).Unused s.fleet.now ∧ (t.load r).disabled = false)
    (hfirst : ∀ i ≤ 2, ∀ r, k.queue.heap[i]? = some r → t.endpoint r ∈ es) :
    ((s.disableAll es).fleet.next (s.disableAll es).place).1 = none ∧
      ∀ r ∈ k.queue.contents, t.endpoint r ∉ es →
        (s.disableAll es).ready (t.endpoint r) = true := by
  obtain ⟨t', hs, hclock, hend, hload⟩ := h.disableAll es
  have hnow : (s.disableAll es).fleet.now = s.fleet.now := congrArg Clock.now hclock
  constructor
  · obtain ⟨hanswer, -⟩ := hs.next
    rw [hanswer, Option.map_eq_none_iff, hnow]
    refine Ranking.take_eq_none hs.tidy hw (fun r hr => ?_) fun i hi r hr => ?_
    · rw [hload r hr]
      split
      · exact (hunused r).1.setDisabled true
      · exact (hunused r).1
    · rw [hload r (IndexedHeap.mem_contents_iff_getElem?.2 ⟨i, hr⟩), if_pos (hfirst i hi r hr)]
      rfl
  · intro r hr hnot
    have hfind := (hs.find?_endpoint hr).2
    rw [hend] at hfind
    rw [hs.ready_of_find? hfind, hnow, hload r hr, if_neg hnot]
    exact (hunused r).1.ready (hunused r).2

theorem Starts.unused (h : start.Starts c) :
    ∃ t states, start.At c (t, Ranking.replace t {} states) ∧
      (∀ r, (t.load r).Unused start.fleet.now ∧ (t.load r).disabled = false) ∧
      states.map t.endpoint = start.endpoints := by
  obtain ⟨f, telemetry, listeners, hfresh, hbuild⟩ := h
  obtain ⟨states, h⟩ := hfresh.build hbuild
  refine ⟨start.fleet.loads, states, ⟨h.serves, rfl⟩,
    h.grows.forall (p := fun l => l.Unused _ ∧ l.disabled = false) (fun r => ?_)
      (fun e l hl => ?_) ?_, h.endpoints⟩
  · rw [hfresh.load_eq]
    exact ⟨.vacant, rfl⟩
  · rw [Fleet.now, h.clock]
    exact EndpointLoad.Unused.create f.clock.now_le hl
  · exact ⟨.vacant, rfl⟩

theorem Starts.exists_overlooked (h : start.Starts c)
    (hcard : 3 < start.endpoints.toFinset.card) :
    ∃ es, ((start.disableAll es).fleet.next (start.disableAll es).place).1 = none ∧
      ∃ e ∈ start.endpoints, (start.disableAll es).ready e = true := by
  obtain ⟨t, states, hs, hunused, -⟩ := h.unused
  generalize hk : Ranking.replace t {} states = k at hs
  have hw : k.wakeups = [] := by
    rw [← hk]
    rfl
  have hlong : 3 < k.queue.toList.length := hcard.trans_eq hs.card_contents.symm
  have hmem : k.queue.toList[3] ∈ k.queue.contents := List.getElem_mem hlong
  have hfirst : ∀ i ≤ 2, ∀ r, k.queue.heap[i]? = some r →
      t.endpoint r ∈ (k.queue.toList.take 3).map t.endpoint := by
    intro i hi r hr
    refine List.mem_map.2 ⟨r, List.mem_iff_getElem?.2 ⟨i, ?_⟩, rfl⟩
    rw [List.getElem?_take, if_pos (Nat.lt_succ_of_le hi)]
    exact Array.getElem?_toList.trans hr
  obtain ⟨hnone, hready⟩ := hs.overlooks hw hunused hfirst
  refine ⟨_, hnone, _, (hs.find?_endpoint hmem).1, hready _ hmem fun hin => ?_⟩
  obtain ⟨r, hr, hend⟩ := List.mem_map.1 hin
  obtain rfl := hs.tidy.eq_of_endpoint_eq (List.mem_of_mem_take hr) hmem hend
  obtain ⟨i, hi, heq⟩ := List.mem_take_iff_getElem.1 hr
  have hidx := (Multiset.coe_nodup.1 hs.tidy.nodup).getElem_inj_iff.1 heq
  omega

/-- Distinct endpoints are queued as they are given, and the first three hide the others. -/
theorem Starts.overlooks_behind_three (h : start.Starts c) (hn : start.endpoints.Nodup) :
    ((start.disableAll (start.endpoints.take 3)).fleet.next
        (start.disableAll (start.endpoints.take 3)).place).1 = none ∧
      ∀ e ∈ start.endpoints.drop 3,
        (start.disableAll (start.endpoints.take 3)).ready e = true := by
  obtain ⟨t, states, hs, hunused, hmap⟩ := h.unused
  have heq : ∀ a b, t.compare a b ≠ .lt := by
    intro a b
    rw [LoadTable.compare, (hunused a).1.idle.compare (hunused b).1.idle, (hunused a).2,
      (hunused b).2]
    decide
  have hstates : states.Nodup := List.Nodup.of_map t.endpoint (hmap ▸ hn)
  have hlist : (Ranking.replace t {} states).queue.toList = states := by
    rw [Ranking.queue_replace, Ranking.toList_foldl_enter heq .empty]
    · rfl
    · exact hstates
  generalize hk : Ranking.replace t {} states = k at hs hlist
  have hw : k.wakeups = [] := by
    rw [← hk]
    rfl
  have hfirst : ∀ i ≤ 2, ∀ r, k.queue.heap[i]? = some r →
      t.endpoint r ∈ start.endpoints.take 3 := by
    intro i hi r hr
    rw [← hmap, ← List.map_take]
    refine List.mem_map.2 ⟨r, List.mem_iff_getElem?.2 ⟨i, ?_⟩, rfl⟩
    rw [List.getElem?_take, if_pos (Nat.lt_succ_of_le hi), ← hlist]
    exact Array.getElem?_toList.trans hr
  obtain ⟨hnone, hready⟩ := hs.overlooks hw hunused hfirst
  refine ⟨hnone, fun e he => ?_⟩
  have hlater : e ∉ start.endpoints.take 3 := fun hin =>
    List.disjoint_take_drop hn (Nat.le_refl 3) hin he
  obtain ⟨r, hr, hfind⟩ := hs.serves.covers.found e (List.mem_of_mem_drop he)
  obtain rfl := (hs.endpoint_of_find? hfind).1
  exact hready r hr hlater

/-- What is handed out was ready, and nothing is handed out if nothing is ready. Nothing may also be
handed out when three endpoints are not ready; refusals are right in every run exactly if there are
no more than three endpoints. -/
theorem Starts.refusals (h : start.Starts c) :
    (∀ s, Reachable Forward start s →
      (∀ t, (s.fleet.next s.place).1 = some t →
        ∃ e ∈ s.endpoints, s.fleet.find? e = some t.load ∧ s.ready e = true) ∧
      ((∀ e ∈ s.endpoints, s.ready e = false) → (s.fleet.next s.place).1 = none) ∧
      ((s.fleet.next s.place).1 = none →
        (∀ e ∈ s.endpoints, s.ready e = false) ∨ 3 ≤ s.unready.card)) ∧
    ((∀ s, Reachable Forward start s →
      ((s.fleet.next s.place).1 = none ↔ ∀ e ∈ s.endpoints, s.ready e = false)) ↔
      start.endpoints.toFinset.card ≤ 3) := by
  have hnone : ∀ s, Reachable Forward start s → (∀ e ∈ s.endpoints, s.ready e = false) →
      (s.fleet.next s.place).1 = none := by
    intro s hs hall
    rw [Option.eq_none_iff_forall_ne_some]
    intro t ht
    obtain ⟨e, he, -, hready⟩ := (hs.next_ready h).1 t ht
    rw [hall e he] at hready
    cases hready
  refine ⟨fun s hs => ⟨(hs.next_ready h).1, hnone s hs, (hs.next_ready h).2⟩, ⟨?_, ?_⟩⟩
  · -- the endpoint that is overlooked would have to be unavailable
    intro hexact
    by_contra hcard
    obtain ⟨es, hrefused, e, he, hready⟩ := h.exists_overlooked (Nat.lt_of_not_le hcard)
    have hs : Reachable Forward start (start.disableAll es) := .disableAll .start es
    rw [(hexact _ hs).1 hrefused e (hs.endpoints_eq ▸ he)] at hready
    cases hready
  · intro hcard s hs
    refine ⟨fun hrefused => ?_, hnone s hs⟩
    rcases (hs.next_ready h).2 hrefused with hall | hthree
    · exact hall
    · rw [← hs.endpoints_eq] at hcard
      have heq : s.unready = s.endpoints.toFinset :=
        Finset.eq_of_subset_of_card_le (Finset.filter_subset _ _) (hcard.trans hthree)
      intro e he
      rw [← List.mem_toFinset, ← heq] at he
      exact (Finset.mem_filter.1 he).2

/-- Three endpoints are too few to hide one. -/
theorem Starts.refusals_of_three :
    ∃ start : Solo, start.Starts {} ∧ start.endpoints = [⟨0⟩, ⟨1⟩, ⟨2⟩] ∧
      ∀ s, Reachable Forward start s →
        ((s.fleet.next s.place).1 = none ↔ ∀ e ∈ s.endpoints, s.ready e = false) := by
  obtain ⟨start, hstart, hes⟩ := exists_starts [⟨0⟩, ⟨1⟩, ⟨2⟩]
  refine ⟨start, hstart, hes, hstart.refusals.2.2 ?_⟩
  rw [hes]
  decide

/-- Of four endpoints, the last is overlooked once the others are disabled. -/
theorem Starts.refuses_last_of_four :
    ∃ start : Solo, start.Starts {} ∧ start.endpoints = [⟨0⟩, ⟨1⟩, ⟨2⟩, ⟨3⟩] ∧
      ∃ s, s = start.disableAll [⟨0⟩, ⟨1⟩, ⟨2⟩] ∧ Reachable Forward start s ∧
        s.ready ⟨3⟩ = true ∧ (s.fleet.next s.place).1 = none := by
  obtain ⟨start, hstart, hes⟩ := exists_starts [⟨0⟩, ⟨1⟩, ⟨2⟩, ⟨3⟩]
  obtain ⟨hnone, hready⟩ := hstart.overlooks_behind_three (by rw [hes]; decide)
  rw [hes] at hnone hready
  exact ⟨start, hstart, hes, _, rfl, .disableAll .start _, hready ⟨3⟩ (by decide), hnone⟩

end Solo

end LeastLoad
