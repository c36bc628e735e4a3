import LeastLoad.Proofs.Fleet.Runs

/-! # Penalties that a balancer hears of

A ranked balancer is told of each failure of a member, and remembers when the penalty comes off for
as long as the endpoint stays a member. What was announced before it became one it is not told
again. Of a member whose pending penalties are all remembered, a request knows the units in flight
without what has fallen due. -/

namespace LeastLoad

namespace Ranking

variable {s : LoadTable × Ranking} {now : Nat}

theorem Tidy.exists_alert (ht : Tidy s) (hi : Wakeup.InTurn s.2.wakeups)
    (missed : LoadRef → Nat → Prop)
    (h : ∀ r ∈ s.2.queue.contents, (s.1.load r).Awaited
      (fun d => ⟨d, s.1.endpoint r⟩ ∈ s.2.wakeups ∨ missed r d) now) :
    ∃ owed, Alert now owed s ∧
      ∀ w ∈ owed, ∃ r ∈ s.2.queue.contents, s.1.endpoint r = w.endpoint ∧ missed r w.due := by
  choose! ds hds hawaited using fun r hr => (h r hr).exists_list
  -- of the instants at which a penalty of a member comes off, those without a wake-up
  refine ⟨s.2.queue.toList.flatMap fun r =>
    ((ds r).filter fun d => ⟨d, s.1.endpoint r⟩ ∉ s.2.wakeups).map (⟨·, s.1.endpoint r⟩),
    ⟨ht, hi, fun r hr => (hawaited r hr).mono fun d hd => ?_⟩, fun w hw => ?_⟩
  · rw [List.mem_append]
    by_cases hw : ⟨d, s.1.endpoint r⟩ ∈ s.2.wakeups
    · exact .inr hw
    · refine .inl (List.mem_flatMap.2 ⟨r, hr, List.mem_map.2 ⟨d, List.mem_filter.2 ⟨hd, ?_⟩, rfl⟩⟩)
      exact decide_eq_true hw
  · obtain ⟨r, hr, hmem⟩ := List.mem_flatMap.1 hw
    obtain ⟨d, hd, rfl⟩ := List.mem_map.1 hmem
    obtain ⟨hd, hnot⟩ := List.mem_filter.1 hd
    exact ⟨r, hr, rfl, (hds r hr d hd).resolve_left (of_decide_eq_true hnot)⟩

end Ranking

namespace Fleet

open Ranking (Alert Sorted)

variable {f f' start : Fleet} {b : Nat} {r : LoadRef} {k : Ranking} {c : LoadSettings}
  {es : List Endpoint} {call : Call} {missed missed' : Nat → Prop}

/-- Nothing is disabled, and all wake-ups are kept in turn. -/
structure Attentive (f : Fleet) (c : LoadSettings) : Prop where
  sound : f.Sound c
  enabled : f.loads.Enabled
  awaited : ∀ r, (f.loads.load r).Awaited (fun _ => True) f.now
  inTurn : ∀ b k, f.ranking? b = some k → Wakeup.InTurn k.wakeups

theorem lasting_enabled_awaited :
    Lasting c fun now l => l.disabled = false ∧ l.Awaited (fun _ => True) now where
  later hle h := ⟨h.1, h.2.later hle⟩
  sync h := ⟨EndpointLoad.disabled_sync.trans h.1, h.2.sync.mono fun _ _ => trivial⟩
  acquire h := ⟨h.1, h.2.of_penalty_eq rfl⟩
  release _ h := ⟨h.1, h.2.of_penalty_eq rfl⟩
  penalize latency hnow h :=
    ⟨(EndpointLoad.disabled_penalize latency).trans h.1,
      h.2.penalize hnow latency fun _ _ => trivial⟩
  create _ h := by
    obtain ⟨-, -, hl⟩ := EndpointLoad.create_spec h
    exact ⟨by rw [hl], .create h⟩
  vacant _ := ⟨rfl, .of_penalty_none rfl⟩

theorem Attentive.exists_alert (h : f.Attentive c) (hk : f.ranking? b = some k)
    (missed : LoadRef → Nat → Prop)
    (hm : ∀ r ∈ k.queue.contents, (f.loads.load r).Awaited
      (fun d => ⟨d, f.loads.endpoint r⟩ ∈ k.wakeups ∨ missed r d) f.now) :
    ∃ owed, Alert f.now owed (f.loads, k) ∧
      ∀ w ∈ owed, ∃ r ∈ k.queue.contents, f.loads.endpoint r = w.endpoint ∧ missed r w.due :=
  (h.sound.tidy b k hk).exists_alert (h.inTurn b k hk) missed hm

theorem Attentive.inTurn_apply (h : f.Attentive c) (hk : (f.apply call).ranking? b = some k) :
    Wakeup.InTurn k.wakeups := by
  obtain ⟨may, hs, -⟩ | ⟨b', es, own, -, -, hown, ha⟩ | ⟨clock, -, heq⟩ := h.sound.apply_cases call
  · obtain ⟨k₀, hk₀, hstir⟩ := hs.ranking? hk
    obtain ⟨owed, halert, -⟩ := h.exists_alert hk₀ (fun _ _ => True) fun r _ =>
      (h.awaited r).mono fun _ _ => .inr trivial
    exact (hstir.alert f.clock.now_le halert).inTurn
  · by_cases hb : b' = b
    · subst hb
      obtain ⟨states, hrank, -⟩ := ha.own
      rw [hk] at hrank
      obtain ⟨k₀, hk₀, rfl⟩ := Option.map_eq_some_iff.1 hrank.symm
      refine List.Pairwise.filter _ ?_
      obtain hk₀ | rfl := hown k₀ hk₀
      · exact h.inTurn b' k₀ hk₀
      · exact List.Pairwise.nil
    · exact h.inTurn b k ((ha.others b hb).symm.trans hk)
  · rw [heq] at hk
    exact h.inTurn b k hk

theorem Fresh.attentive (h : start.Fresh c) : start.Attentive c := by
  refine ⟨h.sound, fun r => ?_, fun r => ?_, fun b k hk => ?_⟩
  · rw [h.load_eq]
    rfl
  · rw [h.load_eq]
    exact .of_penalty_none rfl
  · rw [h.ranking?_eq_none] at hk
    cases hk

theorem Reaches.attentive (hstart : start.Fresh c) (h : Reaches Forward start f) :
    f.Attentive c := by
  have hloads := h.forall_loads hstart lasting_enabled_awaited fun _ _ hcall => hcall
  refine ⟨h.sound hstart.sound, fun r => (hloads r).1, fun r => (hloads r).2, ?_⟩
  induction h with
  | start => exact hstart.attentive.inTurn
  | step call hf hcall ih =>
    have hloads' := hf.forall_loads hstart lasting_enabled_awaited fun _ _ hcall => hcall
    intro b k hk
    exact Attentive.inTurn_apply ⟨hf.sound hstart.sound, fun r => (hloads' r).1,
      fun r => (hloads' r).2, ih hloads'⟩ hk

/-- A member of `b`, whose penalties `b` remembers but for those that come off at instants that
`missed` tells. -/
def Hears (f : Fleet) (b : Nat) (r : LoadRef) (missed : Nat → Prop) : Prop :=
  ∃ k, f.ranking? b = some k ∧ r ∈ k.queue.contents ∧ (f.loads.load r).Awaited
    (fun d => ⟨d, f.loads.endpoint r⟩ ∈ k.wakeups ∨ missed d) f.now

theorem Hears.ranks (h : f.Hears b r missed) : f.Ranks b r := by
  obtain ⟨k, hk, hr, -⟩ := h
  exact ⟨k, hk, hr⟩

theorem Hears.alert (h : f.Hears b r missed) (hf : f.Attentive c) :
    ∃ k owed, f.ranking? b = some k ∧ r ∈ k.queue.contents ∧ Alert f.now owed (f.loads, k) ∧
      ∀ w ∈ owed, w.endpoint = f.loads.endpoint r → missed w.due := by
  obtain ⟨k, hk, hr, hawaited⟩ := h
  obtain ⟨owed, halert, howed⟩ := hf.exists_alert hk (fun r' d => r' = r → missed d) <| by
    intro r' _
    by_cases hrr : r' = r
    · subst hrr
      exact hawaited.mono fun d hd => hd.imp_right fun hm _ => hm
    · exact (hf.awaited r').mono fun d _ => .inr fun heq => absurd heq hrr
  refine ⟨k, owed, hk, hr, halert, fun w hw hend => ?_⟩
  obtain ⟨r', hr', hend', hm⟩ := howed w hw
  exact hm (halert.tidy.eq_of_endpoint_eq hr' hr (hend'.trans hend))

theorem hears_of_alert {owed : List Wakeup} (hk : f.ranking? b = some k)
    (hr : r ∈ k.queue.contents) (h : Alert f.now owed (f.loads, k))
    (hm : ∀ w ∈ owed, w.endpoint = f.loads.endpoint r → missed w.due) : f.Hears b r missed :=
  ⟨k, hk, hr, (h.awaits r hr).mono fun d hd =>
    (List.mem_append.1 hd).elim (fun hw => .inr (hm ⟨d, f.loads.endpoint r⟩ hw rfl)) .inl⟩

theorem Hears.stirred (h : f.Hears b r missed) (hf : f.Attentive c) {may : Nat → LoadRef → Prop}
    (hs : Stirred may f f') : f'.Hears b r missed := by
  obtain ⟨k, owed, hk, hr, halert, howed⟩ := h.alert hf
  obtain ⟨k', hk', hstir⟩ := hs.stirs b k hk
  have halert' := hstir.alert f.clock.now_le halert
  rw [← hs.frame.now] at halert'
  refine hears_of_alert hk' ?_ halert' fun w hw hend => howed w hw ?_
  · rw [(hstir.keeps halert.tidy).contents]
    exact hr
  · rw [hend, hs.touched.endpoint]

theorem hears_of_awaited (hr : f.Ranks b r) (h : (f.loads.load r).Awaited missed f.now) :
    f.Hears b r missed := by
  obtain ⟨k, hk, hmem⟩ := hr
  exact ⟨k, hk, hmem, h.mono fun _ hd => .inr hd⟩

theorem Sound.find?_endpoint (h : f.Sound c) (hr : f.Ranks b r) :
    f.find? (f.loads.endpoint r) = some r := by
  obtain ⟨d, hd, -, -, hmembers⟩ := h.registered
  rw [find?, hd]
  exact hmembers b r hr

theorem Hears.assigned (h : f.Hears b r missed) (hf : f.Sound c)
    (ha : Assigned c b (f.ranking? b) es f f') (hstays : f.loads.endpoint r ∈ es) :
    f'.Hears b r missed := by
  obtain ⟨k, hk, hr, hawaited⟩ := h
  obtain ⟨states, hrank, hapart, -, hfound⟩ := ha.own
  rw [hk, Option.map_some] at hrank
  obtain ⟨htidy, hcontents⟩ := Ranking.Tidy.replace (k := k) hapart
  have hmem := (hcontents r).2 (hfound _ hstays r (hf.find?_endpoint ⟨k, hk, hr⟩))
  have hload := ha.grows.loads r ((hf.tidy b k hk).placed r hr)
  have hend : f'.loads.endpoint r = f.loads.endpoint r := congrArg EndpointLoad.endpoint hload
  have hmember := htidy.member hmem
  have hnow : f'.now = f.now := congrArg Clock.now ha.clock
  rw [hend] at hmember
  refine ⟨_, hrank, hmem, ?_⟩
  rw [hload, hend, hnow]
  refine hawaited.mono fun d hd => hd.imp_left fun hw => List.mem_filter.2 ⟨hw, ?_⟩
  rw [Std.HashMap.contains_eq_isSome_getElem?]
  exact Option.isSome_iff_exists.2 ⟨r, hmember⟩

/-- The clock moves forward, and `b` keeps `r` as a member. -/
def Keeping (b : Nat) (r : LoadRef) (f : Fleet) (call : Call) : Prop :=
  Forward f call ∧ ∀ es, call = .update b es → f.loads.endpoint r ∈ es

theorem Hears.apply (h : f.Hears b r missed) (hf : f.Attentive c) (hcall : Keeping b r f call) :
    (f.apply call).Hears b r missed := by
  obtain ⟨may, hs, -⟩ | ⟨b', es, own, hassigns, hown, -, ha⟩ | ⟨clock, hle, heq⟩ :=
    hf.sound.apply_cases call
  · exact h.stirred hf hs
  · obtain ⟨k, hk, hr, hawaited⟩ := id h
    by_cases hb : b' = b
    · subst hb
      obtain rfl | ⟨rfl, -⟩ := hassigns
      · rw [hown k hk, ← hk] at ha
        exact h.assigned hf.sound ha (hcall.2 es rfl)
      · rw [ranking?_size] at hk
        cases hk
    · refine ⟨k, (ha.others b hb).trans hk, hr, ?_⟩
      have hload := ha.grows.loads r ((hf.sound.tidy b k hk).placed r hr)
      have hnow : (f.apply call).now = f.now := congrArg Clock.now ha.clock
      rw [LoadTable.endpoint, hload, hnow]
      exact hawaited
  · obtain ⟨k, hk, hr, hawaited⟩ := h
    rw [heq]
    exact ⟨k, hk, hr, hawaited.later (hle hcall.1)⟩

/-- The balancer `b` has kept `r` as a member from a time on at which no penalty of `r` was pending
that has come off by now. -/
def Follows (start f : Fleet) (b : Nat) (r : LoadRef) : Prop :=
  ∃ f₀ missed, Reaches Forward start f₀ ∧ f₀.Ranks b r ∧ (f₀.loads.load r).Awaited missed f₀.now ∧
    Reaches (Keeping b r) f₀ f ∧ ∀ d, missed d → f.now < d

theorem Follows.hears (h : Follows start f b r) (hstart : start.Fresh c) :
    ∃ missed, f.Hears b r missed ∧ ∀ d, missed d → f.now < d := by
  obtain ⟨f₀, missed, hf₀, hr, hawaited, hrun, hahead⟩ := h
  refine ⟨missed, ?_, hahead⟩
  clear hahead
  induction hrun with
  | start => exact hears_of_awaited hr hawaited
  | step call hrun hcall ih =>
    exact ih.apply ((hf₀.trans (hrun.mono fun _ _ hcall => hcall.1)).attentive hstart) hcall

theorem Hears.inFlight_settled (h : f.Hears b r missed) (hf : f.Attentive c)
    (hahead : ∀ d, missed d → f.now < d) (hk : f.ranking? b = some k) :
    ((Ranking.settle f.now (Ranking.wake f.now (f.loads, k))).1.load r).inFlight =
      f.loads.inFlightAt f.now r := by
  obtain ⟨k', owed, hk', hr, halert, howed⟩ := h.alert hf
  obtain rfl : k = k' := Option.some.inj (hk.symm.trans hk')
  exact halert.inFlight_settled f.clock.now_le hr fun w hw hend => hahead _ (howed w hw hend)

/-- In a queue that waking puts in order, nothing is handed out that shows more units than a member
has without what has fallen due, and something is unless that member is past the largest signed
number. -/
theorem Hears.not_passed_over (h : f.Hears b r missed) (hf : f.Attentive c)
    (hahead : ∀ d, missed d → f.now < d) (hk : f.ranking? b = some k)
    (hsorted : Sorted (Ranking.wake f.now (f.loads, k))) :
    (∀ t, (f.next b).1 = some t →
      ((Ranking.settle f.now (Ranking.wake f.now (f.loads, k))).1.load t.load).inFlight ≤
        f.loads.inFlightAt f.now r) ∧
    ((f.next b).1 = none → 2 ^ 31 ≤ (f.loads.inFlightAt f.now r).toNat) := by
  obtain ⟨hanswer, -⟩ := next_of_ranking? hk
  have hwoken : Ranking.Keeps (f.loads, k) (Ranking.wake f.now (f.loads, k)) :=
    (hf.sound.tidy b k hk).keeps_wake
  have hmem : r ∈ (Ranking.settle f.now (Ranking.wake f.now (f.loads, k))).2.queue.contents := by
    rw [hwoken.tidy.keeps_settle.contents, hwoken.contents]
    exact (ranks_iff hk).1 h.ranks
  have hsettled : Sorted (Ranking.settle f.now (Ranking.wake f.now (f.loads, k))) := hsorted.settle
  have hcases := Ranking.take_cases f.now (f.loads, k) rfl
  rw [hanswer, ← h.inFlight_settled hf hahead hk]
  generalize Ranking.settle f.now (Ranking.wake f.now (f.loads, k)) = s at hmem hsettled hcases
  obtain ⟨heq, hun⟩ | ⟨top, hpeek, -, heq⟩ := hcases
  · rw [heq]
    refine ⟨nofun, fun _ => ?_⟩
    cases hpeek : s.2.queue.peek with
    | none =>
      rw [IndexedHeap.peek_eq_none] at hpeek
      rw [hpeek] at hmem
      exact absurd hmem (Multiset.notMem_zero r)
    | some top =>
      refine Nat.le_trans (Nat.not_lt.1 fun hlt => ?_)
        (UInt32.le_iff_toNat_le.1 (hsettled.top hpeek hmem))
      have hno := hun top hpeek
      rw [EndpointLoad.available_iff.2 ⟨hsettled.enabled top, hlt⟩] at hno
      cases hno
  · rw [heq]
    refine ⟨fun t ht => ?_, nofun⟩
    obtain rfl := Option.some.inj ht
    exact hsettled.top hpeek hmem

/-- What is handed out is a member, and no more loaded than all members or than three of them. -/
theorem Attentive.least_or_three (h : f.Attentive c)
    (hheard : ∀ r, f.Ranks b r → ∃ missed, f.Hears b r missed ∧ ∀ d, missed d → f.now < d)
    (hk : f.ranking? b = some k) {t : Ticket} (ht : (f.next b).1 = some t) :
    f.Ranks b t.load ∧
      ((∀ r, f.Ranks b r → f.loads.inFlightAt f.now t.load ≤ f.loads.inFlightAt f.now r) ∨
        ∃ rs : List LoadRef, rs.Nodup ∧ rs.length = 3 ∧ ∀ r ∈ rs, f.Ranks b r ∧
          f.loads.inFlightAt f.now t.load ≤ f.loads.inFlightAt f.now r) := by
  obtain ⟨owed, halert, howed⟩ := h.exists_alert hk (fun _ d => f.now < d) <| by
    intro r hr
    obtain ⟨missed, ⟨k', hk', -, hawaited⟩, hahead⟩ := hheard r ⟨k, hk, hr⟩
    obtain rfl : k = k' := Option.some.inj (hk.symm.trans hk')
    exact hawaited.mono fun d hd => hd.imp_right fun hm => hahead d hm
  obtain ⟨hanswer, -⟩ := next_of_ranking? hk
  rw [hanswer] at ht
  obtain ⟨top, htop, rfl⟩ := Option.map_eq_some_iff.1 ht
  obtain ⟨htopmem, hleast⟩ := halert.least_or_three
    (fun w hw => by obtain ⟨-, -, -, hlt⟩ := howed w hw; exact hlt) h.enabled f.clock.now_le htop
  simp only [ranks_iff hk]
  exact ⟨htopmem, hleast⟩

end Fleet

end LeastLoad
