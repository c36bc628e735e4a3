import LeastLoad.Proofs.Fleet.Exact
import LeastLoad.Proofs.Fleet.Heard

/-! # Units that other balancers hand out

Without penalties a ranked balancer hears of every load that drops, and of none that rises. Its
queue stays in order of the units in flight as long as no other balancer hands out a member of it.
However the entries stand, what it hands out is no more loaded than three of its members. -/

namespace LeastLoad

open LoadTable (Synced)

theorem LoadTable.Plain.synced {c : LoadSettings} {now : Nat} {t t' : LoadTable} (h : t.Plain c)
    (ht : Synced now t t') : t'.Plain c ∧ ∀ r, (t'.load r).inFlight = (t.load r).inFlight := by
  have hkeep : ∀ r, (t'.load r).Plain c ∧ (t'.load r).inFlight = (t.load r).inFlight := fun r =>
    ht.keeps (p := fun l => l.Plain c ∧ l.inFlight = (t.load r).inFlight)
      (fun _ hl => ⟨hl.1.sync now, (hl.1.inFlight_sync now).trans hl.2⟩) ⟨h r, rfl⟩
  exact ⟨fun r => (hkeep r).1, fun r => (hkeep r).2⟩

theorem lasting_plain {c : LoadSettings} (hc : c.failureSustain = none) :
    Fleet.Lasting c fun _ l => l.Plain c where
  later _ h := h
  sync h := h.sync _
  acquire h := h.acquire _ 1
  release latency h := h.release _ 1 latency
  penalize latency _ h := by
    simp only [EndpointLoad.penalize, h.unpenalized]
    exact h
  create _ h := .create hc h
  vacant _ := .vacant

namespace Ranking

variable {c : LoadSettings} {s s' : LoadTable × Ranking} {t : LoadTable} {r : LoadRef}
  {now since : Nat} {may : LoadRef → Prop}

theorem LevelExcept.synced (h : LevelExcept c s r) (ht : Synced now s.1 t) :
    LevelExcept c (t, s.2) r := by
  obtain ⟨hplain, hload⟩ := h.plain.synced ht
  refine ⟨h.tidy.congr ht.size ht.endpoint, hplain, ?_, h.awake⟩
  rw [LoadTable.Lighter.congr hload]
  exact h.ordered

theorem Level.synced (h : Level c s) (ht : Synced now s.1 t) : Level c (t, s.2) := by
  obtain ⟨hplain, hload⟩ := h.plain.synced ht
  refine ⟨h.tidy.congr ht.size ht.endpoint, hplain, ?_, h.awake⟩
  rw [LoadTable.Lighter.congr hload]
  exact h.ordered

/-- The order is kept through everything but units handed out elsewhere. -/
theorem Stir.level (h : Stir now may s s') (hs : Level c s)
    (hmay : ∀ r ∈ s.2.queue.contents, ¬ may r) : Level c s' := by
  induction h with
  | refl => exact hs
  | sync r _ ih => exact ih.synced (.sync r .refl)
  | acquire r h hr ih =>
    -- nobody is told of a unit handed out, but only loads that are no members gain units this way
    have hu := ih.update (r := r) (g := (·.acquire now 1)) (fun l hl => hl.acquire now 1)
      fun _ => rfl
    refine hu.of_not_mem fun hmem => hmay r ?_ hr
    rw [← (h.keeps hs.tidy).contents]
    exact hmem
  | take _ ih => exact ih.take.1
  | release r latency _ ht ih =>
    have hu := ih.update (r := r) (g := (·.release now 1 latency))
      (fun l hl => hl.release now 1 latency) fun _ => rfl
    exact (hu.synced ht).heard
  | penalize r latency _ hdue _ ih =>
    simp only [EndpointLoad.penalize, (ih.plain r).unpenalized] at hdue
    cases hdue

theorem wakeups_heard_of_nil (h : s.2.wakeups = []) : (Fleet.heard now r 0 s).2.wakeups = [] := by
  rw [Fleet.heard]
  split
  · rw [loadDropped]
    split
    · simp only [Nat.zero_le, if_true, wakeups_resift, wakeups_wake, h, List.dropWhile_nil]
    · exact h
  · exact h

theorem Stir.asleep (h : Stir now may s s') (hplain : s.1.Plain c) (hs : s.2.wakeups = []) :
    s'.1.Plain c ∧ s'.2.wakeups = [] := by
  induction h with
  | refl => exact ⟨hplain, hs⟩
  | sync r _ ih => exact ⟨ih.1.update fun _ hl => hl.sync now, ih.2⟩
  | acquire r _ _ ih => exact ⟨ih.1.update fun _ hl => hl.acquire now 1, ih.2⟩
  | take _ ih =>
    refine ⟨fun r => ?_, ?_⟩
    · exact load_take (fun _ hl => hl.sync now) (fun _ hl => hl.acquire now 1) (ih.1 r)
    · rw [wakeups_take, ih.2]
      rfl
  | @release s' t r latency _ ht ih =>
    have hu := (ih.1.update (r := r) (g := (·.release now 1 latency)) fun _ hl =>
      hl.release now 1 latency).synced ht
    have hheard : Synced now t (Fleet.heard now r 0 (t, s'.2)).1 :=
      synced_heard (s := (t, s'.2)) r 0
    exact ⟨(hu.1.synced hheard).1, wakeups_heard_of_nil ih.2⟩
  | penalize r latency _ hdue _ ih =>
    simp only [EndpointLoad.penalize, (ih.1 r).unpenalized] at hdue
    cases hdue

end Ranking

namespace Fleet

open Ranking (Level)

variable {f f' start : Fleet} {b : Nat} {r : LoadRef} {k : Ranking} {c : LoadSettings}
  {es : List Endpoint} {call : Call}

theorem Reaches.plain (hstart : start.Fresh c) (hc : c.failureSustain = none)
    (h : Reaches Forward start f) : f.loads.Plain c :=
  fun r => h.forall_loads hstart (lasting_plain hc) (fun _ _ hcall => hcall) r

theorem Reaches.asleep (hstart : start.Fresh c) (hc : c.failureSustain = none)
    (h : Reaches Forward start f) (hk : f.ranking? b = some k) : k.wakeups = [] := by
  induction h generalizing b k with
  | start =>
    rw [hstart.ranking?_eq_none] at hk
    cases hk
  | step call hf _ ih =>
    obtain ⟨may, hs, -⟩ | ⟨b', es, own, -, -, hown, ha⟩ | ⟨clock, -, heq⟩ :=
      (hf.sound hstart.sound).apply_cases call
    · obtain ⟨k₀, hk₀, hstir⟩ := hs.ranking? hk
      exact (hstir.asleep (hf.plain hstart hc) (ih hk₀)).2
    · by_cases hb : b' = b
      · subst hb
        obtain ⟨states, hrank, -⟩ := ha.own
        rw [hk] at hrank
        obtain ⟨k₀, hk₀, rfl⟩ := Option.map_eq_some_iff.1 hrank.symm
        obtain hk₀ | rfl := hown k₀ hk₀
        · exact congrArg _ (ih hk₀)
        · rfl
      · exact ih ((ha.others b hb).symm.trans hk)
    · rw [heq] at hk
      exact ih hk

/-- The clock moves forward, and no other balancer hands out a member of `b`. -/
def Private (b : Nat) (f : Fleet) (call : Call) : Prop :=
  Forward f call ∧ ∀ b' r, call = .next b' → f.HandedElsewhere b' b r → ¬ f.Ranks b r

/-- Since `b` was last given endpoints, or since the start, no other balancer has handed out a
member of it. -/
def Undisturbed (start f : Fleet) (b : Nat) : Prop :=
  ∃ f₁, (f₁ = start ∨ ∃ f₀ es, Reaches Forward start f₀ ∧ f₀.update b es = .ok f₁) ∧
    Reaches (Private b) f₁ f

theorem Assigned.level {own : Option Ranking} (h : Assigned c b own es f f')
    (hplain : f'.loads.Plain c) (hown : ∀ k, own = some k → k.wakeups = [])
    (hk : f'.ranking? b = some k) : Level c (f'.loads, k) := by
  obtain ⟨states, hrank, hapart, -⟩ := h.own
  rw [hk] at hrank
  obtain ⟨k₀, hk₀, rfl⟩ := Option.map_eq_some_iff.1 hrank.symm
  exact .replace hplain hapart (hown k₀ hk₀)

theorem Sound.level_apply (h : f.Sound c) (hplain : (f.apply call).loads.Plain c)
    (hcall : Private b f call) (hlevel : ∀ k, f.ranking? b = some k → Level c (f.loads, k))
    (hk : (f.apply call).ranking? b = some k) : Level c ((f.apply call).loads, k) := by
  obtain ⟨may, hs, hmay⟩ | ⟨b', es, own, -, -, hown, ha⟩ | ⟨clock, -, heq⟩ := h.apply_cases call
  · obtain ⟨k₀, hk₀, hstir⟩ := hs.ranking? hk
    refine hstir.level (hlevel k₀ hk₀) fun r hr hm => ?_
    obtain ⟨b', rfl, helse⟩ := hmay b r hm
    exact hcall.2 b' r rfl helse ⟨k₀, hk₀, hr⟩
  · by_cases hb : b' = b
    · subst hb
      refine ha.level hplain (fun k₀ hk₀ => ?_) hk
      obtain hk₀ | rfl := hown k₀ hk₀
      · exact (hlevel k₀ hk₀).awake
      · rfl
    · rw [ha.others b hb] at hk
      have hl := hlevel k hk
      refine ⟨hl.tidy.grows ha.grows, hplain, fun i hi x y hx hy => ?_, hl.awake⟩
      have hload : ∀ {i : Nat} {x : LoadRef}, k.queue.heap[i]? = some x →
          (f.apply call).loads.load x = f.loads.load x := fun hx =>
        ha.grows.loads _ (hl.tidy.placed _ (IndexedHeap.mem_of_slot hx))
      rw [LoadTable.Lighter, hload hx, hload hy]
      exact hl.ordered i hi x y hx hy
  · rw [heq] at hk ⊢
    exact hlevel k hk

theorem Undisturbed.level (h : Undisturbed start f b) (hstart : start.Fresh c)
    (hc : c.failureSustain = none) :
    Reaches Forward start f ∧ ∀ k, f.ranking? b = some k → Level c (f.loads, k) := by
  obtain ⟨f₁, hf₁, hrun⟩ := h
  have hfirst : Reaches Forward start f₁ ∧
      ∀ k, f₁.ranking? b = some k → Level c (f₁.loads, k) := by
    obtain rfl | ⟨f₀, es, hf₀, hok⟩ := hf₁
    · refine ⟨.start, fun k hk => ?_⟩
      rw [hstart.ranking?_eq_none] at hk
      cases hk
    · have happly : f₀.apply (.update b es) = f₁ := by simp only [apply, hok]
      have hcall : Forward f₀ (.update b es) := trivial
      have hreach : Reaches Forward start f₁ := happly ▸ hf₀.step _ hcall
      exact ⟨hreach, fun k hk => ((hf₀.sound hstart.sound).update hok).level
        (hreach.plain hstart hc) (fun k₀ hk₀ => hf₀.asleep hstart hc hk₀) hk⟩
  induction hrun with
  | start => exact hfirst
  | step call _ hcall ih =>
    have hreach := ih.1.step call hcall.1
    exact ⟨hreach, fun k hk => (ih.1.sound hstart.sound).level_apply (hreach.plain hstart hc) hcall
      ih.2 hk⟩

def inFlight (f : Fleet) (r : LoadRef) : UInt32 := (f.loads.load r).inFlight

def Least (f : Fleet) (b : Nat) (r : LoadRef) : Prop :=
  ∀ r', f.Ranks b r' → f.inFlight r ≤ f.inFlight r'

/-- What is handed out is a least loaded member, unless others have handed out members; it is then
no more loaded than three members. -/
theorem Reaches.least_of_next (hstart : start.Fresh c) (hc : c.failureSustain = none)
    (h : Reaches Forward start f) (hk : f.ranking? b = some k) {t : Ticket}
    (ht : (f.next b).1 = some t) :
    f.Ranks b t.load ∧
      (Undisturbed start f b ∨ k.queue.contents.card ≤ 3 → f.Least b t.load) ∧
      (f.Least b t.load ∨ ∃ rs : List LoadRef, rs.Nodup ∧ rs.length = 3 ∧
        ∀ r ∈ rs, f.Ranks b r ∧ f.inFlight t.load ≤ f.inFlight r) := by
  have hplain := h.plain hstart hc
  have hat : ∀ r, f.loads.inFlightAt f.now r = f.inFlight r :=
    fun r => (hplain r).inFlight_sync f.now
  have hheard : ∀ r, f.Ranks b r → ∃ missed, f.Hears b r missed ∧ ∀ d, missed d → f.now < d :=
    fun r hr => ⟨fun _ => False, hears_of_awaited hr (.of_penalty_none (hplain r).unpenalized),
      fun _ hd => hd.elim⟩
  obtain ⟨hmem, hthree⟩ := (h.attentive hstart).least_or_three hheard hk ht
  simp only [hat] at hthree
  refine ⟨hmem, ?_, hthree⟩
  rintro (hquiet | hcard)
  · have hlevel := (hquiet.level hstart hc).2 k hk
    obtain ⟨hanswer, -⟩ := next_of_ranking? hk
    rw [hanswer] at ht
    obtain ⟨top, htop, rfl⟩ := Option.map_eq_some_iff.1 ht
    exact fun r hr => (hlevel.take.2.1 top htop).2.2 r ((ranks_iff hk).1 hr)
  · simp only [ranks_iff hk] at hthree
    exact fun r hr => Ranking.forall_of_forall_or_three hcard hthree r ((ranks_iff hk).1 hr)

end Fleet

end LeastLoad
