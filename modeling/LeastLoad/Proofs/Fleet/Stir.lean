import LeastLoad.Proofs.Fleet.Sorted
import LeastLoad.Proofs.Fleet.Watched

/-! # What a ranked balancer sees of a fleet

Between two looks of a ranked balancer at its loads, others apply what is due to them, hand them
out and finish them. Drops are announced, and until an announcement arrives others may have looked
at more loads. All this is a chain of few kinds of steps on the table of loads and the ranking. -/

namespace LeastLoad

/-- Loads are brought up to date and counted up and down, and no load is added. -/
inductive LoadTable.Touched (now : Nat) (t : LoadTable) : LoadTable → Prop
  | refl : Touched now t t
  | sync {t' : LoadTable} (r : LoadRef) :
      Touched now t t' → Touched now t (t'.update r (·.sync now))
  | acquire {t' : LoadTable} (r : LoadRef) :
      Touched now t t' → Touched now t (t'.update r (·.acquire now 1))
  | release {t' : LoadTable} (r : LoadRef) (latency : Duration) :
      Touched now t t' → Touched now t (t'.update r (·.release now 1 latency))
  | penalize {t' : LoadTable} (r : LoadRef) (latency : Duration) :
      Touched now t t' → Touched now t (t'.update r fun l => (l.penalize now latency).2)

namespace LoadTable

variable {now : Nat} {t t' t'' : LoadTable} {r : LoadRef}

theorem Touched.trans (h : Touched now t t') (h' : Touched now t' t'') : Touched now t t'' := by
  induction h' with
  | refl => exact h
  | sync r _ ih => exact .sync r ih
  | acquire r _ ih => exact .acquire r ih
  | release r latency _ ih => exact .release r latency ih
  | penalize r latency _ ih => exact .penalize r latency ih

theorem Synced.touched (h : Synced now t t') : Touched now t t' := by
  induction h with
  | refl => exact .refl
  | sync r _ ih => exact .sync r ih

theorem Touched.size (h : Touched now t t') : t'.states.size = t.states.size := by
  induction h with
  | refl => rfl
  | sync _ _ ih | acquire _ _ ih | release _ _ _ ih | penalize _ _ _ ih =>
    exact size_update.trans ih

theorem Touched.keeps (h : Touched now t t') {p : EndpointLoad → Prop}
    (hsync : ∀ l, p l → p (l.sync now)) (hacq : ∀ l, p l → p (l.acquire now 1))
    (hrel : ∀ l latency, p l → p (l.release now 1 latency))
    (hpen : ∀ l latency, p l → p (l.penalize now latency).2) (hr : p (t.load r)) :
    p (t'.load r) := by
  induction h with
  | refl => exact hr
  | sync r' _ ih | acquire r' _ ih | release r' _ _ ih | penalize r' _ _ ih =>
    rw [load_update]
    split
    · first
      | exact hsync _ ih
      | exact hacq _ ih
      | exact hrel _ _ ih
      | exact hpen _ _ ih
    · exact ih

theorem Touched.endpoint (h : Touched now t t') (r : LoadRef) : t'.endpoint r = t.endpoint r :=
  h.keeps (p := (·.endpoint = t.endpoint r)) (fun _ hl => EndpointLoad.endpoint_sync.trans hl)
    (fun _ hl => hl) (fun _ _ hl => hl) (fun l latency hl => (l.endpoint_penalize latency).trans hl)
    rfl

end LoadTable

namespace Ranking

open LoadTable (Synced)

/-- What becomes of the loads and a ranking while its balancer and others work. Loads that `may`
tells are handed out by others. -/
inductive Stir (now : Nat) (may : LoadRef → Prop) (s : LoadTable × Ranking) :
    LoadTable × Ranking → Prop
  | refl : Stir now may s s
  | sync {s' : LoadTable × Ranking} (r : LoadRef) :
      Stir now may s s' → Stir now may s (s'.1.update r (·.sync now), s'.2)
  | acquire {s' : LoadTable × Ranking} (r : LoadRef) :
      Stir now may s s' → may r → Stir now may s (s'.1.update r (·.acquire now 1), s'.2)
  | take {s' : LoadTable × Ranking} : Stir now may s s' → Stir now may s (take now s').2
  | release {s' : LoadTable × Ranking} {t : LoadTable} (r : LoadRef) (latency : Duration) :
      Stir now may s s' → Synced now (s'.1.update r (·.release now 1 latency)) t →
      Stir now may s (Fleet.heard now r 0 (t, s'.2))
  | penalize {s' : LoadTable × Ranking} {t : LoadTable} {due : Nat} (r : LoadRef)
      (latency : Duration) : Stir now may s s' →
      ((s'.1.load r).penalize now latency).1 = some due →
      Synced now (s'.1.update r fun l => (l.penalize now latency).2) t →
      Stir now may s (Fleet.heard now r due (t, s'.2))

variable {now : Nat} {may : LoadRef → Prop} {s s' s'' : LoadTable × Ranking} {t : LoadTable}
  {k : Ranking} {r : LoadRef}

theorem Stir.trans (h : Stir now may s s') (h' : Stir now may s' s'') : Stir now may s s'' := by
  induction h' with
  | refl => exact h
  | sync r _ ih => exact .sync r ih
  | acquire r _ hr ih => exact .acquire r ih hr
  | take _ ih => exact .take ih
  | release r latency _ ht ih => exact .release r latency ih ht
  | penalize r latency _ hdue ht ih => exact .penalize r latency ih hdue ht

theorem Stir.synced (h : Stir now may s (t, k)) {t' : LoadTable} (ht : Synced now t t') :
    Stir now may s (t', k) := by
  induction ht with
  | refl => exact h
  | sync r _ ih => exact .sync r ih

theorem Keeps.synced (h : Keeps s (t, k)) {t' : LoadTable} (ht : Synced now t t') :
    Keeps s (t', k) := by
  have ht' := h.tidy.congr ht.size ht.endpoint
  exact ⟨ht', h.contents, h.members, ht.size.trans h.size,
    fun r => (ht.endpoint r).trans (h.endpoint r)⟩

theorem Stir.keeps (h : Stir now may s s') (ht : Tidy s) : Keeps s s' := by
  have hpen : ∀ (l : EndpointLoad) latency, (l.penalize now latency).2.endpoint = l.endpoint :=
    fun l latency => l.endpoint_penalize latency
  induction h with
  | refl => exact .refl ht
  | sync r _ ih => exact ih.trans (ih.tidy.keeps_update fun _ => EndpointLoad.endpoint_sync)
  | acquire r _ _ ih => exact ih.trans (ih.tidy.keeps_update fun _ => rfl)
  | take _ ih => exact ih.trans ih.tidy.keeps_take
  | @release s' t r latency _ hs ih =>
    have hu := (ih.trans (ih.tidy.keeps_update (r := r) (g := (·.release now 1 latency))
      fun _ => rfl)).synced hs
    exact hu.trans (Fleet.keeps_heard hu.tidy)
  | @penalize s' t due r latency _ _ hs ih =>
    have hu := (ih.trans (ih.tidy.keeps_update (r := r) fun l => hpen l latency)).synced hs
    exact hu.trans (Fleet.keeps_heard hu.tidy)

theorem Stir.alert {extra : List Wakeup} (h : Stir now may s s') (hnow : now ≤ horizon)
    (ha : Alert now extra s) : Alert now extra s' := by
  induction h with
  | refl => exact ha
  | sync r _ ih => exact ih.synced (.sync r .refl)
  | acquire r _ _ ih => exact ih.update_of_penalty_eq (fun _ => rfl) fun _ => rfl
  | take _ ih => exact ih.take
  | release r latency _ ht ih =>
    exact ih.heard_of_penalty_eq (g := (·.release now 1 latency)) (fun _ => rfl) (fun _ => rfl) ht
  | penalize r latency _ hdue ht ih => exact ih.heard_penalize hnow hdue ht

end Ranking

namespace Fleet

open LoadTable (Synced Touched)
open Ranking (Stir)

variable {f f' f'' : Fleet} {b : Nat} {r : LoadRef} {k : Ranking} {since : Nat}
  {may : Nat → LoadRef → Prop} {g : LoadTable × Ranking → LoadTable × Ranking}

/-- Neither the clock nor who lists, watches and holds what has changed. -/
structure Frame (f f' : Fleet) : Prop where
  clock : f'.clock = f.clock
  directory : f'.directory = f.directory
  watchers : f'.watchers = f.watchers
  held : ∀ b, f'.isHeld b = f.isHeld b

theorem Frame.refl : Frame f f := ⟨rfl, rfl, rfl, fun _ => rfl⟩

theorem Frame.trans (h : Frame f f') (h' : Frame f' f'') : Frame f f'' :=
  ⟨h'.clock.trans h.clock, h'.directory.trans h.directory, h'.watchers.trans h.watchers,
    fun b => (h'.held b).trans (h.held b)⟩

theorem Frame.now (h : Frame f f') : f'.now = f.now := congrArg Clock.now h.clock

theorem frame_modifyBalancer (f : Fleet) (b : Nat) (g : Balancer → Balancer) :
    Frame f (f.modifyBalancer b g) :=
  ⟨rfl, rfl, rfl, fun b' => isHeld_modifyBalancer f b b' g⟩

theorem modifyRanking_of_none (h : f.ranking? b = none) : f.modifyRanking b g = f := by
  rw [modifyRanking]
  split
  · next k _ _ hx =>
    rw [ranking?, hx] at h
    cases h
  · rfl

theorem modifyRanking_of_some (h : f.ranking? b = some k) :
    ∃ telemetry listeners, f.modifyRanking b g =
      setBalancer { f with loads := (g (f.loads, k)).1 } b
        ⟨.ranked (g (f.loads, k)).2, telemetry, listeners⟩ := by
  obtain ⟨telemetry, listeners, hx⟩ := balancer_of_ranking? h
  exact ⟨telemetry, listeners, by simp only [modifyRanking, hx]⟩

theorem ranking?_setBalancer {x : Balancer} {b' : Nat} (h : (f.balancer? b).isSome = true) :
    (f.setBalancer b x).ranking? b' = if b = b' then x.selection.ranking? else f.ranking? b' := by
  obtain ⟨y, hy⟩ := Option.isSome_iff_exists.1 h
  split
  · next hb =>
    rw [← hb, ranking?, setBalancer, balancer?_modifyBalancer, if_pos rfl, hy]
    rfl
  · next hb => exact ranking?_modifyBalancer_of_ne hb _

theorem ranking?_modifyRanking (h : f.ranking? b = some k) (b' : Nat) :
    (f.modifyRanking b g).ranking? b' =
      if b = b' then some (g (f.loads, k)).2 else f.ranking? b' := by
  obtain ⟨telemetry, listeners, hx⟩ := balancer_of_ranking? h
  obtain ⟨telemetry, listeners, heq⟩ := modifyRanking_of_some (g := g) h
  rw [heq]
  exact ranking?_setBalancer (f := { f with loads := (g (f.loads, k)).1 })
    (Option.isSome_iff_exists.2 ⟨_, hx⟩)

theorem frame_modifyRanking : Frame f (f.modifyRanking b g) := by
  cases hk : f.ranking? b with
  | none =>
    rw [modifyRanking_of_none hk]
    exact .refl
  | some k =>
    obtain ⟨telemetry, listeners, heq⟩ := modifyRanking_of_some (g := g) hk
    rw [heq]
    exact ⟨rfl, rfl, rfl, fun b' =>
      isHeld_modifyBalancer { f with loads := (g (f.loads, k)).1 } b b' _⟩

theorem loads_modifyRanking (h : f.ranking? b = some k) :
    (f.modifyRanking b g).loads = (g (f.loads, k)).1 := by
  obtain ⟨telemetry, listeners, heq⟩ := modifyRanking_of_some (g := g) h
  rw [heq]
  rfl

/-- `f'` is what telling the balancers of `bs` about `r` makes of `f`. -/
structure Told (r : LoadRef) (since : Nat) (bs : List Nat) (f f' : Fleet) : Prop where
  frame : Frame f f'
  loads : Synced f.now f.loads f'.loads
  others : ∀ b, b ∉ bs ∨ f.ranking? b = none → f'.ranking? b = f.ranking? b
  told : ∀ b ∈ bs, ∀ k, f.ranking? b = some k → ∃ t, Synced f.now f.loads t ∧
    f'.ranking? b = some (Ranking.loadDropped f.now (f.loads.endpoint r) since (t, k)).2 ∧
    Synced f.now (Ranking.loadDropped f.now (f.loads.endpoint r) since (t, k)).1 f'.loads

theorem told_foldl (r : LoadRef) (since : Nat) (bs : List Nat) (hn : bs.Nodup) :
    Told r since bs f (bs.foldl (fun f b =>
      f.modifyRanking b (Ranking.loadDropped f.now (f.loads.endpoint r) since)) f) := by
  -- none is told twice, so a ranking stays as it is after its own turn, while the loads may still
  -- be brought up to date in the turns of the others
  induction bs generalizing f with
  | nil => exact ⟨.refl, .refl, fun _ _ => rfl, fun _ hb => absurd hb List.not_mem_nil⟩
  | cons b bs ih =>
    obtain ⟨hb, hn⟩ := List.nodup_cons.1 hn
    rw [List.foldl_cons]
    cases hk : f.ranking? b with
    | none =>
      rw [modifyRanking_of_none hk]
      obtain ⟨hframe, hloads, hothers, htold⟩ := ih (f := f) hn
      refine ⟨hframe, hloads, fun b' hb' => hothers b' ?_, fun b' hb' k hk' => ?_⟩
      · exact hb'.imp_left fun h hmem => h (List.mem_cons_of_mem _ hmem)
      · rcases List.mem_cons.1 hb' with rfl | hb'
        · rw [hk] at hk'
          cases hk'
        · exact htold b' hb' k hk'
    | some k =>
      have hf := frame_modifyRanking (f := f) (b := b)
        (g := Ranking.loadDropped f.now (f.loads.endpoint r) since)
      have hl := loads_modifyRanking (f := f) (b := b)
        (g := Ranking.loadDropped f.now (f.loads.endpoint r) since) hk
      have hr := ranking?_modifyRanking (f := f) (b := b)
        (g := Ranking.loadDropped f.now (f.loads.endpoint r) since) hk
      have hsync : Synced f.now f.loads
          (Ranking.loadDropped f.now (f.loads.endpoint r) since (f.loads, k)).1 :=
        Ranking.synced_loadDropped (s := (f.loads, k)) _ since
      generalize f.modifyRanking b (Ranking.loadDropped f.now (f.loads.endpoint r) since) = f₁ at *
      obtain ⟨hframe, hloads, hothers, htold⟩ := ih (f := f₁) hn
      have hend : f₁.loads.endpoint r = f.loads.endpoint r := by
        rw [hl]
        exact hsync.endpoint r
      rw [hf.now, hend] at htold
      rw [hf.now, hl] at hloads
      refine ⟨hf.trans hframe, hsync.trans hloads, fun b' hb' => ?_, fun b' hb' k' hk' => ?_⟩
      · have hne : b ≠ b' := by
          rintro rfl
          rcases hb' with hb' | hb'
          · exact hb' List.mem_cons_self
          · rw [hk] at hb'
            cases hb'
        have heq : f₁.ranking? b' = f.ranking? b' := (hr b').trans (if_neg hne)
        rw [hothers b', heq]
        rw [heq]
        exact hb'.imp_left fun h hmem => h (List.mem_cons_of_mem _ hmem)
      · rcases List.mem_cons.1 hb' with rfl | hb'
        · obtain rfl : k = k' := Option.some.inj (hk.symm.trans hk')
          refine ⟨f.loads, .refl, ?_, hloads⟩
          rw [hothers b' (.inl hb), hr, if_pos rfl]
        · have hne : b ≠ b' := by
            rintro rfl
            exact hb hb'
          obtain ⟨t, ht, hrank, hlast⟩ := htold b' hb' k' (by rw [hr, if_neg hne, hk'])
          rw [hl] at ht
          exact ⟨t, hsync.trans ht, hrank, hlast⟩

end Fleet

end LeastLoad
