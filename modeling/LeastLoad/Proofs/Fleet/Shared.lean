import LeastLoad.Proofs.Fleet.Install
import LeastLoad.Proofs.Fleet.Stir

/-! # Balancers that share their loads

Any number of balancers, ranked or not, may work on the same loads. Whatever they do, each ranked
one hears of what is announced of its members, and its members stay those that the directory lists
for their endpoints. -/

namespace LeastLoad

namespace Grouping

theorem synced_leastLoaded (now : Nat) (loads : LoadTable) (candidates : List LoadRef) :
    LoadTable.Synced now loads (leastLoaded now loads candidates).2 := by
  refine List.foldlRecOn (motive := fun s : Option LoadRef × LoadTable =>
    LoadTable.Synced now loads s.2) candidates _ .refl fun s hs r _ => ?_
  simp only [consider]
  split
  · split <;> exact .sync r hs
  · exact .sync r hs

theorem take_spec (now : Nat) (g : Grouping) (loads : LoadTable) (words : Words) :
    ∃ t, LoadTable.Synced now loads t ∧ (g.take now loads words).2.1 =
      ((g.take now loads words).1.elim t fun r => t.update r (·.acquire now 1)) := by
  rw [take]
  split
  · exact ⟨loads, .refl, rfl⟩
  · next group words' _ =>
    have hs := synced_leastLoaded now loads
      (group.rotateLeft (Random.uniform group.length words').1)
    dsimp only
    cases hl : leastLoaded now loads (group.rotateLeft (Random.uniform group.length words').1) with
    | mk choice t =>
      rw [hl] at hs
      refine ⟨t, hs, ?_⟩
      cases choice <;> rfl

end Grouping

namespace Fleet

open LoadTable (Synced Touched)
open Ranking (Stir)

variable {f f' f'' : Fleet} {b : Nat} {r : LoadRef} {k : Ranking} {since : Nat}
  {may : Nat → LoadRef → Prop} {c : LoadSettings}

def Ranks (f : Fleet) (b : Nat) (r : LoadRef) : Prop :=
  ∃ k, f.ranking? b = some k ∧ r ∈ k.queue.contents

theorem ranks_iff (hk : f.ranking? b = some k) : f.Ranks b r ↔ r ∈ k.queue.contents :=
  ⟨fun ⟨_, hk', hr⟩ => Option.some.inj (hk.symm.trans hk') ▸ hr, fun hr => ⟨k, hk, hr⟩⟩

/-- The handle of each ranked balancer is kept, and each balancer watches exactly its members. The
directory lists the loads, those of the members among them; the loads are made with the settings
`c`. -/
structure Sound (f : Fleet) (c : LoadSettings) : Prop where
  tidy : ∀ b k, f.ranking? b = some k → Ranking.Tidy (f.loads, k)
  held : ∀ b k, f.ranking? b = some k → f.isHeld b = true
  watched : Watched f.watchers f.Ranks
  registered : ∃ d, f.directory = some d ∧ d.settings = c ∧ d.Lists f.loads ∧
    ∀ b r, f.Ranks b r → d.find? (f.loads.endpoint r) = some r

/-- From `f` to `f'` the loads and each ranking have been stirred. -/
structure Stirred (may : Nat → LoadRef → Prop) (f f' : Fleet) : Prop where
  frame : Frame f f'
  touched : Touched f.now f.loads f'.loads
  unranked : ∀ b, f.ranking? b = none → f'.ranking? b = none
  stirs : ∀ b k, f.ranking? b = some k → ∃ k', f'.ranking? b = some k' ∧
    Stir f.now (may b) (f.loads, k) (f'.loads, k')

theorem Stirred.refl : Stirred may f f :=
  ⟨.refl, .refl, fun _ h => h, fun _ k hk => ⟨k, hk, .refl⟩⟩

theorem Stirred.trans (h : Stirred may f f') (h' : Stirred may f' f'') : Stirred may f f'' := by
  refine ⟨h.frame.trans h'.frame, h.touched.trans ?_, fun b hb => h'.unranked b (h.unranked b hb),
    fun b k hk => ?_⟩
  · rw [← h.frame.now]
    exact h'.touched
  · obtain ⟨k', hk', hstir⟩ := h.stirs b k hk
    obtain ⟨k'', hk'', hstir'⟩ := h'.stirs b k' hk'
    rw [h.frame.now] at hstir'
    exact ⟨k'', hk'', hstir.trans hstir'⟩

theorem Sound.isAlive (h : f.Sound c) {b : Nat} {r : LoadRef} (hr : f.Ranks b r) :
    f.isAlive b = true := by
  obtain ⟨k, hk, -⟩ := hr
  rw [Fleet.isAlive, h.held b k hk, Bool.true_or]

theorem Stirred.ranking? (h : Stirred may f f') {k' : Ranking} (hk' : f'.ranking? b = some k') :
    ∃ k, f.ranking? b = some k ∧ Stir f.now (may b) (f.loads, k) (f'.loads, k') := by
  cases hk : f.ranking? b with
  | none =>
    rw [h.unranked b hk] at hk'
    cases hk'
  | some k =>
    obtain ⟨k'', hk'', hstir⟩ := h.stirs b k hk
    obtain rfl : k'' = k' := Option.some.inj (hk''.symm.trans hk')
    exact ⟨k, rfl, hstir⟩

theorem Sound.stirred (h : f.Sound c) (hs : Stirred may f f') : f'.Sound c := by
  have hranks : ∀ b r, f'.Ranks b r ↔ f.Ranks b r := by
    intro b r
    constructor
    · rintro ⟨k', hk', hr⟩
      obtain ⟨k, hk, hstir⟩ := hs.ranking? hk'
      exact ⟨k, hk, (hstir.keeps (h.tidy b k hk)).contents ▸ hr⟩
    · rintro ⟨k, hk, hr⟩
      obtain ⟨k', hk', hstir⟩ := hs.stirs b k hk
      exact ⟨k', hk', (hstir.keeps (h.tidy b k hk)).contents.symm ▸ hr⟩
  obtain ⟨d, hd, hc, hlists, hmembers⟩ := h.registered
  refine ⟨fun b k' hk' => ?_, fun b k' hk' => ?_, ?_, d, hs.frame.directory.trans hd, hc,
    fun e r hr => ?_, fun b r hr => ?_⟩
  · obtain ⟨k, hk, hstir⟩ := hs.ranking? hk'
    exact (hstir.keeps (h.tidy b k hk)).tidy
  · obtain ⟨k, hk, -⟩ := hs.ranking? hk'
    exact (hs.frame.held b).trans (h.held b k hk)
  · rw [hs.frame.watchers]
    exact h.watched.congr fun b r => (hranks b r).symm
  · rw [hs.touched.size, hs.touched.endpoint]
    exact hlists e r hr
  · rw [hs.touched.endpoint]
    exact hmembers b r ((hranks b r).1 hr)

/-- An announcement reaches each ranking once, and may find more loads brought up to date. -/
theorem Sound.announced (h : f.Sound c) (r : LoadRef) (since : Nat) (t : LoadTable) :
    let f' := announce { f with loads := t } r since
    Frame f f' ∧ Synced f.now t f'.loads ∧ (∀ b, f.ranking? b = none → f'.ranking? b = none) ∧
      ∀ b k, f.ranking? b = some k → ∃ t', Synced f.now t t' ∧
        f'.ranking? b = some (heard f.now r since (t', k)).2 ∧
        Synced f.now (heard f.now r since (t', k)).1 f'.loads := by
  dsimp only
  have hlive : liveWatchers { f with loads := t } r = f.watchers.getD r [] :=
    Watched.liveWatchers (f := { f with loads := t }) h.watched (fun _ _ hr => h.isAlive hr) r
  obtain ⟨hn, hmem⟩ := h.watched r
  obtain ⟨hframe, hloads, hothers, htold⟩ :=
    told_foldl (f := { f with loads := t }) r since _ hn
  rw [announce, hlive]
  refine ⟨⟨hframe.clock, hframe.directory, hframe.watchers, hframe.held⟩, hloads,
    fun b hb => (hothers b (.inr hb)).trans hb, fun b k hk => ?_⟩
  by_cases hr : r ∈ k.queue.contents
  · obtain ⟨t', ht', hrank, hlast⟩ := htold b ((hmem b).2 ⟨k, hk, hr⟩) k hk
    refine ⟨t', ht', ?_⟩
    rw [heard, if_pos hr, ht'.endpoint]
    exact ⟨hrank, hlast⟩
  · refine ⟨t, .refl, ?_⟩
    rw [heard, if_neg hr]
    refine ⟨(hothers b (.inl fun hb => ?_)).trans hk, hloads⟩
    obtain ⟨k', hk', hr'⟩ := (hmem b).1 hb
    obtain rfl : k = k' := Option.some.inj (hk.symm.trans hk')
    exact hr hr'

theorem Sound.stirred_release (h : f.Sound c) (r : LoadRef) (latency : Duration) :
    Stirred may f (f.release r 1 latency) := by
  obtain ⟨hframe, hloads, hnone, hsome⟩ :=
    h.announced r 0 (f.loads.update r (·.release f.now 1 latency))
  refine ⟨hframe, .trans (.release r latency .refl) hloads.touched, hnone, fun b k hk => ?_⟩
  obtain ⟨t, ht, hrank, hlast⟩ := hsome b k hk
  exact ⟨_, hrank, (Stir.release r latency .refl ht).synced hlast⟩

theorem Sound.stirred_penalize (h : f.Sound c) (r : LoadRef) (latency : Duration) :
    Stirred may f (f.penalize r latency).2 := by
  cases hdue : ((f.loads.load r).penalize f.now latency).1 with
  | none =>
    simp only [penalize, hdue]
    exact .refl
  | some due =>
    simp only [penalize, hdue]
    obtain ⟨hframe, hloads, hnone, hsome⟩ := h.announced r due
      (f.loads.update r fun l => (l.penalize f.now latency).2)
    refine ⟨hframe, .trans (.penalize r latency .refl) hloads.touched, hnone, fun b k hk => ?_⟩
    obtain ⟨t, ht, hrank, hlast⟩ := hsome b k hk
    exact ⟨_, hrank, (Stir.penalize r latency .refl hdue ht).synced hlast⟩

theorem Stirred.still (hframe : Frame f f') (hl : f'.loads = f.loads)
    (hr : ∀ b, f'.ranking? b = f.ranking? b) : Stirred may f f' := by
  refine ⟨hframe, hl ▸ .refl, fun b hb => (hr b).trans hb, fun b k hk => ⟨k, (hr b).trans hk, ?_⟩⟩
  rw [hl]
  exact .refl

theorem stirred_record (f : Fleet) (g : Telemetry → Telemetry) (b : Nat) (listeners : List Listener)
    (event : Event) :
    Stirred may f ((f.modifyBalancer b fun x => { x with telemetry := g x.telemetry }).notify
      listeners event) := by
  have hsel : ∀ x : Balancer, ({ x with telemetry := g x.telemetry } : Balancer).selection =
      x.selection := fun _ => rfl
  have hr : ∀ b', (f.modifyBalancer b fun x => { x with telemetry := g x.telemetry }).ranking? b' =
      f.ranking? b' := fun b' => ranking?_modifyBalancer hsel b b'
  have hf := frame_modifyBalancer f b fun x => { x with telemetry := g x.telemetry }
  exact .still ⟨hf.clock, hf.directory, hf.watchers, hf.held⟩ rfl hr

theorem Sound.stirred_finish (h : f.Sound c) (t : Ticket) (succeeded : Bool)
    (latency : Duration) : Stirred may f (f.finish t succeeded latency) := by
  have hp : Stirred may f (if succeeded then f else (f.penalize t.load latency).2) := by
    split
    · exact .refl
    · exact h.stirred_penalize t.load latency
  rw [finish]
  generalize (if succeeded then f else (f.penalize t.load latency).2) = f₁ at hp ⊢
  exact (hp.trans ((h.stirred hp).stirred_release t.load latency)).trans
    (stirred_record _ (·.onComplete (f₁.release t.load 1 latency).now succeeded) _ _ _)

theorem Sound.stirred_complete (h : f.Sound c) (t : Nat) (succeeded : Bool)
    (latency : Option Duration) : Stirred may f (f.complete t succeeded latency).2 := by
  rw [complete]
  split
  · exact .refl
  · exact .refl
  · split
    · exact .refl
    · next ticket _ _ =>
      have hmark : Stirred may f { f with
          tasks := f.tasks.modify t fun _ => some (.tracked { ticket with completed := true }) } :=
        .still ⟨rfl, rfl, rfl, fun _ => rfl⟩ rfl fun _ => rfl
      exact hmark.trans ((h.stirred hmark).stirred_finish ..)

theorem frame_next (f : Fleet) (b : Nat) : Frame f (f.next b).2 := by
  rw [next]
  split
  · exact .refl
  · split <;> exact ⟨rfl, rfl, rfl, fun b' => isHeld_modifyBalancer f b b' _⟩

theorem next_of_ranking? (h : f.ranking? b = some k) :
    (f.next b).1 = (Ranking.take f.now (f.loads, k)).1.map (fun r => ⟨r, b, f.now, false⟩) ∧
      (f.next b).2.loads = (Ranking.take f.now (f.loads, k)).2.1 ∧
      ∀ b', (f.next b).2.ranking? b' =
        if b = b' then some (Ranking.take f.now (f.loads, k)).2.2 else f.ranking? b' := by
  obtain ⟨telemetry, listeners, hx⟩ := balancer_of_ranking? h
  have hset : ∀ (x : Balancer) (t : LoadTable) (words : Words) (b' : Nat),
      (setBalancer { f with loads := t, words := words } b x).ranking? b' =
        if b = b' then x.selection.ranking? else f.ranking? b' := fun x t words b' =>
    ranking?_setBalancer (f := { f with loads := t, words := words })
      (Option.isSome_iff_exists.2 ⟨_, hx⟩)
  simp only [next, hx, Balancer.take]
  cases Ranking.take f.now (f.loads, k) with
  | mk choice s =>
    cases choice with
    | none => exact ⟨rfl, rfl, fun b' => hset _ _ _ b'⟩
    | some r => exact ⟨rfl, rfl, fun b' => hset _ _ _ b'⟩

theorem next_of_unranked (h : f.ranking? b = none) :
    (∃ t, Synced f.now f.loads t ∧ (f.next b).2.loads =
      ((f.next b).1.elim t fun ticket => t.update ticket.load (·.acquire f.now 1))) ∧
      ∀ b', (f.next b).2.ranking? b' = f.ranking? b' := by
  rw [next]
  cases hx : f.balancer? b with
  | none => exact ⟨⟨f.loads, .refl, rfl⟩, fun _ => rfl⟩
  | some x =>
    obtain ⟨selection, telemetry, listeners⟩ := x
    cases selection with
    | ranked k =>
      rw [ranking?, hx] at h
      cases h
    | grouped g =>
      have hset : ∀ (telemetry : Telemetry) (t : LoadTable) (words : Words) (b' : Nat),
          (setBalancer { f with loads := t, words := words } b
            ⟨.grouped g, telemetry, listeners⟩).ranking? b' = f.ranking? b' := by
        intro telemetry t words b'
        refine (ranking?_setBalancer (f := { f with loads := t, words := words })
          (Option.isSome_iff_exists.2 ⟨_, hx⟩)).trans ?_
        split
        · next hb => rw [← hb, h]; rfl
        · rfl
      obtain ⟨t, ht, hload⟩ := Grouping.take_spec f.now g f.loads f.words
      simp only [Balancer.take]
      cases htake : g.take f.now f.loads f.words with
      | mk choice rest =>
        rw [htake] at hload
        cases choice with
        | none => exact ⟨⟨t, ht, hload⟩, fun b' => hset _ _ _ b'⟩
        | some r => exact ⟨⟨t, ht, hload⟩, fun b' => hset _ _ _ b'⟩

theorem loads_next (f : Fleet) (b : Nat) :
    ∃ t, Synced f.now f.loads t ∧ (f.next b).2.loads =
      ((f.next b).1.elim t fun ticket => t.update ticket.load (·.acquire f.now 1)) := by
  cases hk : f.ranking? b with
  | none => exact (next_of_unranked hk).1
  | some k =>
    obtain ⟨hanswer, hloads, -⟩ := next_of_ranking? hk
    have hsynced : Synced f.now f.loads
        (Ranking.settle f.now (Ranking.wake f.now (f.loads, k))).1 :=
      (Ranking.synced_wake (s := (f.loads, k))).trans Ranking.synced_settle
    refine ⟨_, hsynced, ?_⟩
    rw [hanswer, hloads]
    obtain ⟨heq, -⟩ | ⟨top, -, -, heq⟩ := Ranking.take_cases f.now (f.loads, k) rfl <;>
    · rw [heq]
      rfl

/-- Another balancer than `b` hands out a load, which is counted up behind the back of `b`. -/
def HandedElsewhere (f : Fleet) (b' b : Nat) (r : LoadRef) : Prop :=
  b' ≠ b ∧ ∃ t, (f.next b').1 = some t ∧ t.load = r

theorem stirred_next (f : Fleet) (b : Nat) : Stirred (f.HandedElsewhere b) f (f.next b).2 := by
  obtain ⟨t, ht, hloads⟩ := f.loads_next b
  have hothers : ∀ {b'}, b ≠ b' → ∀ k', Stir f.now (f.HandedElsewhere b b') (f.loads, k')
      ((f.next b).2.loads, k') := by
    intro b' hne k'
    rw [hloads]
    cases hn : (f.next b).1 with
    | none => exact Stir.refl.synced ht
    | some ticket =>
      have hs : Stir f.now (f.HandedElsewhere b b') (f.loads, k') (t, k') := Stir.refl.synced ht
      exact .acquire _ hs ⟨hne, ticket, hn, rfl⟩
  have htouched : Touched f.now f.loads (f.next b).2.loads := by
    rw [hloads]
    cases (f.next b).1 with
    | none => exact ht.touched
    | some ticket => exact .acquire _ ht.touched
  cases hk : f.ranking? b with
  | none =>
    obtain ⟨-, hr⟩ := next_of_unranked hk
    refine ⟨f.frame_next b, htouched, fun b' hb' => (hr b').trans hb', fun b' k' hk' =>
      ⟨k', (hr b').trans hk', hothers ?_ k'⟩⟩
    rintro rfl
    rw [hk] at hk'
    cases hk'
  | some k =>
    obtain ⟨-, hown, hr⟩ := next_of_ranking? hk
    refine ⟨f.frame_next b, htouched, fun b' hb' => ?_, fun b' k' hk' => ?_⟩
    · have hne : b ≠ b' := by
        rintro rfl
        rw [hk] at hb'
        cases hb'
      rw [hr, if_neg hne, hb']
    · by_cases hb : b = b'
      · subst hb
        obtain rfl : k = k' := Option.some.inj (hk.symm.trans hk')
        refine ⟨_, (hr b).trans (if_pos rfl), ?_⟩
        rw [hown]
        exact .take .refl
      · exact ⟨k', (hr b').trans ((if_neg hb).trans hk'), hothers hb k'⟩

end Fleet

end LeastLoad
