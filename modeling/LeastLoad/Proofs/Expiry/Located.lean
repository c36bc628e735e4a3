import LeastLoad.Proofs.Expiry.Whereabouts

/-! # Where the additions of a run are

In a run, each addition that is handed back is handed back by one later purge. A purge hands back
all that is due by its clock and nothing that the clock has not reached by then, though it may have
been moved back since; what it hands back in one sum is the sum of these additions. -/

namespace LeastLoad

def RingEvent.amountAt (es : List RingEvent) (i : Nat) : Int := es[i]?.elim 0 amount

def RingEvent.dueAt (maxAge : Duration) (windows : Nat) (start : Clock) (es : List RingEvent)
    (i : Nat) : Nat :=
  match es[i]? with
  | some (.add _ lifespan) => roundedExpiry maxAge windows (start.afterAll (es.take i)).now lifespan
  | _ => 0

namespace ClockedRing

open ExpiryRing RingEvent

variable {s : ClockedRing} {es : List RingEvent} {due : Nat → Nat} {m : Nat}
  {place place' : Nat → Place}

def stateAt (s : ClockedRing) (es : List RingEvent) (m : Nat) : ClockedRing := s.run (es.take m)

theorem stateAt_succ (s : ClockedRing) {e : RingEvent} (he : es[m]? = some e) :
    s.stateAt es (m + 1) = (s.stateAt es m).step e := by
  rw [stateAt, List.take_add_one, he, run_append]
  rfl

theorem clock_run (s : ClockedRing) (es : List RingEvent) :
    (s.run es).clock = s.clock.afterAll es := by
  induction es generalizing s with
  | nil => rfl
  | cons e es ih =>
    have hstep : (s.step e).clock = s.clock.after e := by cases e <;> rfl
    rw [Clock.afterAll, List.foldl_cons, ← hstep]
    exact ih (s.step e)

def highest (s : ClockedRing) (es : List RingEvent) : Nat → Nat
  | 0 => s.clock.now
  | m + 1 => max (s.highest es m) (s.stateAt es (m + 1)).clock.now

theorem highest_le_succ : s.highest es m ≤ s.highest es (m + 1) := Nat.le_max_left _ _

theorem now_le_highest : (s.stateAt es m).clock.now ≤ s.highest es m := by
  cases m with
  | zero => exact le_rfl
  | succ m => exact Nat.le_max_right _ _

theorem exists_highest (s : ClockedRing) (es : List RingEvent) (m : Nat) :
    ∃ k ≤ m, s.highest es m = (s.stateAt es k).clock.now := by
  induction m with
  | zero => exact ⟨0, le_rfl, rfl⟩
  | succ m ih =>
    obtain ⟨k, hk, hhighest⟩ := ih
    rcases Nat.le_total (s.stateAt es (m + 1)).clock.now (s.highest es m) with hle | hle
    · exact ⟨k, Nat.le_succ_of_le hk, (Nat.max_eq_left hle).trans hhighest⟩
    · exact ⟨m + 1, le_rfl, Nat.max_eq_right hle⟩

/-- Where the additions of the first `m` events of a run are. What the purge of number `j` hands
back is the sum of those that are held to be handed back by it: all that are due by its clock, and
none that the clock has not reached by then. -/
structure Located (s : ClockedRing) (es : List RingEvent) (due : Nat → Nat) (m : Nat)
    (place : Nat → Place) : Prop where
  holds : (s.stateAt es m).ring.Holds (amountAt es) due (s.highest es m) m place
  present : ∀ i < m, amountAt es i ≠ 0 → place i ≠ .nowhere
  purge : ∀ i j, place i = .handed j → es[j]? = some .purge
  sum : ∀ j < m, es[j]? = some .purge →
    ((s.stateAt es j).ring.purge (s.stateAt es j).clock.now).1 =
      .ofInt (sumAt (amountAt es) place m (.handed j))
  prompt : ∀ i j, amountAt es i ≠ 0 → i < j → j < m → es[j]? = some .purge →
    due i ≤ (s.stateAt es j).clock.now → ∃ j' ≤ j, place i = .handed j'
  reached : ∀ i j, place i = .handed j → due i ≤ s.highest es j

namespace Located

theorem keep (h : s.Located es due m place) {e : RingEvent} (he : es[m]? = some e)
    (hne : e ≠ .purge) (hf : Follows (fun _ => False) place place')
    (hholds :
      (s.stateAt es (m + 1)).ring.Holds (amountAt es) due (s.highest es m) (m + 1) place')
    (hpresent : amountAt es m ≠ 0 → place' m ≠ .nowhere) : s.Located es due (m + 1) place' := by
  have hnew : ∀ i j, place' i = .handed j → place i = .handed j := fun i j hj =>
    (hf.new i j hj).resolve_right id
  have hlt : ∀ j < m + 1, es[j]? = some .purge → j < m := by
    intro j hj hpurge
    refine (Nat.lt_succ_iff_lt_or_eq.1 hj).resolve_right ?_
    rintro rfl
    exact hne (Option.some.inj (he.symm.trans hpurge))
  refine ⟨hholds.later highest_le_succ, fun i hi hadd => ?_,
    fun i j hj => h.purge i j (hnew i j hj), fun j hj hpurge => ?_,
    fun i j hadd hij hj hpurge hdue => ?_, fun i j hj => h.reached i j (hnew i j hj)⟩
  · rcases Nat.lt_succ_iff_lt_or_eq.1 hi with hi | rfl
    · exact hf.present i (h.present i hi hadd)
    · exact hpresent hadd
  · rw [hf.sumAt_handed (h.holds.fresh m le_rfl) not_false]
    exact h.sum j (hlt j hj hpurge) hpurge
  · obtain ⟨j', hle, hi⟩ := h.prompt i j hadd hij (hlt j hj hpurge) hpurge hdue
    exact ⟨j', hle, hf.kept i j' hi⟩

theorem purge_step (h : s.Located es due m place) (he : es[m]? = some .purge) :
    s.Located es due (m + 1)
      (purged (s.stateAt es m).ring (s.stateAt es m).clock.now m place) := by
  have hnow : (s.stateAt es m).clock.now ≤ s.highest es m := now_le_highest
  have hf := @follows_purged (s.stateAt es m).ring m (s.stateAt es m).clock.now place
  have hholds := h.holds.purge hnow
  generalize hp : purged (s.stateAt es m).ring (s.stateAt es m).clock.now m place = p at hf hholds
  have hstate : (s.stateAt es (m + 1)).ring =
      ((s.stateAt es m).ring.purge (s.stateAt es m).clock.now).2 := by
    rw [stateAt_succ s he]
    rfl
  refine ⟨hstate ▸ hholds.later highest_le_succ, fun i hi hadd => ?_, fun i j hj => ?_,
    fun j hj hpurge => ?_, fun i j hadd hij hj hpurge hdue => ?_, fun i j hj => ?_⟩
  · rcases Nat.lt_succ_iff_lt_or_eq.1 hi with hi | rfl
    · exact hf.present i (h.present i hi hadd)
    · rw [amountAt, he] at hadd
      exact absurd rfl hadd
  · rcases hf.new i j hj with hold | rfl
    · exact h.purge i j hold
    · exact he
  · rcases Nat.lt_succ_iff_lt_or_eq.1 hj with hj | rfl
    · rw [hf.sumAt_handed (h.holds.fresh m le_rfl) hj.ne]
      exact h.sum j hj hpurge
    · rw [← hp]
      exact h.holds.purge_fst _
  · rcases Nat.lt_succ_iff_lt_or_eq.1 hj with hj | rfl
    · obtain ⟨j', hle, hi⟩ := h.prompt i j hadd hij hj hpurge hdue
      exact ⟨j', hle, hf.kept i j' hi⟩
    · have hthere := hf.present i (h.present i hij hadd)
      cases hx : p i with
      | nowhere => exact absurd hx hthere
      | slot k => exact absurd hdue (Nat.not_le.2 (h.holds.lt_due (hp ▸ hx)))
      | backlog =>
        rw [← hp] at hx
        exact absurd hx purged_ne_backlog
      | handed j' => exact ⟨j', Nat.le_of_lt_succ (hholds.handed i j' hx).2, rfl⟩
  · rcases hf.new i j hj with hold | rfl
    · exact h.reached i j hold
    · exact h.holds.due_le hnow (hp ▸ hj)

theorem add_step (h : s.Located es due m place) {n : Int64} {lifespan : Duration}
    (he : es[m]? = some (.add n lifespan)) (hw : 0 < (s.stateAt es m).ring.windows)
    (hdue : due m =
      if (s.stateAt es m).ring.width = 0 then (s.stateAt es m).clock.now
      else (s.stateAt es m).ring.windowOf (s.stateAt es m).clock.now lifespan *
        (s.stateAt es m).ring.width) :
    ∃ place', s.Located es due (m + 1) place' := by
  have hcount : amountAt es m = n.toInt := by
    rw [amountAt, he]
    rfl
  obtain ⟨place', hholds, hf, hpresent⟩ := h.holds.add hcount hw now_le_highest hdue
  refine ⟨place', h.keep he nofun hf ?_ fun hne => hpresent ?_⟩
  · rw [stateAt_succ s he]
    exact hholds
  · rintro rfl
    exact hne hcount

theorem clock_step (h : s.Located es due m place) {e : RingEvent} (he : es[m]? = some e)
    (hring : ((s.stateAt es m).step e).ring = (s.stateAt es m).ring) (hpurge : e ≠ .purge)
    (hamount : e.amount = 0) : s.Located es due (m + 1) place := by
  refine h.keep he hpurge (.refl place) ?_ fun hne => absurd ?_ hne
  · rw [stateAt_succ s he, hring]
    exact h.holds.skip
  · rw [amountAt, he]
    exact hamount

end Located

theorem located_nil (htimely : s.ring.Timely s.clock.now) (hbacklog : s.ring.backlog = 0)
    (hempty : ∀ i, s.ring.bucket i = {}) : s.Located es due 0 fun _ => .nowhere := by
  have hnow : s.clock.now ≤ s.highest es 0 := @now_le_highest s es 0
  refine ⟨⟨htimely.later hnow, hbacklog, fun k => ?_, nofun, nofun, nofun, fun _ _ => rfl⟩, nofun,
    nofun, nofun, nofun, nofun⟩
  change (s.ring.bucket k).count = 0
  rw [hempty]

theorem exists_located {maxAge : Duration} {windows : Nat}
    (h : ExpiryRing.create maxAge windows s.clock.now = .ok s.ring) (es : List RingEvent) :
    ∃ place, s.Located es (dueAt maxAge windows s.clock es) es.length place := by
  suffices hprefix : ∀ m ≤ es.length,
      ∃ place, s.Located es (dueAt maxAge windows s.clock es) m place from hprefix _ le_rfl
  intro m hm
  induction m with
  | zero =>
    obtain ⟨-, -, -, -, hbacklog, hempty⟩ := create_spec h
    exact ⟨_, located_nil (Timely.create h) hbacklog hempty⟩
  | succ m ih =>
    obtain ⟨place, hplace⟩ := ih (Nat.le_of_succ_le hm)
    have he : es[m]? = some es[m] := List.getElem?_eq_getElem hm
    cases hev : es[m] with
    | add n lifespan =>
      rw [hev] at he
      obtain ⟨hdated, -⟩ := dated_run (s := s) (l := ⟨maxAge, windows, s.clock, []⟩) rfl
        (Dated.create h) (es.take m)
      refine hplace.add_step he (hdated.windows.symm ▸ hdated.windows_pos) ?_
      rw [dueAt, he, ← clock_run]
      exact roundedExpiry_eq hdated.maxAge hdated.windows hdated.windows_pos _ _
    | purge =>
      rw [hev] at he
      exact ⟨_, hplace.purge_step he⟩
    | advance d | set d =>
      rw [hev] at he
      exact ⟨_, hplace.clock_step he rfl nofun rfl⟩

end ClockedRing

end LeastLoad
