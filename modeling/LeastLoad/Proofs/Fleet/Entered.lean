import LeastLoad.Proofs.Endpoint.Account
import LeastLoad.Proofs.Fleet.Accounted

/-! # What a run does to one load

A load is worked on directly and through the tasks of any balancer that holds it. Whatever else
happens in a fleet applies to it at most what is due, or disables it: from the moment it is made, a
run of the fleet is a run of the load, of which the account can be read off what was done. -/

namespace LeastLoad

theorem EndpointLoad.penalize_of_none {l : EndpointLoad} {now : Nat} {latency : Duration}
    (h : (l.penalize now latency).1 = none) : (l.penalize now latency).2 = l := by
  rw [penalize] at h ⊢
  split at h
  · rfl
  · cases h

namespace LoadTable

variable {now : Nat} {t t' : LoadTable} {r r' : LoadRef}

theorem Synced.drives {clock : Clock} (h : Synced clock.now t t') (r : LoadRef) :
    ClockedLoad.Drives ⟨clock, t.load r⟩ [] ⟨clock, t'.load r⟩ :=
  h.keeps (p := fun l => ClockedLoad.Drives ⟨clock, t.load r⟩ [] ⟨clock, l⟩)
    (fun _ hl => hl.sync) .start

end LoadTable

open LoadTable (Synced)

def Adjustment.entries (clock : Clock) : Adjustment → LoadAccount
  | acquire n => [(clock, .acquire n)]
  | release n latency => [(clock, .release n latency)]
  | penalize latency => [(clock, .penalize latency)]
  | sync | disable _ => []

/-- What the completion of a task enters: a failure is penalized before the unit is taken off. -/
def LoadAccount.finished (clock : Clock) (succeeded : Bool) (latency : Duration) : LoadAccount :=
  if succeeded then [(clock, .release 1 latency)]
  else [(clock, .penalize latency), (clock, .release 1 latency)]

namespace Fleet

open ClockedLoad (Drives)

variable {f f' f'' start : Fleet} {b i : Nat} {r r' : LoadRef} {c : LoadSettings} {d : Deed}
  {t : Ticket} {past : List (Fleet × Deed)}

def clocked (f : Fleet) (r : LoadRef) : ClockedLoad := ⟨f.clock, f.loads.load r⟩

/-- A balancer is called only while its handle is kept, and the clock moves forward. -/
def Onward (f : Fleet) (d : Deed) : Prop := Allowed f d ∧ ∀ call, d = .call call → Forward f call

def enters (f : Fleet) (r : LoadRef) : Deed → LoadAccount
  | .call (.next b) => if (f.next b).1.map (·.load) = some r then [(f.clock, .acquire 1)] else []
  | .call (.complete i succeeded latency) =>
    match f.task? i with
    | some (.tracked t) =>
      if t.completed = false ∧ t.load = r then
        .finished f.clock succeeded (latency.getD (f.elapsed t))
      else []
    | _ => []
  | .adjust r' a => if r' = r then a.entries f.clock else []
  | _ => []

def entered (r : LoadRef) : List (Fleet × Deed) → LoadAccount
  | [] => []
  | (f, d) :: past =>
    if r.place < f.loads.states.size then entered r past ++ f.enters r d else []

theorem entered_of_placed (hr : r.place < f.loads.states.size) :
    entered r ((f, d) :: past) = entered r past ++ f.enters r d :=
  if_pos hr

/-- Of the loads that are there one has been worked on, with `a` as the account of that; to the
others at most what is due has been applied. The clock has stood still. -/
structure Charges (r' : LoadRef) (a : LoadAccount) (f f' : Fleet) : Prop where
  clock : f'.clock = f.clock
  size : f.loads.states.size ≤ f'.loads.states.size
  drives : ∀ r : LoadRef, r.place < f.loads.states.size →
    Drives (f.clocked r) (if r' = r then a else []) (f'.clocked r)

theorem Charges.trans {a a' : LoadAccount} (h : Charges r' a f f') (h' : Charges r' a' f' f'') :
    Charges r' (a ++ a') f f'' := by
  refine ⟨h'.clock.trans h.clock, h.size.trans h'.size, fun r hr => ?_⟩
  have hboth := (h.drives r hr).trans (h'.drives r (hr.trans_le h.size))
  by_cases hrr : r' = r
  · simpa only [if_pos hrr] using hboth
  · simpa only [if_neg hrr, List.append_nil] using hboth

theorem charges_synced (hclock : f'.clock = f.clock) (h : Synced f.now f.loads f'.loads) :
    Charges r' [] f f' := by
  refine ⟨hclock, h.size.ge, fun r hr => ?_⟩
  rw [ite_self, clocked, clocked, hclock]
  exact h.drives r

theorem charges_grown (hclock : f'.clock = f.clock) (h : f.loads.Grows c f.now f'.loads) :
    Charges r' [] f f' := by
  refine ⟨hclock, h.size, fun r hr => ?_⟩
  rw [ite_self, clocked, clocked, hclock, h.loads r hr]
  exact .start

theorem charges_update {g : EndpointLoad → EndpointLoad} {a : LoadAccount}
    (hg : Drives (f.clocked r') a ⟨f.clock, g (f.loads.load r')⟩) :
    Charges r' a f { f with loads := f.loads.update r' g } := by
  refine ⟨rfl, LoadTable.size_update.ge, fun r hr => ?_⟩
  by_cases hrr : r' = r
  · subst hrr
    rw [if_pos rfl, clocked, clocked, LoadTable.load_update_self hr]
    exact hg
  · rw [if_neg hrr, clocked, clocked, LoadTable.load_update_of_ne hrr]
    exact .start

theorem charges_modifyRanking {u : LoadTable × Ranking → LoadTable × Ranking}
    (hu : ∀ k, Synced f.now f.loads (u (f.loads, k)).1) (b : Nat) :
    Charges r' [] f (f.modifyRanking b u) := by
  rw [modifyRanking]
  split
  · next k telemetry listeners _ => exact charges_synced rfl (hu k)
  · exact charges_synced rfl .refl

theorem charges_announce (f : Fleet) (r : LoadRef) (since : Nat) :
    Charges r' [] f (f.announce r since) := by
  rw [announce]
  refine List.foldlRecOn (motive := fun f' : Fleet => Charges r' [] f f') _ _
    (charges_synced rfl .refl) fun f' hf b _ => ?_
  exact hf.trans (charges_modifyRanking
    (fun k => Ranking.synced_loadDropped (s := (f'.loads, k)) _ _) b)

theorem charges_acquire (f : Fleet) (r' : LoadRef) (n : Int32) :
    Charges r' [(f.clock, .acquire n)] f (f.acquire r' n) :=
  charges_update (Drives.start.event (.acquire n) le_rfl)

theorem charges_release (f : Fleet) (r' : LoadRef) (n : Int32) (latency : Duration) :
    Charges r' [(f.clock, .release n latency)] f (f.release r' n latency) :=
  (charges_update (g := (·.release f.now n latency))
    (Drives.start.event (.release n latency) le_rfl)).trans (charges_announce _ r' 0)

theorem charges_penalize (f : Fleet) (r' : LoadRef) (latency : Duration) :
    Charges r' [(f.clock, .penalize latency)] f (f.penalize r' latency).2 := by
  have hpenalize : Drives (f.clocked r') [(f.clock, .penalize latency)]
      ⟨f.clock, ((f.loads.load r').penalize f.now latency).2⟩ :=
    Drives.start.event (.penalize latency) le_rfl
  cases hdue : ((f.loads.load r').penalize f.now latency).1 with
  | none =>
    simp only [penalize, hdue]
    refine ⟨rfl, le_rfl, fun r _ => ?_⟩
    split
    · next hrr =>
      subst hrr
      rwa [EndpointLoad.penalize_of_none hdue] at hpenalize
    · exact .start
  | some due =>
    simp only [penalize, hdue]
    exact (charges_update (g := fun l => (l.penalize f.now latency).2) hpenalize).trans
      (charges_announce _ r' due)

theorem charges_setDisabled (f : Fleet) (r' : LoadRef) (disabled : Bool) :
    Charges r' [] f (f.setDisabled r' disabled) := by
  have hdisable : Charges r' [] f
      { f with loads := f.loads.update r' (·.setDisabled disabled) } :=
    charges_update (Drives.start.disable disabled)
  rw [setDisabled]
  split
  · exact hdisable.trans (charges_announce _ r' 0)
  · exact hdisable

theorem charges_adjust (f : Fleet) (r' : LoadRef) (a : Adjustment) :
    Charges r' (a.entries f.clock) f (f.adjust r' a) := by
  cases a with
  | acquire n => exact f.charges_acquire r' n
  | release n latency => exact f.charges_release r' n latency
  | penalize latency => exact f.charges_penalize r' latency
  | sync => exact charges_synced rfl (.sync r' .refl)
  | disable disabled => exact f.charges_setDisabled r' disabled

theorem charges_finish (f : Fleet) (t : Ticket) (succeeded : Bool) (latency : Duration) :
    Charges t.load (.finished f.clock succeeded latency) f (f.finish t succeeded latency) := by
  have hcharged : Charges t.load (.finished f.clock succeeded latency) f
      ((if succeeded then f else (f.penalize t.load latency).2).release t.load 1 latency) := by
    cases succeeded with
    | true => exact f.charges_release t.load 1 latency
    | false =>
      have hpenalize := f.charges_penalize t.load latency
      have hrelease := (f.penalize t.load latency).2.charges_release t.load 1 latency
      rw [hpenalize.clock] at hrelease
      exact hpenalize.trans hrelease
  rw [finish]
  exact ⟨hcharged.clock, hcharged.size, hcharged.drives⟩

theorem charges_next (hn : (f.next b).1 = some t) :
    Charges t.load [(f.clock, .acquire 1)] f (f.next b).2 := by
  obtain ⟨loads, hsynced, hloads⟩ := f.loads_next b
  rw [hn] at hloads
  have hsynced : Charges t.load [] f { f with loads } := charges_synced rfl hsynced
  have hcharged := hsynced.trans (charges_acquire { f with loads } t.load 1)
  refine ⟨(f.frame_next b).clock, ?_, fun r hr => ?_⟩
  · rw [hloads]
    exact hcharged.size
  · rw [clocked, clocked, (f.frame_next b).clock, hloads]
    exact hcharged.drives r hr

theorem Resolves.charges {es : List Endpoint} {states : List LoadRef}
    (h : Resolves c es states f f') : Charges r' [] f f' :=
  charges_grown (by rw [h.rest]) h.grows

theorem Rooted.charges_update (h : f.Rooted c) {es : List Endpoint} (hok : f.update b es = .ok f') :
    Charges r' [] f f' := by
  obtain ⟨states, f₁, hres, rfl⟩ := h.update_cases hok
  have hloads : (f₁.install b states).prune.2.loads = f₁.loads := by
    rw [loads_prune, (f₁.installs b states).rest]
  refine charges_grown (c := c) ?_ (hloads ▸ hres.grows)
  rw [rest_prune, (f₁.installs b states).rest, hres.rest]

theorem Rooted.charges_build (h : f.Rooted c) {selection : Selection} {settings : TelemetrySettings}
    {listeners : List Listener} {es : List Endpoint}
    (hok : f.build selection settings listeners es = .ok (b, f')) : Charges r' [] f f' := by
  obtain ⟨-, states, f₁, hres, hloads, -⟩ := h.selection?_build hok
  exact charges_grown (h.rest_build hok).1 (hloads ▸ hres.grows)

theorem enters_complete_of_completed (hi : ∀ t, f.task? i = some (.tracked t) → t.completed = true)
    (succeeded : Bool) (latency : Option Duration) :
    f.enters r (.call (.complete i succeeded latency)) = [] := by
  rw [enters]
  split
  · next t ht => rw [if_neg fun h => Bool.false_ne_true (h.1.symm.trans (hi t ht))]
  · rfl

theorem enters_complete_of_open (hi : f.task? i = some (.tracked t)) (hc : t.completed = false)
    (succeeded : Bool) (latency : Option Duration) :
    f.enters r (.call (.complete i succeeded latency)) =
      if t.load = r then LoadAccount.finished f.clock succeeded (latency.getD (f.elapsed t))
      else [] := by
  simp only [enters, hi, hc, true_and]

/-- A deed moves the clock, or it works on one load, if on any, as the accounts of all enter it. -/
theorem Rooted.perform_cases (h : f.Rooted c) (d : Deed) :
    (∃ clock, f.perform d = { f with clock } ∧ (f.Onward d → f.now ≤ clock.now) ∧
        ∀ r, f.enters r d = []) ∨
      ∃ r' a, Charges r' a f (f.perform d) ∧ ∀ r, f.enters r d = if r' = r then a else [] := by
  have hnone : ∀ {f'}, Charges ⟨0⟩ [] f f' → ∃ r' a, Charges r' a f f' ∧
      ∀ r : LoadRef, ([] : LoadAccount) = if r' = r then a else [] :=
    fun hc => ⟨_, _, hc, fun _ => (ite_self _).symm⟩
  have hsame : Charges ⟨0⟩ [] f f := charges_synced rfl .refl
  cases d with
  | call call =>
    cases call with
    | build s strategy listeners es =>
      refine .inr (hnone ?_)
      cases hok : f.build (strategy.selection s) s.telemetry listeners es with
      | error e => simpa only [Fleet.perform, Fleet.apply, hok] using hsame
      | ok x => exact perform_build hok ▸ h.charges_build hok
    | next b =>
      cases hn : (f.next b).1 with
      | none =>
        obtain ⟨t, ht, hloads⟩ := f.loads_next b
        rw [hn] at hloads
        rw [perform_next_none hn]
        simp only [enters, hn]
        exact .inr (hnone (charges_synced (f.frame_next b).clock (hloads ▸ ht)))
      | some t =>
        have hcharges := charges_next hn
        rw [perform_next_some hn]
        refine .inr ⟨t.load, _, ⟨hcharges.clock, hcharges.size, hcharges.drives⟩, fun r => ?_⟩
        simp only [enters, hn, Option.map_some, Option.some_inj]
    | complete i succeeded latency =>
      right
      change ∃ r' a, Charges r' a f (f.complete i succeeded latency).2 ∧ _
      obtain hi | ⟨t, hi, hc⟩ := f.done_or_open i
      · simp only [complete_of_completed hi, enters_complete_of_completed hi]
        exact hnone hsame
      · have hcharges := (f.mark i t).charges_finish t succeeded (latency.getD (f.elapsed t))
        rw [complete_of_open hi hc]
        exact ⟨t.load, _, ⟨hcharges.clock, hcharges.size, hcharges.drives⟩,
          fun r => enters_complete_of_open hi hc succeeded latency⟩
    | update b es =>
      refine .inr (hnone ?_)
      simp only [Fleet.perform, Fleet.apply]
      cases hok : f.update b es with
      | error e => exact hsame
      | ok f' => exact h.charges_update hok
    | advance d =>
      exact .inl ⟨_, rfl, fun hd =>
        (Nat.le_add_right _ _).trans (Clock.now_advance (hd.2 _ rfl)).ge, fun _ => rfl⟩
    | set d => exact .inl ⟨_, rfl, fun _ => Clock.le_now_set _ d, fun _ => rfl⟩
  | adjust r' a => exact .inr ⟨r', _, f.charges_adjust r' a, fun _ => rfl⟩
  | resolve es =>
    refine .inr (hnone ?_)
    simp only [Fleet.perform]
    cases hok : f.resolve es with
    | error e => exact hsame
    | ok x => exact (h.resolve hok).charges
  | hold e =>
    refine .inr (hnone ?_)
    simp only [Fleet.perform]
    cases hok : f.getOrCreate e with
    | error e => exact hsame
    | ok x =>
      obtain ⟨found, f'⟩ := x
      have hcharges : Charges ⟨0⟩ [] f f' := (h.resolve (resolve_of_getOrCreate hok)).charges
      cases found with
      | none => exact hcharges
      | some r => exact ⟨hcharges.clock, hcharges.size, hcharges.drives⟩
  | prune =>
    refine .inr (hnone ?_)
    simp only [Fleet.perform]
    rw [rest_prune]
    exact charges_synced rfl .refl
  | refresh b =>
    exact .inr (hnone
      (charges_modifyRanking (fun k => Ranking.synced_refresh f.now (f.loads, k)) b))
  | report b =>
    refine .inr (hnone ?_)
    simp only [Fleet.perform, report]
    split <;> exact charges_synced rfl .refl
  | letGo | dropTask | dropBalancer => exact .inr (hnone (charges_synced rfl .refl))

/-- Since it was made, a load has been driven by what its account enters. -/
theorem Runs.drives (h : Runs Onward start past f) (hstart : start.Blank c)
    (hr : r.place < f.loads.states.size) :
    ∃ e made l, EndpointLoad.create e c made.now = .ok l ∧
      Drives ⟨made, l⟩ (entered r past) (f.clocked r) := by
  induction h with
  | start =>
    rw [hstart.loads] at hr
    cases hr
  | @step past f d hrun hd ih =>
    have hrooted := (hrun.mono fun _ _ hd => hd.1).rooted hstart
    have hcases := hrooted.perform_cases d
    by_cases hplaced : r.place < f.loads.states.size
    · obtain ⟨e, made, l, hl, hdrives⟩ := ih hplaced
      rw [entered_of_placed hplaced]
      refine ⟨e, made, l, hl, hdrives.trans ?_⟩
      obtain ⟨clock, heq, hle, hnone⟩ | ⟨r', a, hcharges, henters⟩ := hcases
      · rw [heq, hnone]
        exact Drives.start.later (hle hd)
      · rw [henters]
        exact hcharges.drives r hplaced
    · obtain ⟨e, he⟩ := hrooted.made_perform hd.1 (Nat.le_of_not_lt hplaced) hr
      rw [entered, if_neg hplaced]
      obtain ⟨clock, heq, -, -⟩ | ⟨r', a, hcharges, -⟩ := hcases
      · rw [heq] at hr
        exact absurd hr hplaced
      · refine ⟨e, f.clock, _, he, ?_⟩
        rw [clocked, hcharges.clock]
        exact .start

end Fleet

end LeastLoad
