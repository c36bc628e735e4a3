import LeastLoad.Proofs.Fleet.Entered

/-! # Loads by their accounts

Each task adds one unit to the load of its endpoint and takes it off once, however often it is
completed. What a load shows is therefore what was done to it directly and one unit for each of its
tasks that is open, besides the penalties that lie ahead. -/

namespace LeastLoad

theorem LoadAccount.units_finished (clock : Clock) (succeeded : Bool) (latency : Duration) :
    (finished clock succeeded latency).units = -1 := by
  cases succeeded <;> rfl

namespace Fleet

open ClockedLoad (Drives)

variable {f f' start : Fleet} {b i : Nat} {r : LoadRef} {c : LoadSettings} {d : Deed} {t : Ticket}
  {past : List (Fleet × Deed)}

/-- The tasks that were handed out with a unit of `r`, and the readings of the clock at that. -/
def dispatched (r : LoadRef) : List (Fleet × Deed) → List (Nat × Nat)
  | [] => []
  | (f, d) :: past =>
    if (d.asks >>= fun b => (f.next b).1).map (·.load) = some r then
      (f.tasks.size, f.now) :: dispatched r past
    else dispatched r past

/-- The units by which a load has been changed other than through tasks. -/
def direct (r : LoadRef) : List (Fleet × Deed) → Int
  | [] => 0
  | (f, .adjust r' a) :: past => direct r past +
      if r' = r ∧ r.place < f.loads.states.size then (a.entries f.clock).units else 0
  | _ :: past => direct r past

def unfinished (r : LoadRef) (past : List (Fleet × Deed)) : Nat :=
  (dispatched r past).countP fun x => outcome x.1 past = none

theorem ticket_of_next (h : (f.next b).1 = some t) : t = ⟨t.load, b, f.now, false⟩ := by
  rw [next] at h
  split at h
  · cases h
  · split at h
    · cases h
    · cases h
      rfl

theorem dispatched_next (h : (f.next b).1 = some t) (r : LoadRef) :
    dispatched r ((f, .call (.next b)) :: past) =
      if t.load = r then (f.tasks.size, f.now) :: dispatched r past else dispatched r past := by
  simp [dispatched, Deed.asks, h]

theorem dispatched_of_next_none (h : d.asks >>= (fun b => (f.next b).1) = none) (r : LoadRef) :
    dispatched r ((f, d) :: past) = dispatched r past := by
  rw [dispatched, h, if_neg nofun]

theorem direct_of_idle (hasks : d.asks = none) (hcompletes : d.completes = none) (r : LoadRef) :
    direct r ((f, d) :: past) = direct r past +
      if r.place < f.loads.states.size then (f.enters r d).units else 0 := by
  have hnone : direct r past = direct r past +
      if r.place < f.loads.states.size then LoadAccount.units [] else 0 := by
    rw [LoadAccount.units_nil, ite_self, Int.add_zero]
  cases d with
  | call call =>
    cases call with
    | next b => cases hasks
    | complete i succeeded latency => cases hcompletes
    | build | update | advance | set => exact hnone
  | adjust r' a =>
    simp only [direct, enters]
    by_cases hr : r' = r
    · simp only [hr, true_and, if_true]
    · simp only [hr, false_and, if_false, Int.add_zero]
      exact hnone
  | _ => exact hnone

/-- Each task is where the history has it, and the open ones make up what the account of a load
comes to beyond what was done directly. -/
structure Dispatched (f : Fleet) (past : List (Fleet × Deed)) : Prop where
  kept : ∀ i t, f.task? i = some (.tracked t) → (i, t.dispatchedAt) ∈ dispatched t.load past
  born : ∀ r, ∀ x ∈ dispatched r past, r.place < f.loads.states.size ∧ x.1 < f.tasks.size ∧
    x.2 ≤ f.now ∧ ∀ t, f.task? x.1 = some (.tracked t) → t.load = r ∧ t.dispatchedAt = x.2
  once : ∀ r, ((dispatched r past).map (·.1)).Nodup
  untouched : ∀ r : LoadRef, f.loads.states.size ≤ r.place → direct r past = 0
  balance : ∀ r, (entered r past).units = direct r past + unfinished r past

theorem Blank.dispatched (h : f.Blank c) : Dispatched f [] := by
  refine ⟨fun i t hi => ?_, nofun, fun _ => List.nodup_nil, fun _ _ => rfl, fun _ => rfl⟩
  rw [task?, h.tasks] at hi
  cases hi

theorem Dispatched.vacant (h : Dispatched f past) (hr : f.loads.states.size ≤ r.place) :
    dispatched r past = [] :=
  List.eq_nil_iff_forall_not_mem.2 fun x hx => Nat.not_lt.2 hr (h.born r x hx).1

theorem Dispatched.units_entered (h : Dispatched f past) (d : Deed) (r : LoadRef) :
    (entered r ((f, d) :: past)).units = direct r past + unfinished r past +
      if r.place < f.loads.states.size then (f.enters r d).units else 0 := by
  rw [entered]
  split
  · rw [LoadAccount.units_append, h.balance]
  · next hr =>
    have hr := Nat.le_of_not_lt hr
    rw [h.untouched r hr, unfinished, h.vacant hr]
    rfl

theorem Dispatched.idle (h : Dispatched f past)
    (hgrows : f.loads.states.size ≤ f'.loads.states.size)
    (hnow : f.now ≤ f'.now) (hsize : f'.tasks.size = f.tasks.size)
    (htasks : ∀ i task, f'.task? i = some task → f.task? i = some task)
    (hd : ∀ r, dispatched r ((f, d) :: past) = dispatched r past)
    (ho : ∀ i, outcome i ((f, d) :: past) = outcome i past)
    (hdirect : ∀ r, direct r ((f, d) :: past) = direct r past +
      if r.place < f.loads.states.size then (f.enters r d).units else 0) :
    Dispatched f' ((f, d) :: past) := by
  refine ⟨fun i t hi => ?_, fun r x hx => ?_, fun r => ?_, fun r hr => ?_, fun r => ?_⟩
  · rw [hd]
    exact h.kept i t (htasks i _ hi)
  · rw [hd] at hx
    obtain ⟨hplace, hlt, hle, htask⟩ := h.born r x hx
    exact ⟨hplace.trans_le hgrows, hsize.symm ▸ hlt, hle.trans hnow,
      fun t ht => htask t (htasks _ _ ht)⟩
  · rw [hd]
    exact h.once r
  · rw [hdirect, h.untouched r (hgrows.trans hr), if_neg (Nat.not_lt.2 (hgrows.trans hr))]
    rfl
  · have hsame : unfinished r ((f, d) :: past) = unfinished r past := by
      simp only [unfinished, hd, ho]
    rw [h.units_entered, hdirect, hsame]
    omega

theorem Dispatched.next (h : Dispatched f past) (hn : (f.next b).1 = some t)
    (hplace : t.load.place < f.loads.states.size) (hnone : outcome f.tasks.size past = none)
    (htasks : f'.tasks = f.tasks) (hgrows : f'.loads.states.size = f.loads.states.size)
    (hnow : f'.now = f.now) :
    Dispatched (f'.keep (.tracked t)).2 ((f, .call (.next b)) :: past) := by
  have hd : ∀ r, dispatched r ((f, .call (.next b)) :: past) =
      if t.load = r then (f.tasks.size, f.now) :: dispatched r past else dispatched r past :=
    dispatched_next hn
  have hkeep : ∀ i, (f'.keep (.tracked t)).2.task? i =
      if i = f.tasks.size then some (.tracked t) else f.task? i := fun i => by
    simp only [task?, keep, Array.getElem?_push, htasks]
    split <;> rfl
  have hsize : (f'.keep (.tracked t)).2.tasks.size = f.tasks.size + 1 := by
    simp only [keep, Array.size_push, htasks]
  have hat : t.dispatchedAt = f.now := by rw [ticket_of_next hn]
  refine ⟨fun i t' hi => ?_, fun r x hx => ?_, fun r => ?_, fun r hr => ?_, fun r => ?_⟩
  · rw [hd]
    rw [hkeep] at hi
    split at hi
    · next hlast =>
      obtain rfl := Task.tracked.inj (Option.some.inj hi)
      rw [if_pos rfl, hlast, hat]
      exact List.mem_cons_self
    · split
      · exact List.mem_cons_of_mem _ (h.kept i t' hi)
      · exact h.kept i t' hi
  · have hnew : x ∈ dispatched r past ∨ t.load = r ∧ x = (f.tasks.size, f.now) := by
      rw [hd] at hx
      split at hx
      · next hr => exact (List.mem_cons.1 hx).symm.imp_right fun hx => ⟨hr, hx⟩
      · exact .inl hx
    rw [hsize]
    change r.place < f'.loads.states.size ∧ _ ∧ x.2 ≤ f'.now ∧ _
    rw [hgrows, hnow]
    obtain hx | ⟨rfl, rfl⟩ := hnew
    · obtain ⟨hr, hlt, hle, htask⟩ := h.born r x hx
      refine ⟨hr, Nat.lt_succ_of_lt hlt, hle, fun t' ht' => htask t' ?_⟩
      rwa [hkeep, if_neg hlt.ne] at ht'
    · refine ⟨hplace, Nat.lt_succ_self _, le_rfl, fun t' ht' => ?_⟩
      rw [hkeep, if_pos rfl] at ht'
      obtain rfl := Task.tracked.inj (Option.some.inj ht')
      exact ⟨rfl, hat⟩
  · rw [hd]
    split
    · refine List.nodup_cons.2 ⟨fun hmem => ?_, h.once r⟩
      obtain ⟨x, hx, heq⟩ := List.mem_map.1 hmem
      exact (h.born r x hx).2.1.ne heq
    · exact h.once r
  · exact h.untouched r (hgrows.ge.trans hr)
  · have hdirect : direct r ((f, .call (.next b)) :: past) = direct r past := rfl
    have hunfinished : unfinished r ((f, .call (.next b)) :: past) =
        unfinished r past + if t.load = r then 1 else 0 := by
      simp only [unfinished, outcome_next, hd]
      split
      · rw [List.countP_cons, if_pos (decide_eq_true hnone)]
      · rfl
    have henters : (if r.place < f.loads.states.size
        then (f.enters r (.call (.next b))).units else 0) = if t.load = r then 1 else 0 := by
      simp only [enters, hn, Option.map_some, Option.some_inj]
      by_cases hr : t.load = r
      · rw [if_pos (hr ▸ hplace), if_pos hr, if_pos hr]
        rfl
      · rw [if_neg hr, if_neg hr]
        exact ite_self _
    rw [h.units_entered, hdirect, hunfinished, henters]
    split <;> omega

theorem Dispatched.unfinished_complete (h : Dispatched f past)
    (hi : f.task? i = some (.tracked t)) (hnone : outcome i past = none) (succeeded : Bool)
    (latency : Option Duration) (r : LoadRef) :
    unfinished r ((f, .call (.complete i succeeded latency)) :: past) +
        (if t.load = r then 1 else 0) = unfinished r past := by
  have hd : dispatched r ((f, .call (.complete i succeeded latency)) :: past) =
      dispatched r past := dispatched_of_next_none rfl r
  have hdone : outcome i ((f, .call (.complete i succeeded latency)) :: past) = some succeeded := by
    rw [outcome_complete, hnone, if_pos ⟨rfl, by rw [hi]; rfl⟩]
    rfl
  simp only [unfinished, hd]
  split
  · next hr =>
    subst hr
    have hcount := Tally.countP_update (outcome · past = none)
      (outcome · ((f, .call (.complete i succeeded latency)) :: past) = none) (h.once t.load)
      (List.mem_map_of_mem (h.kept i t hi)) fun j hj => by rw [outcome_complete_of_ne hj.symm]
    simp only [List.countP_map, hnone, hdone, decide_true, if_true, reduceCtorEq, decide_false,
      Bool.false_eq_true, if_false, Nat.add_zero] at hcount
    exact hcount
  · next hr =>
    refine List.countP_congr fun x hx => ?_
    have hne : i ≠ x.1 := fun heq => hr ((h.born r x hx).2.2.2 t (heq ▸ hi)).1
    rw [outcome_complete_of_ne hne]

theorem Dispatched.complete (h : Dispatched f past) (hi : f.task? i = some (.tracked t))
    (hc : t.completed = false) (hnone : outcome i past = none) {succeeded : Bool}
    {latency : Option Duration}
    (htasks : ∀ j, f'.task? j =
      if i = j then some (.tracked { t with completed := true }) else f.task? j)
    (hsize : f'.tasks.size = f.tasks.size) (hgrows : f'.loads.states.size = f.loads.states.size)
    (hnow : f'.now = f.now) (hplace : t.load.place < f.loads.states.size) :
    Dispatched f' ((f, .call (.complete i succeeded latency)) :: past) := by
  have hd : ∀ r, dispatched r ((f, .call (.complete i succeeded latency)) :: past) =
      dispatched r past := dispatched_of_next_none rfl
  refine ⟨fun j t' hj => ?_, fun r x hx => ?_, fun r => ?_, fun r hr => ?_, fun r => ?_⟩
  · rw [hd]
    rw [htasks] at hj
    split at hj
    · next hij =>
      obtain rfl := Task.tracked.inj (Option.some.inj hj)
      exact hij ▸ h.kept i t hi
    · exact h.kept j t' hj
  · rw [hd] at hx
    rw [hgrows, hsize, hnow]
    obtain ⟨hr, hlt, hle, htask⟩ := h.born r x hx
    refine ⟨hr, hlt, hle, fun t' ht' => ?_⟩
    rw [htasks] at ht'
    split at ht'
    · next hij =>
      obtain rfl := Task.tracked.inj (Option.some.inj ht')
      exact htask t (hij ▸ hi)
    · exact htask t' ht'
  · rw [hd]
    exact h.once r
  · exact h.untouched r (hgrows.ge.trans hr)
  · have hdirect : direct r ((f, .call (.complete i succeeded latency)) :: past) = direct r past :=
      rfl
    have hunfinished := h.unfinished_complete hi hnone succeeded latency r
    rw [h.units_entered, hdirect, enters_complete_of_open hi hc]
    by_cases hr : t.load = r
    · rw [if_pos hr] at hunfinished
      rw [if_pos (hr ▸ hplace), if_pos hr, LoadAccount.units_finished]
      omega
    · rw [if_neg hr] at hunfinished
      rw [if_neg hr, LoadAccount.units_nil, ite_self]
      omega

theorem direct_of_enters_nil (hsame : ∀ r, direct r ((f, d) :: past) = direct r past)
    (hnil : ∀ r, f.enters r d = []) (r : LoadRef) :
    direct r ((f, d) :: past) = direct r past +
      if r.place < f.loads.states.size then (f.enters r d).units else 0 := by
  rw [hsame, hnil, LoadAccount.units_nil, ite_self, Int.add_zero]

theorem dispatched_perform (h : Dispatched f past) (ha : Accounted start f past)
    (hrooted : f.Rooted c) (hd : f.Onward d) : Dispatched (f.perform d) ((f, d) :: past) := by
  obtain ⟨hgrows, -⟩ := hrooted.loads_perform hd.1
  have hnow : f.now ≤ (f.perform d).now := by
    obtain ⟨clock, heq, hle, -⟩ | ⟨r', a, hcharges, -⟩ := hrooted.perform_cases d
    · exact heq ▸ hle hd
    · exact (congrArg Clock.now hcharges.clock).ge
  have hidle : d.asks = none → d.completes = none →
      Dispatched (f.perform d) ((f, d) :: past) := fun hasks hcompletes => by
    obtain ⟨hsize, htasks⟩ := hrooted.tasks_perform hasks hcompletes
    exact h.idle hgrows hnow hsize htasks (dispatched_of_next_none (by rw [hasks]; rfl))
      (unmarked hasks hcompletes f past).outcome (direct_of_idle hasks hcompletes)
  cases d with
  | call call =>
    cases call with
    | next b =>
      cases hn : (f.next b).1 with
      | none =>
        rw [perform_next_none hn] at hgrows hnow ⊢
        have htasks : (f.next b).2.tasks = f.tasks := tasks_next ..
        refine h.idle hgrows hnow (by rw [htasks]) (fun i task hi => ?_)
          (dispatched_of_next_none hn) outcome_next
          (direct_of_enters_nil (fun _ => rfl) fun r => ?_)
        · rwa [task?, htasks] at hi
        · simp only [enters, hn, Option.map_none, reduceCtorEq, if_false]
      | some t =>
        obtain ⟨hs, hmember⟩ := hrooted.coherent.shifts_next b
        obtain ⟨rfl, x, hx, hmem⟩ := hmember t hn
        have hholds : f.Holds (.balancer t.balancer) t.load :=
          ⟨isAlive_iff.2 (.inl hd.1), x, hx, hmem⟩
        rw [perform_next_some hn]
        exact h.next hn (hrooted.placed (hrooted.listed _ _ hholds)).1
          (ha.followed.unborn _ le_rfl).1 (tasks_next ..) hs.loads.size (f.frame_next _).now
    | complete i succeeded latency =>
      change Dispatched (f.complete i succeeded latency).2 _
      obtain hi | ⟨t, hi, hc⟩ := f.done_or_open i
      · rw [complete_of_completed hi]
        exact h.idle le_rfl le_rfl rfl (fun _ _ hi => hi) (dispatched_of_next_none rfl)
          (unmarked_complete ha.followed hi succeeded latency).outcome
          (direct_of_enters_nil (fun _ => rfl) fun _ =>
            enters_complete_of_completed hi succeeded latency)
      · have hs := hrooted.coherent.shifts_complete i succeeded latency
        have hcharges := (f.mark i t).charges_finish t succeeded (latency.getD (f.elapsed t))
        rw [complete_of_open hi hc] at hs ⊢
        refine h.complete hi hc (ha.followed.outcome_eq_none hi hc) (fun j => ?_) ?_ hs.loads.size
          (congrArg Clock.now hcharges.clock) (ha.followed.of_task hi).2.2.1
        · rw [task?, tasks_finish, ← task?_mark hi]
          rfl
        · rw [tasks_finish]
          exact Array.size_modify
    | build | update | advance | set => exact hidle rfl rfl
  | adjust | resolve | hold | letGo | dropTask | dropBalancer | prune | refresh | report =>
    exact hidle rfl rfl

theorem Runs.dispatched (h : Runs Onward start past f) (hstart : start.Blank c) :
    Dispatched f past := by
  induction h with
  | start => exact hstart.dispatched
  | step d hf hd ih =>
    have hallowed := hf.mono fun _ _ hd => hd.1
    exact dispatched_perform ih (hallowed.accounted hstart) (hallowed.rooted hstart) hd

/-- The first completion of a task that is kept enters how it went and how long it took since the
task was handed out, if nothing else is said. -/
theorem Dispatched.enters_complete (h : Dispatched f past) (hfollowed : Followed f past)
    {x : Nat × Nat} (hx : x ∈ dispatched r past) (succeeded : Bool) (latency : Option Duration) :
    f.enters r (.call (.complete x.1 succeeded latency)) =
      if outcome x.1 past = none ∧ (f.task? x.1).isSome then
        LoadAccount.finished f.clock succeeded (latency.getD ⟨f.now - x.2⟩)
      else [] := by
  obtain ⟨-, -, -, htask⟩ := h.born r x hx
  cases hi : f.task? x.1 with
  | none => simp [enters, hi]
  | some task =>
    obtain ⟨t, rfl, -⟩ := hfollowed.tracked x.1 task hi
    obtain ⟨hload, hat⟩ := htask t hi
    obtain ⟨-, -, -, hcompleted, -⟩ := hfollowed.of_task hi
    cases hc : t.completed with
    | false =>
      rw [enters_complete_of_open hi hc, if_pos hload, elapsed, hat,
        if_pos ⟨hfollowed.outcome_eq_none hi hc, rfl⟩]
    | true =>
      rw [hc] at hcompleted
      rw [if_neg fun hopen => by rw [hopen.1] at hcompleted; cases hcompleted]
      refine enters_complete_of_completed (fun t' ht' => ?_) succeeded latency
      obtain rfl := Task.tracked.inj (Option.some.inj (hi.symm.trans ht'))
      exact hc

theorem penalize_answer (f : Fleet) (r : LoadRef) (latency : Duration) :
    (f.penalize r latency).1 = ((f.loads.load r).penalize f.now latency).1 := by
  rw [penalize]
  split <;> simp only [*]

theorem Runs.shown (h : Runs Onward start past f) (hstart : start.Blank c) {p : FailureSustain}
    (hp : c.failureSustain = some p) (ht : f.now + p.duration.nanos ≤ horizon)
    (hr : r.place < f.loads.states.size) :
    (entered r past).Shown p c.windows f.now ((f.sync r).loads.load r).concurrency
      fun latency => (f.penalize r latency).1 := by
  obtain ⟨e, made, l, hl, hdrives⟩ := h.drives hstart hr
  obtain ⟨hcounter, hanswers⟩ := hdrives.shown hp hl ht
  refine ⟨?_, fun latency => ?_⟩
  · change ((f.loads.update r (·.sync f.now)).load r).concurrency = _
    rw [LoadTable.load_update_self hr]
    exact hcounter
  · rw [penalize_answer]
    exact hanswers latency

/-- Once what is due has been applied, the counter of a load shows the units handed out and not
finished, directly or through the tasks of any balancers, and the weight of each penalty whose
removal lies ahead. When all tasks are finished and all removals are reached, nothing is left. A
penalty is answered with its removal, the first window boundary after its remaining time; that of a
task that fails in time is what a request held from its dispatch for the whole sustain duration
would have. -/
theorem loads_shown {p : FailureSustain} (hp : c.failureSustain = some p) (hw : 0 < c.windows) :
    (∀ (e : Endpoint) (made : Clock), ∃ l, EndpointLoad.create e c made.now = .ok l ∧
      ∀ a s, Drives ⟨made, l⟩ a s → s.clock.now + p.duration.nanos ≤ horizon →
        a.Shown p c.windows s.clock.now (s.step .sync).load.concurrency
          fun latency => (s.load.penalize s.clock.now latency).1) ∧
    (∀ start f past, start.Blank c → Runs Onward start past f →
      f.now + p.duration.nanos ≤ horizon → ∀ r : LoadRef, r.place < f.loads.states.size →
        (entered r past).Shown p c.windows f.now ((f.sync r).loads.load r).concurrency
          (fun latency => (f.penalize r latency).1) ∧
        (entered r past).units = direct r past + unfinished r past ∧
        (direct r past = 0 → (∀ x ∈ dispatched r past, (outcome x.1 past).isSome) →
          (∀ d ∈ (entered r past).removals p c.windows, d ≤ f.now) →
          ((f.sync r).loads.load r).concurrency = 0) ∧
        ∀ x ∈ dispatched r past, x.2 ≤ f.now ∧
          (∀ succeeded latency, f.enters r (.call (.complete x.1 succeeded latency)) =
            if outcome x.1 past = none ∧ (f.task? x.1).isSome then
              LoadAccount.finished f.clock succeeded (latency.getD ⟨f.now - x.2⟩)
            else []) ∧
          (p.duration.nanos ≠ 0 → f.now ≤ x.2 + p.duration.nanos →
            IsLeast {m | p.width c.windows ∣ m ∧ x.2 + p.duration.nanos < m}
              (p.removal c.windows f.now ⟨f.now - x.2⟩))) ∧
    (p.duration.nanos = 0 → ∀ now latency, p.removal c.windows now latency = now) ∧
    (p.duration.nanos ≠ 0 → ∀ now latency,
      IsLeast {m | p.width c.windows ∣ m ∧ now + (p.duration.minus latency).nanos < m}
        (p.removal c.windows now latency)) := by
  refine ⟨fun e made => ?_, fun start f past hstart h ht r hr => ?_,
    fun hz now latency => if_pos hz, fun hne now => FailureSustain.isLeast_removal hne hw now⟩
  · obtain ⟨l, hl⟩ := EndpointLoad.exists_create hw e made.now
    exact ⟨l, hl, fun a s hdrives ht => hdrives.shown hp hl ht⟩
  · have hshown := h.shown hstart hp ht hr
    have hdispatched := h.dispatched hstart
    have hbalance := hdispatched.balance r
    have hfollowed := ((h.mono fun _ _ hd => hd.1).accounted hstart).followed
    refine ⟨hshown, hbalance, fun hdirect hall hdue => hshown.eq_zero ?_ hdue, fun x hx => ?_⟩
    · have hnone : unfinished r past = 0 :=
        List.countP_eq_zero.2 fun x hx hnone => by
          have hsome := hall x hx
          rw [of_decide_eq_true hnone] at hsome
          cases hsome
      rw [hbalance, hdirect, hnone]
      rfl
    · obtain ⟨-, -, hle, htask⟩ := hdispatched.born r x hx
      exact ⟨hle, hdispatched.enters_complete hfollowed hx,
        fun hne => FailureSustain.isLeast_removal_of_dispatch hne hw hle⟩

theorem onward_set (f : Fleet) (e : Duration) : Onward f (.call (.set e)) :=
  ⟨trivial, fun _ h => by cases h; trivial⟩

theorem exists_failed (hw : 0 < c.windows) :
    ∃ (start f : Fleet) (past : List (Fleet × Deed)) (r : LoadRef) (made failed : Clock),
      start.Blank c ∧ Runs Onward start past f ∧ r.place < f.loads.states.size ∧
      f.now = 3_000_000_000 ∧ failed.now = 3_000_000_000 ∧ direct r past = 0 ∧
      dispatched r past = [(0, 0)] ∧ outcome 0 past = some false ∧ entered r past =
        (made, .acquire 1) :: LoadAccount.finished failed false (.ofSeconds 3) := by
  obtain ⟨start, hstart, hzero⟩ := exists_blank c
  obtain ⟨b, f₁, hok⟩ := exists_build hstart.directory hw
    (Strategy.selection {} .ranked) ({} : Settings).telemetry (by decide) [] [⟨1⟩]
  obtain ⟨htasks, -, hb, -, -⟩ := hstart.rooted.account?_build hok
  rw [hstart.seats] at hb
  obtain rfl : b = 0 := hb
  obtain ⟨states, hes, hsteady, hidle⟩ := hstart.steady hok nofun
  obtain ⟨hclock, hheld⟩ := hstart.rooted.rest_build hok
  obtain ⟨row, hrow, t, ⟨hn, hmem, -⟩, -⟩ := hsteady.hands
    (fun hnil => by rw [hnil] at hes; cases hes) fun r => by rw [hidle]; decide
  obtain rfl : row = states := List.mem_singleton.1 hrow
  have hempty : f₁.tasks = #[] := htasks.trans hstart.tasks
  have hunplaced : ¬ t.load.place < start.loads.states.size := by
    rw [hstart.loads]
    exact Nat.not_lt_zero _
  have hplaced₁ := hsteady.apart.place _ hmem
  have hnow₁ : f₁.now = 0 := (congrArg Clock.now hclock).trans hzero
  have hbuilt := Runs.step (.call (.build {} .ranked [] [⟨1⟩])) (@Runs.start Onward start)
    ⟨trivial, fun _ h => by cases h; trivial⟩
  rw [perform_build hok] at hbuilt
  -- the unit is handed out
  have hasked := hbuilt.step (.call (.next 0)) ⟨hheld, fun _ h => by cases h; trivial⟩
  have htask₂ := task?_keep_size (f₁.next 0).2 (.tracked t)
  have hnow₂ : ((f₁.next 0).2.keep (.tracked t)).2.now = 0 := (f₁.frame_next 0).now.trans hnow₁
  have hplaced₂ : t.load.place < ((f₁.next 0).2.keep (.tracked t)).2.loads.states.size :=
    hplaced₁.trans_le (charges_next hn).size
  rw [perform_next_some hn] at hasked
  rw [tasks_next, hempty] at htask₂
  generalize ((f₁.next 0).2.keep (.tracked t)).2 = f₂ at hasked hnow₂ htask₂ hplaced₂
  -- it is finished after a while
  have hpaused := hasked.step (.call (.set (.ofSeconds 3))) (onward_set _ _)
  have hnow₃ : (f₂.perform (.call (.set (.ofSeconds 3)))).now = 3_000_000_000 :=
    Clock.now_set (hnow₂.le.trans (by decide)) (by decide)
  have htask₃ : (f₂.perform (.call (.set (.ofSeconds 3)))).task? 0 = some (.tracked t) := htask₂
  have hplaced₃ : t.load.place < (f₂.perform (.call (.set (.ofSeconds 3)))).loads.states.size :=
    hplaced₂
  generalize f₂.perform (.call (.set (.ofSeconds 3))) = f₃ at hpaused hnow₃ htask₃ hplaced₃
  have hfailed := hpaused.step (.call (.complete 0 false none))
    ⟨trivial, fun _ h => by cases h; trivial⟩
  have hopen : t.completed = false := by rw [ticket_of_next hn]
  have hfinish := (f₃.mark 0 t).charges_finish t false (f₃.elapsed t)
  have helapsed : f₃.elapsed t = .ofSeconds 3 := by
    rw [elapsed, ticket_of_next hn, hnow₁, hnow₃]
    rfl
  have hlast : f₃.perform (.call (.complete 0 false none)) =
      (f₃.mark 0 t).finish t false (f₃.elapsed t) :=
    congrArg Prod.snd (complete_of_open htask₃ hopen false none)
  refine ⟨start, _, _, t.load, f₁.clock, f₃.clock, hstart, hfailed, ?_, ?_, hnow₃, rfl, ?_, ?_, ?_⟩
  · rw [hlast]
    exact hplaced₃.trans_le hfinish.size
  · rw [hlast]
    exact (congrArg Clock.now hfinish.clock).trans hnow₃
  · rw [dispatched_of_next_none rfl, dispatched_of_next_none rfl, dispatched_next hn, if_pos rfl,
      dispatched_of_next_none rfl, hempty, hnow₁]
    rfl
  · rw [outcome_complete, htask₃]
    rfl
  · rw [entered_of_placed hplaced₃, entered_of_placed hplaced₂, entered_of_placed hplaced₁,
      entered, if_neg hunplaced, enters_complete_of_open htask₃ hopen, if_pos rfl, Option.getD_none,
      helapsed]
    simp only [enters, hn, Option.map_some, if_true]
    rfl

/-- A task fails three seconds after it was handed out. Its penalty is there just before the
eleventh second and gone with it. -/
theorem loads_shown_of_failure :
    let c : LoadSettings := { windows := 10, failureSustain := some ⟨.ofSeconds 10, 5⟩ }
    ∃ (start f f' : Fleet) (past : List (Fleet × Deed)) (r : LoadRef), start.Blank c ∧
      Runs Onward start past f ∧ f' = f.perform (.call (.set (.ofSeconds 11))) ∧
      dispatched r past = [(0, 0)] ∧ outcome 0 past = some false ∧
      f.now = 10_999_999_999 ∧ ((f.sync r).loads.load r).concurrency = 5 ∧
      f'.now = 11_000_000_000 ∧ ((f'.sync r).loads.load r).concurrency = 0 := by
  intro c
  obtain ⟨-, hshown, -⟩ := loads_shown (c := c) (p := ⟨.ofSeconds 10, 5⟩) rfl (by decide)
  obtain ⟨start, f, past, r, made, failed, hstart, hrun, hplaced, hnow, hfailed, hdirect,
    hdispatched, houtcome, hentered⟩ := exists_failed (c := c) (by decide)
  have hunits : (entered r past).units = 0 := by
    rw [hentered]
    rfl
  have hremovals : (entered r past).removals ⟨.ofSeconds 10, 5⟩ 10 = [11_000_000_000] := by
    rw [hentered]
    change [FailureSustain.removal _ _ failed.now _] = _
    rw [hfailed]
    decide
  -- until the penalty is off, and when it is
  have hbefore := hrun.step (.call (.set ⟨10_999_999_999⟩)) (onward_set _ _)
  have hnow' : (f.perform (.call (.set ⟨10_999_999_999⟩))).now = 10_999_999_999 :=
    Clock.now_set (hnow.le.trans (by decide)) (by decide)
  have hentered' : entered r ((f, .call (.set ⟨10_999_999_999⟩)) :: past) = entered r past :=
    (entered_of_placed hplaced).trans (List.append_nil _)
  have houtcome' : outcome 0 ((f, .call (.set ⟨10_999_999_999⟩)) :: past) = some false :=
    ((unmarked rfl rfl f past).outcome 0).trans houtcome
  have hplaced' : r.place < (f.perform (.call (.set ⟨10_999_999_999⟩))).loads.states.size :=
    hplaced
  generalize f.perform (.call (.set ⟨10_999_999_999⟩)) = f' at hbefore hnow' hplaced'
  have hafter := hbefore.step (.call (.set (.ofSeconds 11))) (onward_set _ _)
  have hnow'' : (f'.perform (.call (.set (.ofSeconds 11)))).now = 11_000_000_000 :=
    Clock.now_set (hnow'.le.trans (by decide)) (by decide)
  obtain ⟨⟨hcounter, -⟩, -⟩ := hshown start f' _ hstart hbefore (hnow' ▸ by decide) r hplaced'
  obtain ⟨-, -, hcleared, -⟩ := hshown start _ _ hstart hafter (hnow'' ▸ by decide) r hplaced'
  rw [hentered', hunits, hremovals, hnow'] at hcounter
  have hdispatched' : dispatched r ((f', .call (.set (.ofSeconds 11))) ::
      (f, .call (.set ⟨10_999_999_999⟩)) :: past) = [(0, 0)] := by
    rw [dispatched_of_next_none rfl, dispatched_of_next_none rfl, hdispatched]
  refine ⟨start, f', _, _, r, hstart, hbefore, rfl, ?_, houtcome', hnow', hcounter, hnow'',
    hcleared hdirect (fun x hx => ?_) fun d hd => ?_⟩
  · rw [dispatched_of_next_none rfl, hdispatched]
  · rw [hdispatched'] at hx
    obtain rfl := List.mem_singleton.1 hx
    rw [(unmarked rfl rfl f' _).outcome, houtcome']
    rfl
  · have hlast : entered r ((f', .call (.set (.ofSeconds 11))) ::
        (f, .call (.set ⟨10_999_999_999⟩)) :: past) =
          entered r ((f, .call (.set ⟨10_999_999_999⟩)) :: past) :=
      (entered_of_placed hplaced').trans (List.append_nil _)
    rw [hlast, hentered', hremovals] at hd
    rw [hnow'', List.mem_singleton.1 hd]

end Fleet

end LeastLoad
