import LeastLoad.Proofs.Fleet.Calm
import LeastLoad.Proofs.Fleet.Followed
import LeastLoad.Proofs.Fleet.Records

/-! # Every task is accounted once

A task's later completions are refused and change nothing; the counters of a balancer are those of
what a run has done; and its listeners have been called for each of its tasks once when it was
handed out and once when it was first completed. -/

namespace LeastLoad

namespace Fleet

variable {f f' start : Fleet} {b i : Nat} {c : LoadSettings} {past past' : List (Fleet × Deed)}
  {d : Deed} {g : Tally → Tally} {t : Ticket}

def refused (b : Nat) : List (Fleet × Deed) → Nat
  | [] => 0
  | (f, d) :: past =>
    if d.asks = some b ∧ (f.next b).1.isNone then refused b past + 1 else refused b past

def engaged (f : Fleet) (b : Nat) : Deed → Option (List Listener)
  | .call (.build s strategy listeners es) =>
    match f.build (strategy.selection s) s.telemetry listeners es with
    | .ok (b', _) => if b' = b then some listeners else none
    | .error _ => none
  | _ => none

def audience (b : Nat) : List (Fleet × Deed) → List Listener
  | [] => []
  | (f, d) :: past => (f.engaged b d).getD (audience b past)

def calls (past : List (Fleet × Deed)) (n : Notice) : List LogEntry :=
  Listener.notifyAll (audience n.balancer past) n.event

def tallyOf (b : Nat) (past : List (Fleet × Deed)) : Tally :=
  .of (answered b past) (refused b past) (outcome · past)

structure Counted (f : Fleet) (past : List (Fleet × Deed)) : Prop where
  accounts : ∀ b, b < f.seats.size → f.account? b = some (tallyOf b past, audience b past)
  seated : ∀ b, f.seats.size ≤ b →
    answered b past = [] ∧ refused b past = 0 ∧ audience b past = []

def Logged (start f : Fleet) (past : List (Fleet × Deed)) : Prop :=
  f.log.toList = start.log.toList ++ (told past).flatMap (calls past)

theorem Records.task? {events : List Event} (h : Records b g events f f') (i : Nat) :
    f'.task? i = f.task? i := by
  rw [Fleet.task?, h.tasks]
  rfl

theorem Counted.listeners (h : Counted f past) (hb : b < f.seats.size) :
    f.listeners b = audience b past := by
  rw [Fleet.listeners, h.accounts b hb]
  rfl

theorem Counted.records (h : Counted f past) {events : List Event} (hb : b < f.seats.size)
    (hr : Records b g events f f') (hl : ∀ b', audience b' past' = audience b' past)
    (hother : ∀ b', b' ≠ b →
      answered b' past' = answered b' past ∧ refused b' past' = refused b' past)
    (htally : ∀ b', tallyOf b' past' = if b = b' then g (tallyOf b' past) else tallyOf b' past) :
    Counted f' past' := by
  refine ⟨fun b' hlt => ?_, fun b' hle => ?_⟩
  · rw [hr.places] at hlt
    rw [hr.accounts, h.accounts b' hlt, htally, hl]
    split <;> rfl
  · rw [hr.places] at hle
    obtain ⟨ha, hn⟩ := hother b' (hb.trans_le hle).ne'
    rw [ha, hn, hl]
    exact h.seated b' hle

theorem Logged.records (h : Logged start f past) (ns : List Notice)
    (hb : f.listeners b = audience b past)
    (hr : Records b g (ns.map (·.event)) f f') (hl : ∀ b', audience b' past' = audience b' past)
    (hns : ∀ n ∈ ns, n.balancer = b) (ht : told past' = told past ++ ns) :
    Logged start f' past' := by
  have hcalls : calls past' = calls past := by
    funext n
    rw [calls, calls, hl]
  have hnew : (ns.map (·.event)).flatMap (Listener.notifyAll (f.listeners b)) =
      ns.flatMap (calls past) := by
    rw [List.flatMap_map]
    refine List.flatMap_congr fun n hn => ?_
    rw [calls, hns n hn, hb]
  rw [Logged, hr.log, h, ht, hcalls, hnew, List.flatMap_append, List.append_assoc]

theorem refused_next_some (hn : (f.next b).1 = some t) (b' : Nat) :
    refused b' ((f, .call (.next b)) :: past) = refused b' past := by
  by_cases hb : b = b'
  · subst hb
    simp [refused, Deed.asks, hn]
  · simp [refused, Deed.asks, hb]

theorem refused_complete (b : Nat) :
    refused b ((f, .call (.complete i succeeded latency)) :: past) = refused b past := by
  simp [refused, Deed.asks]

/-- Tasks, counters and the log are those of the history. -/
structure Accounted (start f : Fleet) (past : List (Fleet × Deed)) : Prop where
  followed : Followed f past
  counted : Counted f past
  logged : Logged start f past

/-- A deed that hands out nothing, completes nothing and tells nobody. -/
structure Unmarked (d : Deed) (f : Fleet) (past : List (Fleet × Deed)) : Prop where
  answered : ∀ b, answered b ((f, d) :: past) = answered b past
  refused : ∀ b, refused b ((f, d) :: past) = refused b past
  outcome : ∀ i, outcome i ((f, d) :: past) = outcome i past
  told : told ((f, d) :: past) = told past

/-- Nothing has happened but that tasks may have been given up. -/
structure Idle (f f' : Fleet) : Prop where
  size : f'.tasks.size = f.tasks.size
  tasks : ∀ i task, f'.task? i = some task → f.task? i = some task
  places : f'.seats.size = f.seats.size
  accounts : ∀ b, f'.account? b = f.account? b
  log : f'.log = f.log

theorem Quiet.idle (h : Quiet f f') : Idle f f' := by
  refine ⟨by rw [h.tasks], fun i task hi => ?_, h.places, h.accounts, h.log⟩
  rwa [task?, h.tasks] at hi

theorem Accounted.idle (h : Accounted start f past) (hd : Unmarked d f past)
    (hl : ∀ b, audience b ((f, d) :: past) = audience b past) (hi : Idle f f')
    (hgrows : f.loads.states.size ≤ f'.loads.states.size)
    (hend : ∀ r : LoadRef, r.place < f.loads.states.size →
      f'.loads.endpoint r = f.loads.endpoint r) :
    Accounted start f' ((f, d) :: past) := by
  refine ⟨h.followed.idle hd.answered hd.outcome hd.told hi.size hi.tasks hgrows hend,
    ⟨fun b hlt => ?_, fun b hle => ?_⟩, ?_⟩
  · rw [hi.places] at hlt
    rw [hi.accounts, h.counted.accounts b hlt, hl]
    simp only [tallyOf, hd.answered, hd.refused, hd.outcome]
  · rw [hd.answered, hd.refused, hl]
    exact h.counted.seated b (hi.places ▸ hle)
  · have hcalls : calls ((f, d) :: past) = calls past := by
      funext n
      rw [calls, calls, hl]
    rw [Logged, hi.log, hd.told, hcalls]
    exact h.logged

theorem unmarked (hasks : d.asks = none) (hcompletes : d.completes = none) (f : Fleet)
    (past : List (Fleet × Deed)) : Unmarked d f past := by
  refine ⟨fun b => by simp [answered, hasks], fun b => by simp [refused, hasks],
    fun i => by simp [outcome, hcompletes], ?_⟩
  have hnil : f.notices d = [] := by
    cases d with
    | call call =>
      cases call with
      | next b => cases hasks
      | complete i succeeded latency => cases hcompletes
      | _ => rfl
    | _ => rfl
  rw [told, hnil, List.append_nil]

theorem idle_dropTask (f : Fleet) (i : Nat) : Idle f (f.dropTask i).2 := by
  refine ⟨by simp [dropTask], fun j task hj => ?_, rfl, fun _ => rfl, rfl⟩
  simp only [dropTask, task?, Array.getElem?_modify] at hj ⊢
  split at hj
  · cases hget : f.tasks[j]? <;> rw [hget] at hj <;> cases hj
  · exact hj

theorem idle_adjust (f : Fleet) (r : LoadRef) (a : Adjustment) : Idle f (f.adjust r a) := by
  cases a with
  | acquire n => exact (f.quiet_loads _ f.words).idle
  | release n latency => exact (f.quiet_release r n latency).idle
  | penalize latency => exact (f.quiet_penalize r latency).idle
  | sync => exact (f.quiet_loads _ f.words).idle
  | disable disabled => exact (f.quiet_setDisabled r disabled).idle

theorem idle_resolve (h : f.Rooted c) (es : List Endpoint) : Idle f (f.perform (.resolve es)) := by
  simp only [perform]
  cases hok : f.resolve es with
  | error e => exact Quiet.refl.idle
  | ok x => exact (h.resolve hok).quiet.idle

theorem idle_hold (h : f.Rooted c) (e : Endpoint) : Idle f (f.perform (.hold e)) := by
  simp only [perform]
  cases hok : f.getOrCreate e with
  | error e => exact Quiet.refl.idle
  | ok x =>
    obtain ⟨found, f'⟩ := x
    have hq := (h.resolve (resolve_of_getOrCreate hok)).quiet
    cases found with
    | none => exact hq.idle
    | some r =>
      have hhold : Quiet f' (f'.hold r) := ⟨rfl, rfl, fun _ => rfl, rfl⟩
      exact (hq.trans hhold).idle

theorem idle_update (h : f.Rooted c) (b : Nat) (es : List Endpoint) :
    Idle f (f.perform (.call (.update b es))) := by
  simp only [perform, apply]
  cases hok : f.update b es with
  | error e => exact Quiet.refl.idle
  | ok f' => exact (h.quiet_update hok).idle

theorem Accounted.balancer_lt (h : Accounted start f past) {n : Notice} (hn : n ∈ told past) :
    n.balancer < f.seats.size := by
  refine Nat.lt_of_not_le fun hle => ?_
  have hmem := h.followed.own n hn
  rw [(h.counted.seated _ hle).1] at hmem
  cases hmem

theorem accounted_build {s : Settings} {strategy : Strategy} {listeners : List Listener}
    {es : List Endpoint} (h : Accounted start f past) (hrooted : f.Rooted c)
    (hok : f.build (strategy.selection s) s.telemetry listeners es = .ok (b, f')) :
    Accounted start f' ((f, .call (.build s strategy listeners es)) :: past) := by
  obtain ⟨htasks, hlog, rfl, hsize, haccounts⟩ := hrooted.account?_build hok
  obtain ⟨hgrows, hend⟩ :=
    hrooted.loads_perform (d := .call (.build s strategy listeners es)) trivial
  rw [perform_build hok] at hgrows hend
  have hd : Unmarked (.call (.build s strategy listeners es)) f past := unmarked rfl rfl f past
  have hl : ∀ b, audience b ((f, .call (.build s strategy listeners es)) :: past) =
      if b = f.seats.size then listeners else audience b past := fun b => by
    simp only [audience, engaged, hok, eq_comm (a := b)]
    split <;> rfl
  refine ⟨h.followed.idle hd.answered hd.outcome hd.told (by rw [htasks]) (fun i task hi => ?_)
    hgrows hend, ⟨fun b hlt => ?_, fun b hle => ?_⟩, ?_⟩
  · rwa [task?, htasks] at hi
  · rw [haccounts, hl]
    simp only [tallyOf, hd.answered, hd.refused, hd.outcome]
    split
    · next hb =>
      obtain ⟨hnone, hzero, -⟩ := h.counted.seated b hb.ge
      rw [hnone, hzero]
      rfl
    · exact h.counted.accounts b (by omega)
  · rw [hsize] at hle
    rw [hd.answered, hd.refused, hl, if_neg (by omega)]
    exact h.counted.seated b (by omega)
  · rw [Logged, hlog, hd.told, h.logged]
    refine congrArg _ (List.flatMap_congr fun n hn => ?_)
    rw [calls, calls, hl, if_neg (h.balancer_lt hn).ne]

theorem accounted_next_none (h : Accounted start f past) (hrooted : f.Rooted c)
    (hb : f.isHeld b = true) (hn : (f.next b).1 = none) :
    Accounted start (f.next b).2 ((f, .call (.next b)) :: past) := by
  have hr := records_next_none hn
  have hs := (hrooted.coherent.shifts_next b).1
  have hlt := lt_size_of_isHeld hb
  have ha : ∀ b', answered b' ((f, .call (.next b)) :: past) = answered b' past := fun b' => by
    by_cases hbb : b = b'
    · subst hbb
      simp [answered, Deed.asks, hn]
    · simp [answered, Deed.asks, hbb]
  have hrefused : ∀ b', refused b' ((f, .call (.next b)) :: past) =
      if b = b' then refused b' past + 1 else refused b' past := fun b' => by
    by_cases hbb : b = b'
    · subst hbb
      simp [refused, Deed.asks, hn]
    · simp [refused, Deed.asks, hbb]
  have ht : told ((f, .call (.next b)) :: past) = told past := by simp [told, notices, hn]
  refine ⟨h.followed.idle ha outcome_next ht (by rw [hr.tasks]) (fun i task hi => ?_)
    hs.loads.size.ge fun r _ => hs.loads.endpoint r,
    h.counted.records hlt hr (fun _ => rfl) (fun b' hne => ⟨ha b', ?_⟩) fun b' => ?_,
    h.logged.records [] (h.counted.listeners hlt) hr (fun _ => rfl)
      (fun n hn' => by cases hn')
      (ht.trans (List.append_nil _).symm)⟩
  · rwa [task?, hr.tasks] at hi
  · rw [hrefused, if_neg hne.symm]
  · simp only [tallyOf, ha, hrefused, outcome_next]
    split <;> rfl

theorem accounted_next_some {t : Ticket} (h : Accounted start f past) (hrooted : f.Rooted c)
    (hb : f.isHeld b = true) (hn : (f.next b).1 = some t) :
    Accounted start ((f.next b).2.keep (.tracked t)).2 ((f, .call (.next b)) :: past) := by
  obtain ⟨hr, hc⟩ := hrooted.coherent.records_next hn
  obtain ⟨hs, hmember⟩ := hrooted.coherent.shifts_next b
  obtain ⟨rfl, x, hx, hmem⟩ := hmember t hn
  have hlt := lt_size_of_isHeld hb
  have hholds : f.Holds (.balancer t.balancer) t.load := ⟨isAlive_iff.2 (.inl hb), x, hx, hmem⟩
  have hplace := (hrooted.placed (hrooted.listed _ _ hholds)).1
  have hcounted : Counted (f.next t.balancer).2 ((f, .call (.next t.balancer)) :: past) := by
    refine h.counted.records hlt hr (fun _ => rfl)
      (fun b' hne => ⟨?_, refused_next_some hn b'⟩) fun b' => ?_
    · rw [answered_next_some hn, if_neg hne.symm]
    · simp only [tallyOf, answered_next_some hn, refused_next_some hn, outcome_next]
      split
      · exact Tally.of_cons (h.followed.unborn _ le_rfl).1
      · rfl
  have hlogged : Logged start (f.next t.balancer).2 ((f, .call (.next t.balancer)) :: past) :=
    h.logged.records [⟨t.balancer, f.tasks.size, .created (f.loads.endpoint t.load)⟩]
      (h.counted.listeners hlt) hr (fun _ => rfl) (fun n hn' => by rw [List.mem_singleton.1 hn'])
      (told_next_some hn past)
  exact ⟨h.followed.next hn rfl hc hplace hr.tasks hs.loads.size hs.loads.endpoint,
    ⟨hcounted.accounts, hcounted.seated⟩, hlogged⟩

theorem complete_of_completed (hi : ∀ t, f.task? i = some (.tracked t) → t.completed = true)
    (succeeded : Bool) (latency : Option Duration) : (f.complete i succeeded latency).2 = f := by
  rw [complete]
  split
  · rfl
  · rfl
  · next t ht => rw [if_pos (hi t ht)]

theorem unmarked_complete (h : Followed f past)
    (hi : ∀ t, f.task? i = some (.tracked t) → t.completed = true) (succeeded : Bool)
    (latency : Option Duration) : Unmarked (.call (.complete i succeeded latency)) f past := by
  refine ⟨answered_complete, refused_complete, fun j => ?_, ?_⟩
  · rw [outcome_complete]
    split
    · next hj =>
      obtain ⟨rfl, htask⟩ := hj
      obtain ⟨task, htask⟩ := Option.isSome_iff_exists.1 htask
      obtain ⟨t, rfl, -⟩ := h.tracked i task htask
      obtain ⟨-, -, -, hcompleted, -⟩ := h.of_task htask
      rw [hi t htask] at hcompleted
      obtain ⟨o, ho⟩ := Option.isSome_iff_exists.1 hcompleted.symm
      rw [ho, Option.some_or]
    · exact Option.or_none
  · rw [told, notices]
    cases htask : f.task? i with
    | none => exact List.append_nil _
    | some task =>
      cases task with
      | untracked e => exact List.append_nil _
      | tracked t => simp [hi t htask]

def mark (f : Fleet) (i : Nat) (t : Ticket) : Fleet :=
  { f with tasks := f.tasks.modify i fun _ => some (.tracked { t with completed := true }) }

theorem complete_of_open {t : Ticket} (hi : f.task? i = some (.tracked t))
    (hc : t.completed = false) (succeeded : Bool) (latency : Option Duration) :
    f.complete i succeeded latency =
      (some true, (f.mark i t).finish t succeeded (latency.getD (f.elapsed t))) := by
  rw [complete, hi]
  dsimp only
  rw [if_neg (by rw [hc]; exact Bool.false_ne_true)]
  rfl

theorem task?_mark {t : Ticket} (hi : f.task? i = some (.tracked t)) (j : Nat) :
    (f.mark i t).task? j =
      if i = j then some (.tracked { t with completed := true }) else f.task? j := by
  simp only [task?, mark, Array.getElem?_modify]
  split
  · next hij =>
    subst hij
    rw [Array.getElem?_eq_getElem (lt_size_of_task? hi)]
    rfl
  · rfl

theorem accounted_complete {t : Ticket} (h : Accounted start f past) (hrooted : f.Rooted c)
    (hi : f.task? i = some (.tracked t)) (hc : t.completed = false) (succeeded : Bool)
    (latency : Option Duration) :
    Accounted start (f.complete i succeeded latency).2
      ((f, .call (.complete i succeeded latency)) :: past) := by
  have hs := hrooted.coherent.shifts_complete i succeeded latency
  obtain ⟨hmem, -⟩ := h.followed.of_task hi
  have hlt : t.balancer < f.seats.size := by
    refine Nat.lt_of_not_le fun hle => ?_
    rw [(h.counted.seated _ hle).1] at hmem
    cases hmem
  have hnone := h.followed.outcome_eq_none hi hc
  rw [complete_of_open hi hc succeeded latency] at hs ⊢
  have hmarked : (f.mark i t).Coherent := hrooted.coherent
  have hr := hmarked.records_finish t succeeded (latency.getD (f.elapsed t))
  have ho : outcome i ((f, .call (.complete i succeeded latency)) :: past) = some succeeded := by
    rw [outcome_complete, hnone, if_pos ⟨rfl, by rw [hi]; rfl⟩]
    rfl
  refine ⟨h.followed.complete hi hc (fun j => ?_) ?_ hs.loads.size hs.loads.endpoint, ?_, ?_⟩
  · rw [hr.task?, task?_mark hi]
  · rw [hr.tasks]
    exact Array.size_modify
  · refine Counted.records (f := f.mark i t) ⟨h.counted.accounts, h.counted.seated⟩ hlt hr
      (fun _ => rfl) (fun b' _ => ⟨answered_complete b', refused_complete b'⟩) fun b' => ?_
    simp only [tallyOf, answered_complete, refused_complete]
    split
    · next hb =>
      subst hb
      exact Tally.of_complete (h.followed.nodup _) hmem hnone ho
        fun j hj => outcome_complete_of_ne hj.symm
    · next hb =>
      refine Tally.of_congr fun j hj => outcome_complete_of_ne ?_
      rintro rfl
      obtain ⟨-, e, -, htask⟩ := h.followed.lives b' i hj
      exact hb (htask t hi).1
  · exact Logged.records (f := f.mark i t) h.logged
      [⟨t.balancer, i, .completed (f.loads.endpoint t.load) succeeded⟩]
      (h.counted.listeners hlt) hr (fun _ => rfl) (fun n hn => by rw [List.mem_singleton.1 hn])
      (told_complete hi hc succeeded latency past)

theorem Rooted.idle_perform (h : f.Rooted c) (hasks : d.asks = none)
    (hcompletes : d.completes = none)
    (hbuilds : ∀ s strategy listeners es, d ≠ .call (.build s strategy listeners es)) :
    Idle f (f.perform d) := by
  cases d with
  | call call =>
    cases call with
    | build s strategy listeners es => exact absurd rfl (hbuilds s strategy listeners es)
    | next b => cases hasks
    | complete i succeeded latency => cases hcompletes
    | update b es => exact idle_update h b es
    | advance d | set d => exact Quiet.idle ⟨rfl, rfl, fun _ => rfl, rfl⟩
  | adjust r a => exact f.idle_adjust r a
  | resolve es => exact idle_resolve h es
  | hold e => exact idle_hold h e
  | letGo e => exact Quiet.idle ⟨rfl, rfl, fun _ => rfl, rfl⟩
  | dropTask t => exact f.idle_dropTask t
  | dropBalancer b => exact (f.quiet_dropBalancer b).idle
  | prune => exact f.quiet_prune.idle
  | refresh b => exact (f.quiet_modifyRanking b (Ranking.refresh f.now)).idle
  | report b => exact (f.quiet_report b).idle

theorem Rooted.tasks_perform (h : f.Rooted c) (hasks : d.asks = none)
    (hcompletes : d.completes = none) :
    (f.perform d).tasks.size = f.tasks.size ∧
      ∀ i task, (f.perform d).task? i = some task → f.task? i = some task := by
  by_cases hbuilds : ∀ s strategy listeners es, d ≠ .call (.build s strategy listeners es)
  · have hidle := h.idle_perform hasks hcompletes hbuilds
    exact ⟨hidle.size, hidle.tasks⟩
  · simp only [not_forall, not_not] at hbuilds
    obtain ⟨s, strategy, listeners, es, rfl⟩ := hbuilds
    have htasks : (f.perform (.call (.build s strategy listeners es))).tasks = f.tasks := by
      simp only [Fleet.perform, Fleet.apply]
      cases hok : f.build (strategy.selection s) s.telemetry listeners es with
      | error e => rfl
      | ok x => exact (h.account?_build hok).1
    refine ⟨by rw [htasks], fun i task hi => ?_⟩
    rwa [task?, htasks] at hi

theorem accounted_perform (h : Accounted start f past) (hrooted : f.Rooted c)
    (hd : Allowed f d) : Accounted start (f.perform d) ((f, d) :: past) := by
  obtain ⟨hgrows, hend⟩ := hrooted.loads_perform hd
  have hidle : d.asks = none → d.completes = none → (∀ b, f.engaged b d = none) →
      Idle f (f.perform d) → Accounted start (f.perform d) ((f, d) :: past) :=
    fun hasks hcompletes hengaged hi =>
      h.idle (unmarked hasks hcompletes f past) (fun b => by rw [audience, hengaged]; rfl) hi
        hgrows hend
  have hother : d.asks = none → d.completes = none → (∀ b, f.engaged b d = none) →
      (∀ s strategy listeners es, d ≠ .call (.build s strategy listeners es)) →
      Accounted start (f.perform d) ((f, d) :: past) :=
    fun hasks hcompletes hengaged hbuilds =>
      hidle hasks hcompletes hengaged (hrooted.idle_perform hasks hcompletes hbuilds)
  cases d with
  | call call =>
    cases call with
    | build s strategy listeners es =>
      cases hok : f.build (strategy.selection s) s.telemetry listeners es with
      | error e =>
        refine hidle rfl rfl (fun b => by simp only [engaged, hok]) ?_
        simp only [perform, apply, hok]
        exact Quiet.refl.idle
      | ok x =>
        rw [perform_build hok]
        exact accounted_build h hrooted hok
    | next b =>
      cases hn : (f.next b).1 with
      | none =>
        rw [perform_next_none hn]
        exact accounted_next_none h hrooted hd hn
      | some t =>
        rw [perform_next_some hn]
        exact accounted_next_some h hrooted hd hn
    | complete i succeeded latency =>
      change Accounted start (f.complete i succeeded latency).2 _
      obtain hi | ⟨t, hi, hc⟩ := f.done_or_open i
      · rw [complete_of_completed hi]
        exact h.idle (unmarked_complete h.followed hi succeeded latency) (fun _ => rfl)
          Quiet.refl.idle le_rfl fun _ _ => rfl
      · exact accounted_complete h hrooted hi hc succeeded latency
    | update | advance | set => exact hother rfl rfl (fun _ => rfl) fun _ _ _ _ hd => by cases hd
  | adjust | resolve | hold | letGo | dropTask | dropBalancer | prune | refresh | report =>
    exact hother rfl rfl (fun _ => rfl) fun _ _ _ _ hd => by cases hd

theorem Blank.accounted (h : f.Blank c) : Accounted f f [] := by
  have htask : ∀ i, f.task? i = none := fun i => by
    rw [task?, h.tasks]
    rfl
  refine ⟨⟨fun i task hi => ?_, ?_, fun _ _ => ⟨rfl, rfl⟩, fun _ => List.nodup_nil, ?_⟩,
    ⟨fun b hlt => ?_, fun _ _ => ⟨rfl, rfl, rfl⟩⟩, (List.append_nil _).symm⟩
  · rw [htask] at hi
    cases hi
  · intro b i hi
    cases hi
  · intro n hn
    cases hn
  · rw [h.seats] at hlt
    cases hlt

theorem Runs.accounted (h : Runs Allowed start past f) (hstart : start.Blank c) :
    Accounted start f past := by
  induction h with
  | start => exact hstart.accounted
  | step d hf hd ih => exact accounted_perform ih (hf.rooted hstart) hd

/-- Of the completions of a task only the first takes effect and says so. What is told of a task is
that it was made and then, once it was completed, how the first completion went; each listener is
called for each notice as if it were the only one. The counters tell the same. -/
theorem Runs.accounted_once (h : Runs Allowed start past f) (hstart : start.Blank c) :
    (∀ i succeeded latency, (f.task? i).isSome →
      (f.complete i succeeded latency).1 = some (outcome i past).isNone ∧
      ((outcome i past).isSome → (f.complete i succeeded latency).2 = f)) ∧
    (∀ b, (answered b past).Nodup ∧ ∀ i ∈ answered b past, ∃ e,
      (told past).filter (·.task = i) = life b i e (outcome i past) ∧
      ∀ t, f.task? i = some (.tracked t) → t.balancer = b ∧ f.loads.endpoint t.load = e ∧
        t.completed = (outcome i past).isSome) ∧
    (∀ n ∈ told past, n.task ∈ answered n.balancer past) ∧
    f.log.toList = start.log.toList ++ (told past).flatMap (calls past) ∧
    (∀ n p, (calls past n).filter (·.listener = p) =
      (audience n.balancer past)[p]?.elim [] (·.call p n.event)) ∧
    ∀ b < f.seats.size, ∃ tally, f.account? b = some (tally, audience b past) ∧
      tally.requests = (answered b past).length ∧ tally.exhausted = refused b past ∧
      tally.successes = (answered b past).countP (outcome · past = some true) ∧
      tally.failures = (answered b past).countP (outcome · past = some false) ∧
      tally.inflight = (answered b past).countP (outcome · past = none) ∧
      tally.inflight = tally.requests - tally.successes - tally.failures := by
  have ha := h.accounted hstart
  refine ⟨fun i succeeded latency hi => ?_, fun b => ⟨ha.followed.nodup b, fun i hi => ?_⟩,
    ha.followed.own, ha.logged, fun n p => Listener.filter_notifyAll _ _ _, fun b hb => ?_⟩
  · obtain ⟨task, hi⟩ := Option.isSome_iff_exists.1 hi
    obtain ⟨t, rfl, -⟩ := ha.followed.tracked i task hi
    obtain ⟨-, -, -, hcompleted, -⟩ := ha.followed.of_task hi
    cases hc : t.completed with
    | false =>
      rw [complete_of_open hi hc succeeded latency, ha.followed.outcome_eq_none hi hc]
      exact ⟨rfl, nofun⟩
    | true =>
      rw [hc] at hcompleted
      have hanswer : (f.complete i succeeded latency).1 = some false := by
        simp only [complete, hi, hc, if_true]
      refine ⟨?_, fun _ => complete_of_completed (fun t' ht' => ?_) succeeded latency⟩
      · rw [hanswer, ← Option.not_isSome, ← hcompleted]
        rfl
      · obtain rfl := Task.tracked.inj (Option.some.inj (hi.symm.trans ht'))
        exact hc
  · obtain ⟨-, e, htold, htask⟩ := ha.followed.lives b i hi
    refine ⟨e, htold, fun t ht => ?_⟩
    obtain ⟨hb, -, he, hcompleted⟩ := htask t ht
    exact ⟨hb, he, hcompleted⟩
  · exact ⟨_, ha.counted.accounts b hb, rfl, rfl, rfl, rfl, rfl, Tally.inflight_of⟩

/-- A task that is made and completed, and told to two listeners of which the first always
fails. -/
theorem Runs.accounted_once_of_one :
    ∃ (start f : Fleet) (past : List (Fleet × Deed)), start.Blank {} ∧ Runs Allowed start past f ∧
      answered 0 past = [0] ∧ outcome 0 past = some true ∧ (f.task? 0).isSome ∧
      audience 0 past = [{ failsOn := fun _ => true }, {}] ∧
      (∀ succeeded latency, f.complete 0 succeeded latency = (some false, f)) ∧
      (∃ e, (told past).filter (·.task = 0) = life 0 0 e (some true)) ∧
      ∃ tally, f.account? 0 = some (tally, audience 0 past) ∧ tally.requests = 1 ∧
        tally.successes = 1 ∧ tally.inflight = 0 := by
  obtain ⟨start, hstart, -⟩ := exists_blank {}
  obtain ⟨b, f, hok⟩ := exists_build hstart.directory (by decide)
    (Strategy.selection {} .ranked) ({} : Settings).telemetry (by decide)
    [{ failsOn := fun _ => true }, {}] [⟨1⟩]
  obtain ⟨htasks, -, hb, -, -⟩ := hstart.rooted.account?_build hok
  rw [hstart.seats] at hb
  obtain rfl : b = 0 := hb
  obtain ⟨states, hes, hsteady, hzero⟩ := hstart.steady hok nofun
  have hheld := (hstart.rooted.rest_build hok).2
  obtain ⟨-, -, t, ⟨hn, -, -⟩, -⟩ := hsteady.hands
    (fun hnil => by rw [hnil] at hes; cases hes) fun r => by rw [hzero]; decide
  have hcoherent := (hstart.rooted.build hok).coherent
  obtain ⟨hr, hc⟩ := hcoherent.records_next hn
  have hbuilt := Runs.step (.call (.build {} .ranked [{ failsOn := fun _ => true }, {}] [⟨1⟩]))
    (@Runs.start Allowed start) trivial
  rw [perform_build hok] at hbuilt
  have hasked := hbuilt.step (.call (.next 0)) hheld
  have hempty : f.tasks = #[] := htasks.trans hstart.tasks
  have htask : (f.perform (.call (.next 0))).task? 0 = some (.tracked t) := by
    rw [perform_next_some hn]
    simp only [keep, task?, hr.tasks, hempty]
    rfl
  have hrun := hasked.step (.call (.complete 0 true none)) trivial
  have hkept : ((f.perform (.call (.next 0))).perform (.call (.complete 0 true none))).task? 0 =
      some (.tracked { t with completed := true }) := by
    have hmarked : ((f.perform (.call (.next 0))).mark 0 t).Coherent :=
      (hasked.rooted hstart).coherent
    change ((f.perform (.call (.next 0))).complete 0 true none).2.task? 0 = _
    rw [complete_of_open htask hc true none, (hmarked.records_finish t true _).task?,
      task?_mark htask, if_pos rfl]
  generalize (f.perform (.call (.next 0))).perform (.call (.complete 0 true none)) = last
    at hrun hkept
  obtain ⟨past, hpast⟩ : ∃ past : List (Fleet × Deed), past =
      [(f.perform (.call (.next 0)), .call (.complete 0 true none)), (f, .call (.next 0)),
        (start, .call (.build {} .ranked [{ failsOn := fun _ => true }, {}] [⟨1⟩]))] := ⟨_, rfl⟩
  rw [← hpast] at hrun
  have hanswered : answered 0 past = [0] := by
    rw [hpast, answered_complete, answered_next_some hn, if_pos rfl, hempty]
    rfl
  have houtcome : outcome 0 past = some true := by
    rw [hpast, outcome_complete, htask]
    rfl
  have hheard : audience 0 past = [{ failsOn := fun _ => true }, {}] := by
    simp only [hpast, audience, engaged, hok]
    rfl
  have hseat : 0 < last.seats.size := Nat.pos_of_ne_zero fun hz => by
    rw [((hrun.accounted hstart).counted.seated 0 hz.le).1] at hanswered
    cases hanswered
  obtain ⟨hfirst, hlives, -, -, -, haccounts⟩ := hrun.accounted_once hstart
  obtain ⟨e, htold, -⟩ := (hlives 0).2 0 (by rw [hanswered]; decide)
  obtain ⟨tally, haccount, hrequests, -, hsuccesses, -, hinflight, -⟩ := haccounts 0 hseat
  rw [hanswered] at hrequests hsuccesses hinflight
  rw [houtcome] at htold
  refine ⟨start, last, past, hstart, hrun, hanswered, houtcome, by rw [hkept]; rfl, hheard,
    fun succeeded latency => ?_, ⟨e, htold⟩, tally, haccount, hrequests, ?_, ?_⟩
  · obtain ⟨hanswer, hsame⟩ := hfirst 0 succeeded latency (by rw [hkept]; rfl)
    rw [houtcome] at hanswer hsame
    exact Prod.ext hanswer (hsame rfl)
  · rw [hsuccesses, List.countP_singleton, houtcome]
    rfl
  · rw [hinflight, List.countP_singleton, houtcome]
    rfl

end Fleet

end LeastLoad
