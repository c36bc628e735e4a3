import LeastLoad.Proofs.Fleet.Deeds

/-! # What becomes of each task

What a run has done tells which tasks each balancer handed out and how the first completion of each
went. Of a task it is told once that it was made, and once, after that, that it was completed. -/

namespace LeastLoad

namespace Fleet

variable {f f' : Fleet} {b i : Nat} {past past' : List (Fleet × Deed)} {t : Ticket}

def Deed.completes : Deed → Option (Nat × Bool)
  | .call (.complete i succeeded _) => some (i, succeeded)
  | _ => none

def answered (b : Nat) : List (Fleet × Deed) → List Nat
  | [] => []
  | (f, d) :: past =>
    if d.asks = some b ∧ (f.next b).1.isSome then f.tasks.size :: answered b past
    else answered b past

/-- Whether the first completion of a task that was kept then succeeded. -/
def outcome (i : Nat) : List (Fleet × Deed) → Option Bool
  | [] => none
  | (f, d) :: past =>
    (outcome i past).or
      ((d.completes.filter fun x => x.1 = i ∧ (f.task? i).isSome).map (·.2))

structure Notice where
  balancer : Nat
  task : Nat
  event : Event

def notices (f : Fleet) : Deed → List Notice
  | .call (.next b) =>
    match (f.next b).1 with
    | none => []
    | some t => [⟨b, f.tasks.size, .created (f.loads.endpoint t.load)⟩]
  | .call (.complete i succeeded _) =>
    match f.task? i with
    | some (.tracked t) =>
      if t.completed then []
      else [⟨t.balancer, i, .completed (f.loads.endpoint t.load) succeeded⟩]
    | _ => []
  | _ => []

def told : List (Fleet × Deed) → List Notice
  | [] => []
  | (f, d) :: past => told past ++ f.notices d

def life (b i : Nat) (e : Endpoint) (o : Option Bool) : List Notice :=
  ⟨b, i, .created e⟩ :: (o.map fun succeeded => ⟨b, i, .completed e succeeded⟩).toList

/-- Each task is where the history has it, and what is told of it is its life so far. -/
structure Followed (f : Fleet) (past : List (Fleet × Deed)) : Prop where
  tracked : ∀ i task, f.task? i = some task →
    ∃ t, task = .tracked t ∧ i ∈ answered t.balancer past
  lives : ∀ b, ∀ i ∈ answered b past, i < f.tasks.size ∧ ∃ e,
    (told past).filter (·.task = i) = life b i e (outcome i past) ∧
      ∀ t, f.task? i = some (.tracked t) → t.balancer = b ∧
        t.load.place < f.loads.states.size ∧ f.loads.endpoint t.load = e ∧
          t.completed = (outcome i past).isSome
  unborn : ∀ i, f.tasks.size ≤ i → outcome i past = none ∧ (told past).filter (·.task = i) = []
  nodup : ∀ b, (answered b past).Nodup
  own : ∀ n ∈ told past, n.task ∈ answered n.balancer past

theorem Followed.idle (h : Followed f past) (ha : ∀ b, answered b past' = answered b past)
    (ho : ∀ i, outcome i past' = outcome i past) (ht : told past' = told past)
    (hsize : f'.tasks.size = f.tasks.size)
    (htasks : ∀ i task, f'.task? i = some task → f.task? i = some task)
    (hgrows : f.loads.states.size ≤ f'.loads.states.size)
    (hend : ∀ r : LoadRef, r.place < f.loads.states.size →
      f'.loads.endpoint r = f.loads.endpoint r) : Followed f' past' := by
  constructor
  · intro i task hi
    obtain ⟨t, htask, hmem⟩ := h.tracked i task (htasks i task hi)
    exact ⟨t, htask, by rwa [ha]⟩
  · intro b i hmem
    rw [ha] at hmem
    obtain ⟨hlt, e, htold, htask⟩ := h.lives b i hmem
    rw [hsize, ht, ho]
    refine ⟨hlt, e, htold, fun t hi => ?_⟩
    obtain ⟨hb, hplace, he, hcompleted⟩ := htask t (htasks i _ hi)
    exact ⟨hb, hplace.trans_le hgrows, (hend _ hplace).trans he, hcompleted⟩
  · intro i hle
    rw [ho, ht]
    exact h.unborn i (hsize ▸ hle)
  · intro b
    rw [ha]
    exact h.nodup b
  · intro n hn
    rw [ha]
    exact h.own n (ht ▸ hn)

theorem answered_next_some (hn : (f.next b).1 = some t) (b' : Nat) :
    answered b' ((f, .call (.next b)) :: past) =
      if b = b' then f.tasks.size :: answered b' past else answered b' past := by
  by_cases hb : b = b'
  · subst hb
    simp [answered, Deed.asks, hn]
  · simp [answered, Deed.asks, hb]

theorem told_next_some (hn : (f.next b).1 = some t) (past : List (Fleet × Deed)) :
    told ((f, .call (.next b)) :: past) =
      told past ++ [⟨b, f.tasks.size, .created (f.loads.endpoint t.load)⟩] := by
  simp [told, notices, hn]

theorem outcome_next (i : Nat) : outcome i ((f, .call (.next b)) :: past) = outcome i past :=
  Option.or_none

theorem mem_answered_next_some (hn : (f.next b).1 = some t) {b' : Nat} :
    i ∈ answered b' ((f, .call (.next b)) :: past) ↔
      b = b' ∧ i = f.tasks.size ∨ i ∈ answered b' past := by
  rw [answered_next_some hn]
  split <;> simp [*]

theorem Followed.next (h : Followed f past) (hn : (f.next b).1 = some t) (hb : t.balancer = b)
    (hc : t.completed = false) (hplace : t.load.place < f.loads.states.size)
    (htasks : f'.tasks = f.tasks) (hgrows : f'.loads.states.size = f.loads.states.size)
    (hend : ∀ r, f'.loads.endpoint r = f.loads.endpoint r) :
    Followed (f'.keep (.tracked t)).2 ((f, .call (.next b)) :: past) := by
  have ha : ∀ {i b'}, i ∈ answered b' ((f, .call (.next b)) :: past) ↔
    b = b' ∧ i = f.tasks.size ∨ i ∈ answered b' past := mem_answered_next_some hn
  have ho : ∀ i, outcome i ((f, .call (.next b)) :: past) = outcome i past := outcome_next
  have ht := told_next_some hn past
  have hold : ∀ i, i ≠ f.tasks.size → (told ((f, .call (.next b)) :: past)).filter (·.task = i) =
      (told past).filter (·.task = i) := fun i hi => by
    rw [ht, List.filter_append]
    simp [hi.symm]
  have hkeep : ∀ i, (f'.keep (.tracked t)).2.task? i =
      if i = f.tasks.size then some (.tracked t) else f.task? i := fun i => by
    simp only [task?, keep, Array.getElem?_push, htasks]
    split <;> rfl
  have hsize : (f'.keep (.tracked t)).2.tasks.size = f.tasks.size + 1 := by
    simp only [keep, Array.size_push, htasks]
  obtain ⟨hnone, hnil⟩ := h.unborn f.tasks.size le_rfl
  constructor
  · intro i task hi
    rw [hkeep] at hi
    split at hi
    · next hlast =>
      obtain rfl := Option.some.inj hi
      exact ⟨t, rfl, ha.2 (.inl ⟨hb.symm, hlast⟩)⟩
    · obtain ⟨t', htask, hmem⟩ := h.tracked i task hi
      exact ⟨t', htask, ha.2 (.inr hmem)⟩
  · intro b' i hmem
    rw [hsize, ho]
    obtain ⟨rfl, rfl⟩ | hmem := ha.1 hmem
    · refine ⟨Nat.lt_succ_self _, f.loads.endpoint t.load, ?_, fun t' hi => ?_⟩
      · rw [ht, List.filter_append, hnil, hnone]
        simp [life]
      · rw [hkeep, if_pos rfl] at hi
        obtain rfl := Task.tracked.inj (Option.some.inj hi)
        exact ⟨hb, hgrows.ge.trans_lt' hplace, hend _, by rw [hc, hnone]; rfl⟩
    · obtain ⟨hlt, e, htold, htask⟩ := h.lives b' i hmem
      refine ⟨Nat.lt_succ_of_lt hlt, e, (hold i hlt.ne).trans htold, fun t' hi => ?_⟩
      rw [hkeep, if_neg hlt.ne] at hi
      obtain ⟨hb', hplace', he, hcompleted⟩ := htask t' hi
      exact ⟨hb', hgrows.ge.trans_lt' hplace', (hend _).trans he, hcompleted⟩
  · intro i hle
    rw [hsize] at hle
    rw [ho, hold i (Nat.lt_of_succ_le hle).ne']
    exact h.unborn i (Nat.le_of_succ_le hle)
  · intro b'
    rw [answered_next_some hn]
    split
    · exact List.nodup_cons.2 ⟨fun hmem => (h.lives b' _ hmem).1.false, h.nodup b'⟩
    · exact h.nodup b'
  · intro n hmem
    rw [ht] at hmem
    rcases List.mem_append.1 hmem with hmem | hmem
    · exact ha.2 (.inr (h.own n hmem))
    · obtain rfl := List.mem_singleton.1 hmem
      exact ha.2 (.inl ⟨rfl, rfl⟩)

variable {succeeded : Bool} {latency : Option Duration}

theorem outcome_complete {j : Nat} :
    outcome j ((f, .call (.complete i succeeded latency)) :: past) =
    (outcome j past).or (if i = j ∧ (f.task? j).isSome then some succeeded else none) := by
  rw [outcome]
  congr 1
  by_cases h : i = j ∧ (f.task? j).isSome = true <;> simp [Deed.completes, Option.filter, h]

theorem told_complete (hi : f.task? i = some (.tracked t)) (hc : t.completed = false)
    (succeeded : Bool) (latency : Option Duration) (past : List (Fleet × Deed)) :
    told ((f, .call (.complete i succeeded latency)) :: past) = told past ++
      [⟨t.balancer, i, .completed (f.loads.endpoint t.load) succeeded⟩] := by
  simp [told, notices, hi, hc]

theorem answered_complete (b : Nat) :
    answered b ((f, .call (.complete i succeeded latency)) :: past) = answered b past := by
  simp [answered, Deed.asks]

theorem outcome_complete_of_ne {j : Nat} (h : i ≠ j) :
    outcome j ((f, .call (.complete i succeeded latency)) :: past) = outcome j past := by
  rw [outcome_complete, if_neg fun hij => h hij.1, Option.or_none]

theorem Followed.of_task (h : Followed f past) (hi : f.task? i = some (.tracked t)) :
    i ∈ answered t.balancer past ∧ i < f.tasks.size ∧ t.load.place < f.loads.states.size ∧
      t.completed = (outcome i past).isSome ∧
      (told past).filter (·.task = i) =
        life t.balancer i (f.loads.endpoint t.load) (outcome i past) := by
  obtain ⟨t', heq, hmem⟩ := h.tracked i _ hi
  obtain rfl := Task.tracked.inj heq
  obtain ⟨hlt, e, htold, htask⟩ := h.lives t.balancer i hmem
  obtain ⟨-, hplace, rfl, hcompleted⟩ := htask t hi
  exact ⟨hmem, hlt, hplace, hcompleted, htold⟩

theorem Followed.outcome_eq_none (h : Followed f past) (hi : f.task? i = some (.tracked t))
    (hc : t.completed = false) : outcome i past = none := by
  obtain ⟨-, -, -, hcompleted, -⟩ := h.of_task hi
  rw [hc] at hcompleted
  exact Option.isNone_iff_eq_none.1 (Option.isSome_eq_false_iff.1 hcompleted.symm)

theorem Followed.complete (h : Followed f past) (hi : f.task? i = some (.tracked t))
    (hc : t.completed = false)
    (htasks : ∀ j, f'.task? j =
      if i = j then some (.tracked { t with completed := true }) else f.task? j)
    (hsize : f'.tasks.size = f.tasks.size)
    (hgrows : f'.loads.states.size = f.loads.states.size)
    (hend : ∀ r, f'.loads.endpoint r = f.loads.endpoint r) :
    Followed f' ((f, .call (.complete i succeeded latency)) :: past) := by
  obtain ⟨hmem, hlt, hplace, -, htold⟩ := h.of_task hi
  have hnone := h.outcome_eq_none hi hc
  have ht := told_complete hi hc succeeded latency past
  have ho : outcome i ((f, .call (.complete i succeeded latency)) :: past) = some succeeded := by
    rw [outcome_complete, hnone, if_pos ⟨rfl, by rw [hi]; rfl⟩]
    rfl
  have hold : ∀ j, i ≠ j →
      (told ((f, .call (.complete i succeeded latency)) :: past)).filter (·.task = j) =
        (told past).filter (·.task = j) := fun j hj => by
    rw [ht, List.filter_append]
    simp [hj]
  constructor
  · intro j task hj
    simp only [answered_complete]
    rw [htasks] at hj
    split at hj
    · next hij =>
      obtain rfl := Option.some.inj hj
      exact ⟨_, rfl, hij ▸ hmem⟩
    · exact h.tracked j task hj
  · intro b j hj
    rw [answered_complete] at hj
    rw [hsize]
    obtain ⟨hltj, e, htoldj, htask⟩ := h.lives b j hj
    by_cases hij : i = j
    · subst hij
      obtain ⟨rfl, -, rfl, -⟩ := htask t hi
      refine ⟨hlt, f.loads.endpoint t.load, ?_, fun t' ht' => ?_⟩
      · rw [ht, List.filter_append, htold, hnone, ho]
        simp [life]
      · rw [htasks, if_pos rfl] at ht'
        obtain rfl := Task.tracked.inj (Option.some.inj ht')
        exact ⟨rfl, hgrows.ge.trans_lt' hplace, hend _, by rw [ho]; rfl⟩
    · rw [hold j hij, outcome_complete_of_ne hij]
      refine ⟨hltj, e, htoldj, fun t' ht' => ?_⟩
      rw [htasks, if_neg hij] at ht'
      obtain ⟨hb, hplace', he, hcompleted⟩ := htask t' ht'
      exact ⟨hb, hgrows.ge.trans_lt' hplace', (hend _).trans he, hcompleted⟩
  · intro j hle
    rw [hsize] at hle
    have hij : i ≠ j := (hlt.trans_le hle).ne
    rw [hold j hij, outcome_complete_of_ne hij]
    exact h.unborn j hle
  · intro b
    rw [answered_complete]
    exact h.nodup b
  · intro n hn
    rw [answered_complete]
    rw [ht] at hn
    rcases List.mem_append.1 hn with hn | hn
    · exact h.own n hn
    · obtain rfl := List.mem_singleton.1 hn
      exact hmem

end Fleet

end LeastLoad
