import LeastLoad.Fleet.Members

/-! # Tasks that are kept

A task changes only when it is itself completed: balancing, announcing and counting leave all tasks
as they are, and a new task is kept at a new place. -/

namespace LeastLoad

namespace Fleet

variable {f : Fleet} {i : Nat}

@[simp] theorem tasks_modifyRanking (f : Fleet) (b : Nat)
    (g : LoadTable × Ranking → LoadTable × Ranking) : (f.modifyRanking b g).tasks = f.tasks := by
  rw [modifyRanking]
  split <;> rfl

@[simp] theorem tasks_announce (f : Fleet) (r : LoadRef) (since : Nat) :
    (f.announce r since).tasks = f.tasks := by
  rw [announce]
  exact List.foldlRecOn (motive := fun f' : Fleet => f'.tasks = f.tasks) _ _ rfl
    fun _ hf _ _ => (tasks_modifyRanking ..).trans hf

@[simp] theorem tasks_penalize (f : Fleet) (r : LoadRef) (latency : Duration) :
    (f.penalize r latency).2.tasks = f.tasks := by
  rw [penalize]
  split
  · rfl
  · exact tasks_announce ..

@[simp] theorem tasks_release (f : Fleet) (r : LoadRef) (n : Int32) (latency : Duration) :
    (f.release r n latency).tasks = f.tasks :=
  tasks_announce ..

@[simp] theorem tasks_finish (f : Fleet) (t : Ticket) (succeeded : Bool) (latency : Duration) :
    (f.finish t succeeded latency).tasks = f.tasks := by
  change ((if succeeded then f else (f.penalize t.load latency).2).release t.load 1 latency).tasks =
    f.tasks
  rw [tasks_release]
  split
  · rfl
  · exact tasks_penalize ..

@[simp] theorem tasks_next (f : Fleet) (b : Nat) : (f.next b).2.tasks = f.tasks := by
  rw [next]
  split
  · rfl
  · split <;> rfl

theorem task?_keep_of_lt (hi : i < f.tasks.size) (t : Task) : (f.keep t).2.task? i = f.task? i := by
  simp only [task?, keep, Array.getElem?_push, Nat.ne_of_lt hi, if_false]

theorem task?_keep_size (f : Fleet) (t : Task) : (f.keep t).2.task? f.tasks.size = some t := by
  simp only [task?, keep, Array.getElem?_push, if_true]
  rfl

theorem lt_size_of_task? {t : Task} (h : f.task? i = some t) : i < f.tasks.size := by
  refine Nat.lt_of_not_le fun hle => ?_
  rw [task?, Array.getElem?_eq_none hle] at h
  cases h

theorem done_or_open (f : Fleet) (i : Nat) :
    (∀ t, f.task? i = some (.tracked t) → t.completed = true) ∨
      ∃ t, f.task? i = some (.tracked t) ∧ t.completed = false := by
  by_cases h : ∃ t, f.task? i = some (.tracked t) ∧ t.completed = false
  · exact .inr h
  · exact .inl fun t hi => eq_true_of_ne_false fun hc => h ⟨t, hi, hc⟩

theorem task?_complete_of_ne {t : Nat} (h : t ≠ i) (succeeded : Bool) (latency : Option Duration) :
    (f.complete t succeeded latency).2.task? i = f.task? i := by
  rw [complete]
  split
  · rfl
  · rfl
  · split
    · rfl
    · rw [task?, tasks_finish, Array.getElem?_modify, if_neg h]
      rfl

end Fleet

end LeastLoad
