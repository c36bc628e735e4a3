import LeastLoad.Proofs.Endpoint.Load
import LeastLoad.Proofs.Expiry.Awaited

/-! # Penalties that are awaited

Whether an endpoint may be handed out depends on the penalties that have come off by then. If a
check is planned for each instant at which one comes off, applying what is due leaves nothing to be
applied again, and nothing happens before the next planned instant. -/

namespace LeastLoad

namespace EndpointLoad

variable {l l' : EndpointLoad} {now : Nat} {planned planned' : Nat → Prop}

def ready (l : EndpointLoad) (now : Nat) : Bool := (l.sync now).available

def Awaited (planned : Nat → Prop) (now : Nat) (l : EndpointLoad) : Prop :=
  ∀ p, l.penalty = some p → p.removals.Awaited planned now

theorem Awaited.of_penalty_eq (h : l.Awaited planned now) (hp : l'.penalty = l.penalty) :
    l'.Awaited planned now := by
  intro p hl
  rw [hp] at hl
  exact h p hl

theorem Awaited.of_penalty_none (h : l.penalty = none) : l.Awaited planned now := by
  intro p hp
  rw [h] at hp
  cases hp

theorem Awaited.later {later : Nat} (h : l.Awaited planned now) (hl : now ≤ later) :
    l.Awaited planned later :=
  fun p hp => (h p hp).later hl

theorem Awaited.mono (h : l.Awaited planned now) (hp : ∀ d, planned d → planned' d) :
    l.Awaited planned' now :=
  fun p hpen => (h p hpen).mono hp

theorem Awaited.exists_list (h : l.Awaited planned now) :
    ∃ ds : List Nat, (∀ d ∈ ds, planned d) ∧ l.Awaited (· ∈ ds) now := by
  cases hp : l.penalty with
  | none => exact ⟨[], nofun, .of_penalty_none hp⟩
  | some p =>
    obtain ⟨ds, hds, hsum⟩ := (h p hp).exists_list
    refine ⟨ds, hds, fun p' hp' => ?_⟩
    obtain rfl : p = p' := Option.some.inj (hp.symm.trans hp')
    exact hsum

theorem Awaited.sync (h : l.Awaited planned now) :
    (l.sync now).Awaited (fun d => planned d ∧ now < d) now := by
  cases hp : l.penalty with
  | none =>
    refine .of_penalty_none ?_
    rw [sync_of_penalty_none hp]
    exact hp
  | some p =>
    intro p' hp'
    simp only [EndpointLoad.sync, hp, Option.some.injEq] at hp'
    rw [← hp']
    exact (h p hp).flush

theorem Awaited.concurrency_sync (h : l.Awaited planned now) (hnow : now ≤ horizon)
    (hp : ∀ d, planned d → now < d) : (l.sync now).concurrency = l.concurrency := by
  cases hpen : l.penalty with
  | none => rw [sync_of_penalty_none hpen]
  | some p =>
    have hz := (h p hpen).flush_fst hnow hp
    simp only [EndpointLoad.sync, hpen, hz]
    exact Int32.add_zero _

theorem Awaited.ready_eq_available (h : l.Awaited planned now) (hnow : now ≤ horizon)
    (hp : ∀ d, planned d → now < d) : l.ready now = l.available := by
  rw [ready, available, available, disabled_sync, h.concurrency_sync hnow hp]

theorem Awaited.ready_sync (h : l.Awaited planned now) (hnow : now ≤ horizon) :
    (l.sync now).ready now = l.ready now :=
  h.sync.ready_eq_available hnow fun _ hd => hd.2

theorem Awaited.penalize (h : l.Awaited planned now) (hnow : now ≤ horizon) (latency : Duration)
    (hp : ∀ d, (l.penalize now latency).1 = some d → planned d) :
    (l.penalize now latency).2.Awaited planned now := by
  cases hpen : l.penalty with
  | none =>
    simp only [EndpointLoad.penalize, hpen]
    exact h
  | some p =>
    intro p' hp'
    simp only [EndpointLoad.penalize, hpen, Option.some.injEq, forall_eq'] at hp hp'
    rw [← hp']
    exact (h p hpen).schedule hnow _ _ hp

theorem Awaited.create {e : Endpoint} {c : LoadSettings}
    (h : EndpointLoad.create e c now = .ok l) : l.Awaited planned now := by
  obtain ⟨-, hpen, -⟩ := create_spec h
  intro p hp
  rw [hp] at hpen
  cases hf : c.failureSustain with
  | none =>
    rw [hf] at hpen
    cases hpen
  | some f =>
    rw [hf] at hpen
    cases hr : DeferredSum.create f.duration c.windows now with
    | error e =>
      simp [Penalty.create, hr, Except.map] at hpen
    | ok removals =>
      simp [Penalty.create, hr, Except.map] at hpen
      rw [← hpen]
      exact .create hr

end EndpointLoad

end LeastLoad
