import LeastLoad.Proofs.Endpoint.Awaited

/-! # Tables in which what is due has been applied

Whoever looks at a load applies what is due to it first. Apart from that, looking changes nothing:
a table that others have looked at shows the same units in flight as soon as what is due is applied
to all of it. -/

namespace LeastLoad

namespace EndpointLoad

variable {l : EndpointLoad} {now : Nat} {planned : Nat → Prop}

theorem Awaited.concurrency_sync_sync (h : l.Awaited planned now) (hnow : now ≤ horizon) :
    ((l.sync now).sync now).concurrency = (l.sync now).concurrency :=
  h.sync.concurrency_sync hnow fun _ hd => hd.2

end EndpointLoad

namespace LoadTable

variable {now : Nat} {t t' t'' : LoadTable} {r : LoadRef}

/-- What is due at `now` has been applied to some loads, and nothing else has happened. -/
inductive Synced (now : Nat) (t : LoadTable) : LoadTable → Prop where
  | refl : Synced now t t
  | sync {t' : LoadTable} (r : LoadRef) :
      Synced now t t' → Synced now t (t'.update r (·.sync now))

theorem Synced.trans (h : Synced now t t') (h' : Synced now t' t'') : Synced now t t'' := by
  induction h' with
  | refl => exact h
  | sync r _ ih => exact .sync r ih

theorem Synced.size (h : Synced now t t') : t'.states.size = t.states.size := by
  induction h with
  | refl => rfl
  | sync r _ ih => exact size_update.trans ih

theorem Synced.keeps (h : Synced now t t') {p : EndpointLoad → Prop}
    (hp : ∀ l, p l → p (l.sync now)) (hr : p (t.load r)) : p (t'.load r) := by
  induction h with
  | refl => exact hr
  | sync r' _ ih =>
    rw [load_update]
    split
    · exact hp _ ih
    · exact ih

theorem Synced.endpoint (h : Synced now t t') (r : LoadRef) : t'.endpoint r = t.endpoint r :=
  h.keeps (p := (·.endpoint = t.endpoint r)) (fun _ hl => EndpointLoad.endpoint_sync.trans hl) rfl

theorem Synced.disabled (h : Synced now t t') (r : LoadRef) :
    (t'.load r).disabled = (t.load r).disabled :=
  h.keeps (p := (·.disabled = (t.load r).disabled))
    (fun _ hl => EndpointLoad.disabled_sync.trans hl) rfl

/-- The units in flight once what is due at `now` has been applied. -/
def inFlightAt (t : LoadTable) (now : Nat) (r : LoadRef) : UInt32 := ((t.load r).sync now).inFlight

theorem Synced.inFlightAt (h : Synced now t t') {planned : Nat → Prop} (hnow : now ≤ horizon)
    (hr : (t.load r).Awaited planned now) : t'.inFlightAt now r = t.inFlightAt now r := by
  have hkeep : (t'.load r).Awaited planned now ∧ t'.inFlightAt now r = t.inFlightAt now r := by
    refine h.keeps (p := fun l => l.Awaited planned now ∧
      (l.sync now).inFlight = t.inFlightAt now r) (fun l hl => ⟨?_, ?_⟩) ⟨hr, rfl⟩
    · exact hl.1.sync.mono fun _ hd => hd.1
    · rw [← hl.2, EndpointLoad.inFlight, hl.1.concurrency_sync_sync hnow]
      rfl
  exact hkeep.2

end LoadTable

end LeastLoad
