import LeastLoad.Fleet.Loads

/-! # Handing out and finishing units of work

`next` asks a balancer for an endpoint and counts one unit on it; `complete` takes the unit off
again. A ticket counts once: only its first completion changes anything. -/

namespace LeastLoad

namespace Balancer

def take (x : Balancer) (now : Nat) (loads : LoadTable) (words : Words) :
    Option LoadRef × Balancer × LoadTable × Words :=
  match x.selection with
  | .grouped g =>
    let (choice, loads, words) := g.take now loads words
    (choice, x, loads, words)
  | .ranked k =>
    let (choice, loads, k) := Ranking.take now (loads, k)
    (choice, { x with selection := .ranked k }, loads, words)

end Balancer

namespace Fleet

def next (f : Fleet) (b : Nat) : Option Ticket × Fleet :=
  match f.balancer? b with
  | none => (none, f)
  | some x =>
    match x.take f.now f.loads f.words with
    | (none, x, loads, words) =>
      let x := { x with telemetry := x.telemetry.onExhausted }
      (none, { f with loads, words }.setBalancer b x)
    | (some r, x, loads, words) =>
      let x := { x with telemetry := x.telemetry.onRequest f.now }
      let f := ({ f with loads, words }.setBalancer b x).notify x.listeners
        (.created (loads.endpoint r))
      (some { load := r, balancer := b, dispatchedAt := f.now }, f)

/-- Takes a unit off its endpoint. A failure is penalized first; the balancer that handed out the
unit counts it and tells its listeners. -/
def finish (f : Fleet) (t : Ticket) (succeeded : Bool) (latency : Duration) : Fleet :=
  let f := if succeeded then f else (f.penalize t.load latency).2
  let f := f.release t.load 1 latency
  let f := f.modifyBalancer t.balancer fun x =>
    { x with telemetry := x.telemetry.onComplete f.now succeeded }
  f.notify ((f.balancer? t.balancer).elim [] (·.listeners))
    (.completed (f.loads.endpoint t.load) succeeded)

def elapsed (f : Fleet) (t : Ticket) : Duration := ⟨f.now - t.dispatchedAt⟩

def keep (f : Fleet) (t : Task) : Nat × Fleet :=
  (f.tasks.size, { f with tasks := f.tasks.push (some t) })

def task? (f : Fleet) (t : Nat) : Option Task := f.tasks[t]?.join

def taskEndpoint (f : Fleet) : Task → Endpoint
  | .untracked e => e
  | .tracked t => f.loads.endpoint t.load

/-- Finishes a task; without a given latency, that since its dispatch counts. The answer is whether
the completion took effect; an untracked task always says so. -/
def complete (f : Fleet) (t : Nat) (succeeded : Bool) (latency : Option Duration) :
    Option Bool × Fleet :=
  match f.task? t with
  | none => (none, f)
  | some (.untracked _) => (some true, f)
  | some (.tracked ticket) =>
    if ticket.completed then (some false, f)
    else
      let marked := some (.tracked { ticket with completed := true })
      let f := { f with tasks := f.tasks.modify t fun _ => marked }
      (some true, f.finish ticket succeeded (latency.getD (f.elapsed ticket)))

def isCompleted : Task → Bool
  | .untracked _ => false
  | .tracked t => t.completed

/-- Hands out one unit and finishes it at once; the answer is the endpoint. -/
def cycle (f : Fleet) (b : Nat) (succeeded : Bool) : Option Endpoint × Fleet :=
  match f.next b with
  | (none, f) => (none, f)
  | (some t, f) => (some (f.loads.endpoint t.load), f.finish t succeeded (f.elapsed t))

def dropTask (f : Fleet) (t : Nat) : Bool × Fleet :=
  ((f.task? t).isSome, { f with tasks := f.tasks.modify t fun _ => none })

def dropBalancer (f : Fleet) (b : Nat) : Bool × Fleet :=
  (f.isHeld b, { f with seats := f.seats.modify b fun s => { s with held := false } })

def report (f : Fleet) (b : Nat) : LoadReport × Fleet :=
  match f.balancer? b with
  | none => ({}, f)
  | some x =>
    let loads := x.selection.members.map fun r => (f.loads.load r).concurrency.toInt64
    let (report, telemetry) := x.telemetry.report f.now loads
    (report, f.setBalancer b { x with telemetry })

def taskText (f : Fleet) : Task → String
  | .untracked _ => "CompletableTask \x7b noop: true \x7d"
  | .tracked t =>
    "CompletableTask \x7b state: " ++ (f.loads.load t.load).text ++ ", dispatched_at: " ++
      toString t.dispatchedAt ++ ", completed: " ++ toString t.completed ++ " \x7d"

end Fleet

end LeastLoad
