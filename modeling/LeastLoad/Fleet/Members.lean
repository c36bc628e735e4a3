import LeastLoad.Fleet.Dispatch

/-! # Who balances over what

Balancers are made over the states of their endpoints and may be given other endpoints later. A
ranked balancer watches exactly its members. Endpoints whose state nobody holds any more, neither
a living balancer nor a kept task nor a reference kept outside, may be forgotten. -/

namespace LeastLoad

namespace Selection

def holds (s : Selection) (r : LoadRef) : Bool := s.members.contains r

end Selection

namespace Fleet

/-- Whether a living balancer, a kept task or a reference kept outside holds a state. -/
def isReferenced (f : Fleet) (r : LoadRef) : Bool :=
  f.held.contains r || f.tickets.any (·.load = r) ||
    (List.range f.seats.size).any fun b =>
      f.isAlive b && (f.balancer? b).any (·.selection.holds r)

def prune (f : Fleet) : Nat × Fleet :=
  match f.directory with
  | none => (0, f)
  | some d =>
    let (n, d) := d.prune f.isReferenced
    (n, { f with directory := some d })

def find? (f : Fleet) (e : Endpoint) : Option LoadRef := f.directory >>= (·.find? e)

/-- The state of an endpoint, made at first use; nothing before there is a directory. -/
def getOrCreate (f : Fleet) (e : Endpoint) : Except InvalidSetting (Option LoadRef × Fleet) :=
  match f.directory with
  | none => .ok (none, f)
  | some d => do
    let (r, d, loads) ← d.getOrCreate f.loads f.now e
    return (some r, { f with directory := some d, loads })

def resolve (f : Fleet) (es : List Endpoint) : Except InvalidSetting (List LoadRef × Fleet) :=
  match f.directory with
  | none => .ok ([], f)
  | some d => do
    let (rs, d, loads) ← d.resolve f.loads f.now es
    return (rs, { f with directory := some d, loads })

/-- The fleet that resolving endpoints comes to even if it fails at one of them. -/
def reach (f : Fleet) (es : List Endpoint) : Fleet :=
  match f.directory with
  | none => f
  | some d =>
    let (d, loads) := d.reach f.loads f.now es
    { f with directory := some d, loads }

def hold (f : Fleet) (r : LoadRef) : Fleet := { f with held := r :: f.held }

def letGo (f : Fleet) (e : Endpoint) : Fleet :=
  { f with held := f.held.filter fun r => f.loads.endpoint r ≠ e }

def watch (f : Fleet) (b : Nat) (r : LoadRef) : Fleet :=
  let live := f.liveWatchers r
  { f with watchers := f.watchers.insert r (if live.contains b then live else live ++ [b]) }

def unwatch (f : Fleet) (b : Nat) (r : LoadRef) : Fleet :=
  { f with watchers := f.watchers.insert r ((f.liveWatchers r).filter (· ≠ b)) }

def install (f : Fleet) (b : Nat) (states : List LoadRef) : Fleet :=
  match f.balancer? b with
  | none => f
  | some x =>
    match x.selection with
    | .grouped g => f.setBalancer b { x with selection := .grouped (.layout g.maxGroup states) }
    | .ranked k =>
      let departed := k.departed f.loads states
      let f := states.foldl (watch · b) f
      let f := f.setBalancer b { x with selection := .ranked (k.replace f.loads states) }
      departed.foldl (unwatch · b) f

/-- Gives a balancer new endpoints and forgets those that nobody holds then. -/
def update (f : Fleet) (b : Nat) (es : List Endpoint) : Except InvalidSetting Fleet := do
  let (states, f) ← f.resolve es
  return (f.install b states).prune.2

def refresh (f : Fleet) (b : Nat) : Fleet := f.modifyRanking b (Ranking.refresh f.now)

def seat (f : Fleet) (x : Option Balancer) : Nat × Fleet :=
  (f.seats.size, { f with seats := f.seats.push { balancer := x } })

/-- Publishes the series of a balancer, if there is a registry; names already taken are left
alone. -/
def publish (f : Fleet) (b : Nat) : Fleet :=
  match f.registry, f.balancer? b with
  | some registry, some x =>
    { f with registry := some (registry.register b x.telemetry.series).2 }
  | _, _ => f

def build (f : Fleet) (selection : Selection) (settings : TelemetrySettings)
    (listeners : List Listener) (es : List Endpoint) : Except InvalidSetting (Nat × Fleet) := do
  let telemetry ← Telemetry.create settings f.sampleSeed f.now
  let (states, f) ← f.resolve es
  let (b, f) := f.seat (some { selection, telemetry, listeners })
  return (b, (f.install b states).publish b)

/-- Makes a balancer, or answers what went wrong; states that were made before that stay. -/
def tryBuild (f : Fleet) (selection : Selection) (settings : TelemetrySettings)
    (listeners : List Listener) (es : List Endpoint) : Except InvalidSetting Nat × Fleet :=
  match f.build selection settings listeners es with
  | .ok (b, f) => (.ok b, f)
  | .error e =>
    match Telemetry.create settings f.sampleSeed f.now with
    | .error _ => (.error e, f)
    | .ok _ => (.error e, f.reach es)

def gather (f : Fleet) : List Sample :=
  (f.registry.getD {}).gather fun b => (f.balancer? b).map (·.telemetry.series)

end Fleet

end LeastLoad
