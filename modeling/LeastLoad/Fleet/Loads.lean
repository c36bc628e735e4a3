import LeastLoad.Fleet.Basic

/-! # Changing the loads of a fleet

Whatever lowers a load, now or at a known instant, is announced to the balancers that watch it:
finished units, penalties that will come off, endpoints that are enabled again. -/

namespace LeastLoad

namespace Fleet

/-- Changes the ranking of a balancer together with the loads; other balancers have none. -/
def modifyRanking (f : Fleet) (b : Nat)
    (g : LoadTable × Ranking → LoadTable × Ranking) : Fleet :=
  match f.balancer? b with
  | some { selection := .ranked k, telemetry, listeners } =>
    let (loads, k) := g (f.loads, k)
    { f with loads }.setBalancer b { selection := .ranked k, telemetry, listeners }
  | _ => f

def liveWatchers (f : Fleet) (r : LoadRef) : List Nat :=
  (f.watchers.getD r []).filter f.isAlive

def announce (f : Fleet) (r : LoadRef) (since : Nat) : Fleet :=
  (f.liveWatchers r).foldl (fun f b =>
    f.modifyRanking b (Ranking.loadDropped f.now (f.loads.endpoint r) since)) f

def acquire (f : Fleet) (r : LoadRef) (n : Int32) : Fleet :=
  { f with loads := f.loads.update r (·.acquire f.now n) }

def release (f : Fleet) (r : LoadRef) (n : Int32) (latency : Duration) : Fleet :=
  { f with loads := f.loads.update r (·.release f.now n latency) }.announce r 0

/-- Penalizes a load, and tells from when on the penalty is off. -/
def penalize (f : Fleet) (r : LoadRef) (latency : Duration) : Option Nat × Fleet :=
  match ((f.loads.load r).penalize f.now latency).1 with
  | none => (none, f)
  | some due =>
    let loads := f.loads.update r fun l => (l.penalize f.now latency).2
    (some due, { f with loads }.announce r due)

def sync (f : Fleet) (r : LoadRef) : Fleet :=
  { f with loads := f.loads.update r (·.sync f.now) }

def setDisabled (f : Fleet) (r : LoadRef) (disabled : Bool) : Fleet :=
  let was := (f.loads.load r).disabled
  let f := { f with loads := f.loads.update r (·.setDisabled disabled) }
  if was && !disabled then f.announce r 0 else f

end Fleet

end LeastLoad
