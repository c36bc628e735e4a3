import LeastLoad.Expiry.Sliding

/-! # The load of one endpoint

The units in flight are a 32-bit counter that wraps. Beside it stand, if the settings ask for
them, a sliding sum that breaks ties and the penalties of failed requests, each of which adds its
weight at once and takes it off again when it is due. Due adjustments are applied by `sync`. -/

namespace LeastLoad

/-- What decides between endpoints with equally many units in flight. -/
inductive SubStrategy where
  | absent
  /-- The endpoint acquired least often within the look-back window goes first. -/
  | leastFrequency
  /-- The endpoint with the least total latency within the look-back window goes first. -/
  | leastTime
deriving DecidableEq

/-- The penalty for a failed request: so many more units in flight, for so long from dispatch. -/
structure FailureSustain where
  duration : Duration
  weight : Nat
deriving DecidableEq

structure LoadSettings where
  subStrategy : SubStrategy := .absent
  lookBack : Duration := .ofSeconds 300
  windows : Nat := 100
  failureSustain : Option FailureSustain := none
deriving DecidableEq

/-- An endpoint handle. Handles are numbered, and compared by their numbers. -/
structure Endpoint where
  number : Nat
deriving DecidableEq, Hashable

inductive TieBreak where
  | untracked
  | frequency (uses : SlidingSum)
  | latency (millis : SlidingSum)

structure Penalty where
  sustain : Duration
  weight : Int32
  /-- Takes the weights off again. -/
  removals : DeferredSum

structure EndpointLoad where
  endpoint : Endpoint
  concurrency : Int32 := 0
  disabled : Bool := false
  tieBreak : TieBreak := .untracked
  penalty : Option Penalty := none

namespace TieBreak

def create (s : LoadSettings) (now : Nat) : Except InvalidSetting TieBreak :=
  match s.subStrategy with
  | .absent => .ok .untracked
  | .leastFrequency => (SlidingSum.create s.lookBack s.windows now).map frequency
  | .leastTime => (SlidingSum.create s.lookBack s.windows now).map latency

/-- The sum as an unsigned reading; zero if nothing is tracked. -/
def reading : TieBreak → UInt64
  | untracked => 0
  | frequency s | latency s => s.reading

def sync (now : Nat) : TieBreak → TieBreak
  | untracked => untracked
  | frequency s => frequency (s.check now)
  | latency s => latency (s.check now)

/-- Sums of the same kind are compared by their readings; any others are equal. -/
def compare : TieBreak → TieBreak → Ordering
  | frequency a, frequency b | latency a, latency b => Ord.compare a.reading b.reading
  | _, _ => .eq

end TieBreak

namespace Penalty

def create (f : FailureSustain) (windows now : Nat) : Except InvalidSetting Penalty :=
  (DeferredSum.create f.duration windows now).map fun removals =>
    { sustain := f.duration, weight := Int32.ofNat (min f.weight signedMax32), removals }

end Penalty

namespace EndpointLoad

def create (endpoint : Endpoint) (s : LoadSettings) (now : Nat) :
    Except InvalidSetting EndpointLoad := do
  let tieBreak ← TieBreak.create s now
  let penalty ← s.failureSustain.mapM (Penalty.create · s.windows now)
  return { endpoint, tieBreak, penalty }

def acquire (l : EndpointLoad) (now : Nat) (n : Int32) : EndpointLoad :=
  { l with
    concurrency := l.concurrency + n
    tieBreak := match l.tieBreak with
      | .frequency uses => .frequency (uses.add now n.toInt64)
      | other => other }

/-- A latency in whole milliseconds, cut to what 63 bits hold. -/
def latencyMillis (latency : Duration) : Int64 := Int64.ofNat (min latency.millis signedMax64)

def release (l : EndpointLoad) (now : Nat) (n : Int32) (latency : Duration) : EndpointLoad :=
  { l with
    concurrency := l.concurrency - n
    tieBreak := match l.tieBreak with
      | .latency millis => .latency (millis.add now (latencyMillis latency))
      | other => other }

/-- Penalizes the endpoint for a request that failed after `latency`; the penalty ends as if the
request had been held from its dispatch for the whole sustain duration. The answer is the instant
from which it is taken off, or nothing if failures are not penalized. -/
def penalize (l : EndpointLoad) (now : Nat) (latency : Duration) : Option Nat × EndpointLoad :=
  match l.penalty with
  | none => (none, l)
  | some p =>
    let remaining := p.sustain.minus latency
    (some (p.removals.expiry now remaining),
      { l with
        concurrency := l.concurrency + p.weight
        penalty := some
          { p with removals := p.removals.schedule now (-p.weight.toInt64) remaining } })

def sync (l : EndpointLoad) (now : Nat) : EndpointLoad :=
  let l := { l with tieBreak := l.tieBreak.sync now }
  match l.penalty with
  | none => l
  | some p =>
    let (delivered, removals) := p.removals.flush now
    { l with
      concurrency := l.concurrency + delivered.toInt32
      penalty := some { p with removals } }

def setDisabled (l : EndpointLoad) (disabled : Bool) : EndpointLoad := { l with disabled }

/-- Whether the endpoint may be handed out: enabled, and its counter not driven past the largest
32-bit number. -/
def available (l : EndpointLoad) : Bool := !l.disabled && decide (0 ≤ l.concurrency)

def tieBreakValue (l : EndpointLoad) : UInt64 := l.tieBreak.reading

/-- Enabled endpoints go first, then those with fewer units in flight (read unsigned), then those
with the smaller tie-break sum. -/
def compare (a b : EndpointLoad) : Ordering :=
  (Ord.compare a.disabled b.disabled).then <|
    (Ord.compare a.concurrency.toUInt32 b.concurrency.toUInt32).then <|
      a.tieBreak.compare b.tieBreak

def text (l : EndpointLoad) : String :=
  "TaskConcurrency \x7b id: EndpointId(_), concurrency: " ++ toString l.concurrency.toInt ++
    ", disabled: " ++ toString l.disabled ++ ", tie_break: " ++ toString l.tieBreakValue.toNat ++
    " \x7d"

end EndpointLoad

end LeastLoad
