import LeastLoad.Metrics.Exposition
import LeastLoad.Metrics.Rate
import LeastLoad.Metrics.Reservoir

/-! # What a balancer reports of itself

Three meters, a sample of loads and the published series. The published request rate follows the
meter no more often than once per rate window, and whenever a report is made. -/

namespace LeastLoad

def floatSum (xs : List Float) : Float := xs.foldl (· + ·) 0

/-- The population standard deviation over the mean, in double precision; zero when there are no
values or their mean is zero. -/
def coefficientOfVariation (values : List Int64) : Float :=
  let xs := values.map Int64.toFloat
  let n := xs.length.toUInt64.toFloat
  let mean := floatSum xs / n
  if xs.isEmpty || mean == 0 then 0
  else
    let variance := floatSum (xs.map fun x => (x - mean) * (x - mean)) / n
    variance.sqrt / mean

structure TelemetrySettings where
  rateWindow : Duration
  windows : Nat
  sampleSize : Nat
  stem : String

structure Telemetry where
  requests : RateMeter
  successes : RateMeter
  failures : RateMeter
  loads : Reservoir Int64
  publish : Throttle
  series : Exposition

structure LoadReport where
  requestRate : Float := 0
  successRate : Float := 0
  failureRate : Float := 0
  variation : Float := 0

namespace Telemetry

def create (s : TelemetrySettings) (seed : UInt64) (now : Nat) :
    Except InvalidSetting Telemetry := do
  let meter ← RateMeter.create s.rateWindow s.windows now
  return {
    requests := meter
    successes := meter
    failures := meter
    loads := { capacity := s.sampleSize, generator := Xoshiro.ofSeed seed }
    publish := Throttle.create s.rateWindow now
    series := Exposition.named s.stem }

def onRequest (t : Telemetry) (now : Nat) : Telemetry :=
  let t := { t with requests := t.requests.mark now 1, series := t.series.recordRequest }
  match t.publish.tryAcquire now with
  | (none, publish) => { t with publish }
  | (some _, publish) =>
    let requests := t.requests.settled now
    { t with
      requests
      publish
      series := { t.series with requestRate := requests.perSecond } }

def onComplete (t : Telemetry) (now : Nat) (succeeded : Bool) : Telemetry :=
  let t := { t with series := t.series.recordCompletion succeeded }
  if succeeded then { t with successes := t.successes.mark now 1 }
  else { t with failures := t.failures.mark now 1 }

def onExhausted (t : Telemetry) : Telemetry :=
  { t with series := t.series.recordExhausted }

/-- Draws a fresh sample from the loads, of which negative ones count as zero. -/
def resample (t : Telemetry) (loads : List Int64) : Telemetry :=
  { t with loads := loads.foldl (fun r x => r.sample (max x 0)) t.loads.reset }

def report (t : Telemetry) (now : Nat) (loads : List Int64) : LoadReport × Telemetry :=
  let t := t.resample loads
  let variation := coefficientOfVariation t.loads.items.toList
  let requests := t.requests.settled now
  let successes := t.successes.settled now
  let failures := t.failures.settled now
  let requestRate := requests.perSecond
  ({ requestRate
     successRate := successes.perSecond
     failureRate := failures.perSecond
     variation },
    { t with
      requests
      successes
      failures
      series := { t.series with requestRate, requestCov := variation } })

end Telemetry

end LeastLoad
