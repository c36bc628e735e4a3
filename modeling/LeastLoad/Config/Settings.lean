import LeastLoad.Endpoint.Load
import LeastLoad.Metrics.Exposition
import LeastLoad.Metrics.Telemetry

/-! # The settings of balancers -/

namespace LeastLoad

structure Settings where
  /-- The most endpoints that one scan looks at. -/
  groupSize : Nat := 64
  subStrategy : SubStrategy := .absent
  lookBackMillis : Nat := 300000
  windows : Nat := 100
  /-- Failures are not penalized when this is not set. -/
  failureSustainMillis : Option Int := none
  failureWeight : Nat := 1
  rateWindowMillis : Nat := 5000
  sampleSize : Nat := 64
  /-- What the names of published series start with. -/
  stem : String := Exposition.defaultStem
deriving DecidableEq

namespace Settings

def validate (s : Settings) : Except InvalidSetting Unit :=
  if s.groupSize = 0 then .error (.groupSize s.groupSize)
  else if s.windows = 0 then .error (.windowCount s.windows)
  else
    match s.failureSustainMillis with
    | none => .ok ()
    | some ms =>
      if ms < 0 then .error (.failureSustain ms)
      else if s.failureWeight = 0 then .error (.failureWeight s.failureWeight)
      else .ok ()

def lookBack (s : Settings) : Duration := .ofMillis s.lookBackMillis

/-- The penalty for failures, if one is set and not negative. -/
def failureSustain (s : Settings) : Option FailureSustain :=
  match s.failureSustainMillis with
  | some (.ofNat ms) => some ⟨.ofMillis ms, s.failureWeight⟩
  | _ => none

def load (s : Settings) : LoadSettings :=
  { subStrategy := s.subStrategy
    lookBack := s.lookBack
    windows := s.windows
    failureSustain := s.failureSustain }

def telemetry (s : Settings) : TelemetrySettings :=
  { rateWindow := .ofMillis s.rateWindowMillis
    windows := s.windows
    sampleSize := s.sampleSize
    stem := s.stem }

end Settings

end LeastLoad
