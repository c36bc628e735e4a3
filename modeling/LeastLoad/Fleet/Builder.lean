import LeastLoad.Config.Layers
import LeastLoad.Fleet.Members

/-! # Building balancers from a configuration

A builder holds a configuration, endpoints and listeners, all of which may change between builds,
and the fleet that its balancers join. They share one directory of loads, whose settings are those
of the configuration at the time when it was first needed.

What fails answers an error, and what had been made until then stays. -/

namespace LeastLoad

inductive Strategy where
  | grouped
  | ranked
deriving DecidableEq

structure Builder where
  layers : Config.Layers := {}
  endpoints : List Endpoint := []
  listeners : List Listener := []
  fleet : Fleet

def Strategy.selection (s : Settings) : Strategy → Selection
  | grouped => .grouped { maxGroup := s.groupSize }
  | ranked => .ranked {}

namespace Builder

def configure (b : Builder) (s : Config.Source) : Builder :=
  { b with layers := b.layers.apply s }

def settings (b : Builder) : Except BuildError Settings := b.layers.settings

def openDirectory (b : Builder) : Except BuildError Unit × Builder :=
  match b.fleet.directory with
  | some _ => (.ok (), b)
  | none =>
    match b.settings with
    | .error e => (.error e, b)
    | .ok s =>
      (.ok (), { b with fleet := { b.fleet with directory := some { settings := s.load } } })

def withDirectory {α : Type} (b : Builder) (act : Fleet → Except InvalidSetting α × Fleet) :
    Except BuildError α × Builder :=
  match b.openDirectory with
  | (.error e, b) => (.error e, b)
  | (.ok (), b) =>
    let (answer, fleet) := act b.fleet
    (answer.mapError .invalid, { b with fleet })

def build (b : Builder) (strategy : Strategy) : Except BuildError Nat × Builder :=
  match b.settings with
  | .error e => (.error e, b)
  | .ok s =>
    b.withDirectory (·.tryBuild (strategy.selection s) s.telemetry b.listeners b.endpoints)

/-- Takes a seat for a balancer that never hands out anything. -/
def buildVacant (b : Builder) : Nat × Builder :=
  let (place, fleet) := b.fleet.seat none
  (place, { b with fleet })

def getOrCreate (b : Builder) (e : Endpoint) : Except BuildError (Option LoadRef) × Builder :=
  b.withDirectory fun f =>
    match f.getOrCreate e with
    | .error e => (.error e, f)
    | .ok (r, f) => (.ok r, f)

def prune (b : Builder) : Except BuildError Nat × Builder :=
  b.withDirectory fun f =>
    let (n, f) := f.prune
    (.ok n, f)

end Builder

end LeastLoad
