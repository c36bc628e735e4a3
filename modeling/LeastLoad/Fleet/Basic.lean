import LeastLoad.Fleet.Grouping
import LeastLoad.Fleet.Listener
import LeastLoad.Fleet.Ranking
import LeastLoad.Metrics.Telemetry

/-! # A fleet of balancers over shared loads

A fleet is everything alive at one time: the clock and the random words, the table of loads with
its directory, the balancers with their listeners and reports, and the tasks handed out.

Balancers and tasks are known by their places. A balancer whose handle has been given up stays
alive while one of its tasks is kept, and hears of dropping loads while it is alive. -/

namespace LeastLoad

inductive Selection where
  | grouped (g : Grouping)
  | ranked (k : Ranking)

structure Balancer where
  selection : Selection
  telemetry : Telemetry
  listeners : List Listener := []

/-- The place of a balancer. One without a balancer never hands out anything. -/
structure Seat where
  held : Bool := true
  balancer : Option Balancer := none

structure Ticket where
  load : LoadRef
  balancer : Nat
  dispatchedAt : Nat
  completed : Bool := false
deriving DecidableEq

/-- A unit of work; an untracked one changes nothing when it is finished. -/
inductive Task where
  | untracked (e : Endpoint)
  | tracked (t : Ticket)
deriving DecidableEq

structure Fleet where
  clock : Clock
  words : Words := Words.cycling []
  /-- The seed of every sample of loads. -/
  sampleSeed : UInt64 := 0
  directory : Option Directory := none
  loads : LoadTable := {}
  /-- The balancers to be told when a load drops, in the order in which they asked. -/
  watchers : Std.HashMap LoadRef (List Nat) := {}
  seats : Array Seat := #[]
  /-- A task that has been given up leaves an empty place. -/
  tasks : Array (Option Task) := #[]
  /-- References kept outside of balancers and tasks. -/
  held : List LoadRef := []
  registry : Option Registry := none
  log : Array LogEntry := #[]

namespace Selection

/-- The member states, in the order in which their loads are reported. -/
def members : Selection → List LoadRef
  | grouped g => g.members
  | ranked k => k.queue.toList

def text : Selection → String
  | grouped g =>
    "ArrayBalancer \x7b group_size: " ++ toString g.maxGroup ++ ", groups: " ++
      toString g.sizes.length ++ " \x7d"
  | ranked k =>
    "HeapBalancer \x7b endpoints: " ++ toString k.queue.size ++ ", wakeups: " ++
      toString k.wakeups.length ++ " \x7d"

end Selection

namespace Seat

def text (s : Seat) : String := s.balancer.elim "NoopBalancer" (·.selection.text)

end Seat

namespace Task

def ticket? : Task → Option Ticket
  | untracked _ => none
  | tracked t => some t

end Task

namespace Fleet

def now (f : Fleet) : Nat := f.clock.now

def advance (f : Fleet) (d : Duration) : Fleet := { f with clock := f.clock.advance d }

def setClock (f : Fleet) (d : Duration) : Fleet := { f with clock := f.clock.set d }

/-- The balancer at a place, whether or not its handle is kept. -/
def balancer? (f : Fleet) (b : Nat) : Option Balancer := f.seats[b]? >>= (·.balancer)

def modifyBalancer (f : Fleet) (b : Nat) (g : Balancer → Balancer) : Fleet :=
  { f with seats := f.seats.modify b fun s => { s with balancer := s.balancer.map g } }

def setBalancer (f : Fleet) (b : Nat) (x : Balancer) : Fleet := f.modifyBalancer b fun _ => x

def tickets (f : Fleet) : List Ticket := f.tasks.toList.filterMap (· >>= Task.ticket?)

def isHeld (f : Fleet) (b : Nat) : Bool := f.seats[b]?.any (·.held)

def isAlive (f : Fleet) (b : Nat) : Bool := f.isHeld b || f.tickets.any (·.balancer = b)

def notify (f : Fleet) (listeners : List Listener) (event : Event) : Fleet :=
  { f with log := f.log ++ (Listener.notifyAll listeners event).toArray }

end Fleet

end LeastLoad
