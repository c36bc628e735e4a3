import LeastLoad.Endpoint.Directory
import LeastLoad.IndexedHeap.Basic

/-! # Endpoints ranked by live load

A ranking keeps its endpoints in a heap ordered by their present loads. A load that drops is
announced, and its entry is moved at once; a load that rises unannounced is noticed when its entry
reaches the top, which `settle` sinks until it stays. A penalty that will come off later is
remembered as a wake-up.

Every operation works on the shared table of loads and on the ranking together, since putting an
entry in its place applies the adjustments that are due to its load. -/

namespace LeastLoad

structure Wakeup where
  due : Nat
  endpoint : Endpoint
deriving DecidableEq

structure Ranking where
  queue : IndexedHeap LoadRef := .empty
  members : Std.HashMap Endpoint LoadRef := {}
  /-- In the order in which they fall due; of those due together, lower handles first. -/
  wakeups : List Wakeup := []

namespace Wakeup

def precedes (a b : Wakeup) : Bool :=
  a.due < b.due || (a.due = b.due && a.endpoint.number < b.endpoint.number)

/-- Puts a wake-up behind those that do not come after it. -/
def insertInto (w : Wakeup) : List Wakeup → List Wakeup
  | [] => [w]
  | v :: rest => if w.precedes v then w :: v :: rest else v :: w.insertInto rest

end Wakeup

namespace Ranking

/-- Applies what is due to one load and moves its entry to its place. -/
def resync (now : Nat) (s : LoadTable × Ranking) (r : LoadRef) : LoadTable × Ranking :=
  let loads := s.1.update r (·.sync now)
  (loads, { s.2 with queue := (s.2.queue.offer loads.compare r).2 })

def resift (now : Nat) (s : LoadTable × Ranking) (e : Endpoint) : LoadTable × Ranking :=
  match s.2.members[e]? with
  | some r => resync now s r
  | none => s

/-- Moves the entries whose wake-up is due, the earliest first. -/
def wake (now : Nat) (s : LoadTable × Ranking) : LoadTable × Ranking :=
  let (due, later) := s.2.wakeups.span (·.due ≤ now)
  due.foldl (fun s w => resift now s w.endpoint) (s.1, { s.2 with wakeups := later })

/-- Moves the entry at the top until it stays there, at most so many times. -/
def settleWithin (now : Nat) : Nat → LoadTable × Ranking → LoadTable × Ranking
  | 0, s => s
  | rounds + 1, s =>
    match s.2.queue.peek with
    | none => s
    | some top =>
      let s := resync now s top
      if s.2.queue.peek = some top then s else settleWithin now rounds s

def settle (now : Nat) (s : LoadTable × Ranking) : LoadTable × Ranking :=
  settleWithin now s.2.queue.size s

/-- Moves every entry, in the order of the heap array. -/
def refresh (now : Nat) (s : LoadTable × Ranking) : LoadTable × Ranking :=
  s.2.queue.toList.foldl (resync now) s

def take (now : Nat) (s : LoadTable × Ranking) : Option LoadRef × LoadTable × Ranking :=
  let s := settle now (wake now s)
  match s.2.queue.peek with
  | none => (none, s)
  | some top =>
    if (s.1.load top).available then
      let loads := s.1.update top (·.acquire now 1)
      (some top, loads, { s.2 with queue := (s.2.queue.offer loads.compare top).2 })
    else (none, s)

def loadDropped (now : Nat) (e : Endpoint) (since : Nat) (s : LoadTable × Ranking) :
    LoadTable × Ranking :=
  if s.2.members.contains e then
    let s := wake now s
    if since ≤ now then resift now s e
    else (s.1, { s.2 with wakeups := Wakeup.insertInto ⟨since, e⟩ s.2.wakeups })
  else s

def enter (loads : LoadTable) (k : Ranking) (r : LoadRef) : Ranking :=
  { k with
    queue := (k.queue.offer loads.compare r).2
    members := k.members.insert (loads.endpoint r) r }

/-- The ranking of a new set of members. The wake-ups of those that stay are kept. -/
def replace (loads : LoadTable) (k : Ranking) (states : List LoadRef) : Ranking :=
  let entered := states.foldl (enter loads) {}
  { entered with wakeups := k.wakeups.filter (entered.members.contains ·.endpoint) }

def departed (loads : LoadTable) (k : Ranking) (states : List LoadRef) : List LoadRef :=
  let staying := states.map loads.endpoint
  (k.members.toList.filter fun (e, _) => !staying.contains e).map (·.2)

end Ranking

end LeastLoad
