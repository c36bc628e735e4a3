import LeastLoad.Choice.Partition
import LeastLoad.Choice.Weighted
import LeastLoad.Endpoint.Directory

/-! # Endpoints in groups, one of which is scanned

The endpoints are divided evenly into groups of limited size. A choice draws a group in proportion
to its size and a place in it, and takes the first least loaded available endpoint of the group in
cyclic order from that place. -/

namespace LeastLoad

structure Grouping where
  maxGroup : Nat
  groups : Weighted (List LoadRef) := {}

namespace Grouping

def layout (maxGroup : Nat) (states : List LoadRef) : Grouping :=
  let spans := partition states.length maxGroup
  { maxGroup, groups := Weighted.ofList (spans.map fun s => (s.slice states, s.size)) }

def members (g : Grouping) : List LoadRef := g.groups.items.flatten

def sizes (g : Grouping) : List Nat := g.groups.items.map List.length

/-- Looks at one more candidate: applies what is due to it, and prefers it to the best so far if
it is available and strictly less loaded. -/
def consider (now : Nat) (s : Option LoadRef × LoadTable) (r : LoadRef) :
    Option LoadRef × LoadTable :=
  let loads := s.2.update r (·.sync now)
  if (loads.load r).available then
    match s.1 with
    | none => (some r, loads)
    | some best => (some (if loads.compare r best = .lt then r else best), loads)
  else (s.1, loads)

/-- The least loaded available candidate; of several, the first. -/
def leastLoaded (now : Nat) (loads : LoadTable) (candidates : List LoadRef) :
    Option LoadRef × LoadTable :=
  candidates.foldl (consider now) (none, loads)

/-- Draws a group and a place in it, and hands one unit to the endpoint found. -/
def take (now : Nat) (g : Grouping) (loads : LoadTable) (words : Words) :
    Option LoadRef × LoadTable × Words :=
  match g.groups.select words with
  | (none, words) => (none, loads, words)
  | (some group, words) =>
    let (start, words) := Random.uniform group.length words
    match leastLoaded now loads (group.rotateLeft start) with
    | (none, loads) => (none, loads, words)
    | (some r, loads) => (some r, loads.update r (·.acquire now 1), words)

end Grouping

end LeastLoad
