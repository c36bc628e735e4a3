import LeastLoad.Random.Xoshiro

/-! # A sample of fixed size from a stream

The first items fill the sample. Each later item draws one of the positions seen so far and
replaces the item there, if the position lies in the sample. -/

namespace LeastLoad

structure Reservoir (α : Type) where
  capacity : Nat
  /-- Items offered since the last reset. -/
  seen : Nat := 0
  items : Array α := #[]
  generator : Xoshiro

namespace Reservoir

variable {α : Type}

def hasRoom (r : Reservoir α) : Bool := r.items.size < r.capacity

def keep (r : Reservoir α) (x : α) : Reservoir α :=
  { r with seen := r.seen + 1, items := r.items.push x }

def replace (r : Reservoir α) (slot : Nat) (x : α) : Reservoir α :=
  { r with seen := r.seen + 1, items := r.items.setIfInBounds slot x }

def sample (r : Reservoir α) (x : α) : Reservoir α :=
  if r.hasRoom then r.keep x
  else
    let (slot, generator) := Random.uniform (r.seen + 1) r.generator
    { r.replace slot x with generator }

def reset (r : Reservoir α) : Reservoir α := { r with seen := 0, items := #[] }

end Reservoir

end LeastLoad
