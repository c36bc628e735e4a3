import LeastLoad.Random.Words

/-! # A choice in proportion to weights

The items stand in a row with the running totals of their weights, which stop at the largest
64-bit number. A ticket below the total belongs to the first item whose running total exceeds
it, so each item owns as many tickets as its weight. -/

namespace LeastLoad

structure Weighted (α : Type) where
  /-- The items with their running totals, each inclusive of its own weight. -/
  entries : Array (α × Nat) := #[]

namespace Weighted

variable {α : Type}

/-- The largest total. -/
def ceiling : Nat := UInt64.size - 1

def total (c : Weighted α) : Nat := c.entries.back?.elim 0 (·.2)

def add (c : Weighted α) (item : α) (weight : Nat) : Weighted α :=
  ⟨c.entries.push (item, min (c.total + weight) ceiling)⟩

def ofList (items : List (α × Nat)) : Weighted α :=
  items.foldl (fun c (item, weight) => c.add item weight) {}

def items (c : Weighted α) : List α := c.entries.toList.map (·.1)

def size (c : Weighted α) : Nat := c.entries.size

def owner? (c : Weighted α) (ticket : Nat) : Option α :=
  (c.entries.find? (ticket < ·.2)).map (·.1)

/-- Draws a ticket; nothing is drawn when the total is zero. -/
def select {σ : Type} [WordSource σ] (c : Weighted α) (s : σ) : Option α × σ :=
  if c.total = 0 then (none, s)
  else
    let (ticket, s) := Random.uniform c.total s
    (c.owner? ticket, s)

end Weighted

end LeastLoad
