import LeastLoad.IndexedHeap.Basic

/-! # Checking a heap

A heap is sound when no child strictly precedes its parent and the index lists exactly the slots
of the array. `violation?` finds the first way in which it is not. -/

namespace LeastLoad

namespace IndexedHeap

inductive Violation where
  | heapOrder (parent child : Nat)
  | unindexed (slot : Nat)
  | staleIndex (slot : Nat)
  | sizeMismatch (indexed size : Nat)
deriving DecidableEq

def Violation.message : Violation → String
  | heapOrder parent child =>
    "heap order violated between parent " ++ toString parent ++ " and child " ++ toString child
  | unindexed slot => "slot " ++ toString slot ++ " is missing from the element index"
  | staleIndex slot =>
    "element index points at slot " ++ toString slot ++ " holding a different element"
  | sizeMismatch indexed size =>
    "element index tracks " ++ toString indexed ++ " slots but heap holds " ++ toString size

variable {α : Type} [DecidableEq α] [Hashable α]

/-- The first slot whose element strictly precedes its parent's. -/
def disorder? (cmp : α → α → Ordering) (q : IndexedHeap α) : Option Violation :=
  (List.range q.heap.size).findSome? fun child =>
    let parent := (child - 1) / 2
    match q.heap[parent]?, q.heap[child]? with
    | some a, some b => if 0 < child ∧ cmp a b = .gt then some (.heapOrder parent child) else none
    | _, _ => none

def stale? (q : IndexedHeap α) : Option Violation :=
  q.index.toList.findSome? fun (e, listed) =>
    (listed.find? fun pos => !(q.heap[pos]? == some e)).map .staleIndex

def indexed (q : IndexedHeap α) : Nat :=
  q.index.fold (fun n _ listed => n + listed.length) 0

def unindexed? (q : IndexedHeap α) : Option Violation :=
  (List.range q.heap.size).findSome? fun pos =>
    match q.heap[pos]? with
    | some e => if (q.slots e).contains pos then none else some (.unindexed pos)
    | none => none

/-- What is wrong with the heap, order first. -/
def violation? (cmp : α → α → Ordering) (q : IndexedHeap α) : Option Violation :=
  (q.disorder? cmp).or <| q.stale?.or <|
    if q.indexed = q.heap.size then q.unindexed? else some (.sizeMismatch q.indexed q.heap.size)

end IndexedHeap

end LeastLoad
