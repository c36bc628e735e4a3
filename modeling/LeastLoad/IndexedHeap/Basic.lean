import Std.Data.HashMap

/-! # A binary heap whose keys may change

The heap array is ordered by a comparison that every operation is given afresh, so that a key may
change while its element is queued. An index lists, for each element, the slots that hold it; it
finds an element whose key has changed (`offer`) and removes one from the middle (`remove`). An
element may be queued several times, and each occurrence has its own slot. -/

namespace LeastLoad

structure IndexedHeap (α : Type) [DecidableEq α] [Hashable α] where
  /-- The queued elements; slot `p` has its children at `2 * p + 1` and `2 * p + 2`. -/
  heap : Array α := #[]
  /-- The slots of each queued element. -/
  index : Std.HashMap α (List Nat) := {}

namespace IndexedHeap

variable {α : Type} [DecidableEq α] [Hashable α]

def empty : IndexedHeap α := {}

def size (q : IndexedHeap α) : Nat := q.heap.size

def toList (q : IndexedHeap α) : List α := q.heap.toList

def text (q : IndexedHeap α) (write : α → String) : String :=
  "[" ++ ", ".intercalate (q.toList.map write) ++ "]"

def slots (q : IndexedHeap α) (e : α) : List Nat := q.index.getD e []

def contains (q : IndexedHeap α) (e : α) : Bool := q.index.contains e

def peek (q : IndexedHeap α) : Option α := q.heap[0]?

/-- Exchanges two slots, and their entries in the index unless the same element fills both. -/
def swap (q : IndexedHeap α) (i j : Nat) (hi : i < q.heap.size) (hj : j < q.heap.size) :
    IndexedHeap α :=
  let a := q.heap[i]
  let b := q.heap[j]
  { heap := q.heap.swap i j hi hj
    index :=
      if a = b then q.index
      else (q.index.modify a (·.replace i j)).modify b (·.replace j i) }

@[simp] theorem size_swap (q : IndexedHeap α) (i j : Nat) (hi : i < q.heap.size)
    (hj : j < q.heap.size) : (q.swap i j hi hj).heap.size = q.heap.size := by
  simp [swap]

def siftUp (cmp : α → α → Ordering) (q : IndexedHeap α) (pos : Nat) : IndexedHeap α :=
  if h : 0 < pos ∧ pos < q.heap.size then
    have hp : (pos - 1) / 2 < q.heap.size := by omega
    have hc : pos < q.heap.size := h.2
    if cmp q.heap[pos] q.heap[(pos - 1) / 2] = .lt then
      siftUp cmp (q.swap pos ((pos - 1) / 2) hc hp) ((pos - 1) / 2)
    else q
  else q
termination_by pos
decreasing_by omega

/-- The child that would have to stand above its sibling: the right one only if it strictly
precedes the left one. -/
def leadingChild (cmp : α → α → Ordering) (q : IndexedHeap α) (pos : Nat)
    (h : 2 * pos + 1 < q.heap.size) : { c : Nat // pos < c ∧ c < q.heap.size } :=
  if hr : 2 * pos + 2 < q.heap.size then
    if cmp q.heap[2 * pos + 2] q.heap[2 * pos + 1] = .lt then
      ⟨2 * pos + 2, by omega, hr⟩
    else ⟨2 * pos + 1, by omega, h⟩
  else ⟨2 * pos + 1, by omega, h⟩

def sinkTo? (cmp : α → α → Ordering) (q : IndexedHeap α) (pos : Nat) :
    Option { c : Nat // pos < c ∧ c < q.heap.size } :=
  if h : 2 * pos + 1 < q.heap.size then
    let c := q.leadingChild cmp pos h
    have hc : c.1 < q.heap.size := c.2.2
    if cmp q.heap[c.1] q.heap[pos] = .lt then some c else none
  else none

def siftDown (cmp : α → α → Ordering) (q : IndexedHeap α) (pos : Nat) : IndexedHeap α :=
  match q.sinkTo? cmp pos with
  | none => q
  | some ⟨c, hc⟩ => siftDown cmp (q.swap pos c (by omega) hc.2) c
termination_by q.heap.size - pos
decreasing_by simp only [size_swap]; omega

/-- Restores the place of an element whose key has changed: down if a child has to stand above it,
up otherwise. -/
def reposition (cmp : α → α → Ordering) (q : IndexedHeap α) (pos : Nat) : IndexedHeap α :=
  if (q.sinkTo? cmp pos).isSome then q.siftDown cmp pos else q.siftUp cmp pos

@[simp] theorem size_siftUp (cmp : α → α → Ordering) (q : IndexedHeap α) (pos : Nat) :
    (q.siftUp cmp pos).heap.size = q.heap.size := by
  fun_induction siftUp cmp q pos with
  | case1 q pos h hp hc hlt ih => rw [ih, size_swap]
  | case2 => rfl
  | case3 => rfl

@[simp] theorem size_siftDown (cmp : α → α → Ordering) (q : IndexedHeap α) (pos : Nat) :
    (q.siftDown cmp pos).heap.size = q.heap.size := by
  fun_induction siftDown cmp q pos with
  | case1 => rfl
  | case2 q pos c hc _ ih => rw [ih, size_swap]

@[simp] theorem size_reposition (cmp : α → α → Ordering) (q : IndexedHeap α) (pos : Nat) :
    (q.reposition cmp pos).heap.size = q.heap.size := by
  rw [reposition]; split <;> simp

def push (cmp : α → α → Ordering) (q : IndexedHeap α) (e : α) : IndexedHeap α :=
  let pos := q.heap.size
  let grown : IndexedHeap α :=
    { heap := q.heap.push e
      index := q.index.alter e fun listed => some (listed.getD [] ++ [pos]) }
  grown.siftUp cmp pos

def repositionNth (cmp : α → α → Ordering) (e : α) (q : IndexedHeap α) (k : Nat) :
    IndexedHeap α :=
  match (q.slots e)[k]? with
  | some pos => q.reposition cmp pos
  | none => q

/-- Queues `e` if it is absent, and otherwise restores the place of each of its occurrences; tells
whether it was absent. -/
def offer (cmp : α → α → Ordering) (q : IndexedHeap α) (e : α) : Bool × IndexedHeap α :=
  if q.contains e then
    (false, (List.range (q.slots e).length).foldl (repositionNth cmp e) q)
  else (true, q.push cmp e)

def dropLast (q : IndexedHeap α) : IndexedHeap α :=
  match q.heap.back? with
  | none => q
  | some e =>
    { heap := q.heap.pop
      index := q.index.alter e fun listed =>
        match (listed.getD []).filter (· ≠ q.heap.size - 1) with
        | [] => none
        | kept => some kept }

@[simp] theorem size_dropLast (q : IndexedHeap α) : q.dropLast.heap.size = q.heap.size - 1 := by
  rw [dropLast]
  split
  · next h => simp_all [Array.back?_eq_none_iff]
  · simp

def bringLast (q : IndexedHeap α) (pos : Nat) (h : pos < q.heap.size) : IndexedHeap α :=
  if pos = q.heap.size - 1 then q else q.swap pos (q.heap.size - 1) h (by omega)

@[simp] theorem size_bringLast (q : IndexedHeap α) (pos : Nat) (h : pos < q.heap.size) :
    (q.bringLast pos h).heap.size = q.heap.size := by
  rw [bringLast]; split <;> simp

/-- Removes the element at `pos`; the last slot's element takes its place. -/
def removeAt (cmp : α → α → Ordering) (q : IndexedHeap α) (pos : Nat) (h : pos < q.heap.size) :
    α × IndexedHeap α :=
  let shrunk := (q.bringLast pos h).dropLast
  (q.heap[pos], if pos < shrunk.heap.size then shrunk.reposition cmp pos else shrunk)

theorem size_removeAt (cmp : α → α → Ordering) (q : IndexedHeap α) (pos : Nat)
    (h : pos < q.heap.size) : (q.removeAt cmp pos h).2.heap.size = q.heap.size - 1 := by
  rw [removeAt]
  dsimp only
  split <;> simp

def poll (cmp : α → α → Ordering) (q : IndexedHeap α) : Option (α × IndexedHeap α) :=
  if h : 0 < q.heap.size then some (q.removeAt cmp 0 h) else none

/-- Removes one occurrence of `e`, the one listed last; tells whether there was one. -/
def remove (cmp : α → α → Ordering) (q : IndexedHeap α) (e : α) : Bool × IndexedHeap α :=
  match (q.slots e).getLast? with
  | none => (false, q)
  | some pos => if h : pos < q.heap.size then (true, (q.removeAt cmp pos h).2) else (false, q)

def drain (cmp : α → α → Ordering) (q : IndexedHeap α) : List α :=
  if h : 0 < q.heap.size then
    (q.removeAt cmp 0 h).1 :: drain cmp (q.removeAt cmp 0 h).2
  else []
termination_by q.heap.size
decreasing_by rw [size_removeAt]; omega

end IndexedHeap

end LeastLoad
