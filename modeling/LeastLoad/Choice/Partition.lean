/-! # Dividing a row into groups of nearly equal size

`partition len maxGroup` cuts the positions below `len` into the fewest groups of at most
`maxGroup`. The first groups take one position more where the sizes cannot all be equal. -/

namespace LeastLoad

/-- The positions from `start` up to but not including `stop`. -/
structure Span where
  start : Nat
  stop : Nat
deriving DecidableEq

namespace Span

def size (s : Span) : Nat := s.stop - s.start

def slice {α : Type} (s : Span) (xs : List α) : List α := (xs.drop s.start).take s.size

end Span

def consecutive (start : Nat) : List Nat → List Span
  | [] => []
  | size :: sizes => ⟨start, start + size⟩ :: consecutive (start + size) sizes

/-- The sizes of `groups` groups that share `len` positions evenly, the larger ones first. -/
def evenSizes (len groups : Nat) : List Nat :=
  (List.range groups).map fun g => len / groups + if g < len % groups then 1 else 0

/-- The fewest groups of at most `maxGroup` that cover `len` positions; none if no group may hold
anything. -/
def partition (len maxGroup : Nat) : List Span :=
  if maxGroup = 0 then []
  else consecutive 0 (evenSizes len ((len + maxGroup - 1) / maxGroup))

end LeastLoad
