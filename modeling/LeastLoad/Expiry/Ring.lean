import LeastLoad.Time

/-! # A ring of time windows for counts that expire

Time is cut into windows of one width. A count is kept in the window that holds its expiry
instant, and the expiry is the first window boundary strictly after the end of its lifespan, so
that nothing is handed back early. A purge hands back, in one sum, what the clock has passed.

Windows are numbered from the origin of time and share `windows + 2` slots in turn: one extra slot
is for the window that straddles the longest lifespan, one for the window being purged. A window
that takes over a slot finds there only what is due already, which it moves to the backlog. -/

namespace LeastLoad

/-- The causes for which a ring, a load state or a balancer cannot be made, each with the value that
was given. -/
inductive InvalidSetting where
  | groupSize (given : Nat)
  | windowCount (given : Nat)
  | failureSustain (givenMillis : Int)
  | failureWeight (given : Nat)
deriving DecidableEq

namespace InvalidSetting

def message : InvalidSetting → String
  | groupSize n => "group size must be positive, got " ++ toString n
  | windowCount n => "window count must be positive, got " ++ toString n
  | failureSustain ms => "failure sustain must not be negative, got " ++ toString ms ++ "ms"
  | failureWeight w => "failure weight must be positive, got " ++ toString w

end InvalidSetting

/-- What one slot holds: the counts of a single window. -/
structure Bucket where
  window : Nat := 0
  count : Int64 := 0
deriving DecidableEq

structure ExpiryRing where
  /-- The longest lifespan kept, in nanoseconds; longer ones are cut to it. -/
  maxAge : Nat
  /-- How many windows the longest lifespan is divided into. -/
  windows : Nat
  slots : Vector Bucket (windows + 2)
  /-- The highest window already drained. -/
  cursor : Nat
  /-- Counts due but not yet handed back. -/
  backlog : Int64

namespace Bucket

def due (b : Bucket) (upTo : Nat) : Int64 := if b.window ≤ upTo then b.count else 0

def drained (b : Bucket) (upTo : Nat) : Bucket :=
  if b.window ≤ upTo then { b with count := 0 } else b

end Bucket

namespace ExpiryRing

/-- The width of one window in nanoseconds: the longest lifespan divided by the number of windows,
rounded up. It is zero when nothing is ever kept. -/
def width (r : ExpiryRing) : Nat := (r.maxAge + r.windows - 1) / r.windows

def create (maxAge : Duration) (windows now : Nat) : Except InvalidSetting ExpiryRing :=
  if windows = 0 then .error (.windowCount windows)
  else
    let empty : ExpiryRing :=
      { maxAge := maxAge.ticks, windows, slots := Vector.replicate _ {}, cursor := 0, backlog := 0 }
    .ok { empty with cursor := now / empty.width }

def windowOf (r : ExpiryRing) (now : Nat) (lifespan : Duration) : Nat :=
  min (now + min lifespan.ticks r.maxAge) horizon / r.width + 1

/-- The number of a window fits 64 bits, unless windows are one nanosecond wide and the lifespan
reaches the horizon. -/
theorem windowOf_le_horizon {r : ExpiryRing} {now : Nat} {lifespan : Duration}
    (h : 1 < r.width ∨ now + min lifespan.ticks r.maxAge < horizon) :
    r.windowOf now lifespan ≤ horizon := by
  have htwo : 2 ≤ horizon := by decide
  rw [windowOf]
  obtain hwide | hnear := h
  · have hhalf : min (now + min lifespan.ticks r.maxAge) horizon / r.width ≤ horizon / 2 :=
      Nat.div_le_div (Nat.min_le_right _ _) hwide (by decide)
    omega
  · have hdiv := Nat.div_le_self (min (now + min lifespan.ticks r.maxAge) horizon) r.width
    omega

def expiry (r : ExpiryRing) (now : Nat) (lifespan : Duration) : Nat :=
  if r.width = 0 then now else min (r.windowOf now lifespan * r.width) horizon

def slotOf (r : ExpiryRing) (window : Nat) : Fin (r.windows + 2) := Fin.ofNat _ window

/-- Adds `n` to a window, or to the backlog when the window's turn has passed. -/
def record (r : ExpiryRing) (window : Nat) (n : Int64) : ExpiryRing :=
  let b := r.slots[r.slotOf window]
  if window ≤ r.cursor ∨ window < b.window then
    { r with backlog := r.backlog + n }
  else if b.window < window then
    { r with
      backlog := r.backlog + b.count
      slots := r.slots.set (r.slotOf window) ⟨window, n⟩ }
  else
    { r with slots := r.slots.set (r.slotOf window) ⟨window, b.count + n⟩ }

def add (r : ExpiryRing) (now : Nat) (n : Int64) (lifespan : Duration) : ExpiryRing :=
  if r.width = 0 then { r with backlog := r.backlog + n }
  else if n = 0 then r
  else r.record (r.windowOf now lifespan) n

def drainSlot (upTo : Nat) (r : ExpiryRing) (i : Fin (r.windows + 2)) : ExpiryRing :=
  { r with
    backlog := r.backlog + r.slots[i].due upTo
    slots := r.slots.set i (r.slots[i].drained upTo) }

/-- The windows whose slots a purge up to `upTo` visits: those after the cursor, and no more of
them than there are slots. -/
def passedWindows (r : ExpiryRing) (upTo : Nat) : List Nat :=
  (List.range (min (upTo - r.cursor) (r.windows + 2))).map (r.cursor + 1 + ·)

def drainTo (r : ExpiryRing) (upTo : Nat) : ExpiryRing :=
  if r.cursor < upTo then
    let drained := (r.passedWindows upTo).foldl (fun q w => q.drainSlot upTo (q.slotOf w)) r
    { drained with cursor := upTo }
  else r

/-- Hands back the sum of all counts due at `now` and not handed back before. -/
def purge (r : ExpiryRing) (now : Nat) : Int64 × ExpiryRing :=
  let r := if r.width = 0 then r else r.drainTo (now / r.width)
  (r.backlog, { r with backlog := 0 })

end ExpiryRing

end LeastLoad
