import LeastLoad.Expiry.Sliding

/-! # Event rates and a throttle

A meter counts the events of a trailing window and divides by its length. A throttle lets one
caller through per interval, the first interval starting when the throttle is made. -/

namespace LeastLoad

structure RateMeter where
  events : SlidingSum
  /-- The window's length in seconds. -/
  seconds : Float

namespace RateMeter

def create (window : Duration) (windows now : Nat) : Except InvalidSetting RateMeter :=
  (SlidingSum.create window windows now).map (⟨·, window.toSeconds⟩)

def mark (m : RateMeter) (now : Nat) (n : Int64) : RateMeter :=
  { m with events := m.events.add now n }

def settled (m : RateMeter) (now : Nat) : RateMeter := { m with events := m.events.check now }

def count (m : RateMeter) : Int64 := m.events.value

/-- Events in the window per second, once it is settled; an empty window has no rate. -/
def perSecond (m : RateMeter) : Float :=
  if m.seconds ≤ 0 then 0 else (max m.count 0).toFloat / m.seconds

end RateMeter

structure Throttle where
  interval : Nat
  /-- When a caller was last let through. -/
  last : Nat

namespace Throttle

def create (interval : Duration) (now : Nat) : Throttle := ⟨interval.ticks, now⟩

/-- Lets the caller through once the interval has passed, and tells how long ago the last one was
let through. -/
def tryAcquire (t : Throttle) (now : Nat) : Option Duration × Throttle :=
  let age := now - t.last
  if age < t.interval then (none, t) else (some ⟨age⟩, { t with last := now })

end Throttle

end LeastLoad
