import LeastLoad.Expiry.Ring

/-! # Sums delivered after a delay

Counts scheduled for later are summed and offered to a consumer once their delay is over. There is
no timer: an offer is made only while `check` runs, at most one each time, and never of zero. What
the consumer refuses stays pending and is part of the next offer. -/

namespace LeastLoad

structure DeferredSum where
  ring : ExpiryRing
  /-- What is due but was refused. -/
  pending : Int64

structure Delivery where
  sum : Int64
  accepted : Bool
deriving DecidableEq

namespace DeferredSum

def defaultDelay : Duration := .ofSeconds 1

def defaultWindows : Nat := 100

def ofRing (ring : ExpiryRing) : DeferredSum := ⟨ring, 0⟩

def create (maxDelay : Duration) (windows now : Nat) : Except InvalidSetting DeferredSum :=
  (ExpiryRing.create maxDelay windows now).map ofRing

def maxDelay (c : DeferredSum) : Duration := ⟨c.ring.maxAge⟩

def expiry (c : DeferredSum) (now : Nat) (delay : Duration) : Nat := c.ring.expiry now delay

def schedule (c : DeferredSum) (now : Nat) (n : Int64) (delay : Duration) : DeferredSum :=
  { c with ring := c.ring.add now n delay }

def check (c : DeferredSum) (now : Nat) (accepts : Int64 → Bool) : Option Delivery × DeferredSum :=
  let (expired, ring) := c.ring.purge now
  let due := expired + c.pending
  if due = 0 then (none, ⟨ring, 0⟩)
  else if accepts due then (some ⟨due, true⟩, ⟨ring, 0⟩)
  else (some ⟨due, false⟩, ⟨ring, due⟩)

/-- The sum taken by a consumer that accepts everything. -/
def flush (c : DeferredSum) (now : Nat) : Int64 × DeferredSum :=
  let (delivery, c) := c.check now fun _ => true
  (delivery.elim 0 (·.sum), c)

end DeferredSum

end LeastLoad
