import LeastLoad.Expiry.Deferred

/-! # The sum over a sliding window

An addition counts at once and schedules its own reversal for the end of its lifespan. Reversals
that have come due are applied by `check` only. -/

namespace LeastLoad

structure SlidingSum where
  value : Int64
  reversals : DeferredSum

namespace SlidingSum

def create (lookBack : Duration) (windows now : Nat) : Except InvalidSetting SlidingSum :=
  (DeferredSum.create lookBack windows now).map (⟨0, ·⟩)

def lookBack (s : SlidingSum) : Duration := s.reversals.maxDelay

def addFor (s : SlidingSum) (now : Nat) (n : Int64) (lifespan : Duration) : SlidingSum :=
  ⟨s.value + n, s.reversals.schedule now (-n) lifespan⟩

def add (s : SlidingSum) (now : Nat) (n : Int64) : SlidingSum := s.addFor now n s.lookBack

def check (s : SlidingSum) (now : Nat) : SlidingSum :=
  let (reversed, reversals) := s.reversals.flush now
  ⟨s.value + reversed, reversals⟩

/-- The value as an unsigned reading, by which sums are compared. -/
def reading (s : SlidingSum) : UInt64 := s.value.toUInt64

def text (s : SlidingSum) : String :=
  "DecayingCounter \x7b value: " ++ toString s.value.toInt ++ ", look_back: " ++ s.lookBack.text ++
    " \x7d"

end SlidingSum

end LeastLoad
