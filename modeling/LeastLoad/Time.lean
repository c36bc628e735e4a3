/-! # Instants, durations and a clock moved by hand

Time is counted in whole nanoseconds. An instant is a number of nanoseconds since the clock's
origin; every clock reading fits 64 bits (`Clock.now_le`). A duration may be longer, and is cut
to `horizon` whenever it meets an instant. Counts over time are signed numbers of 32 or of 64 bits,
and the signed values that a configuration may hold are those of 64 bits. -/

namespace LeastLoad

/-- The last instant that a clock can show. -/
def horizon : Nat := UInt64.size - 1

def signedMax32 : Nat := 2147483647

def signedMax64 : Nat := 9223372036854775807

def fitsSigned64 (n : Int) : Bool := -(signedMax64 : Int) - 1 ≤ n && n ≤ signedMax64

structure Duration where
  nanos : Nat
deriving DecidableEq

namespace Duration

def ofSeconds (s : Nat) : Duration := ⟨s * 1_000_000_000⟩

def ofMillis (ms : Nat) : Duration := ⟨ms * 1_000_000⟩

def seconds (d : Duration) : Nat := d.nanos / 1_000_000_000

def subsecond (d : Duration) : Nat := d.nanos % 1_000_000_000

def millis (d : Duration) : Nat := d.nanos / 1_000_000

/-- The duration on the scale of instants, cut to what 64 bits hold. -/
def ticks (d : Duration) : Nat := min d.nanos horizon

theorem ticks_le (d : Duration) : d.ticks ≤ horizon := Nat.min_le_right ..

theorem ticks_of_le {d : Duration} (h : d.nanos ≤ horizon) : d.ticks = d.nanos :=
  Nat.min_eq_left h

theorem ticks_ticks (d : Duration) : (Duration.mk d.ticks).ticks = d.ticks :=
  ticks_of_le d.ticks_le

def minus (d e : Duration) : Duration := ⟨d.nanos - e.nanos⟩

/-- The length in seconds, each part converted on its own. -/
def toSeconds (d : Duration) : Float :=
  d.seconds.toUInt64.toFloat + d.subsecond.toUInt64.toFloat / 1e9

private def decimal (whole fraction places : Nat) : String :=
  let digits := (toString fraction).toList
  let padded := List.replicate (places - digits.length) '0' ++ digits
  match (padded.reverse.dropWhile (· = '0')).reverse with
  | [] => toString whole
  | kept => toString whole ++ "." ++ String.ofList kept

/-- Written in the largest unit of which there is at least one. -/
def text (d : Duration) : String :=
  let n := d.subsecond
  if 0 < d.seconds then decimal d.seconds n 9 ++ "s"
  else if 1_000_000 ≤ n then decimal (n / 1_000_000) (n % 1_000_000) 6 ++ "ms"
  else if 1_000 ≤ n then decimal (n / 1_000) (n % 1_000) 3 ++ "µs"
  else toString n ++ "ns"

end Duration

/-- A clock that moves only when told to. -/
@[ext]
structure Clock where
  now : Nat
  now_le : now ≤ horizon
deriving DecidableEq

namespace Clock

def startingAt (d : Duration) : Clock := ⟨d.ticks, d.ticks_le⟩

/-- Moves the reading on, wrapping past the horizon. -/
def advance (c : Clock) (d : Duration) : Clock :=
  ⟨(c.now + d.ticks) % UInt64.size, by
    have := Nat.mod_lt (c.now + d.ticks) (y := UInt64.size) (by decide)
    simp only [horizon]; omega⟩

/-- Jumps to `d`; a reading behind the present one is ignored. -/
def set (c : Clock) (d : Duration) : Clock :=
  ⟨max c.now d.ticks, Nat.max_le.2 ⟨c.now_le, d.ticks_le⟩⟩

def elapsed (c : Clock) : Duration := ⟨c.now⟩

theorem now_advance {c : Clock} {d : Duration} (h : c.now + d.nanos ≤ horizon) :
    (c.advance d).now = c.now + d.nanos := by
  have hd : d.ticks = d.nanos := Duration.ticks_of_le (by omega)
  simp only [horizon, UInt64.size] at h
  simp only [advance, hd]
  exact Nat.mod_eq_of_lt (by simp only [UInt64.size]; omega)

theorem le_now_set (c : Clock) (d : Duration) : c.now ≤ (c.set d).now := Nat.le_max_left ..

theorem now_set {c : Clock} {t : Nat} (h : c.now ≤ t) (ht : t ≤ horizon) :
    (c.set ⟨t⟩).now = t :=
  (congrArg (max c.now) (Duration.ticks_of_le ht)).trans (Nat.max_eq_right h)

end Clock

end LeastLoad
