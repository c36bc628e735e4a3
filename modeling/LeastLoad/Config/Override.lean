import LeastLoad.Config.Settings
import LeastLoad.Config.Value

/-! # Settings given one at a time

An override gives one setting a value; it is a table with one entry. Durations are cut to whole
milliseconds. -/

namespace LeastLoad.Config

inductive Override where
  | groupSize (n : Nat)
  | subStrategy (s : SubStrategy)
  | lookBackMillis (ms : Nat)
  | windows (n : Nat)
  | failureSustainMillis (ms : Int)
  | failureWeight (n : Nat)
  | rateWindowMillis (ms : Nat)
  | sampleSize (n : Nat)
  | stem (s : String)
deriving DecidableEq

def strategyName : SubStrategy → String
  | .absent => "absent"
  | .leastFrequency => "least_frequency"
  | .leastTime => "least_time"

def strategies : List SubStrategy := [.absent, .leastFrequency, .leastTime]

def strategyOfName? (name : String) : Option SubStrategy :=
  strategies.find? (strategyName · = name)

namespace Override

/-- A look-back window of any length, cut to the milliseconds that fit 64 bits. -/
def lookBack (d : Duration) : Override := lookBackMillis (min d.millis (UInt64.size - 1))

def rateWindow (d : Duration) : Override := rateWindowMillis (min d.millis (UInt64.size - 1))

/-- A sustain of any length, cut to the milliseconds that fit 63 bits. -/
def failureSustain (d : Duration) : Override := failureSustainMillis (min d.millis signedMax64)

def name : Override → String
  | groupSize _ => "group_size"
  | subStrategy _ => "sub_strategy"
  | lookBackMillis _ => "look_back_ms"
  | windows _ => "num_windows"
  | failureSustainMillis _ => "failure_sustain_ms"
  | failureWeight _ => "failure_weight"
  | rateWindowMillis _ => "rate_window_ms"
  | sampleSize _ => "cov_sample_size"
  | stem _ => "metrics_prefix"

def value : Override → Value
  | groupSize n | lookBackMillis n | windows n | failureWeight n | rateWindowMillis n
  | sampleSize n => .unsigned n
  | subStrategy s => .text (strategyName s)
  | failureSustainMillis ms => .signed ms
  | stem s => .text s

def table (o : Override) : Table := [(o.name, o.value)]

end Override

end LeastLoad.Config
