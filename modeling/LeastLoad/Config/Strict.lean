import LeastLoad.Config.Json
import LeastLoad.Config.Override
import LeastLoad.Config.Toml

/-! # Settings written out in one document

A document read on its own, with nothing laid over it, has to fit exactly: no setting may be given
twice, a number has to be whole, and a text is no number. What it does not name keeps its default,
and names of no setting are ignored. -/

namespace LeastLoad.Config.Strict

/-- The names of the settings, in the order in which a list gives their values. -/
def names : List String :=
  ["group_size", "sub_strategy", "look_back_ms", "num_windows", "failure_sustain_ms",
    "failure_weight", "rate_window_ms", "cov_sample_size", "metrics_prefix"]

def isName (s : String) : Bool := names.contains s

def integer? (low high : Int) : Value → Option Int
  | .unsigned n => if low ≤ n ∧ (n : Int) ≤ high then some n else none
  | .signed n => if low ≤ n ∧ n ≤ high then some n else none
  | _ => none

def natural? (size : Nat) (v : Value) : Option Nat := (integer? 0 (size - 1) v).map Int.toNat

def optionalSigned? : Value → Option (Option Int)
  | .null => some none
  | v => (integer? (-signedMax64 - 1) signedMax64 v).map some

def text? : Value → Option String
  | .text s => some s
  | _ => none

/-- A sub-strategy: its name, or a table of that one name with nothing under it. -/
def strategy? (isNothing : Value → Bool) : Value → Option SubStrategy
  | .text s => strategyOfName? s
  | .table [(name, v)] => if isNothing v then strategyOfName? name else none
  | _ => none

def assign (isNothing : Value → Bool) (s : Settings) : String × Value → Option Settings
  | ("group_size", v) => (natural? UInt64.size v).map ({ s with groupSize := · })
  | ("sub_strategy", v) => (strategy? isNothing v).map ({ s with subStrategy := · })
  | ("look_back_ms", v) => (natural? UInt64.size v).map ({ s with lookBackMillis := · })
  | ("num_windows", v) => (natural? UInt64.size v).map ({ s with windows := · })
  | ("failure_sustain_ms", v) =>
    (optionalSigned? v).map ({ s with failureSustainMillis := · })
  | ("failure_weight", v) => (natural? UInt32.size v).map ({ s with failureWeight := · })
  | ("rate_window_ms", v) => (natural? UInt64.size v).map ({ s with rateWindowMillis := · })
  | ("cov_sample_size", v) => (natural? UInt64.size v).map ({ s with sampleSize := · })
  | ("metrics_prefix", v) => (text? v).map ({ s with stem := · })
  | _ => some s

/-- The settings that a table names, each once. -/
def ofTable? (isNothing : Value → Bool) (t : Table) : Option Settings := do
  guard (decide ((t.map (·.1)).filter isName).Nodup)
  t.foldlM (assign isNothing) {}

/-- The settings whose values a list gives, the first ones if it is short. -/
def ofList? (isNothing : Value → Bool) (vs : List Value) : Option Settings := do
  guard (vs.length ≤ names.length)
  (names.zip vs).foldlM (assign isNothing) {}

def isNull : Value → Bool
  | .null => true
  | _ => false

def isHollow : Value → Bool
  | .table [] | .list [] => true
  | _ => false

/-- Reads settings from JSON: a table, or a list of values. -/
def ofJson? (s : String) : Option Settings :=
  match Json.parseKnown? isName s with
  | some (.table t) => ofTable? isNull t
  | some (.list vs) => ofList? isNull vs
  | _ => none

def ofToml? (s : String) : Option Settings := Toml.table? s >>= ofTable? isHollow

end LeastLoad.Config.Strict
