import LeastLoad.Config.Override

/-! # Settings read out of a table

The named values are looked at in the order of their names, and the first one that does not fit is
the error. What the table does not name keeps its default, and names of no setting are ignored. -/

namespace LeastLoad.Config

inductive ConfigError where
  /-- A document could not be read, or is not a table. -/
  | unreadable
  | invalidType (path : List String) (found : Value) (expected : String)
  | invalidValue (path : List String) (found : Value) (expected : String)
  | unknownVariant (path : List String) (found : String)

namespace ConfigError

def path? : ConfigError → Option String
  | unreadable => none
  | invalidType path _ _ | invalidValue path _ _ | unknownVariant path _ =>
    some (".".intercalate path)

def message? : ConfigError → Option String
  | unreadable => none
  | invalidType _ found expected =>
    some ("invalid type: found " ++ found.describe ++ ", expected " ++ expected)
  | invalidValue _ found expected =>
    some ("invalid value " ++ found.describe ++ ", expected " ++ expected)
  | unknownVariant _ found =>
    let known := ", ".intercalate (strategies.map fun s => "`" ++ strategyName s ++ "`")
    some ("unknown variant: found `" ++ found ++ "`, expected `one of " ++ known ++ "`")

end ConfigError

namespace Value

/-- The integer that a value holds, if it fits 64 bits with or without sign. -/
def integer? : Value → Option Int
  | unsigned n => if n < UInt64.size then some n else none
  | signed n => if fitsSigned64 n then some n else none
  | _ => none

def integerIn (low high : Int) (expected : String) (name : String) (v : Value) :
    Except ConfigError Int :=
  match v.integer? with
  | none => .error (.invalidType [name] v expected)
  | some n => if low ≤ n ∧ n ≤ high then .ok n else .error (.invalidValue [name] v expected)

def natural (size : Nat) (expected : String) (name : String) (v : Value) :
    Except ConfigError Nat :=
  (v.integerIn 0 (size - 1) expected name).map Int.toNat

def optionalSigned (name : String) (v : Value) : Except ConfigError (Option Int) :=
  match v with
  | null => .ok none
  | v => (v.integerIn (-signedMax64 - 1) signedMax64 "i64" name).map some

def string (name : String) (v : Value) : Except ConfigError String :=
  match v with
  | text s => .ok s
  | character c => .ok (String.singleton c)
  | v => .error (.invalidType [name] v "a string")

def variant (path : List String) (found : String) : Except ConfigError SubStrategy :=
  match strategyOfName? found with
  | some s => .ok s
  | none => .error (.unknownVariant path found)

/-- A sub-strategy: its name, or a table whose first name it is, with nothing under it. -/
def strategy (name : String) (v : Value) : Except ConfigError SubStrategy :=
  match v with
  | text s => variant [name] s
  | table entries =>
    match Table.firstName? entries with
    | none => .error (.invalidType [name] v "enum")
    | some key => do
      let s ← variant [name, key] key
      match Table.find? entries key with
      | some null | none => .ok s
      | some w => .error (.invalidType [name, key] w "unit")
  | v => .error (.invalidType [name] v "enum SubStrategy")

end Value

def Table.read {α : Type} (t : Table) (name : String)
    (reader : String → Value → Except ConfigError α) (default : α) : Except ConfigError α :=
  match t.find? name with
  | none => .ok default
  | some v => reader name v

def Table.settings (t : Table) : Except ConfigError Settings := do
  let base : Settings := {}
  let sampleSize ← t.read "cov_sample_size" (Value.natural UInt64.size "usize") base.sampleSize
  let failureSustainMillis ←
    t.read "failure_sustain_ms" Value.optionalSigned base.failureSustainMillis
  let failureWeight ← t.read "failure_weight" (Value.natural UInt32.size "u32") base.failureWeight
  let groupSize ← t.read "group_size" (Value.natural UInt64.size "usize") base.groupSize
  let lookBackMillis ← t.read "look_back_ms" (Value.natural UInt64.size "u64") base.lookBackMillis
  let stem ← t.read "metrics_prefix" Value.string base.stem
  let windows ← t.read "num_windows" (Value.natural UInt64.size "usize") base.windows
  let rateWindowMillis ←
    t.read "rate_window_ms" (Value.natural UInt64.size "u64") base.rateWindowMillis
  let subStrategy ← t.read "sub_strategy" Value.strategy base.subStrategy
  return {
    groupSize, subStrategy, lookBackMillis, windows, failureSustainMillis, failureWeight
    rateWindowMillis, sampleSize, stem }

end LeastLoad.Config
