import LeastLoad.Config.Override
import LeastLoad.Text.Numeral

/-! # Configuration on a command line

Each flag gives one setting, as `--flag value` or `--flag=value`, and may be given once. The flags
are read in order and the first thing wrong is the error. -/

namespace LeastLoad.Config

/-- What a command line gives; durations are in milliseconds. -/
structure Arguments where
  groupSize : Option Nat := none
  subStrategy : Option SubStrategy := none
  lookBackMillis : Option Nat := none
  windows : Option Nat := none
  failureSustainMillis : Option Int := none
  failureWeight : Option Nat := none
  rateWindowMillis : Option Nat := none
  stem : Option String := none
deriving DecidableEq

namespace Arguments

open LeastLoad.Text

def overrides (a : Arguments) : List Override :=
  [a.groupSize.map .groupSize, a.subStrategy.map .subStrategy,
    a.lookBackMillis.map .lookBackMillis, a.windows.map .windows,
    a.failureSustainMillis.map .failureSustainMillis, a.failureWeight.map .failureWeight,
    a.rateWindowMillis.map .rateWindowMillis, a.stem.map .stem].filterMap id

inductive ArgumentError where
  /-- A value is missing, or not one of those listed. -/
  | invalidValue
  /-- A value does not read as what the flag takes. -/
  | valueValidation
  /-- A flag is given twice. -/
  | argumentConflict
  | unknownArgument
  /-- Not an error: the help is asked for. -/
  | displayHelp
deriving DecidableEq

inductive Flag where
  | groupSize
  | subStrategy
  | lookBackMillis
  | windows
  | failureSustainMillis
  | failureWeight
  | rateWindowMillis
  | stem
deriving DecidableEq

namespace Flag

def all : List Flag :=
  [groupSize, subStrategy, lookBackMillis, windows, failureSustainMillis, failureWeight,
    rateWindowMillis, stem]

def name : Flag → String
  | groupSize => "--heddle-group-size"
  | subStrategy => "--heddle-sub-strategy"
  | lookBackMillis => "--heddle-look-back-ms"
  | windows => "--heddle-num-windows"
  | failureSustainMillis => "--heddle-failure-sustain-ms"
  | failureWeight => "--heddle-failure-weight"
  | rateWindowMillis => "--heddle-rate-window-ms"
  | stem => "--heddle-metrics-prefix"

def ofName? (s : String) : Option Flag := all.find? (·.name = s)

def natural (s : String) : Except ArgumentError Nat :=
  match unsigned? s.toList with
  | some n => if n < UInt64.size then .ok n else .error .valueValidation
  | none => .error .valueValidation

def integer (low high : Int) (s : String) : Except ArgumentError Int :=
  match signed? s.toList with
  | some n => if low ≤ n ∧ n ≤ high then .ok n else .error .valueValidation
  | none => .error .valueValidation

def strategy : String → Except ArgumentError SubStrategy
  | "absent" => .ok .absent
  | "least-frequency" => .ok .leastFrequency
  | "least-time" => .ok .leastTime
  | _ => .error .invalidValue

def read (f : Flag) (s : String) (a : Arguments) : Except ArgumentError Arguments :=
  match f with
  | groupSize => (natural s).map fun n => { a with groupSize := some n }
  | subStrategy => (strategy s).map fun x => { a with subStrategy := some x }
  | lookBackMillis => (natural s).map fun n => { a with lookBackMillis := some n }
  | windows => (natural s).map fun n => { a with windows := some n }
  | failureSustainMillis =>
    (integer (-signedMax64 - 1) signedMax64 s).map fun n =>
      { a with failureSustainMillis := some n }
  | failureWeight =>
    (integer 0 (UInt32.size - 1) s).map fun n => { a with failureWeight := some n.toNat }
  | rateWindowMillis => (natural s).map fun n => { a with rateWindowMillis := some n }
  | stem => .ok { a with stem := some s }

end Flag

/-- Whether the characters after a dash look like a number: digits, with at most one point that is
not the first character and at most one exponent mark that is neither first nor last. -/
def looksNumeric (cs : List Char) : Bool :=
  let mantissa := cs.takeWhile fun c => c ≠ 'e' && c ≠ 'E'
  let rest := cs.drop mantissa.length
  let whole := mantissa.takeWhile Char.isDigit
  let decimals := (mantissa.drop whole.length).drop 1
  let mantissaFits := decimals.all Char.isDigit &&
    (whole.length = mantissa.length || mantissa[whole.length]? = some '.')
  !whole.isEmpty && mantissaFits &&
    (rest.isEmpty || (1 < rest.length && (rest.drop 1).all Char.isDigit))

/-- Whether an argument may be the value of the flag before it: it does not begin with a dash, or
is nothing but a dash, or is a negative number where the flag takes one. -/
def isValue (f : Flag) (arg : String) : Bool :=
  match arg.toList with
  | ['-'] => true
  | '-' :: cs => f = .failureSustainMillis && looksNumeric cs
  | _ => true

def splitAtEquals (s : String) : String × Option String :=
  let cs := s.toList
  match cs.dropWhile (· ≠ '=') with
  | [] => (s, none)
  | _ :: value => (String.ofList (cs.takeWhile (· ≠ '=')), some (String.ofList value))

def asksForHelp (arg : String) : Bool := arg = "--help" || "-h".toList.isPrefixOf arg.toList

/-- What has been read so far. The last flag is not settled before it is clear that the next
argument is not its value. -/
structure Progress where
  settled : List Flag := []
  given : Arguments := {}
  pending : Option (Flag × Option String) := none

namespace Progress

/-- Settles a flag: it needs a value, may not have been given before, and has to read well. -/
def accept (p : Progress) (f : Flag) (value : Option String) : Except ArgumentError Progress :=
  match value with
  | none => .error .invalidValue
  | some s =>
    if p.settled.contains f then .error .argumentConflict
    else (f.read s p.given).map fun given => { settled := p.settled ++ [f], given }

def settle (p : Progress) : Except ArgumentError Progress :=
  match p.pending with
  | none => .ok p
  | some (f, value) => { p with pending := none }.accept f value

def readFlag (p : Progress) (arg : String) : Except ArgumentError Progress :=
  let (name, value) := splitAtEquals arg
  match Flag.ofName? name, value with
  | some f, some _ => do (← p.settle).accept f value
  | some f, none => do return { ← p.settle with pending := some (f, none) }
  | none, _ =>
    if asksForHelp arg then p.settle >>= fun _ => .error .displayHelp
    else .error .unknownArgument

def readArgument (p : Progress) (arg : String) : Except ArgumentError Progress :=
  match p.pending with
  | some (f, none) =>
    if isValue f arg then .ok { p with pending := some (f, some arg) } else p.readFlag arg
  | _ => p.readFlag arg

end Progress

/-- Reads what is left of a command line, of which nothing may follow a double dash. -/
def readFrom (p : Progress) : List String → Except ArgumentError Arguments
  | [] => p.settle.map (·.given)
  | arg :: rest =>
    if arg = "--" then
      if rest.isEmpty then p.settle.map (·.given) else .error .unknownArgument
    else do readFrom (← p.readArgument arg) rest

def read (args : List String) : Except ArgumentError Arguments := readFrom {} args

end Arguments

end LeastLoad.Config
