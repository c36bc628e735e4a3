import LeastLoad.Config.Value
import LeastLoad.Text.Escape

/-! # Configuration in JSON

Whole numbers without sign are unsigned, negative ones signed, and those that do not fit 64 bits
are doubles, as is `-0`. Entries of a repeated name are all kept.

A value may be read with care or without: without, it may be nested to any depth, and its texts may
hold halves of surrogate pairs. -/

namespace LeastLoad.Config.Json

open LeastLoad.Text

def isSpace (c : Char) : Bool := c = ' ' || c = '\n' || c = '\t' || c = '\r'

def unit? (a b c d : Char) : Option Nat := natural? 16 [a, b, c, d]

/-- The rest of a text in double quotes; a character beyond 16 bits is two surrogates. Without care
each unit stands for itself. -/
def stringBody (care : Bool) : Reader (List Char)
  | [] => none
  | '"' :: rest => some ([], rest)
  | '\\' :: 'u' :: a :: b :: c :: d :: rest => do
    let high ← unit? a b c d
    if care && 0xd800 ≤ high && high < 0xdc00 then
      match rest with
      | '\\' :: 'u' :: e :: f :: g :: h :: rest => do
        let low ← unit? e f g h
        guard (0xdc00 ≤ low && low < 0xe000)
        let x ← scalar? (0x10000 + (high - 0xd800) * 0x400 + (low - 0xdc00))
        let (xs, rest) ← stringBody care rest
        return (x :: xs, rest)
      | _ => none
    else
      let x ← if care then scalar? high else some (Char.ofNat high)
      let (xs, rest) ← stringBody care rest
      return (x :: xs, rest)
  | '\\' :: c :: rest => do
    let x ← if c = '"' || c = '\\' || c = '/' then some c else controlOfLetter? c
    let (xs, rest) ← stringBody care rest
    return (x :: xs, rest)
  | c :: rest => do
    guard (' ' ≤ c && c ≠ '\\')
    let (xs, rest) ← stringBody care rest
    return (c :: xs, rest)

def string (care : Bool) : Reader String := String.ofList <$> stringBody care

/-- The first digits of a number that fit 64 bits, and the exponent that makes up for the rest. -/
structure Significand where
  digits : Nat := 0
  exponent : Int := 0
  /-- Whether a digit did not fit. -/
  full : Bool := false

namespace Significand

def fits (s : Significand) (d : Nat) : Bool := s.digits * 10 + d < UInt64.size

/-- A digit before the point; one that does not fit counts as zero, and so do all after it. -/
def whole (s : Significand) (d : Nat) : Significand :=
  if !s.full && s.fits d then { s with digits := s.digits * 10 + d }
  else { s with exponent := s.exponent + 1, full := true }

/-- A digit after the point; one that does not fit is dropped, and so are all after it. -/
def decimal (s : Significand) (d : Nat) : Significand :=
  if !s.full && s.fits d then
    { s with digits := s.digits * 10 + d, exponent := s.exponent - 1 }
  else { s with full := true }

/-- Scales a double by a power of ten, in steps that a double can hold. The result is infinite
when it is out of range. -/
def scale : Nat → Float → Int → Float
  | 0, _, _ => 0
  | steps + 1, x, exponent =>
    if exponent.natAbs ≤ 308 then
      let power := Float.ofScientific 1 false exponent.natAbs
      if 0 ≤ exponent then x * power else x / power
    else if x == 0 then 0
    else if 0 ≤ exponent then 1 / 0
    else scale steps (x / 1e308) (exponent + 308)

def toDouble (s : Significand) (exponent : Int) : Float :=
  scale 8 s.digits.toUInt64.toFloat (s.exponent + exponent)

end Significand

def digits : Reader (List Nat) := do
  return (← Reader.takeWhile Char.isDigit).map fun c => c.toNat - '0'.toNat

def numberOf (ds : List Nat) : Nat := ds.foldl (fun n d => 10 * n + d) 0

def exponent : Reader (Option Int) := do
  match ← Reader.peek with
  | some 'e' | some 'E' =>
    let _ ← Reader.next
    let sign ← Reader.takeWhile fun c => c = '+' || c = '-'
    guard (sign.length ≤ 1)
    let ds ← digits
    guard (!ds.isEmpty)
    let n := numberOf ds
    return some (if sign = ['-'] then -(n : Int) else n)
  | _ => return none

/-- A number without its sign: its whole digits, and its value as a double if it has a point or an
exponent. -/
def magnitude : Reader (List Nat × Option Float) := do
  let whole ← digits
  guard (!whole.isEmpty && (whole.head? ≠ some 0 || whole.length = 1))
  let s := whole.foldl Significand.whole {}
  match ← Reader.peek with
  | some '.' =>
    let _ ← Reader.next
    let fraction ← digits
    guard (!fraction.isEmpty)
    let s := fraction.foldl Significand.decimal { s with full := false }
    return (whole, some (s.toDouble ((← exponent).getD 0)))
  | _ => return (whole, (← exponent).map s.toDouble)

def number : Reader Value := do
  let negative := (← Reader.peek) = some '-'
  if negative then Reader.char '-'
  let (whole, double) ← magnitude
  let n := numberOf whole
  let long := (whole.foldl Significand.whole {}).toDouble 0
  match double with
  | some x => return .float (if negative then -x else x)
  | none =>
    if negative then
      return if 0 < n ∧ n ≤ signedMax64 + 1 then .signed (-n) else .float (-long)
    else return if n < UInt64.size then .unsigned n else .float long

def maxDepth : Nat := 128

mutual

def value (care : Bool) (depth : Nat) : Nat → Reader Value
  | 0 => failure
  | fuel + 1 => do
    Reader.skipWhile isSpace
    match ← Reader.peek with
    | some '{' =>
      let _ ← Reader.next
      guard (!care || depth + 1 < maxDepth)
      Reader.skipWhile isSpace
      if (← Reader.peek) = some '}' then
        let _ ← Reader.next
        return .table []
      else return .table (← entries care (depth + 1) fuel)
    | some '[' =>
      let _ ← Reader.next
      guard (!care || depth + 1 < maxDepth)
      Reader.skipWhile isSpace
      if (← Reader.peek) = some ']' then
        let _ ← Reader.next
        return .list []
      else return .list (← items care (depth + 1) fuel)
    | some '"' =>
      let _ ← Reader.next
      return .text (← string care)
    | some 't' =>
      Reader.exactly "true"
      return .boolean true
    | some 'f' =>
      Reader.exactly "false"
      return .boolean false
    | some 'n' =>
      Reader.exactly "null"
      return .null
    | _ => number

def items (care : Bool) (depth : Nat) : Nat → Reader (List Value)
  | 0 => failure
  | fuel + 1 => do
    let v ← value care depth fuel
    Reader.skipWhile isSpace
    match ← Reader.next with
    | ',' => return v :: (← items care depth fuel)
    | ']' => return [v]
    | _ => failure

def entries (care : Bool) (depth : Nat) : Nat → Reader Table
  | 0 => failure
  | fuel + 1 => do
    Reader.skipWhile isSpace
    Reader.char '"'
    let name ← string care
    Reader.skipWhile isSpace
    Reader.char ':'
    let v ← value care depth fuel
    Reader.skipWhile isSpace
    match ← Reader.next with
    | ',' => return (name, v) :: (← entries care depth fuel)
    | '}' => return [(name, v)]
    | _ => failure

end

def parse? (s : String) : Option Value :=
  Reader.run? (do
    let v ← value true 0 (2 * s.length + 2)
    Reader.skipWhile isSpace
    return v) s

/-- The rest of a table of which only the known names are read with care. -/
def knownEntries (isKnown : String → Bool) : Nat → Reader Table
  | 0 => failure
  | fuel + 1 => do
    Reader.skipWhile isSpace
    Reader.char '"'
    let name ← string true
    Reader.skipWhile isSpace
    Reader.char ':'
    let v ← value (isKnown name) 1 (2 * (← Reader.remaining) + 2)
    Reader.skipWhile isSpace
    match ← Reader.next with
    | ',' => return (name, v) :: (← knownEntries isKnown fuel)
    | '}' => return [(name, v)]
    | _ => failure

/-- Reads a whole document of which, if it is a table, only the known names matter. -/
def parseKnown? (isKnown : String → Bool) (s : String) : Option Value :=
  Reader.run? (do
    Reader.skipWhile isSpace
    let v ← if (← Reader.peek) = some '{' then do
        let _ ← Reader.next
        Reader.skipWhile isSpace
        if (← Reader.peek) = some '}' then
          let _ ← Reader.next
          pure (.table [])
        else .table <$> knownEntries isKnown (s.length + 1)
      else value true 0 (2 * s.length + 2)
    Reader.skipWhile isSpace
    return v) s

mutual

def inRange : Value → Bool
  | .float x => x.isFinite
  | .list items => allInRange items
  | .table entries => entriesInRange entries
  | _ => true

def allInRange : List Value → Bool
  | [] => true
  | v :: rest => inRange v && allInRange rest

def entriesInRange : Table → Bool
  | [] => true
  | (_, v) :: rest => inRange v && entriesInRange rest

end

def table? (s : String) : Option Table :=
  match parse? s with
  | some (.table entries) => if entriesInRange entries then some entries else none
  | _ => none

end LeastLoad.Config.Json
