/-! # Reading numerals -/

namespace LeastLoad.Text

def digitValue? (radix : Nat) (c : Char) : Option Nat :=
  let n := c.toNat
  let value :=
    if '0'.toNat ≤ n ∧ n ≤ '9'.toNat then n - '0'.toNat
    else if 'a'.toNat ≤ n ∧ n ≤ 'f'.toNat then n - 'a'.toNat + 10
    else if 'A'.toNat ≤ n ∧ n ≤ 'F'.toNat then n - 'A'.toNat + 10
    else radix
  if value < radix then some value else none

def natural? (radix : Nat) (cs : List Char) : Option Nat :=
  if cs.isEmpty then none
  else cs.foldlM (fun n c => (digitValue? radix c).map (radix * n + ·)) 0

def unsigned? (cs : List Char) : Option Nat :=
  match cs with
  | '+' :: ds => natural? 10 ds
  | ds => natural? 10 ds

def signed? (cs : List Char) : Option Int :=
  match cs with
  | '-' :: ds => (natural? 10 ds).map fun n => -(n : Int)
  | ds => (unsigned? ds).map Int.ofNat

/-- The double nearest to `digits * 10 ^ exponent`. -/
def nearestDouble (digits : Nat) (exponent : Int) : Float :=
  if digits = 0 then 0
  else
    let top := exponent + (Nat.log2 digits / 3 : Nat)
    if 330 < exponent then 1 / 0
    else if top < -330 then 0
    else Float.ofScientific digits (exponent < 0) exponent.natAbs

/-- A decimal numeral without sign: digits with an optional point and an optional exponent, at
least one digit before the exponent. -/
structure Decimal where
  whole : List Char
  fraction : List Char
  exponent : Int

namespace Decimal

def digits (d : Decimal) : Nat := (natural? 10 (d.whole ++ d.fraction)).getD 0

def toDouble (d : Decimal) : Float := nearestDouble d.digits (d.exponent - d.fraction.length)

def ofChars? (cs : List Char) : Option Decimal := do
  let whole := cs.takeWhile Char.isDigit
  let rest := cs.dropWhile Char.isDigit
  let (fraction, rest) := match rest with
    | '.' :: rest => (rest.takeWhile Char.isDigit, rest.dropWhile Char.isDigit)
    | rest => ([], rest)
  guard (!(whole.isEmpty && fraction.isEmpty))
  match rest with
  | [] => return ⟨whole, fraction, 0⟩
  | c :: rest =>
    guard (c = 'e' || c = 'E')
    return ⟨whole, fraction, ← signed? rest⟩

end Decimal

/-- A double: a decimal numeral or a word for infinity or for no number, with an optional sign. -/
def double? (cs : List Char) : Option Float := do
  let (negative, body) := match cs with
    | '-' :: body => (true, body)
    | '+' :: body => (false, body)
    | body => (false, body)
  let word := String.ofList (body.map Char.toLower)
  let x ←
    if word = "inf" || word = "infinity" then some (1 / 0 : Float)
    else if word = "nan" then some (0 / 0 : Float)
    else (Decimal.ofChars? body).map Decimal.toDouble
  return if negative then -x else x

end LeastLoad.Text
