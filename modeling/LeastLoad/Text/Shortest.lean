/-! # The shortest decimal text of a double

A finite double is the only double in an interval of reals that round to it. Its text is the
decimal with the fewest digits in that interval, of several the one nearest to the double, and of
two equally near ones the larger. It is written in positional notation, however long. -/

namespace LeastLoad.Text

structure Binary where
  mantissa : Nat
  exponent : Int
  /-- Whether the double below is only half as far away as the double above. -/
  narrowBelow : Bool

namespace Binary

/-- Reads the exponent and the fraction of a double; the sign is left out. -/
def ofBits (bits : UInt64) : Binary :=
  let exponent := ((bits >>> 52) &&& 0x7ff).toNat
  let fraction := (bits &&& 0xfffffffffffff).toNat
  if exponent = 0 then ⟨fraction, -1074, false⟩
  else ⟨0x10000000000000 + fraction, exponent - 1075, fraction = 0 && 1 < exponent⟩

/-- On a scale of quarters of the last place: the lower end of the interval, the double, and the
upper end. -/
def interval (b : Binary) : Nat × Nat × Nat :=
  let v := 4 * b.mantissa
  (if b.narrowBelow then v - 1 else v - 2, v, v + 2)

/-- The multiple of `10 ^ place` in the interval that is nearest to the double, in units of
`10 ^ place`. The ends belong to the interval when the mantissa is even. -/
def nearest? (b : Binary) (place : Int) : Option Nat :=
  let (low, v, high) := b.interval
  let scale := Nat.pow 10 (-place).toNat <<< (b.exponent - 2).toNat
  let unit := Nat.pow 10 place.toNat <<< (2 - b.exponent).toNat
  let inside (c : Nat) : Bool :=
    if b.mantissa % 2 = 0 then low * scale ≤ c * unit && c * unit ≤ high * scale
    else low * scale < c * unit && c * unit < high * scale
  let c := v * scale / unit
  match inside c, inside (c + 1) with
  | false, false => none
  | true, false => some c
  | false, true => some (c + 1)
  | true, true => some (if (c + 1) * unit - v * scale ≤ v * scale - c * unit then c + 1 else c)

/-- The places of the last digit that may occur, the highest first. -/
def places : List Int := (List.range 660).map fun (k : Nat) => 310 - (k : Int)

/-- The digits of the shortest decimal and the place of the last one. -/
def shortest (b : Binary) : Nat × Int :=
  (places.findSome? fun place => (b.nearest? place).map (·, place)).getD (0, 0)

end Binary

def positional (digits : Nat) (place : Int) : String :=
  let text := toString digits
  if 0 ≤ place then text ++ String.ofList (List.replicate place.toNat '0')
  else
    let fraction := (-place).toNat
    let cs := List.replicate (fraction + 1 - text.length) '0' ++ text.toList
    String.ofList (cs.take (cs.length - fraction)) ++ "." ++
      String.ofList (cs.drop (cs.length - fraction))

/-- The text of a double; a whole number has no point. -/
def floatText (x : Float) : String :=
  let bits := x.toBits
  let sign := if bits >>> 63 = 0 then "" else "-"
  if x.isNaN then "NaN"
  else if x.isInf then sign ++ "inf"
  else if x == 0 then sign ++ "0"
  else
    let (digits, place) := (Binary.ofBits bits).shortest
    sign ++ positional digits place

end LeastLoad.Text
