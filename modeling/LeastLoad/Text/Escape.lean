import LeastLoad.Text.Numeral
import LeastLoad.Text.Reader

/-! # Text between quotes

Readers for the rest of a quoted text after its opening quote; the closing quote is taken as
well. Control characters may not stand in it as they are. -/

namespace LeastLoad.Text

/-- The character of a code point, unless it is a surrogate or too large. -/
def scalar? (n : Nat) : Option Char :=
  if n.isValidChar then some (Char.ofNat n) else none

def namedChar? (digits : List Char) : Option Char := natural? 16 digits >>= scalar?

def controlOfLetter? : Char → Option Char
  | 'b' => some '\x08'
  | 't' => some '\t'
  | 'n' => some '\n'
  | 'f' => some '\x0c'
  | 'r' => some '\r'
  | _ => none

def plainInQuotes (c : Char) : Bool := c = '\t' || (' ' ≤ c && c ≠ '\x7f')

/-- Double quotes with `\uXXXX` and `\UXXXXXXXX` for any character. -/
def basicBody : Reader (List Char)
  | [] => none
  | '"' :: rest => some ([], rest)
  | '\\' :: 'u' :: a :: b :: c :: d :: rest => do
    let x ← namedChar? [a, b, c, d]
    let (xs, rest) ← basicBody rest
    return (x :: xs, rest)
  | '\\' :: 'U' :: a :: b :: c :: d :: e :: f :: g :: h :: rest => do
    let x ← namedChar? [a, b, c, d, e, f, g, h]
    let (xs, rest) ← basicBody rest
    return (x :: xs, rest)
  | '\\' :: c :: rest => do
    let x ← if c = '"' || c = '\\' then some c else controlOfLetter? c
    let (xs, rest) ← basicBody rest
    return (x :: xs, rest)
  | c :: rest => do
    guard (plainInQuotes c && c ≠ '\\')
    let (xs, rest) ← basicBody rest
    return (c :: xs, rest)

def basicString : Reader String := String.ofList <$> basicBody

def literalString : Reader String := do
  let cs ← Reader.takeWhile fun c => plainInQuotes c && c ≠ '\''
  Reader.char '\''
  return String.ofList cs

end LeastLoad.Text
