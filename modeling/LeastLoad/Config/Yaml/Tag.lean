import LeastLoad.Config.Yaml.Cursor
import LeastLoad.Text.Numeral

/-! # Tags, anchors and directives in YAML

A tag is written with a handle, which a directive may explain, and the rest of its name, in which
octets may be given by two hexadecimal digits after a percent sign. -/

namespace LeastLoad.Config.Yaml

open LeastLoad.Text

abbrev Tag := List UInt8

def Tag.ofText (s : String) : Tag := s.toUTF8.toList

def Tag.core (name : String) : Tag := Tag.ofText ("tag:yaml.org,2002:" ++ name)

/-- The tag that leaves a scalar to be read like any other. -/
def Tag.nonSpecific : Tag := Tag.ofText "!"

def Tag.isLocal (t : Tag) : Bool :=
  t.head? = some 0x21 && (String.fromUTF8? (ByteArray.mk t.toArray)).isSome

def isNameChar (c : Char) : Bool := c.isAlphanum || c = '_' || c = '-'

/-- Whether a character may stand in a tag as it is; some only inside of angle brackets. -/
def isTagChar (inBrackets : Bool) (c : Char) : Bool :=
  isNameChar c || ";/?:@&=+$.!~*'()".toList.contains c || (inBrackets && ",[]".toList.contains c)

def octet : Scan Nat := fun c =>
  match c.rest with
  | '%' :: a :: b :: _ => (natural? 16 [a, b]).map (·, c.skip 3)
  | _ => none

/-- How many octets a character takes whose first is the given one. -/
def octetCount? (first : Nat) : Option Nat :=
  if first < 0x80 then some 1
  else if first < 0xc0 then none
  else if first < 0xe0 then some 2
  else if first < 0xf0 then some 3
  else if first < 0xf8 then some 4
  else none

def furtherOctets : Nat → Scan Tag
  | 0 => pure []
  | n + 1 => do
    let o ← octet
    guard (0x80 ≤ o && o < 0xc0)
    return o.toUInt8 :: (← furtherOctets n)

def escapedOctets : Scan Tag := do
  let first ← octet
  let n ← fun c => (octetCount? first).map (·, c)
  return first.toUInt8 :: (← furtherOctets (n - 1))

def tagTail (inBrackets : Bool) : Nat → Scan Tag
  | 0 => failure
  | fuel + 1 => do
    match ← Scan.peek 0 with
    | none => return []
    | some c =>
      if c = '%' then
        let octets ← escapedOctets
        return octets ++ (← tagTail inBrackets fuel)
      else if isTagChar inBrackets c then
        Scan.skip 1
        return c.toNat.toUInt8 :: (← tagTail inBrackets fuel)
      else return []

/-- The rest of a tag's name, which a zero octet ends. -/
def tagName (inBrackets : Bool) : Scan (Tag × Bool) := do
  let name ← tagTail inBrackets (← Scan.bound)
  return (name.takeWhile (· ≠ 0), name.isEmpty)

def handle : Scan String := do
  Scan.char '!'
  let name ← Scan.takeWhile isNameChar
  if (← Scan.peek 0) = some '!' then
    Scan.skip 1
    return String.ofList ('!' :: name ++ ['!'])
  else return String.ofList ('!' :: name)

def isClosedHandle (s : String) : Bool := 1 < s.length && s.endsWith "!"

/-- The handle of a tag and the rest of its name. A tag in angle brackets has no handle, nor has a
lone exclamation mark. -/
def tag : Scan (String × Tag) := do
  if (← Scan.peek 1) = some '<' then
    Scan.skip 2
    let (name, isEmpty) ← tagName true
    guard (!isEmpty)
    Scan.char '>'
    return ("", name)
  else
    let h ← handle
    let (name, isEmpty) ← tagName false
    if isClosedHandle h then
      guard (!isEmpty)
      return (h, name)
    else
      let name := Tag.ofText (String.ofList (h.toList.drop 1)) ++ name
      return if name.isEmpty then ("", Tag.nonSpecific) else ("!", name)

def anchorName : Scan String := do
  Scan.skip 1
  let name ← Scan.takeWhile isNameChar
  let after ← Scan.peek 0
  guard (!name.isEmpty && (endsWord after || after.any fun c => "?:,]\x7d%@`".toList.contains c))
  return String.ofList name

inductive Directive where
  | version (major minor : Nat)
  | handle (name : String) (start : Tag)

def versionNumber : Scan Nat := do
  let ds ← Scan.takeWhile Char.isDigit
  guard (ds.length ≤ 9)
  fun c => (natural? 10 ds).map (·, c)

def versionDirective : Scan Directive := do
  Scan.skipWhile isSpace
  let major ← versionNumber
  Scan.char '.'
  return .version major (← versionNumber)

def handleDirective : Scan Directive := do
  Scan.skipWhile isSpace
  let name ← handle
  guard (name = "!" || isClosedHandle name)
  guard ((← Scan.peek 0).any isSpace)
  Scan.skipWhile isSpace
  let (start, isEmpty) ← tagName true
  guard (!isEmpty && endsWord (← Scan.peek 0))
  return .handle name start

def directive : Scan Directive := do
  Scan.skip 1
  let name ← Scan.takeWhile isNameChar
  guard (endsWord (← Scan.peek 0))
  let d ←
    if name = "YAML".toList then versionDirective
    else if name = "TAG".toList then handleDirective
    else failure
  Scan.restOfLine
  return d

end LeastLoad.Config.Yaml
