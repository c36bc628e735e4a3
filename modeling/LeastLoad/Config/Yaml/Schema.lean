import LeastLoad.Config.Value
import LeastLoad.Config.Yaml.Tag

/-! # Values of YAML scalars

A plain scalar is null, a truth value or a number if it looks like one; any other scalar is a text,
unless a tag names one of these types. -/

namespace LeastLoad.Config.Yaml

open LeastLoad.Text

/-- Digits with a leading zero are a text, not a number. -/
def hasLeadingZero (cs : List Char) : Bool :=
  match cs with
  | '-' :: ds | '+' :: ds | ds => 1 < ds.length && ds.head? = some '0' && ds.all Char.isDigit

/-- A whole number without sign in a radix that its first two characters may name. -/
def magnitude? (cs : List Char) : Option Nat :=
  match cs with
  | '0' :: 'x' :: ds => natural? 16 ds
  | '0' :: 'o' :: ds => natural? 8 ds
  | '0' :: 'b' :: ds => natural? 2 ds
  | ds => natural? 10 ds

/-- The first number below zero that takes more than 128 bits. -/
def signedMin128 : Nat := UInt64.size * (signedMax64 + 1)

def integer? (cs : List Char) : Option Value :=
  if hasLeadingZero cs then none
  else
    match cs with
    | '-' :: ds =>
      (magnitude? ds).bind fun n => if n ≤ signedMin128 then some (.signed (-n)) else none
    | '+' :: ds | ds =>
      (magnitude? ds).bind fun n =>
        if n < UInt64.size * UInt64.size then some (.unsigned n) else none

/-- A double that is not too large, or one of the words for infinity and for no number. -/
def float? (cs : List Char) : Option Float :=
  let body := match cs with
    | '+' :: body => body
    | body => body
  let s := String.ofList body
  if body.head? = some '+' || (cs.head? = some '+' && body.head? = some '-') then none
  else if [".inf", ".Inf", ".INF"].contains s then some (1 / 0)
  else if ["-.inf", "-.Inf", "-.INF"].contains (String.ofList cs) then some (-1 / 0)
  else if [".nan", ".NaN", ".NAN"].contains (String.ofList cs) then some (0 / 0)
  else (double? body).filter Float.isFinite

def boolean? (s : String) : Option Bool :=
  if ["true", "True", "TRUE"].contains s then some true
  else if ["false", "False", "FALSE"].contains s then some false
  else none

def isNull (s : String) : Bool := ["~", "null", "Null", "NULL"].contains s

def ofPlain (s : String) : Value :=
  let cs := s.toList
  if s.isEmpty || isNull s then .null
  else
    match boolean? s, integer? cs with
    | some b, _ => .boolean b
    | none, some v => v
    | none, none =>
      if hasLeadingZero cs then .text s else (float? cs).elim (.text s) .float

/-- The value of a scalar. Types of the document's own are not known. -/
def scalarValue? (tag : Option Tag) (isPlain : Bool) (s : String) : Option Value :=
  let untagged := if isPlain then ofPlain s else .text s
  match tag with
  | none => some untagged
  | some t =>
    if t = Tag.core "bool" then (boolean? s).map .boolean
    else if t = Tag.core "int" then integer? s.toList
    else if t = Tag.core "float" then (float? s.toList).map .float
    else if t = Tag.core "null" then (if isNull s then some .null else none)
    else if t.isLocal then none
    else if t.head? = Tag.nonSpecific.head? then some untagged
    else some (.text s)

end LeastLoad.Config.Yaml
