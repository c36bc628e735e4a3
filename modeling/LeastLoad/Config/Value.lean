import LeastLoad.Text.Shortest
import LeastLoad.Text.Unprintable
import LeastLoad.Time

/-! # Values of a configuration

A configuration is a table of named values. In a table a later entry of the same name hides an
earlier one; merging a table into another keeps what the newer one does not name. -/

namespace LeastLoad.Text

def hexadecimal (n : Nat) : String := String.ofList (Nat.toDigits 16 n)

/-- How one character is written between quotes. Common controls have letters of their own, and what
has no shape is given by its code point. -/
def escaped (c : Char) : String :=
  if c = '\x00' then "\\0"
  else if c = '\t' then "\\t"
  else if c = '\n' then "\\n"
  else if c = '\r' then "\\r"
  else if c = '"' then "\\\""
  else if c = '\\' then "\\\\"
  else if unprintable c then "\\u\x7b" ++ hexadecimal c.toNat ++ "\x7d"
  else String.singleton c

def quoted (s : String) : String := "\"" ++ String.join (s.toList.map escaped) ++ "\""

end LeastLoad.Text

namespace LeastLoad.Config

inductive Value where
  | null
  | boolean (b : Bool)
  | unsigned (n : Nat)
  | signed (n : Int)
  | float (x : Float)
  | character (c : Char)
  | text (s : String)
  | list (items : List Value)
  | table (entries : List (String × Value))

abbrev Table := List (String × Value)

namespace Value

/-- What a value is called when another was expected. A character counts as a text. -/
def describe : Value → String
  | null => "unit"
  | boolean b => "bool " ++ toString b
  | unsigned n =>
    if n < UInt64.size then "unsigned int `" ++ toString n ++ "`"
    else "integer `" ++ toString n ++ "` as u128"
  | signed n =>
    if fitsSigned64 n then "signed int `" ++ toString n ++ "`"
    else "integer `" ++ toString n ++ "` as i128"
  | float x => "float `" ++ Text.floatText x ++ "`"
  | character c => "string " ++ Text.quoted (String.singleton c)
  | text s => "string " ++ Text.quoted s
  | list _ => "sequence"
  | table _ => "map"

end Value

namespace Table

/-- The value of a name: that of its last entry. -/
def find? (t : Table) (name : String) : Option Value :=
  (t.reverse.find? (·.1 = name)).map (·.2)

def contains (t : Table) (name : String) : Bool := t.any (·.1 = name)

def set (t : Table) (name : String) (v : Value) : Table :=
  t.filter (·.1 ≠ name) ++ [(name, v)]

/-- The name that comes first in the order of code points. -/
def firstName? (t : Table) : Option String :=
  t.foldl (fun first (name, _) =>
    match first with
    | none => some name
    | some least => some (if name < least then name else least)) none

end Table

mutual

/-- A newer value over an older one: tables are merged, anything else is replaced. -/
def Value.merge (older : Value) : Value → Value
  | .table entries =>
    match older with
    | .table olds => .table (Table.merge olds entries)
    | _ => .table entries
  | newer => newer

def Table.merge (older : Table) : Table → Table
  | [] => older
  | (name, v) :: rest =>
    let merged := match Table.find? older name with
      | some old => Value.merge old v
      | none => v
    Table.merge (Table.set older name merged) rest

end

end LeastLoad.Config
