import LeastLoad.Config.Value
import LeastLoad.Text.Escape

/-! # Configuration in environment variables

A variable whose name starts with a given text and an underscore, in capitals or not, sets the
value of the rest of its name. Its text is read as a truth value, a number, a list, a table or a
quoted text, and stands for itself if it is none of these. -/

namespace LeastLoad.Config.Environment

open LeastLoad.Text

def isInWord (c : Char) : Bool := !",{}[]".toList.contains c

def isInName (c : Char) : Bool := c.isAlphanum || c = '_' || c = '-'

def ofWord (cs : List Char) : Value :=
  let asInteger : Value :=
    match unsigned? cs, signed? cs with
    | some n, _ => if n < UInt64.size then .unsigned n else .text (String.ofList cs)
    | none, some n => if fitsSigned64 n then .signed n else .text (String.ofList cs)
    | none, none => .text (String.ofList cs)
  if cs.contains '.' then (double? cs).elim asInteger .float else asInteger

/-- The beginning of a text that takes up a number of bytes, unless the last of them is only a part
of a character. -/
def beginning? : Nat → List Char → Option (List Char)
  | 0, _ | _, [] => some []
  | n, c :: cs =>
    if c.utf8Size ≤ n then (beginning? (n - c.utf8Size) cs).map (c :: ·) else none

/-- The rest of a text in double quotes. If there is a backslash in it, then of what stands before
the first one only as many bytes are kept as it has characters. -/
def quotedText : Reader String := do
  let before ← Reader.takeWhile fun c => plainInQuotes c && c ≠ '"' && c ≠ '\\'
  let kept ←
    if ← Reader.sees "\\" then fun cs => (beginning? before.length before).map (·, cs)
    else pure before
  return String.ofList (kept ++ (← basicBody))

mutual

def value : Nat → Reader Value
  | 0 => failure
  | fuel + 1 => do
    Reader.skipWhile isAsciiBlank
    let v ←
      if ← Reader.sees "true" then do
        Reader.exactly "true"
        pure (Value.boolean true)
      else if ← Reader.sees "false" then do
        Reader.exactly "false"
        pure (Value.boolean false)
      else
        match ← Reader.peek with
        | some '{' => do
          let _ ← Reader.next
          Value.table <$> entries fuel
        | some '[' => do
          let _ ← Reader.next
          Value.list <$> items fuel
        | some '"' => do
          let _ ← Reader.next
          Value.text <$> quotedText
        | some '\'' => do
          let _ ← Reader.next
          let c ← Reader.next
          Reader.char '\''
          pure (Value.character c)
        | _ => (fun cs => ofWord (trimmed cs)) <$> Reader.takeWhile isInWord
    Reader.skipWhile isAsciiBlank
    return v

/-- The rest of a list after a bracket or a comma. -/
def items : Nat → Reader (List Value)
  | 0 => failure
  | fuel + 1 => do
    if (← Reader.peek) = some ']' then
      let _ ← Reader.next
      return []
    let v ← value fuel
    match ← Reader.next with
    | ',' => return v :: (← items fuel)
    | ']' => return [v]
    | _ => failure

/-- The rest of a table after a brace or a comma. -/
def entries : Nat → Reader Table
  | 0 => failure
  | fuel + 1 => do
    if (← Reader.peek) = some '}' then
      let _ ← Reader.next
      return []
    Reader.skipWhile isAsciiBlank
    let name ←
      if (← Reader.peek) = some '"' then do
        let _ ← Reader.next
        quotedText
      else do
        let cs ← Reader.takeWhile isInName
        guard (!cs.isEmpty)
        pure (String.ofList cs)
    Reader.skipWhile isAsciiBlank
    Reader.char '='
    let v ← value fuel
    match ← Reader.next with
    | ',' => return (name, v) :: (← entries fuel)
    | '}' => return [(name, v)]
    | _ => failure

end

def ofText (s : String) : Value :=
  (Reader.run? (value (2 * s.length + 2)) s).getD (.text s)

/-- The parts of the name that a variable sets, if it starts with `start` and an underscore. Dots
lead into tables; no part may be empty. -/
def nameOf? (start key : String) : Option (List String) :=
  let lower (s : String) := s.toList.map Char.toLower
  let opening := lower (start ++ "_")
  let name := lower (String.ofList (trimmed key.toList))
  if opening.isPrefixOf name then
    let parts := (String.ofList (trimmed (name.drop opening.length))).splitOn "."
    if parts.any (·.isEmpty) then none else some parts
  else none

def nested : List String → Value → Table
  | [], _ => []
  | [name], v => [(name, v)]
  | name :: rest, v => [(name, .table (nested rest v))]

def table (start : String) (vars : List (String × String)) : Table :=
  vars.foldl (fun t (key, s) =>
    match nameOf? start key with
    | none => t
    | some name => t.merge (nested name (ofText s))) []

end LeastLoad.Config.Environment
