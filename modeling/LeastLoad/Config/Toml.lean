import LeastLoad.Config.Toml.Moment
import LeastLoad.Config.Toml.Tree
import LeastLoad.Text.Escape

/-! # Configuration in TOML

A document is read into statements, which assign values to names or open tables, and which make a
tree when they are carried out one after another. All whole numbers are signed. -/

namespace LeastLoad.Config.Toml

open LeastLoad.Text

def isSpace (c : Char) : Bool := c = ' ' || c = '\t'

def comment : Reader Unit := do
  if (← Reader.peek) = some '#' then Reader.skipWhile plainInQuotes

def lineBreak : Reader Unit := do
  if (← Reader.peek) = some '\r' then Reader.char '\r'
  Reader.char '\n'

/-- Ends a statement: blanks and a comment up to a line break or the end of the text. -/
def endOfLine : Reader Unit := do
  Reader.skipWhile isSpace
  comment
  if (← Reader.peek).isSome then lineBreak

def filling : Nat → Reader Unit
  | 0 => pure ()
  | fuel + 1 => do
    Reader.skipWhile isSpace
    comment
    match ← Reader.peek with
    | some '\n' | some '\r' =>
      lineBreak
      filling fuel
    | _ => pure ()

def isBare (c : Char) : Bool := c.isAlphanum || c = '_' || c = '-'

def simpleName : Reader String := do
  match ← Reader.peek with
  | some '"' =>
    let _ ← Reader.next
    basicString
  | some '\'' =>
    let _ ← Reader.next
    literalString
  | _ =>
    let cs ← Reader.takeWhile isBare
    guard (!cs.isEmpty)
    return String.ofList cs

def nameParts : Nat → Reader (List String)
  | 0 => failure
  | fuel + 1 => do
    Reader.skipWhile isSpace
    let part ← simpleName
    Reader.skipWhile isSpace
    if (← Reader.peek) = some '.' then
      let _ ← Reader.next
      return part :: (← nameParts fuel)
    else return [part]

/-- Lists and tables may be nested, and a name have parts, up to this number. -/
def deepest : Nat := 79

def dottedName : Reader (List String) := nameParts deepest

def blankLines : Nat → Reader Unit
  | 0 => pure ()
  | fuel + 1 => do
    Reader.skipWhile isSpace
    if (← Reader.sees "\n") || (← Reader.sees "\r\n") then
      lineBreak
      blankLines fuel

/-- Drops the rest of a line that holds nothing more, and the blank lines after it. The first
character has been taken. -/
def lineEnding (first : Char) : Reader Unit := do
  if isSpace first then
    Reader.skipWhile isSpace
    lineBreak
  else if first = '\r' then Reader.char '\n'
  blankLines ((← Reader.remaining) + 1)

/-- The rest of a text in three double quotes. A backslash at the end of a line drops the line
break and the blanks after it. -/
def longBasic : Nat → Reader (List Char)
  | 0 => failure
  | fuel + 1 => do
    if ← Reader.sees "\"\"\"\"\"" then
      Reader.exactly "\"\"\"\"\""
      return ['"', '"']
    else if ← Reader.sees "\"\"\"\"" then
      Reader.exactly "\"\"\"\""
      return ['"']
    else if ← Reader.sees "\"\"\"" then
      Reader.exactly "\"\"\""
      return []
    else
      match ← Reader.next with
      | '\\' =>
        match ← Reader.next with
        | 'u' =>
          let x ← fun cs => (namedChar? (cs.take 4)).map (·, cs.drop 4)
          return x :: (← longBasic fuel)
        | 'U' =>
          let x ← fun cs => (namedChar? (cs.take 8)).map (·, cs.drop 8)
          return x :: (← longBasic fuel)
        | c =>
          if c = '"' || c = '\\' then return c :: (← longBasic fuel)
          else if isSpace c || c = '\n' || c = '\r' then
            lineEnding c
            longBasic fuel
          else
            let x ← fun cs => (controlOfLetter? c).map (·, cs)
            return x :: (← longBasic fuel)
      | '\r' =>
        Reader.char '\n'
        return '\n' :: (← longBasic fuel)
      | c =>
        guard (plainInQuotes c || c = '\n')
        return c :: (← longBasic fuel)

/-- The rest of a text in three single quotes. -/
def longLiteral : Nat → Reader (List Char)
  | 0 => failure
  | fuel + 1 => do
    if ← Reader.sees "'''''" then
      Reader.exactly "'''''"
      return ['\'', '\'']
    else if ← Reader.sees "''''" then
      Reader.exactly "''''"
      return ['\'']
    else if ← Reader.sees "'''" then
      Reader.exactly "'''"
      return []
    else
      match ← Reader.next with
      | '\r' =>
        Reader.char '\n'
        return '\n' :: (← longLiteral fuel)
      | c =>
        guard (plainInQuotes c || c = '\n')
        return c :: (← longLiteral fuel)

/-- Drops the line break right after the opening quotes. -/
def openingBreak : Reader Unit := do
  if (← Reader.sees "\n") || (← Reader.sees "\r\n") then lineBreak

/-- The digits of a numeral, in which an underscore may stand between two digits. -/
def withoutUnderscores? (isDigit : Char → Bool) : List Char → Option (List Char)
  | [] => some []
  | '_' :: _ => none
  | c :: '_' :: d :: rest =>
    if isDigit c && isDigit d then (withoutUnderscores? isDigit (d :: rest)).map (c :: ·) else none
  | c :: rest => (withoutUnderscores? isDigit rest).map (c :: ·)

def wholeNumber? (radix : Nat) (cs : List Char) : Option Nat :=
  withoutUnderscores? (fun c => (digitValue? radix c).isSome) cs >>= natural? radix

def isDigits (cs : List Char) : Bool := !cs.isEmpty && cs.all Char.isDigit

/-- A day or a time is a table with one entry of this name. -/
def momentName : String := "$__toml_private_datetime"

def signedIn64? (n : Int) : Option Value :=
  if fitsSigned64 n then some (.signed n) else none

def ofWord? (cs : List Char) : Option Value :=
  match cs with
  | '0' :: 'x' :: ds => wholeNumber? 16 ds >>= fun n => signedIn64? n
  | '0' :: 'o' :: ds => wholeNumber? 8 ds >>= fun n => signedIn64? n
  | '0' :: 'b' :: ds => wholeNumber? 2 ds >>= fun n => signedIn64? n
  | _ =>
    if cs = "true".toList then some (.boolean true)
    else if cs = "false".toList then some (.boolean false)
    else if isMoment cs then some (.table [(momentName, .text (String.ofList cs))])
    else
      let (negative, body) := match cs with
        | '-' :: body => (true, body)
        | '+' :: body => (false, body)
        | body => (false, body)
      let signedDouble (x : Float) : Value := .float (if negative then -x else x)
      if body = "inf".toList then some (signedDouble (1 / 0))
      else if body = "nan".toList then some (signedDouble (0 / 0))
      else
        withoutUnderscores? Char.isDigit body >>= fun body =>
        let whole := body.takeWhile Char.isDigit
        let rest := body.dropWhile Char.isDigit
        if whole.isEmpty || (whole.head? = some '0' && 1 < whole.length) then none
        else if rest.isEmpty then
          natural? 10 whole >>= fun n => signedIn64? (if negative then -(n : Int) else n)
        else if rest.head? = some '.' && !(rest.drop 1).head?.any Char.isDigit then none
        else (Decimal.ofChars? body).bind fun d =>
          let x := if negative then -d.toDouble else d.toDouble
          if x == 1 / 0 then none else some (.float x)

def isWord (c : Char) : Bool := c.isAlphanum || "_+-.:".toList.contains c

/-- A word; a day may be followed by a blank and a time. -/
def word : Reader Value := do
  let cs ← Reader.takeWhile isWord
  let more ← fun rest =>
    match rest with
    | ' ' :: h :: k :: ':' :: tail =>
      if isMoment cs && cs.length = 10 && h.isDigit && k.isDigit then
        let time := h :: k :: ':' :: tail.takeWhile isWord
        some (' ' :: time, tail.dropWhile isWord)
      else some ([], rest)
    | _ => some ([], rest)
  fun rest => (ofWord? (cs ++ more)).map (·, rest)

/-- Values with commas between them, up to a bracket, which is taken too. A comma may follow the
last one. -/
def items (item : Reader Value) : Nat → Reader (List Value)
  | 0 => failure
  | fuel + 1 => do
    filling ((← Reader.remaining) + 1)
    if (← Reader.peek) = some ']' then
      let _ ← Reader.next
      return []
    let v ← item
    filling ((← Reader.remaining) + 1)
    match ← Reader.next with
    | ',' => return v :: (← items item fuel)
    | ']' => return [v]
    | _ => failure

def assignment (item : Reader Value) : Reader (List String × Value) := do
  let name ← dottedName
  Reader.char '='
  Reader.skipWhile isSpace
  return (name, ← item)

/-- Assignments on one line with commas between them, up to a brace, which is taken too. -/
def assignments (item : Reader Value) : Nat → Reader (List (List String × Value))
  | 0 => failure
  | fuel + 1 => do
    let a ← assignment item
    Reader.skipWhile isSpace
    match ← Reader.next with
    | ',' => return a :: (← assignments item fuel)
    | '}' => return [a]
    | _ => failure

/-- A value in which lists and tables are nested no deeper than `depth`. -/
def value (depth : Nat) : Reader Value := do
  let bound := (← Reader.remaining) + 1
  if ← Reader.sees "\"\"\"" then
    Reader.exactly "\"\"\""
    openingBreak
    return .text (String.ofList (← longBasic bound))
  else if ← Reader.sees "'''" then
    Reader.exactly "'''"
    openingBreak
    return .text (String.ofList (← longLiteral bound))
  else
    match ← Reader.peek with
    | some '"' =>
      let _ ← Reader.next
      return .text (← basicString)
    | some '\'' =>
      let _ ← Reader.next
      return .text (← literalString)
    | some '[' =>
      let _ ← Reader.next
      match depth with
      | 0 => failure
      | depth + 1 => return .list (← items (value depth) bound)
    | some '{' =>
      let _ ← Reader.next
      match depth with
      | 0 => failure
      | depth + 1 =>
        Reader.skipWhile isSpace
        if (← Reader.peek) = some '}' then
          let _ ← Reader.next
          return .table []
        else
          let as ← assignments (value depth) bound
          fun rest => (Branches.ofAssignments? as).map fun t => (.table t.toTable, rest)
    | _ => word

inductive Statement where
  | assign (name : List String) (v : Value)
  | header (name : List String)
  | arrayHeader (name : List String)

def statement : Reader Statement := do
  if ← Reader.sees "[[" then
    Reader.exactly "[["
    let name ← dottedName
    Reader.exactly "]]"
    endOfLine
    return .arrayHeader name
  else if ← Reader.sees "[" then
    Reader.exactly "["
    let name ← dottedName
    Reader.exactly "]"
    endOfLine
    return .header name
  else
    let (name, v) ← assignment (value deepest)
    endOfLine
    return .assign name v

def statements : Nat → Reader (List Statement)
  | 0 => failure
  | fuel + 1 => do
    filling ((← Reader.remaining) + 1)
    if (← Reader.peek).isNone then return []
    let s ← statement
    return s :: (← statements fuel)

structure Progress where
  root : Branches := []
  /-- The table that the next assignments belong to. -/
  current : List String := []

namespace Progress

def carryOut (p : Progress) : Statement → Option Progress
  | .assign name v =>
    (p.root.alter .implied (Branches.assign name v) .header p.current).map ({ p with root := · })
  | .header name => (p.root.openTable name).map (⟨·, name⟩)
  | .arrayHeader name => (p.root.openRow name).map (⟨·, name⟩)

end Progress

def table? (s : String) : Option Table := do
  let parsed ← Reader.run? (statements (s.length + 1)) (withoutOrderMark s)
  let done ← parsed.foldlM Progress.carryOut {}
  return done.root.toTable

end LeastLoad.Config.Toml
