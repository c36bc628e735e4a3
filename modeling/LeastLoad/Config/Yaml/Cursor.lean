/-! # A place in a YAML text

A cursor knows the line and the column that it stands in. Blanks are spaces and tabs. Line breaks
are a carriage return and a line feed, alone or together, and the breaks of Unicode. -/

namespace LeastLoad.Config.Yaml

def isSpace (c : Char) : Bool := c = ' ' || c = '\t'

def isBreak (c : Char) : Bool := ['\n', '\r', '\u0085', '\u2028', '\u2029'].contains c

def endsLine : Option Char → Bool
  | none => true
  | some c => isBreak c

def endsWord : Option Char → Bool
  | none => true
  | some c => isSpace c || isBreak c

def isAllowed (c : Char) : Bool :=
  let n := c.toNat
  c = '\t' || c = '\n' || c = '\r' || (0x20 ≤ n && n ≤ 0x7e) || n = 0x85 ||
    (0xa0 ≤ n && n ≤ 0xfffd) || 0x10000 ≤ n

structure Cursor where
  rest : List Char
  index : Nat := 0
  line : Nat := 0
  column : Nat := 0

namespace Cursor

def char? (c : Cursor) : Option Char := c.rest.head?

def skip (c : Cursor) (n : Nat) : Cursor :=
  { c with rest := c.rest.drop n, index := c.index + n, column := c.column + n }

def skipWhile (c : Cursor) (p : Char → Bool) : Cursor := c.skip (c.rest.takeWhile p).length

/-- Moves past spaces, to the given column at most. -/
def skipSpaces (c : Cursor) (limit : Option Nat) : Cursor :=
  let n := (c.rest.takeWhile (· = ' ')).length
  c.skip (limit.elim n fun l => min n (l - c.column))

def breakSize (c : Cursor) : Nat :=
  match c.rest with
  | '\r' :: '\n' :: _ => 2
  | x :: _ => if isBreak x then 1 else 0
  | [] => 0

/-- What the line break that follows stands for: a line feed, but the separators of lines and of
paragraphs stand for themselves. -/
def breakText (c : Cursor) : List Char :=
  if c.breakSize = 0 then []
  else if c.char? = some '\u2028' || c.char? = some '\u2029' then c.rest.take 1
  else ['\n']

def skipBreak (c : Cursor) : Cursor :=
  let n := c.breakSize
  if n = 0 then c
  else { rest := c.rest.drop n, index := c.index + n, line := c.line + 1, column := 0 }

def atMark (c : Cursor) (mark : String) : Bool :=
  c.column = 0 && mark.toList.isPrefixOf c.rest && endsWord c.rest[3]?

def atDocumentMark (c : Cursor) : Bool := c.atMark "---" || c.atMark "..."

end Cursor

abbrev Scan := StateT Cursor Option

namespace Scan

def peek (k : Nat) : Scan (Option Char) := fun c => some (c.rest[k]?, c)

def skip (n : Nat) : Scan Unit := fun c => some ((), c.skip n)

def skipWhile (p : Char → Bool) : Scan Unit := fun c => some ((), c.skipWhile p)

def takeWhile (p : Char → Bool) : Scan (List Char) := fun c =>
  some (c.rest.takeWhile p, c.skipWhile p)

def lineBreak : Scan (List Char) := fun c => some (c.breakText, c.skipBreak)

/-- A bound on the number of steps that each take a character. -/
def bound : Scan Nat := fun c => some (c.rest.length + 1, c)

def char (x : Char) : Scan Unit := do
  guard ((← peek 0) = some x)
  skip 1

def restOfLine : Scan Unit := do
  skipWhile isSpace
  if (← peek 0) = some '#' then skipWhile fun c => !isBreak c
  guard (endsLine (← peek 0))
  let _ ← lineBreak

end Scan

end LeastLoad.Config.Yaml
