/-! # Reading text from left to right

A reader takes characters off the front of a text, or fails. -/

namespace LeastLoad.Text

abbrev Reader := StateT (List Char) Option

namespace Reader

def peek : Reader (Option Char) := fun cs => some (cs.head?, cs)

def next : Reader Char
  | [] => none
  | c :: cs => some (c, cs)

def char (c : Char) : Reader Unit := do
  guard ((← next) = c)

def exactly (s : String) : Reader Unit := fun cs =>
  if s.toList.isPrefixOf cs then some ((), cs.drop s.length) else none

def sees (s : String) : Reader Bool := fun cs => some (s.toList.isPrefixOf cs, cs)

def takeWhile (p : Char → Bool) : Reader (List Char) := fun cs =>
  some (cs.takeWhile p, cs.dropWhile p)

def skipWhile (p : Char → Bool) : Reader Unit := fun cs => some ((), cs.dropWhile p)

def atEnd : Reader Unit
  | [] => some ((), [])
  | _ :: _ => none

/-- The number of characters left, which bounds how often a reader can take one. -/
def remaining : Reader Nat := fun cs => some (cs.length, cs)

/-- Runs a reader on a whole text, all of which it has to take. -/
def run? {α : Type} (r : Reader α) (s : String) : Option α :=
  match r s.toList with
  | some (a, []) => some a
  | _ => none

end Reader

def isBlank (c : Char) : Bool :=
  let n := c.toNat
  (0x09 ≤ n && n ≤ 0x0d) || n = 0x20 || n = 0x85 || n = 0xa0 || n = 0x1680 ||
    (0x2000 ≤ n && n ≤ 0x200a) || n = 0x2028 || n = 0x2029 || n = 0x202f || n = 0x205f || n = 0x3000

/-- The blanks of ASCII, without the vertical tab. -/
def isAsciiBlank (c : Char) : Bool :=
  c = ' ' || c = '\t' || c = '\n' || c = '\r' || c = '\x0c'

def withoutOrderMark (s : String) : String :=
  match s.toList with
  | '\ufeff' :: cs => String.ofList cs
  | _ => s

def trimmed (cs : List Char) : List Char :=
  ((cs.dropWhile isBlank).reverse.dropWhile isBlank).reverse

end LeastLoad.Text
