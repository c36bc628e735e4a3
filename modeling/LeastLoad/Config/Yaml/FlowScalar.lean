import LeastLoad.Config.Yaml.Cursor
import LeastLoad.Text.Escape

/-! # Plain and quoted scalars in YAML

They may go on over several lines. Blanks around a line break are dropped; a single break is read as
a space, and of more than one the first is dropped. -/

namespace LeastLoad.Config.Yaml

open LeastLoad.Text

/-- Blanks and line breaks between two words. -/
structure Gap where
  /-- Blanks before any break. -/
  blanks : List Char := []
  isBroken : Bool := false
  firstBreak : List Char := []
  moreBreaks : List Char := []

namespace Gap

def text (g : Gap) : List Char :=
  if !g.isBroken then g.blanks
  else if g.firstBreak = ['\n'] then (if g.moreBreaks.isEmpty then [' '] else g.moreBreaks)
  else g.firstBreak ++ g.moreBreaks

/-- Reads blanks and breaks as far as they go. After a break no tab may stand left of `margin`. -/
def extend (margin : Nat) : Nat → Gap → Scan Gap
  | 0, g => pure g
  | fuel + 1, g => do
    match ← Scan.peek 0 with
    | none => return g
    | some c =>
      if isSpace c then
        guard (!(g.isBroken && c = '\t' && (← get).column < margin))
        Scan.skip 1
        extend margin fuel (if g.isBroken then g else { g with blanks := g.blanks ++ [c] })
      else if isBreak c then
        let b ← Scan.lineBreak
        extend margin fuel
          (if g.isBroken then { g with moreBreaks := g.moreBreaks ++ b }
          else { g with isBroken := true, firstBreak := b })
      else return g

def read (margin : Nat) (start : Gap) : Scan Gap := do
  extend margin (← Scan.bound) start

end Gap

def escape? : Char → Option Char
  | '0' => some '\x00'
  | 'a' => some '\x07'
  | 'v' => some '\x0b'
  | 'e' => some '\x1b'
  | ' ' => some ' '
  | '"' => some '"'
  | '/' => some '/'
  | '\\' => some '\\'
  | 'N' => some '\u0085'
  | '_' => some '\u00a0'
  | 'L' => some '\u2028'
  | 'P' => some '\u2029'
  | '\t' => some '\t'
  | c => controlOfLetter? c

def hexadecimal (count : Nat) : Scan Char := fun c =>
  if (c.rest.take count).length = count then
    (namedChar? (c.rest.take count)).map (·, c.skip count)
  else none

def escaped : Scan Char := do
  match ← Scan.peek 1 with
  | none => failure
  | some 'x' =>
    Scan.skip 2
    hexadecimal 2
  | some 'u' =>
    Scan.skip 2
    hexadecimal 4
  | some 'U' =>
    Scan.skip 2
    hexadecimal 8
  | some c =>
    Scan.skip 2
    fun cursor => (escape? c).map (·, cursor)

/-- The rest of a quoted scalar. No mark of a document may stand in it. In single quotes two quotes
stand for one; in double quotes a backslash before a line break drops it. -/
def quotedBody (quote : Char) : Nat → Scan (List Char)
  | 0 => failure
  | fuel + 1 => do
    guard (!(← get).atDocumentMark)
    match ← Scan.peek 0 with
    | none => failure
    | some c =>
      if isSpace c || isBreak c then
        let g ← Gap.read 0 {}
        return g.text ++ (← quotedBody quote fuel)
      else if c = '\'' && quote = '\'' && (← Scan.peek 1) = some '\'' then
        Scan.skip 2
        return '\'' :: (← quotedBody quote fuel)
      else if c = quote then
        Scan.skip 1
        return []
      else if c = '\\' && quote = '"' then
        if (← Scan.peek 1).any isBreak then
          Scan.skip 1
          let _ ← Scan.lineBreak
          let g ← Gap.read 0 { isBroken := true }
          return g.text ++ (← quotedBody quote fuel)
        else
          let x ← escaped
          return x :: (← quotedBody quote fuel)
      else
        Scan.skip 1
        return c :: (← quotedBody quote fuel)

def quotedScalar (quote : Char) : Scan String := do
  Scan.char quote
  return String.ofList (← quotedBody quote (← Scan.bound))

def isFlowMark (c : Char) : Bool := ",[]{}".toList.contains c

def endsPlain (inFlow : Bool) (c : Char) (after : Option Char) : Bool :=
  (c = ':' && endsWord after) || (inFlow && isFlowMark c)

/-- The rest of a plain scalar after a gap, and whether it ended at a line break. Outside of
brackets its lines reach in to the margin at least. -/
def plainBody (inFlow : Bool) (margin : Nat) : Nat → Gap → Scan (List Char × Bool)
  | 0, _ => failure
  | fuel + 1, g => do
    match ← Scan.peek 0 with
    | none => return ([], g.isBroken)
    | some c =>
      let after ← Scan.peek 1
      if isSpace c || isBreak c then
        let g ← Gap.read margin {}
        let c ← get
        if (!inFlow && c.column < margin) || c.atDocumentMark || c.char? = some '#' then
          return ([], g.isBroken)
        else plainBody inFlow margin fuel g
      else if inFlow && c = ':' && after.any fun d => d = '?' || isFlowMark d then failure
      else if endsPlain inFlow c after then return ([], g.isBroken)
      else
        Scan.skip 1
        let (cs, isBroken) ← plainBody inFlow margin fuel {}
        return (g.text ++ c :: cs, isBroken)

def plainScalar (inFlow : Bool) (margin : Nat) : Scan (String × Bool) := do
  let (cs, isBroken) ← plainBody inFlow margin (2 * (← Scan.bound)) {}
  return (String.ofList cs, isBroken)

def beginsPlain (inFlow : Bool) (c : Char) (after : Option Char) : Bool :=
  if c = '-' then !after.any isSpace
  else if c = '?' || c = ':' then !inFlow && !endsWord after
  else !(endsWord (some c) || isFlowMark c || "#&*!|>'\"%@`".toList.contains c)

end LeastLoad.Config.Yaml
