import LeastLoad.Config.Yaml.BlockScalar
import LeastLoad.Config.Yaml.FlowScalar
import LeastLoad.Config.Yaml.Tag

/-! # Tokens of a YAML document

Outside of brackets the indentation of a line tells which lists and tables go on and which end. A
name is known for one only at the colon after it, so whatever may be a name is remembered until
then. -/

namespace LeastLoad.Config.Yaml

inductive Token where
  | directive (d : Directive)
  | documentStart
  | documentEnd
  | blockList
  | blockTable
  | blockEnd
  | openBracket
  | closeBracket
  | openBrace
  | closeBrace
  | comma
  | dash
  | name
  | value
  | alias (anchor : String)
  | anchor (name : String)
  | tag (handle : String) (rest : Tag)
  | scalar (isPlain : Bool) (text : String)

/-- Something that a colon may turn into a name. -/
structure Candidate where
  /-- The number of tokens before it. -/
  place : Nat
  /-- Whether it has to be a name, because a table goes on at its column. -/
  isRequired : Bool
  start : Cursor

structure Layout where
  cursor : Cursor
  /-- The columns of the open lists and tables, the innermost first. -/
  indents : List Nat := []
  /-- What may be a name: for the innermost brackets first, and last for the text outside. -/
  candidates : List (Option Candidate) := [none]
  /-- Whether a name may begin here. -/
  allowsName : Bool := true
  tokens : Array Token := #[]

namespace Layout

def inFlow (l : Layout) : Bool := 1 < l.candidates.length

/-- The column that lines have to reach in order to belong to the innermost list or table. -/
def margin (l : Layout) : Nat := l.indents.head?.elim 0 (· + 1)

def push (l : Layout) (t : Token) : Layout := { l with tokens := l.tokens.push t }

def skip (l : Layout) (n : Nat) : Layout := { l with cursor := l.cursor.skip n }

/-- Ends the lists and tables at a column and right of it. Brackets hide indentation. -/
def closeFrom (l : Layout) (column : Nat) : Layout :=
  if l.inFlow then l
  else
    let ended := l.indents.takeWhile (column ≤ ·)
    { l with
      indents := l.indents.drop ended.length
      tokens := l.tokens ++ Array.replicate ended.length .blockEnd }

def openAt (l : Layout) (column place : Nat) (t : Token) : Layout :=
  if !l.inFlow && l.indents.head?.all (· < column) then
    { l with indents := column :: l.indents, tokens := l.tokens.insertIdxIfInBounds place t }
  else l

def dropCandidate (l : Layout) : Option Layout :=
  match l.candidates with
  | some k :: rest => if k.isRequired then none else some { l with candidates := none :: rest }
  | _ => some l

def saveCandidate (l : Layout) : Option Layout :=
  if l.allowsName then
    l.dropCandidate.map fun l =>
      let k : Candidate :=
        { place := l.tokens.size
          isRequired := !l.inFlow && l.indents.head? = some l.cursor.column
          start := l.cursor }
      { l with candidates := some k :: l.candidates.drop 1 }
  else some l

/-- Forgets what can no longer be a name, as that has at most 1024 characters on one line. -/
def dropStale (l : Layout) : Option Layout := do
  let candidates ← l.candidates.mapM fun
    | none => some none
    | some k =>
      if k.start.line < l.cursor.line || k.start.index + 1024 < l.cursor.index then
        if k.isRequired then none else some none
      else some (some k)
  return { l with candidates }

/-- Moves on to the next token: past spaces, comments and line breaks, and past tabs where no name
may begin. -/
def skipFilling : Nat → Layout → Layout
  | 0, l => l
  | fuel + 1, l =>
    let c := l.cursor
    let c := if c.column = 0 && c.char? = some '\ufeff' then c.skip 1 else c
    let c := c.skipWhile fun d => d = ' ' || (d = '\t' && (l.inFlow || !l.allowsName))
    let c := if c.char? = some '#' then c.skipWhile fun d => !isBreak d else c
    if c.char?.any isBreak then
      skipFilling fuel { l with cursor := c.skipBreak, allowsName := l.allowsName || !l.inFlow }
    else { l with cursor := c }

def scan {α : Type} (l : Layout) (s : Scan α) (token : α → Token) : Option Layout :=
  (s l.cursor).map fun (a, cursor) => { l with cursor, tokens := l.tokens.push (token a) }

def boundary (l : Layout) : Option Layout :=
  (l.closeFrom 0).dropCandidate.map ({ · with allowsName := false })

def openFlow (l : Layout) (t : Token) : Option Layout :=
  l.saveCandidate.map fun l =>
    { (l.skip 1).push t with candidates := none :: l.candidates, allowsName := true }

def closeFlow (l : Layout) (t : Token) : Option Layout :=
  l.dropCandidate.map fun l =>
    let outer := if l.inFlow then l.candidates.drop 1 else l.candidates
    { (l.skip 1).push t with candidates := outer, allowsName := false }

def comma (l : Layout) : Option Layout :=
  l.dropCandidate.map fun l => { (l.skip 1).push .comma with allowsName := true }

def dash (l : Layout) : Option Layout :=
  if !l.inFlow && !l.allowsName then none
  else
    (l.openAt l.cursor.column l.tokens.size .blockList).dropCandidate.map fun l =>
      { (l.skip 1).push .dash with allowsName := true }

def name (l : Layout) : Option Layout :=
  if !l.inFlow && !l.allowsName then none
  else
    (l.openAt l.cursor.column l.tokens.size .blockTable).dropCandidate.map fun l =>
      { (l.skip 1).push .name with allowsName := !l.inFlow }

/-- A colon. It makes a name of what has been remembered. -/
def value (l : Layout) : Option Layout :=
  match l.candidates with
  | some k :: rest =>
    let l := { l with candidates := none :: rest, allowsName := false }
    let l := { l with tokens := l.tokens.insertIdxIfInBounds k.place .name }
    some (((l.openAt k.start.column k.place .blockTable).skip 1).push .value)
  | _ =>
    if !l.inFlow && !l.allowsName then none
    else
      let l := l.openAt l.cursor.column l.tokens.size .blockTable
      some { (l.skip 1).push .value with allowsName := !l.inFlow }

/-- An anchor, an alias, a tag or a scalar on one line, all of which may be names. -/
def word {α : Type} (l : Layout) (s : Scan α) (token : α → Token) : Option Layout := do
  let l ← l.saveCandidate
  { l with allowsName := false }.scan s token

def tagged (l : Layout) : Option Layout := do
  let l ← l.word Yaml.tag fun (handle, rest) => .tag handle rest
  let after := l.cursor.char?
  guard (endsWord after || (l.inFlow && after = some ','))
  return l

def plain (l : Layout) : Option Layout := do
  let l ← l.saveCandidate
  let ((s, isBroken), cursor) ← plainScalar l.inFlow l.margin l.cursor
  return { l.push (.scalar true s) with cursor, allowsName := isBroken }

def block (l : Layout) (isLiteral : Bool) : Option Layout := do
  let l ← l.dropCandidate
  { l with allowsName := true }.scan (blockScalar isLiteral l.margin) (.scalar false)

def next (l : Layout) (c : Char) : Option Layout :=
  let after := l.cursor.rest[1]?
  if l.cursor.column = 0 && c = '%' then do (← l.boundary).scan Yaml.directive .directive
  else if l.cursor.atMark "---" then do return ((← l.boundary).skip 3).push .documentStart
  else if l.cursor.atMark "..." then do return ((← l.boundary).skip 3).push .documentEnd
  else if c = '-' && endsWord after then l.dash
  else if c = '?' && (l.inFlow || endsWord after) then l.name
  else if c = ':' && (l.inFlow || endsWord after) then l.value
  else
    match c with
    | '[' => l.openFlow .openBracket
    | '{' => l.openFlow .openBrace
    | ']' => l.closeFlow .closeBracket
    | '}' => l.closeFlow .closeBrace
    | ',' => l.comma
    | '*' => l.word anchorName .alias
    | '&' => l.word anchorName .anchor
    | '!' => l.tagged
    | '"' | '\'' => l.word (quotedScalar c) (.scalar false)
    | _ =>
      if (c = '|' || c = '>') && !l.inFlow then l.block (c = '|')
      else if beginsPlain l.inFlow c after then l.plain
      else none

def readAll : Nat → Layout → Option (List Token)
  | 0, _ => none
  | fuel + 1, l => do
    let l ← (skipFilling (fuel + 1) l).dropStale
    match l.cursor.char? with
    | none => return (← l.boundary).tokens.toList
    | some c => readAll fuel (← (l.closeFrom (l.cursor.column + 1)).next c)

end Layout

def Token.ofText? (s : String) : Option (List Token) :=
  if s.toList.all isAllowed then
    Layout.readAll (s.length + 1) { cursor := { rest := s.toList } }
  else none

end LeastLoad.Config.Yaml
