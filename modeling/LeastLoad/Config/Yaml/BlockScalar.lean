import LeastLoad.Config.Yaml.Cursor

/-! # Block scalars in YAML

The indented lines after a bar, which are kept as they are, or after a greater-than sign, where the
break between two lines that begin with no blank is read as a space. -/

namespace LeastLoad.Config.Yaml

/-- What becomes of the line breaks at the end. -/
inductive Chomping where
  | strip
  | clip
  | keep

structure BlockHeader where
  isLiteral : Bool
  chomping : Chomping
  /-- How much further the lines are indented than what they belong to, if it is said. -/
  increment : Option Nat

def chomping? : Option Char → Option Chomping
  | some '+' => some .keep
  | some '-' => some .strip
  | _ => none

/-- How line breaks at the end are treated, clipped if nothing is said. -/
def chomping : Scan Chomping := do
  match chomping? (← Scan.peek 0) with
  | none => return .clip
  | some k =>
    Scan.skip 1
    return k

def increment : Scan (Option Nat) := do
  match ← Scan.peek 0 with
  | none => return none
  | some c =>
    if c.isDigit then
      guard (c ≠ '0')
      Scan.skip 1
      return some (c.toNat - '0'.toNat)
    else return none

def blockHeader (isLiteral : Bool) : Scan BlockHeader := do
  Scan.skip 1
  let header : BlockHeader ←
    if (chomping? (← Scan.peek 0)).isSome then do
      let chomping ← chomping
      let increment ← increment
      pure { isLiteral, chomping, increment }
    else do
      let increment ← increment
      let chomping ← if increment.isSome then chomping else pure .clip
      pure { isLiteral, chomping, increment }
  Scan.restOfLine
  return header

/-- Reads lines that hold nothing but spaces, and the indentation of the next one; without a given
indentation any is taken. The answer is their breaks and the greatest indentation seen. -/
def emptyLines (indent : Option Nat) : Nat → Nat → Scan (List Char × Nat)
  | 0, _ => failure
  | fuel + 1, widest => do
    modify (·.skipSpaces indent)
    let column := (← get).column
    let widest := max widest column
    guard (!((← Scan.peek 0) = some '\t' && indent.all (column < ·)))
    if (← Scan.peek 0).any isBreak then
      let b ← Scan.lineBreak
      let (more, widest) ← emptyLines indent fuel widest
      return (b ++ more, widest)
    else return ([], widest)

/-- The lines at the given indentation, after the break of the last one and those of the empty lines
that follow it. -/
def blockLines (h : BlockHeader) (indent : Nat) :
    Nat → List Char → List Char → Bool → Scan (List Char)
  | 0, _, _, _ => failure
  | fuel + 1, lastBreak, moreBreaks, afterBlank => do
    let first ← Scan.peek 0
    if first.isNone || (← get).column ≠ indent then
      match h.chomping with
      | .strip => return []
      | .clip => return lastBreak
      | .keep => return lastBreak ++ moreBreaks
    else
      let isBlank := first.any isSpace
      let joint :=
        if h.isLiteral || lastBreak ≠ ['\n'] || afterBlank || isBlank then lastBreak
        else if moreBreaks.isEmpty then [' ']
        else []
      let line ← Scan.takeWhile fun c => !isBreak c
      let b ← Scan.lineBreak
      let (more, _) ← emptyLines (some indent) (← Scan.bound) 0
      return joint ++ moreBreaks ++ line ++ (← blockLines h indent fuel b more isBlank)

/-- A block scalar from its indicator on. Lines that belong to the same thing as the scalar would
begin left of the margin. -/
def blockScalar (isLiteral : Bool) (margin : Nat) : Scan String := do
  let h ← blockHeader isLiteral
  let said := h.increment.map (margin - 1 + ·)
  let (breaks, widest) ← emptyLines said (← Scan.bound) 0
  let indent := said.getD (max widest (max margin 1))
  return String.ofList (← blockLines h indent (← Scan.bound) [] breaks false)

end LeastLoad.Config.Yaml
