import LeastLoad.Config.Yaml.Token

/-! # Nodes of a YAML document

A document is a tree of scalars, lists and tables. An alias stands for the node that an anchor
names, which may be one that the alias itself is part of. -/

namespace LeastLoad.Config.Yaml

structure Properties where
  anchor : Option Nat := none
  tag : Option Tag := none

inductive Node where
  | alias (anchor : Nat)
  | scalar (p : Properties) (isPlain : Bool) (text : String)
  | list (p : Properties) (items : List Node)
  | table (p : Properties) (entries : List (Node × Node))

structure Outline where
  tokens : List Token
  /-- Anchors and their numbers. -/
  anchors : List (String × Nat) := []
  /-- Handles and the beginnings of tags that they stand for. -/
  handles : List (String × Tag) := []

abbrev Assembly := StateT Outline Option

namespace Assembly

def peek : Assembly (Option Token) := fun o => some (o.tokens.head?, o)

def skip : Assembly Unit := fun o => some ((), { o with tokens := o.tokens.drop 1 })

def anchor (name : String) : Assembly Nat := fun o => (o.anchors.lookup name).map (·, o)

/-- Declares an anchor. Its number is how many others there are, so that one that is declared again
may take the number of another. -/
def declare (name : String) : Assembly Nat := fun o =>
  let n := o.anchors.length
  some (n, { o with anchors := (name, n) :: o.anchors.filter (·.1 ≠ name) })

def resolve (handle : String) (rest : Tag) : Assembly Tag := fun o =>
  if handle.isEmpty then some (rest, o)
  else (o.handles.lookup handle).map fun start => (start ++ rest, o)

def anchorIfAny : Assembly (Option Nat) := do
  match ← peek with
  | some (.anchor name) =>
    skip
    return some (← declare name)
  | _ => return none

def tagIfAny : Assembly (Option Tag) := do
  match ← peek with
  | some (.tag handle rest) =>
    skip
    return some (← resolve handle rest)
  | _ => return none

def properties : Assembly Properties := do
  match ← anchorIfAny with
  | some n => return ⟨some n, ← tagIfAny⟩
  | none =>
    let tag ← tagIfAny
    return ⟨← if tag.isSome then anchorIfAny else pure none, tag⟩

end Assembly

def Node.empty : Node := .scalar {} true ""

def endsBlockValue : Option Token → Bool
  | some .name | some .value | some .blockEnd => true
  | _ => false

def endsItem : Option Token → Bool
  | some .dash | some .blockEnd => true
  | _ => false

def endsFlowValue (close : Option Token → Bool) : Option Token → Bool
  | some .comma => true
  | t => close t

def isBracket : Option Token → Bool
  | some .closeBracket => true
  | _ => false

def isBrace : Option Token → Bool
  | some .closeBrace => true
  | _ => false

namespace Assembly

mutual

/-- A node; in a block, lists and tables may be written by indentation. The items of a list need no
indentation of their own below a name. -/
def node (inBlock belowName : Bool) : Nat → Assembly Node
  | 0 => failure
  | fuel + 1 => do
    match ← peek with
    | some (.alias name) =>
      skip
      return .alias (← anchor name)
    | _ =>
      let p ← properties
      match ← peek with
      | some (.scalar isPlain s) =>
        skip
        let tag := if p.tag = some Tag.nonSpecific then none else p.tag
        return .scalar { p with tag } isPlain s
      | some .openBracket =>
        skip
        return .list p (← flowItems true fuel)
      | some .openBrace =>
        skip
        return .table p (← flowEntries true fuel)
      | t =>
        match inBlock, belowName, t with
        | true, _, some .blockList =>
          skip
          return .list p (← blockItems fuel)
        | true, _, some .blockTable =>
          skip
          return .table p (← blockEntries fuel)
        | _, true, some .dash => return .list p (← looseItems fuel)
        | _, _, _ =>
          guard (p.anchor.isSome || p.tag.isSome)
          return .scalar p true ""

def blockItems : Nat → Assembly (List Node)
  | 0 => failure
  | fuel + 1 => do
    match ← peek with
    | some .dash =>
      skip
      let item ← if endsItem (← peek) then pure Node.empty else node true false fuel
      return item :: (← blockItems fuel)
    | some .blockEnd =>
      skip
      return []
    | _ => failure

/-- The items of a list that is not indented, which ends where no other item follows. -/
def looseItems : Nat → Assembly (List Node)
  | 0 => failure
  | fuel + 1 => do
    match ← peek with
    | some .dash =>
      skip
      let t ← peek
      let item ← if endsItem t || endsBlockValue t then pure Node.empty else node true false fuel
      return item :: (← looseItems fuel)
    | _ => return []

def blockEntries : Nat → Assembly (List (Node × Node))
  | 0 => failure
  | fuel + 1 => do
    match ← peek with
    | some .name =>
      skip
      let name ← blockValue fuel
      match ← peek with
      | some .value =>
        skip
        let v ← blockValue fuel
        return (name, v) :: (← blockEntries fuel)
      | _ => return (name, .empty) :: (← blockEntries fuel)
    | some .blockEnd =>
      skip
      return []
    | _ => failure

def blockValue : Nat → Assembly Node
  | 0 => failure
  | fuel + 1 => do
    if endsBlockValue (← peek) then return .empty else node true true fuel

/-- The items of a list in brackets, after the opening one or after an item. -/
def flowItems (isFirst : Bool) : Nat → Assembly (List Node)
  | 0 => failure
  | fuel + 1 => do
    if isBracket (← peek) then
      skip
      return []
    else
      if !isFirst then
        match ← peek with
        | some .comma => skip
        | _ => failure
      match ← peek with
      | some .name =>
        skip
        let entry ← flowPair fuel
        return .table {} [entry] :: (← flowItems false fuel)
      | some .closeBracket =>
        skip
        return []
      | _ =>
        let item ← node false false fuel
        return item :: (← flowItems false fuel)

/-- An item of a list that is a table of one entry, after the beginning of its name. What follows in
place of the name is passed over. -/
def flowPair : Nat → Assembly (Node × Node)
  | 0 => failure
  | fuel + 1 => do
    let t ← peek
    let name ←
      match t with
      | some .value => do
        skip
        pure Node.empty
      | _ =>
        if endsFlowValue isBracket t then do
          skip
          pure Node.empty
        else node false false fuel
    return (name, ← flowValue isBracket fuel)

/-- The entries of a table in braces, after the opening one or after an entry. -/
def flowEntries (isFirst : Bool) : Nat → Assembly (List (Node × Node))
  | 0 => failure
  | fuel + 1 => do
    if isBrace (← peek) then
      skip
      return []
    else
      if !isFirst then
        match ← peek with
        | some .comma => skip
        | _ => failure
      match ← peek with
      | some .name =>
        skip
        let name ←
          match ← peek with
          | some .value => pure Node.empty
          | t => if endsFlowValue isBrace t then pure Node.empty else node false false fuel
        let v ← flowValue isBrace fuel
        return (name, v) :: (← flowEntries false fuel)
      | some .closeBrace =>
        skip
        return []
      | _ =>
        let name ← node false false fuel
        return (name, .empty) :: (← flowEntries false fuel)

def flowValue (close : Option Token → Bool) : Nat → Assembly Node
  | 0 => failure
  | fuel + 1 => do
    match ← peek with
    | some .value =>
      skip
      if endsFlowValue close (← peek) then return .empty else node false false fuel
    | _ => return .empty

end

end Assembly

end LeastLoad.Config.Yaml
