import LeastLoad.Config.Yaml.Node

/-! # The document of a YAML text

A text holds one document, or none. Directives stand before the mark of its beginning, and nothing
but marks of its end may follow it. -/

namespace LeastLoad.Config.Yaml

namespace Assembly

def declareHandle (name : String) (start : Tag) : Assembly Unit := fun o =>
  if (o.handles.lookup name).isSome then none
  else some ((), { o with handles := (name, start) :: o.handles })

/-- The directives of a document. The version may be given once. -/
def directives (isVersioned : Bool) : Nat → Assembly Unit
  | 0 => pure ()
  | fuel + 1 => do
    match ← peek with
    | some (.directive (.version major minor)) =>
      guard (!isVersioned && major = 1 && (minor = 1 || minor = 2))
      skip
      directives true fuel
    | some (.directive (.handle name start)) =>
      declareHandle name start
      skip
      directives isVersioned fuel
    | _ => pure ()

def commonHandles : List (String × Tag) :=
  [("!", Tag.nonSpecific), ("!!", Tag.core "")]

def content (bound : Nat) : Assembly Node := do
  match ← peek with
  | none | some .documentStart | some .documentEnd | some (.directive _) => return .empty
  | _ => node true false bound

def document (bound : Nat) : Assembly (Option Node) := do
  let first ← peek
  if first.isNone then return none
  directives false bound
  modify fun o => { o with handles := o.handles ++ commonHandles }
  match first with
  | some .documentStart | some (.directive _) =>
    match ← peek with
    | some .documentStart =>
      skip
      return some (← content bound)
    | _ => failure
  | _ => return some (← node true false bound)

end Assembly

def isEndMark : Token → Bool
  | .documentEnd => true
  | _ => false

/-- The root of the document, if there is one; fails unless the tokens make up a document. -/
def Node.ofTokens? (tokens : List Token) : Option (Option Node) := do
  let (root, o) ← Assembly.document (4 * tokens.length + 4) { tokens }
  guard (o.tokens.all isEndMark)
  return root

mutual

/-- A node and all nodes in it, in the order in which they begin. -/
def Node.all : Node → List Node
  | .alias n => [.alias n]
  | .scalar p isPlain s => [.scalar p isPlain s]
  | .list p items => .list p items :: Node.allItems items
  | .table p entries => .table p entries :: Node.allEntries entries

def Node.allItems : List Node → List Node
  | [] => []
  | n :: rest => n.all ++ Node.allItems rest

def Node.allEntries : List (Node × Node) → List Node
  | [] => []
  | (name, v) :: rest => name.all ++ (v.all ++ Node.allEntries rest)

end

namespace Node

def anchor? : Node → Option Nat
  | .alias _ => none
  | .scalar p .. | .list p _ | .table p _ => p.anchor

def edges : Node → Nat
  | .alias _ | .scalar .. => 1
  | .list .. | .table .. => 2

end Node

structure Document where
  /-- Anchored nodes, the last ones first. -/
  anchored : List (Nat × Node)
  /-- How often aliases may be followed. -/
  limit : Nat

namespace Document

def ofRoot (root : Node) : Document :=
  let nodes := root.all
  { anchored := (nodes.filterMap fun n => n.anchor?.map (·, n)).reverse
    limit := 100 * nodes.foldl (fun k n => k + n.edges) 0 }

/-- The node that an alias stands for; the state counts the aliases followed. -/
def follow (d : Document) : Node → StateT Nat Option Node
  | .alias n => fun count =>
    if count < d.limit then (d.anchored.lookup n).map (·, count + 1) else none
  | n => pure n

/-- The name of an entry, which has to be a scalar. -/
def name (d : Document) (n : Node) : StateT Nat Option String := do
  match ← d.follow n with
  | .scalar _ _ s => return s
  | _ => failure

end Document

end LeastLoad.Config.Yaml
