import LeastLoad.Config.Yaml.Document
import LeastLoad.Config.Yaml.Schema

/-! # Configuration in YAML

A text is read into tokens, these into nodes, and the nodes into values. -/

namespace LeastLoad.Config.Yaml

/-- Lists and tables may be nested up to this number. -/
def deepest : Nat := 128

namespace Document

def entries (d : Document) (value : Node → StateT Nat Option Value) :
    List (Node × Node) → StateT Nat Option Table
  | [] => pure []
  | (n, v) :: rest => do
    let name ← d.name n
    let v ← value v
    return (name, v) :: (← d.entries value rest)

/-- The value of a node in which lists and tables are nested no deeper than `depth`. A type of the
document's own is not known. -/
def value (d : Document) (depth : Nat) (n : Node) : StateT Nat Option Value := do
  match ← d.follow n with
  | .alias _ => failure
  | .scalar p isPlain s => fun count => (scalarValue? p.tag isPlain s).map (·, count)
  | .list p items =>
    guard (!p.tag.any Tag.isLocal)
    match depth with
    | 0 => failure
    | depth + 1 => return .list (← items.mapM (d.value depth))
  | .table p es =>
    guard (!p.tag.any Tag.isLocal)
    match depth with
    | 0 => failure
    | depth + 1 => return .table (← d.entries (d.value depth) es)

/-- The table at the root of a document; nothing at all counts as an empty one. -/
def table? (root : Node) : Option Table :=
  match root with
  | .table _ es =>
    let d := ofRoot root
    (d.entries (d.value (deepest - 1)) es 0).map (·.1)
  | .scalar _ true "" => some []
  | _ => none

end Document

def table? (s : String) : Option Table := do
  match ← Node.ofTokens? (← Token.ofText? s) with
  | none => return []
  | some root => Document.table? root

end LeastLoad.Config.Yaml
