import LeastLoad.Config.Value

/-! # The tree of a TOML document

A tree remembers how each of its tables came to be: a table opened by a header cannot be opened
again or be reached by a dotted name, one that only lies on the way of a header can still be
opened, and one made by a dotted name takes more names but no header. -/

namespace LeastLoad.Config.Toml

inductive Origin where
  | header
  /-- On the way to a table that has a header. -/
  | implied
  /-- On the way of a dotted name. -/
  | dotted
deriving DecidableEq

inductive Node where
  | value (v : Value)
  | table (origin : Origin) (branches : List (String × Node))
  /-- A list of tables with headers; only the last is still open. -/
  | rows (closed : List (List (String × Node))) (last : List (String × Node))

abbrev Branches := List (String × Node)

namespace Branches

def find? (t : Branches) (name : String) : Option Node := List.lookup name t

def set (t : Branches) (name : String) (n : Node) : Branches :=
  List.filter (·.1 ≠ name) t ++ [(name, n)]

/-- Changes the table at the end of a path, of which `change` also gets the origin. Tables that are
missing on the way are made with the given origin. -/
def alter (made : Origin) (change : Origin → Branches → Option Branches) :
    Origin → List String → Branches → Option Branches
  | origin, [], t => change origin t
  | _, name :: path, t =>
    match find? t name with
    | none => (alter made change made path []).map fun s => set t name (.table made s)
    | some (.table origin s) =>
      if made = .dotted && origin = .header then none
      else (alter made change origin path s).map fun s => set t name (.table origin s)
    | some (.rows closed last) =>
      (alter made change .header path last).map fun last => set t name (.rows closed last)
    | some (.value _) => none

def alterEnd (made : Origin) (change : String → Origin → Branches → Option Branches)
    (origin : Origin) (name : List String) (t : Branches) : Option Branches :=
  name.getLast?.bind fun last => alter made (change last) origin name.dropLast t

/-- Puts a value into a table of the given origin or, along a dotted name, below it. A name of one
part may not extend a table that dotted names made, and any other name has to. -/
def assign (name : List String) (v : Value) (origin : Origin) (t : Branches) : Option Branches :=
  alterEnd .dotted (fun last origin t =>
    if decide (origin = .dotted) = decide (name.length = 1) || (find? t last).isSome then none
    else some (set t last (.value v))) origin name t

def openTable (name : List String) (t : Branches) : Option Branches :=
  alterEnd .implied (fun last _ t =>
    match find? t last with
    | none => some (set t last (.table .header []))
    | some (.table .implied s) => some (set t last (.table .header s))
    | some _ => none) .header name t

def openRow (name : List String) (t : Branches) : Option Branches :=
  alterEnd .implied (fun last _ t =>
    match find? t last with
    | none => some (set t last (.rows [] []))
    | some (.rows closed row) => some (set t last (.rows (closed ++ [row]) []))
    | some _ => none) .header name t

end Branches

mutual

def Node.toValue : Node → Value
  | .value v => v
  | .table _ t => .table (Branches.toTable t)
  | .rows closed last => .list (Branches.toValues closed ++ [.table (Branches.toTable last)])

def Branches.toTable : Branches → Table
  | [] => []
  | (name, n) :: rest => (name, n.toValue) :: Branches.toTable rest

def Branches.toValues : List Branches → List Value
  | [] => []
  | t :: rest => .table (Branches.toTable t) :: Branches.toValues rest

end

def Branches.ofAssignments? (as : List (List String × Value)) : Option Branches :=
  as.foldlM (fun t (name, v) => t.assign name v .header) []

end LeastLoad.Config.Toml
