import LeastLoad.Endpoint.Load
import Std.Data.HashMap

/-! # Load states shared by reference

Load states stand in a table and are referred to by their places in it, so that whoever holds a
reference sees the same state. A directory finds the state of an endpoint by its handle and makes
one at first use. Forgetting an endpoint removes it from the directory only; a reference that is
still held keeps its meaning, and the endpoint starts afresh when it comes back. -/

namespace LeastLoad

structure LoadRef where
  place : Nat
deriving DecidableEq, Hashable

structure LoadTable where
  states : Array EndpointLoad := #[]

namespace LoadTable

def vacant : EndpointLoad := { endpoint := ⟨0⟩ }

def load (t : LoadTable) (r : LoadRef) : EndpointLoad := t.states.getD r.place vacant

def endpoint (t : LoadTable) (r : LoadRef) : Endpoint := (t.load r).endpoint

def update (t : LoadTable) (r : LoadRef) (f : EndpointLoad → EndpointLoad) : LoadTable :=
  ⟨t.states.modify r.place f⟩

def insert (t : LoadTable) (l : EndpointLoad) : LoadRef × LoadTable :=
  (⟨t.states.size⟩, ⟨t.states.push l⟩)

def compare (t : LoadTable) (a b : LoadRef) : Ordering := (t.load a).compare (t.load b)

theorem load_update_self {t : LoadTable} {r : LoadRef} (h : r.place < t.states.size)
    (f : EndpointLoad → EndpointLoad) : (t.update r f).load r = f (t.load r) := by
  simp [load, update, h, Array.getElem_modify_self]

theorem load_update_of_ne {t : LoadTable} {r s : LoadRef} (h : r ≠ s)
    (f : EndpointLoad → EndpointLoad) : (t.update r f).load s = t.load s := by
  have hne : r.place ≠ s.place := fun e => h (congrArg LoadRef.mk e)
  simp [load, update, Array.getElem?_modify, hne]

end LoadTable

structure Directory where
  settings : LoadSettings
  entries : Std.HashMap Endpoint LoadRef := {}

namespace Directory

def find? (d : Directory) (e : Endpoint) : Option LoadRef := d.entries[e]?

def size (d : Directory) : Nat := d.entries.size

def getOrCreate (d : Directory) (t : LoadTable) (now : Nat) (e : Endpoint) :
    Except InvalidSetting (LoadRef × Directory × LoadTable) :=
  match d.find? e with
  | some r => .ok (r, d, t)
  | none => do
    let l ← EndpointLoad.create e d.settings now
    let (r, t) := t.insert l
    return (r, { d with entries := d.entries.insert e r }, t)

def resolve (d : Directory) (t : LoadTable) (now : Nat) :
    List Endpoint → Except InvalidSetting (List LoadRef × Directory × LoadTable)
  | [] => .ok ([], d, t)
  | e :: rest => do
    let (r, d, t) ← d.getOrCreate t now e
    let (rs, d, t) ← d.resolve t now rest
    return (r :: rs, d, t)

/-- What resolving endpoints comes to even if it fails at one of them: those before it have their
states then. -/
def reach (d : Directory) (t : LoadTable) (now : Nat) : List Endpoint → Directory × LoadTable
  | [] => (d, t)
  | e :: rest =>
    match d.getOrCreate t now e with
    | .error _ => (d, t)
    | .ok (_, d, t) => d.reach t now rest

/-- Forgets the endpoints whose state nobody holds, and counts them. -/
def prune (d : Directory) (held : LoadRef → Bool) : Nat × Directory :=
  let kept := d.entries.filter fun _ r => held r
  (d.entries.size - kept.size, { d with entries := kept })

def settingsText (s : LoadSettings) : String :=
  let strategy := match s.subStrategy with
    | .absent => "Absent"
    | .leastFrequency => "LeastFrequency"
    | .leastTime => "LeastTime"
  let sustain := match s.failureSustain with
    | none => "None"
    | some f =>
      "Some(FailureSustain \x7b duration: " ++ f.duration.text ++ ", weight: " ++
        toString f.weight ++ " \x7d)"
  "ConcurrencySettings \x7b sub_strategy: " ++ strategy ++ ", look_back: " ++ s.lookBack.text ++
    ", num_windows: " ++ toString s.windows ++ ", failure_sustain: " ++ sustain ++ " \x7d"

def text (d : Directory) : String :=
  "ConcurrencyMap \x7b settings: " ++ settingsText d.settings ++ ", entries: " ++
    toString d.size ++ " \x7d"

end Directory

end LeastLoad
