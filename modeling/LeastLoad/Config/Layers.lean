import LeastLoad.Config.Arguments
import LeastLoad.Config.Document
import LeastLoad.Config.Environment
import LeastLoad.Config.Extract

/-! # Configuration from several sources

Sources are laid over one another: a later one replaces what it names and keeps the rest. A file
that cannot be read spoils the configuration for good, whatever follows; a value that does not fit
is an error only if it is still there when the settings are read. -/

namespace LeastLoad

inductive BuildError where
  | config (e : Config.ConfigError)
  | invalid (e : InvalidSetting)

namespace Config

inductive Source where
  | override (o : Override)
  | arguments (a : Arguments)
  /-- A file, by its name, and its text if there is such a file. -/
  | file (fileName : String) (text : Option String)
  /-- The variables whose names start with a text. -/
  | environment (start : String) (vars : List (String × String))

structure Layers where
  table : Table := []
  /-- Whether all files so far could be read. -/
  readable : Bool := true

namespace Layers

def lay (l : Layers) (t : Table) : Layers := { l with table := l.table.merge t }

def apply (l : Layers) : Source → Layers
  | .override o => l.lay o.table
  | .arguments a => a.overrides.foldl (fun l o => l.lay o.table) l
  | .environment start vars => l.lay (Environment.table start vars)
  | .file _ none => l
  | .file fileName (some text) =>
    match (Format.ofFileName fileName).table? text with
    | some t => l.lay t
    | none => { l with readable := false }

def extract (l : Layers) : Except ConfigError Settings :=
  if l.readable then l.table.settings else .error .unreadable

/-- The settings, of which the first that nothing can run with is an error. -/
def settings (l : Layers) : Except BuildError Settings :=
  match l.extract with
  | .error e => .error (.config e)
  | .ok s =>
    match s.validate with
    | .error e => .error (.invalid e)
    | .ok () => .ok s

end Layers

end Config

end LeastLoad
