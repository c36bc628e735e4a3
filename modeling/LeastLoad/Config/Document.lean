import LeastLoad.Config.Json
import LeastLoad.Config.Toml
import LeastLoad.Config.Yaml

/-! # Configuration files

The format of a file follows the extension of its name, in capitals or not: YAML, JSON, or else
TOML. -/

namespace LeastLoad.Config

inductive Format where
  | toml
  | yaml
  | json
deriving DecidableEq

namespace Format

/-- What follows the last dot of a file name, unless that dot is its first character. -/
def extension (fileName : String) : String :=
  let cs := fileName.toList.reverse.takeWhile (· ≠ '/')
  let after := (cs.takeWhile (· ≠ '.')).reverse
  let before := (cs.dropWhile (· ≠ '.')).drop 1
  if before.isEmpty then "" else String.ofList after

def ofFileName (fileName : String) : Format :=
  match String.ofList ((extension fileName).toList.map Char.toLower) with
  | "yaml" | "yml" => yaml
  | "json" => json
  | _ => toml

def table? : Format → String → Option Table
  | toml, s => Toml.table? s
  | yaml, s => Yaml.table? s
  | json, s => Json.table? s

end Format

end LeastLoad.Config
