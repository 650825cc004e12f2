import Playground.Config.Json
import Playground.Files
import Playground.Json.Printer
import Playground.Toml.Parser
import Playground.Toml.Printer

namespace Playground

inductive ConfigError
  | unsupportedFormat (path : String)
  | file (error : FileError)
  | json (message : String)
  | tomlRead
  | tomlWrite
  deriving DecidableEq, Repr

def ConfigError.message? : ConfigError → Option String
  | unsupportedFormat path => some ("unsupported config format for " ++ path)
  | file error => some error.message
  | json message => some message
  | tomlRead | tomlWrite => none

inductive ConfigFormat
  | json
  | toml
  deriving DecidableEq, Repr

namespace ConfigFormat

def ofPath? (path : String) : Except ConfigError ConfigFormat :=
  match Path.extension? path with
  | some "json" => .ok .json
  | some "toml" => .ok .toml
  | _ => .error (.unsupportedFormat path)

def clipped (j : Json) : Json :=
  match j with
  | .obj fields =>
    .obj (fields.map fun
      | ("cache", .arr items) => ("cache", .arr (items.take CacheConfig.fieldNames.length))
      | other => other)
  | other => other

def read? (format : ConfigFormat) (text : String) : Except ConfigError Config :=
  match format with
  | json => (Config.ofJsonText text).mapError fun fault => .json (fault.message text)
  | toml =>
    match (Toml.parse text).bind fun j => Config.ofJson? (clipped j) with
    | some c => .ok c
    | none => .error .tomlRead

def write? (format : ConfigFormat) (c : Config) : Except ConfigError String :=
  match format with
  | json => .ok c.toJson.pretty
  | toml =>
    match Toml.print? c.toJson with
    | some text => .ok text
    | none => .error .tomlWrite

end ConfigFormat

namespace Config

def load (tree : FileTree) (path : String) : Except ConfigError Config := do
  let format ← ConfigFormat.ofPath? path
  format.read? (← (tree.readText path).mapError .file)

/-- The disk with the configuration on it. What cannot be written leaves it alone. -/
def save (tree : FileTree) (path : String) (c : Config) : Except ConfigError FileTree := do
  let format ← ConfigFormat.ofPath? path
  (tree.writeText path (← format.write? c)).mapError .file

end Config

end Playground
