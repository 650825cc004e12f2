import Playground.Config.Json
import Playground.ErrorWire
import Playground.Worker.Basic

/-! Messages to and from a worker as JSON. -/

namespace Playground

namespace Compiled

def toJson (c : Compiled) : Json :=
  .obj (("code", .str c.code) ::
    if c.warnings.isEmpty then [] else [("warnings", .arr (c.warnings.map BlockError.toJson))])

def ofJson? (j : Json) : Option Compiled := do
  match j with
  | .arr [code] => return ⟨← code.string?, []⟩
  | j =>
    match ← j.record? ["code", "warnings"] with
    | [some code, warnings] =>
      let warnings ← match warnings with
        | none => some []
        | some list => do (← list.items?).mapM BlockError.ofJson?
      return ⟨← code.string?, warnings⟩
    | _ => none

end Compiled

namespace WorkerInput

structure Fields where
  id : Nat
  language : String
  source : String
  config : Config

def fieldNames : List String := ["id", "language", "source", "config"]

def readField (depth : Nat) (name : String) (f : Fields) :
    Json.Cursor → Except Json.Fault (Fields × Json.Cursor) :=
  if name = "id" then Json.field Json.readNaturalValue fun id => { f with id := id }
  else if name = "language" then
    Json.field Json.readStringValue fun language => { f with language := language }
  else if name = "source" then
    Json.field Json.readStringValue fun source => { f with source := source }
  else Json.field (Config.read depth) fun config => { f with config := config }

def readCompile (depth : Nat) (c : Json.Cursor) : Except Json.Fault (WorkerInput × Json.Cursor) :=
  match Json.readRecord "struct variant WorkerInput::Compile" depth fieldNames
      (readField (depth - 1)) ⟨0, "", "", .standard⟩ c with
  | .error fault => .error fault
  | .ok (f, given, after) =>
    match fieldNames.find? fun name => !given.contains name with
    | some name => after.fault (.missingField name)
    | none => .ok (.compile f.id f.language f.source f.config, after)

def readContent (tag : String) (after : Json.Cursor) :
    Except Json.Fault (WorkerInput × Json.Cursor) :=
  if tag = "Compile" then readCompile (Json.depthLimit - 1) after
  else if tag = "ClearCache" then (Json.readNull after).map fun c => (.clearCache, c)
  else after.fault (.unknownVariant tag)

/-- A message at the cursor: an object with its tag as the only key, or a tag alone. -/
def read (c : Json.Cursor) : Except Json.Fault (WorkerInput × Json.Cursor) :=
  let c := Json.skipBlanks c
  match c.rest with
  | '"' :: _ => do
    let (tag, after) ← Json.readLiteral c
    if tag = "ClearCache" then return (.clearCache, after) else after.fault (.unknownVariant tag)
  | '{' :: _ => do
    let (tag, after) ← Json.readStringValue (c.advance 1)
    let (message, last) ← readContent tag (← Json.readColon after)
    let last := Json.skipBlanks last
    match last.rest with
    | '}' :: _ => return (message, last.advance 1)
    | _ => last.fault .expectedValue
  | [] => c.faultAhead .endInValue
  | _ => c.faultAhead .expectedValue

def ofJson? (j : Json) : Option WorkerInput := do
  match ← j.choice? with
  | ("ClearCache", none) | ("ClearCache", some .null) => return .clearCache
  | ("Compile", some body) =>
    match ← body.named? fieldNames with
    | [some id, some language, some source, some config] =>
      return .compile (← id.natural?) (← language.string?) (← source.string?)
        (← Config.ofJson? config)
    | _ => none
  | _ => none

def ofJsonText (text : String) : Except Json.Fault WorkerInput := Json.readWhole read text

end WorkerInput

namespace WorkerOutput

def resultToJson : Except CompileError Compiled → Json
  | .ok c => .obj [("Ok", c.toJson)]
  | .error e => .obj [("Err", e.toJson)]

def toJson : WorkerOutput → Json
  | compiled id result milliseconds cached =>
    .obj [("Compiled", .obj [("id", .int id), ("result", resultToJson result),
      ("compile_ms", .float milliseconds), ("cached", .bool cached)])]
  | cacheCleared => .str "CacheCleared"

end WorkerOutput

end Playground
