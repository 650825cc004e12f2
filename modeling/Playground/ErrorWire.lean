import Playground.Error
import Playground.Json.Record

/-! Errors as they cross a process boundary: tagged records, written and read back. -/

namespace Playground

namespace SourceLocation

def toJson (l : SourceLocation) : Json := .obj [("line", .int l.line), ("column", .int l.column)]

def ofJson? (j : Json) : Option SourceLocation := do
  match ← j.record? ["line", "column"] with
  | [some line, some column] => return ⟨← line.natural?, ← column.natural?⟩
  | _ => none

end SourceLocation

namespace EngineLoadError

def tag : EngineLoadError → String
  | notFound _ => "NotFound"
  | fetch _ _ => "Fetch"
  | unavailable _ _ => "Unavailable"
  | capability _ _ _ => "Capability"

def toJson (e : EngineLoadError) : Json :=
  .obj [(e.tag, .obj (match e with
    | notFound url => [("url", .str url)]
    | fetch url message => [("url", .str url), ("message", .str message)]
    | unavailable url message => [("url", .str url), ("message", .str message)]
    | capability url expected found =>
      [("url", .str url), ("expected", .str expected), ("found", .str found)]))]

def ofJson? (j : Json) : Option EngineLoadError := do
  let (tag, content) ← j.choice?
  let body ← content
  match tag with
  | "NotFound" =>
    match ← body.named? ["url"] with
    | [some url] => return notFound (← url.string?)
    | _ => none
  | "Fetch" =>
    match ← body.named? ["url", "message"] with
    | [some url, some message] => return fetch (← url.string?) (← message.string?)
    | _ => none
  | "Unavailable" =>
    match ← body.named? ["url", "message"] with
    | [some url, some message] => return unavailable (← url.string?) (← message.string?)
    | _ => none
  | "Capability" =>
    match ← body.named? ["url", "expected", "found"] with
    | [some url, some expected, some found] =>
      return capability (← url.string?) (← expected.string?) (← found.string?)
    | _ => none
  | _ => none

end EngineLoadError

namespace CompileError

def tag : CompileError → String
  | unsupportedLanguage _ => "UnsupportedLanguage"
  | engineLoad _ _ => "EngineLoad"
  | failed _ _ _ => "Compile"
  | worker _ => "Worker"

def toJson (e : CompileError) : Json :=
  .obj [(e.tag, .obj (match e with
    | unsupportedLanguage language => [("language", .str language)]
    | engineLoad language cause => [("language", .str language), ("source", cause.toJson)]
    | failed language message location =>
      [("language", .str language), ("message", .str message),
        ("location", .ofOption SourceLocation.toJson location)]
    | worker message => [("message", .str message)]))]

def ofJson? (j : Json) : Option CompileError := do
  let (tag, content) ← j.choice?
  let body ← content
  match tag with
  | "UnsupportedLanguage" =>
    match ← body.named? ["language"] with
    | [some language] => return unsupportedLanguage (← language.string?)
    | _ => none
  | "EngineLoad" =>
    match ← body.named? ["language", "source"] with
    | [some language, some cause] =>
      return engineLoad (← language.string?) (← EngineLoadError.ofJson? cause)
    | _ => none
  | "Compile" =>
    match ← body.named? ["language", "message", "location"] with
    | [some language, some message, location] =>
      return failed (← language.string?) (← message.string?)
        (← Json.optional? SourceLocation.ofJson? location)
    | _ => none
  | "Worker" =>
    match ← body.named? ["message"] with
    | [some message] => return worker (← message.string?)
    | _ => none
  | _ => none

end CompileError

namespace BlockError

def tag : BlockError → String
  | resourceFetch _ _ _ _ => "ResourceFetch"
  | render _ _ _ => "Render"
  | invalidCache _ => "InvalidCache"

def toJson (e : BlockError) : Json :=
  .obj [(e.tag, .obj (match e with
    | resourceFetch kind target url message =>
      [("kind", .str kind), ("target", .ofOption .str target), ("url", .str url),
        ("message", .str message)]
    | render kind target message =>
      [("kind", .str kind), ("target", .str target), ("message", .str message)]
    | invalidCache message => [("message", .str message)]))]

def ofJson? (j : Json) : Option BlockError := do
  let (tag, content) ← j.choice?
  let body ← content
  match tag with
  | "ResourceFetch" =>
    match ← body.named? ["kind", "target", "url", "message"] with
    | [some kind, target, some url, some message] =>
      return resourceFetch (← kind.string?) (← Json.optional? Json.string? target)
        (← url.string?) (← message.string?)
    | _ => none
  | "Render" =>
    match ← body.named? ["kind", "target", "message"] with
    | [some kind, some target, some message] =>
      return render (← kind.string?) (← target.string?) (← message.string?)
    | _ => none
  | "InvalidCache" =>
    match ← body.named? ["message"] with
    | [some message] => return invalidCache (← message.string?)
    | _ => none
  | _ => none

end BlockError

end Playground
