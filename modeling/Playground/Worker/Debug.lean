import Playground.Number.Shortest
import Playground.Text.Debug
import Playground.Worker.Basic

namespace Playground

open Debug (text record tuple option)

def SourceLocation.debug (l : SourceLocation) : String :=
  record "SourceLocation" [("line", toString l.line), ("column", toString l.column)]

def EngineLoadError.debug : EngineLoadError → String
  | notFound url => record "NotFound" [("url", text url)]
  | fetch url message => record "Fetch" [("url", text url), ("message", text message)]
  | unavailable url message => record "Unavailable" [("url", text url), ("message", text message)]
  | capability url expected found =>
    record "Capability" [("url", text url), ("expected", text expected), ("found", text found)]

def CompileError.debug : CompileError → String
  | unsupportedLanguage language => record "UnsupportedLanguage" [("language", text language)]
  | engineLoad language cause =>
    record "EngineLoad" [("language", text language), ("source", cause.debug)]
  | failed language message location =>
    record "Compile" [("language", text language), ("message", text message),
      ("location", option SourceLocation.debug location)]
  | worker message => record "Worker" [("message", text message)]

def BlockError.debug : BlockError → String
  | resourceFetch kind target url message =>
    record "ResourceFetch" [("kind", text kind), ("target", option text target), ("url", text url),
      ("message", text message)]
  | render kind target message =>
    record "Render" [("kind", text kind), ("target", text target), ("message", text message)]
  | invalidCache message => record "InvalidCache" [("message", text message)]

def Compiled.debug (c : Compiled) : String :=
  record "Compiled" [("code", text c.code), ("warnings", Debug.list BlockError.debug c.warnings)]

def WorkerOutput.debug : WorkerOutput → String
  | compiled id result milliseconds cached =>
    let result := match result with
      | .ok c => tuple "Ok" c.debug
      | .error e => tuple "Err" e.debug
    record "Compiled" [("id", toString id), ("result", result),
      ("compile_ms", NumberLayout.debug.text milliseconds), ("cached", toString cached)]
  | cacheCleared => "CacheCleared"

end Playground
