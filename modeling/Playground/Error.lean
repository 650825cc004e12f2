/-! What can go wrong, and how it is told. -/

namespace Playground

structure SourceLocation where
  line : Nat
  column : Nat
  deriving DecidableEq, Repr

inductive EngineLoadError
  | notFound (url : String)
  | fetch (url message : String)
  | unavailable (url message : String)
  | capability (url expected found : String)
  deriving DecidableEq, Repr

inductive CompileError
  | unsupportedLanguage (language : String)
  | engineLoad (language : String) (cause : EngineLoadError)
  | failed (language message : String) (location : Option SourceLocation)
  | worker (message : String)
  deriving DecidableEq, Repr

inductive BlockError
  | resourceFetch (kind : String) (target : Option String) (url message : String)
  | render (kind target message : String)
  | invalidCache (message : String)
  deriving DecidableEq, Repr

inductive RegistryError
  | duplicateName (name : String)
  | duplicateExtension (extension existing name : String)
  deriving DecidableEq, Repr

structure FetchError where
  url : String
  message : String
  status : Option Nat
  deriving DecidableEq, Repr

structure EngineError where
  message : String
  location : Option SourceLocation
  deriving DecidableEq, Repr

def EngineError.plain (message : String) : EngineError := ⟨message, none⟩

namespace EngineLoadError

def url : EngineLoadError → String
  | notFound url | fetch url _ | unavailable url _ | capability url _ _ => url

def message : EngineLoadError → String
  | notFound url => "no module source provides " ++ url
  | fetch url message => "failed to fetch engine " ++ url ++ ": " ++ message
  | unavailable url message => "engine " ++ url ++ " is unavailable: " ++ message
  | capability url expected found =>
    "engine " ++ url ++ " provides a " ++ found ++ " module, expected " ++ expected

def code : EngineLoadError → String
  | notFound _ => "polyglot::engine::not_found"
  | fetch _ _ => "polyglot::engine::fetch"
  | unavailable _ _ => "polyglot::engine::unavailable"
  | capability _ _ _ => "polyglot::engine::capability"

def help? : EngineLoadError → Option String
  | capability _ _ _ => some "register a native engine for this URL"
  | _ => none

end EngineLoadError

namespace CompileError

def message : CompileError → String
  | unsupportedLanguage language => "unsupported language: " ++ language
  | engineLoad language cause =>
    "failed to load engine for " ++ language ++ ": " ++ cause.message
  | failed language message _ => language ++ ": " ++ message
  | worker message => "compile worker failed: " ++ message

def code : CompileError → String
  | unsupportedLanguage _ => "polyglot::compile::unsupported_language"
  | engineLoad _ _ => "polyglot::compile::engine_load"
  | failed _ _ _ => "polyglot::compile::failed"
  | worker _ => "polyglot::compile::worker"

def help? : CompileError → Option String
  | unsupportedLanguage _ => some "run `polyglot languages` to list the registered languages"
  | _ => none

def isRetryable : CompileError → Bool
  | engineLoad _ _ | worker _ => true
  | unsupportedLanguage _ | failed _ _ _ => false

def language? : CompileError → Option String
  | unsupportedLanguage language | engineLoad language _ | failed language _ _ => some language
  | worker _ => none

end CompileError

namespace BlockError

def message : BlockError → String
  | resourceFetch kind target url message =>
    kind ++ " block " ++ target.getD "(no target)" ++ ": failed to fetch " ++ url ++ ": " ++ message
  | render kind target message => kind ++ " block " ++ target ++ ": " ++ message
  | invalidCache message => "unreadable render cache: " ++ message

def code : BlockError → String
  | resourceFetch _ _ _ _ => "polyglot::graph::resource_fetch"
  | render _ _ _ => "polyglot::graph::render"
  | invalidCache _ => "polyglot::graph::invalid_cache"

end BlockError

def RegistryError.message : RegistryError → String
  | duplicateName name => "language " ++ name ++ " is already registered"
  | duplicateExtension extension existing name =>
    "extension ." ++ extension ++ " already belongs to " ++ existing ++
      ", cannot assign it to " ++ name

def FetchError.text (e : FetchError) : String := "failed to fetch " ++ e.url ++ ": " ++ e.message

end Playground
