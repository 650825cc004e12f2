import Playground.Graph.Kind
import Playground.Json.Basic

/-! Languages: what is known of one, and the passes that compile it. -/

namespace Playground

inductive Surface
  | markup
  | style
  | script
  deriving DecidableEq, Repr

namespace Surface

def name : Surface → String
  | markup => "markup"
  | style => "style"
  | script => "script"

def defaultOutput : Surface → String
  | markup => "html"
  | style => "css"
  | script => "javascript"

end Surface

/-- The grammar that formats a language, and the plugins it needs. -/
structure FormatterSpec where
  name : String
  plugins : List String
  deriving DecidableEq, Repr

structure TransformSpec where
  url : String
  /-- The well-known name the engine is registered under, if it expects one. -/
  global : Option String
  /-- Options that the language's own settings are laid over. -/
  defaults : Json

/-- How a source is compiled at first; the pass can run away from the page. -/
inductive PrimaryPass
  | identity
  /-- The source is mounted as a single-file component. -/
  | component
  | transform (spec : TransformSpec)
  | graph (handlers : List GraphHandler)

/-- What is done on the page itself with the code of the primary pass. These are all the passes there
are; none calls the host but by a nested compile (`Host.compileNested`). -/
inductive SecondaryPass
  /-- Compiled to JSX, and that to a module script. -/
  | mdx
  /-- The results of the isolated handlers, and the other handlers. -/
  | graph (handlers : List GraphHandler)
  | nest (language : String)

structure LanguageSpec where
  name : String
  title : String
  longTitle : Option String
  formatter : FormatterSpec
  primary : PrimaryPass
  secondary : Option SecondaryPass
  compiledLanguage : Option String
  /-- Import specifiers and their URLs, by specifier. -/
  imports : List (String × String)
  /-- Scripts the compiled code expects on the page. -/
  scripts : List String
  extensions : List String
  surface : Surface
  /-- The grammar that highlights it, if not its own. -/
  editorLanguage : Option String

def LanguageSpec.outputLanguage (l : LanguageSpec) : String :=
  l.compiledLanguage.getD l.surface.defaultOutput

end Playground
