import Playground.Config.Basic
import Playground.Error
import Playground.Language.Spec
import Playground.Text.Replace

/-! Compiling: what is asked, what one pass answers, and what the caller gets. -/

namespace Playground

structure Compiled where
  code : String
  /-- Failures of single blocks, which are left as they were. -/
  warnings : List BlockError
  deriving DecidableEq, Repr

namespace Compiled

def ofCode (code : String) : Compiled := ⟨code, []⟩

def empty : Compiled := ofCode ""

end Compiled

structure CompileRequest where
  language : String
  source : String
  config : Config

structure CompileOutput where
  code : String
  compiledLanguage : String
  imports : List (String × String)
  scripts : List String
  blockErrors : List BlockError
  deriving DecidableEq, Repr

def CompileOutput.ofCompiled (l : LanguageSpec) (c : Compiled) : CompileOutput where
  code := c.code
  compiledLanguage := l.outputLanguage
  imports := l.imports
  scripts := l.scripts
  blockErrors := c.warnings

/-- What stands in for the output of a compile that fails. -/
inductive Fallback
  | empty
  /-- The last output of the language, or an empty one. -/
  | lastGood
  | errorMarker
  deriving DecidableEq, Repr

structure Recovered where
  output : CompileOutput
  error : Option CompileError
  deriving DecidableEq, Repr

/-- A place apart that primary passes can be sent to. Only texts and the configuration get there,
and only the answer comes back. -/
structure IsolatedWorker (ω : Type) where
  compile : String → String → Config → ω → Except CompileError Compiled × ω

def slashCommented : List String := ["css", "scss", "javascript", "typescript", "jsx", "tsx"]

/-- A failure as a comment in a language. What would end the comment is broken up. -/
def errorMarker (language : String) (e : CompileError) : String :=
  if language ∈ slashCommented then "/* " ++ replaceText e.message "*/" "* /" ++ " */"
  else "<!-- " ++ replaceText e.message "--" "- -" ++ " -->"

end Playground
