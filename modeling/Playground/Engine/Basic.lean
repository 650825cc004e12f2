import Playground.Error
import Playground.Json.Basic

/-! Engines: what they are asked, what they answer, and the modules they come in. -/

namespace Playground

/-- Options for a graph engine, by name in the order of the names' bytes. -/
abbrev Hints := List (String × String)

/-- A data file given to a graph engine beside its script. -/
structure InputFile where
  name : String
  content : String
  deriving DecidableEq, Repr

structure RenderRequest where
  content : String
  hints : Hints
  files : List InputFile
  /-- The target the result will be displayed under. -/
  output : String
  /-- The block's position among those of its kind, from 1. -/
  index : Nat
  deriving DecidableEq, Repr

inductive Rendered
  | markup (text : String)
  | dataUri (uri : String)
  deriving DecidableEq, Repr

structure TransformEngine where
  name : String
  transform : String → Json → Except EngineError String

structure GraphEngine where
  name : String
  render : RenderRequest → Except EngineError Rendered

inductive Module
  | transform (engine : TransformEngine)
  | graph (engine : GraphEngine)
  | script (text : String)

def Module.kindName : Module → String
  | transform _ => "transform"
  | graph _ => "graph"
  | script _ => "script"

def Module.summary : Module → String
  | script text => "Module::Script(" ++ toString text.utf8ByteSize ++ " bytes)"
  | other => "Module::" ++ other.kindName

structure EngineHandle where
  url : String
  module : Module

namespace EngineHandle

def capabilityError (h : EngineHandle) (expected : String) : EngineLoadError :=
  .capability h.url expected h.module.kindName

def transform (h : EngineHandle) : Except EngineLoadError TransformEngine :=
  match h.module with
  | .transform engine => .ok engine
  | _ => .error (h.capabilityError "transform")

def graph (h : EngineHandle) : Except EngineLoadError GraphEngine :=
  match h.module with
  | .graph engine => .ok engine
  | _ => .error (h.capabilityError "graph")

def script (h : EngineHandle) : Except EngineLoadError String :=
  match h.module with
  | .script text => .ok text
  | _ => .error (h.capabilityError "script")

end EngineHandle

end Playground
