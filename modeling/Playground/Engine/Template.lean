import Playground.Engine.Basic
import Playground.Json.Printer
import Playground.Text.Blank
import Playground.Text.Template

/-! Engines that answer from templates. They stand in for real ones where what matters is what they
are asked. -/

namespace Playground.TemplateEngine

def refusal? (content : String) : Option String :=
  (Text.dropLead? "FAIL".toList (trimBlanks content).toList).map fun rest =>
    trimBlanks (String.ofList rest)

def fillReply (r : RenderRequest) (template : String) : String :=
  fillTemplate template
    [("content", r.content), ("output", r.output), ("index", toString r.index)]

def graph (label : String) (reply : Option Rendered) : GraphEngine where
  name := label
  render := fun r =>
    match refusal? r.content, reply with
    | some message, _ => .error (.plain message)
    | none, some (.markup template) => .ok (.markup (fillReply r template))
    | none, some (.dataUri template) => .ok (.dataUri (fillReply r template))
    | none, none => .ok (.markup ("<svg>" ++ label ++ ":" ++ r.content ++ "</svg>"))

def transform (label template : String) (place : Option SourceLocation) : TransformEngine where
  name := label
  transform := fun source options =>
    if Text.occurs "boom".toList source.toList then .error ⟨"unexpected boom", place⟩
    else .ok (fillTemplate template [("source", source), ("options", options.compact)])

end Playground.TemplateEngine
