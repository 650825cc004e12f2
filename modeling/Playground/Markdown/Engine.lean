import Playground.Engine.Basic
import Playground.Markdown.Html

namespace Playground.Markdown

def isExtended (options : Json) : Bool := ((options.field? "gfm").bind Json.bool?).getD true

def engine : TransformEngine :=
  ⟨"markdown", fun source options => .ok (toHtml (isExtended options) source)⟩

end Playground.Markdown
