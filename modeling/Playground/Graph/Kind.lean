import Playground.Engine.Basic

/-! Kinds of diagrams, and the table of handlers that render them. -/

namespace Playground

inductive GraphKind
  | gnuplot
  | mermaid
  | graphviz
  | custom (marker : String)
  deriving DecidableEq, Repr

namespace GraphKind

def name : GraphKind → String
  | gnuplot => "gnuplot"
  | mermaid => "mermaid"
  | graphviz => "graphviz"
  | custom marker => marker

def marker : GraphKind → String
  | custom marker => marker
  | builtin => "application/graph-" ++ builtin.name

end GraphKind

def gnuplotFileMarker : String := "application/graph-gnuplot-file"

/-- A marker type and the engine that renders its blocks. -/
structure GraphHandler where
  kind : GraphKind
  engineUrl : String
  /-- The well-known name the engine is registered under, if it expects one. -/
  global : Option String
  isolated : Bool
  inputFiles : Option String
  deriving DecidableEq, Repr

def markedUrl : String := "https://cdn.jsdelivr.net/npm/marked@4.0.10/marked.min.js"

def mermaidUrl : String := "https://cdn.jsdelivr.net/npm/mermaid@8.13.8/dist/mermaid.min.js"

def graphvizUrl : String := "https://cdn.jsdelivr.net/npm/@hpcc-js/wasm/dist/index.min.js"

def gnuplotUrl : String := "gnuplot/gnuplot_api.js"

def mdxUrl : String := "mdx/mdx.js"

def typescriptUrl : String :=
  "https://cdn.jsdelivr.net/npm/typescript@4.5.4/lib/typescript.min.js"

def sassUrl : String := "https://cdn.jsdelivr.net/npm/sass.js@0.11.1/dist/sass.sync.js"

namespace GraphHandler

def gnuplot : GraphHandler :=
  ⟨.gnuplot, gnuplotUrl, some "Gnuplot", true, some gnuplotFileMarker⟩

def mermaid : GraphHandler := ⟨.mermaid, mermaidUrl, some "mermaid", false, none⟩

def graphviz : GraphHandler := ⟨.graphviz, graphvizUrl, some "@hpcc-js/wasm", false, none⟩

def builtin : List GraphHandler := [gnuplot, mermaid, graphviz]

end GraphHandler

end Playground
