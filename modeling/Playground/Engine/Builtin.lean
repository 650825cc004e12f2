import Playground.Config.Basic
import Playground.Engine.Gnuplot
import Playground.Engine.Graphviz
import Playground.Engine.Mermaid
import Playground.Graph.Kind
import Playground.Loader.Basic
import Playground.Markdown.Engine

/-! The engines that come with the playground, under the URLs its languages ask for. Other URLs
hold scripts. -/

namespace Playground

def builtinModules (base : String) (tools : Toolbox) : List (String × Except String Module) :=
  [(resolveUrl base markedUrl, .ok (.transform Markdown.engine)),
    (resolveUrl base mermaidUrl, .ok (.graph (Mermaid.engine Mermaid.noLayout))),
    (resolveUrl base graphvizUrl, (Graphviz.locate tools).map .graph),
    (resolveUrl base gnuplotUrl, (Gnuplot.locate tools).map .graph)]

def builtinSource (config : Config) (tools : Toolbox) : ModuleSource :=
  .ofTable (builtinModules config.vendorsBaseUrl tools) true

end Playground
