import Playground.Language.Component
import Playground.Language.Registry

/-! The languages of the playground, in the order they are listed. -/

namespace Playground.LanguageSpec

def htmlPlugin : String := "https://cdn.jsdelivr.net/npm/prettier@2.3.2/parser-html.js"

def markdownPlugin : String := "https://cdn.jsdelivr.net/npm/prettier@2.3.2/parser-markdown.js"

def postcssPlugin : String := "https://cdn.jsdelivr.net/npm/prettier@2.3.2/parser-postcss.js"

def babelPlugin : String := "https://cdn.jsdelivr.net/npm/prettier@2.3.2/parser-babel.js"

def typescriptPlugin : String :=
  "https://cdn.jsdelivr.net/npm/prettier@2.3.2/parser-typescript.js"

def plain (name title : String) (surface : Surface) (formatter : FormatterSpec)
    (extensions : List String) : LanguageSpec where
  name := name
  title := title
  longTitle := none
  formatter := formatter
  primary := .identity
  secondary := none
  compiledLanguage := none
  imports := []
  scripts := []
  extensions := extensions
  surface := surface
  editorLanguage := none

def html : LanguageSpec := plain "html" "HTML" .markup ⟨"html", [htmlPlugin]⟩ ["html", "htm"]

def markdown : LanguageSpec :=
  { plain "markdown" "Markdown" .markup ⟨"markdown", [markdownPlugin]⟩
      ["md", "markdown", "mdown", "mkdn"] with
    primary := .transform ⟨markedUrl, some "marked", .obj [("gfm", .bool true)]⟩
    compiledLanguage := some "html" }

def richtext : LanguageSpec :=
  { plain "richtext" "Rich Text" .markup ⟨"html", [htmlPlugin]⟩ ["rte", "rich"] with
    longTitle := some "Rich Text Editor"
    compiledLanguage := some "html"
    editorLanguage := some "html" }

def mdx : LanguageSpec :=
  { plain "mdx" "MDX" .markup ⟨"markdown", [markdownPlugin, htmlPlugin]⟩ ["mdx"] with
    secondary := some .mdx
    compiledLanguage := some "javascript"
    imports := [("react/jsx-runtime", "https://esm.sh/react/jsx-runtime")]
    editorLanguage := some "markdown" }

def graphOf (handlers : List GraphHandler) : LanguageSpec :=
  { plain "graph" "Graph" .markup ⟨"html", [htmlPlugin]⟩ ["graph", "plt"] with
    primary := .graph handlers
    secondary := some (.graph handlers)
    compiledLanguage := some "html"
    editorLanguage := some "html" }

def graph : LanguageSpec := graphOf GraphHandler.builtin

def css : LanguageSpec := plain "css" "CSS" .style ⟨"css", [postcssPlugin]⟩ ["css"]

def scss : LanguageSpec :=
  { plain "scss" "SCSS" .style ⟨"scss", [postcssPlugin]⟩ ["scss"] with
    primary := .transform
      ⟨sassUrl, some "Sass", .obj [("syntax", .str "scss"), ("style", .str "expanded")]⟩
    compiledLanguage := some "css" }

def javascript : LanguageSpec :=
  { plain "javascript" "JS" .script ⟨"babel", [babelPlugin]⟩ ["js", "mjs"] with
    compiledLanguage := some "javascript" }

/-- The options of the script compiler, with those for JSX in a language that has it. -/
def scriptOptions (jsx : Bool) : Json :=
  .obj ([("target", .str "es2015"), ("module", .str "esnext")] ++
    if jsx then [("jsx", .str "react")] else [])

def typed (name title : String) (formatter : FormatterSpec) (extensions : List String)
    (jsx : Bool) : LanguageSpec :=
  { plain name title .script formatter extensions with
    primary := .transform ⟨typescriptUrl, some "ts", scriptOptions jsx⟩
    compiledLanguage := some "javascript" }

def typescript : LanguageSpec :=
  typed "typescript" "TS" ⟨"typescript", [typescriptPlugin]⟩ ["ts", "mts"] false

def jsx : LanguageSpec :=
  { typed "jsx" "JSX" ⟨"babel", [babelPlugin]⟩ ["jsx"] true with
    editorLanguage := some "javascript" }

def tsx : LanguageSpec :=
  { typed "tsx" "TSX" ⟨"typescript", [typescriptPlugin]⟩ ["tsx"] true with
    editorLanguage := some "typescript" }

def vue2 : LanguageSpec :=
  { plain "vue2" "Vue 2" .script ⟨"html", [htmlPlugin]⟩ ["vue2"] with
    longTitle := some "Vue 2 SFC"
    primary := .component
    compiledLanguage := some "javascript"
    scripts := componentScripts
    editorLanguage := some "html" }

def builtin : List LanguageSpec :=
  [html, markdown, richtext, mdx, graph, css, scss, javascript, typescript, jsx, tsx, vue2]

end Playground.LanguageSpec

namespace Playground

def LanguageRegistry.builtin : LanguageRegistry := .ofList LanguageSpec.builtin

end Playground
