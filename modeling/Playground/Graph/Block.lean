import Playground.Graph.Kind
import Playground.Html.Edit

/-! Render requests found in a document, and the input files that belong to them. -/

namespace Playground

open Html

inductive BlockSource
  | inline (text : String)
  | external (url : String)
  deriving DecidableEq, Repr

def BlockSource.ofElement (e : Element) (doc : String) : BlockSource :=
  let url := ((e.attr? "src").map trimBlanks).getD ""
  if url.isEmpty then .inline (e.inner doc) else .external url

structure EmbeddedBlock where
  kind : GraphKind
  /-- The target the result is displayed under. -/
  output : String
  hints : Hints
  source : BlockSource
  /-- The position among the blocks of the kind that can be rendered, from 1. -/
  index : Nat
  deriving DecidableEq, Repr

namespace EmbeddedBlock

def ofMarker? (kind : GraphKind) (e : Element) (doc : String) (index : Nat) :
    Option EmbeddedBlock :=
  let output := ((e.attr? "data-output").map trimBlanks).getD ""
  if output.isEmpty then none
  else some
    { kind := kind
      output := output
      hints := sortByKey (e.dataAttrs.filter fun (name, _) => name != "output" && name != "src")
      source := .ofElement e doc
      index := index }

def ofMarkers (kind : GraphKind) (doc : String) : Nat → List Element →
    List (Element × EmbeddedBlock)
  | _, [] => []
  | index, e :: rest =>
    match ofMarker? kind e doc index with
    | some block => (e, block) :: ofMarkers kind doc (index + 1) rest
    | none => ofMarkers kind doc index rest

end EmbeddedBlock

/-- The markers of a kind that can be rendered, with their blocks, in document order. -/
def blocksIn (elements : List Element) (doc : String) (kind : GraphKind) :
    List (Element × EmbeddedBlock) :=
  EmbeddedBlock.ofMarkers kind doc 1 (elements.filter (·.isScriptOf kind.marker))

def discover (doc : String) (kind : GraphKind) : List EmbeddedBlock :=
  (blocksIn (scan doc) doc kind).map Prod.snd

/-- Whether a script takes its content from a URL, so that the text alone does not decide what the
document renders to. -/
def referencesExternal (doc : String) : Bool :=
  (scan doc).any fun e =>
    e.tag == "script" && !(((e.attr? "src").map trimBlanks).getD "").isEmpty

/-- An input-file marker before its content is fetched. -/
structure PendingInputFile where
  name : String
  source : BlockSource
  deriving DecidableEq, Repr

def defaultInputFileName : String := "data.txt"

def lastSegment (url : String) : String :=
  String.ofList (url.toList.reverse.takeWhile (· != '/')).reverse

/-- A file is named by its trimmed `data-file`, else by the last segment of its URL. -/
def PendingInputFile.ofMarker (e : Element) (doc : String) : PendingInputFile :=
  let source := BlockSource.ofElement e doc
  let given := ((e.attr? "data-file").map trimBlanks).getD ""
  let derived := match source with
    | .external url => lastSegment url
    | .inline _ => ""
  let name :=
    if !given.isEmpty then given
    else if !derived.isEmpty then derived
    else defaultInputFileName
  ⟨name, source⟩

end Playground
