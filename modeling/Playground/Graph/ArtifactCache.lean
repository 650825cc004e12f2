import Playground.Base64
import Playground.Engine.Basic
import Playground.Html.Edit
import Playground.Json.Parser
import Playground.Text.Bytes

/-! Rendered results by target, and the marker that carries them inside a document. -/

namespace Playground

/-- Target to data URI, in the order of first insertion. -/
structure ArtifactCache where
  entries : List (String × String)
  deriving DecidableEq, Repr

def cacheMarkerType : String := "data-urls"

def svgUriLead : String := "data:image/svg+xml;base64,"

namespace Rendered

def toDataUri : Rendered → String
  | markup text => svgUriLead ++ String.ofList (Base64.encode (bytesOf text))
  | dataUri uri => uri

end Rendered

namespace ArtifactCache

def empty : ArtifactCache := ⟨[]⟩

def insert (c : ArtifactCache) (target uri : String) : ArtifactCache :=
  ⟨upsert target uri c.entries⟩

def insertRendered (c : ArtifactCache) (target : String) (r : Rendered) : ArtifactCache :=
  c.insert target r.toDataUri

def extend (c other : ArtifactCache) : ArtifactCache :=
  other.entries.foldl (fun c (target, uri) => c.insert target uri) c

def get? (c : ArtifactCache) (target : String) : Option String := c.entries.lookup target

def targets (c : ArtifactCache) : List String := c.entries.map Prod.fst

def size (c : ArtifactCache) : Nat := c.entries.length

def isEmpty (c : ArtifactCache) : Bool := c.entries.isEmpty

theorem get?_insert (c : ArtifactCache) (target uri t : String) :
    (c.insert target uri).get? t = if t = target then some uri else c.get? t :=
  lookup_upsert target t uri c.entries

/-- The table as JSON in which no `<` stands for itself, so that it cannot close a script. -/
def toJsonText (c : ArtifactCache) : String :=
  replaceText (Json.obj (c.entries.map fun (target, uri) => (target, .str uri))).compact
    "<" "\\u003c"

def toMarker (c : ArtifactCache) : String :=
  "<script type=\"" ++ cacheMarkerType ++ "\">" ++ c.toJsonText ++ "</script>"

/-- Takes entries in order; the first that is not a string makes the table unreadable. -/
def addEntries (c : ArtifactCache) : List (String × Json) → Except BlockError ArtifactCache
  | [] => .ok c
  | (target, .str uri) :: rest => (c.insert target uri).addEntries rest
  | (target, other) :: _ =>
    .error (.invalidCache
      ("entry for " ++ target ++ " is " ++ other.compact ++ ", expected a string"))

def readTable (text : String) : Except Json.Fault (List (String × Json)) :=
  let start := Json.skipBlanks (.ofText text)
  match start.rest with
  | '{' :: _ =>
    (Json.parse text).map fun
      | .obj fields => fields
      | _ => []
  | _ => Json.refuse "a map" start

def parse (text : String) : Except BlockError ArtifactCache :=
  let trimmed := trimBlanks text
  if trimmed.isEmpty then .ok empty
  else
    match readTable trimmed with
    | .error fault => .error (.invalidCache (fault.message trimmed))
    | .ok fields => empty.addEntries fields

end ArtifactCache

def svgOf? (uri : String) : Option String := do
  let payload ← Text.dropLead? svgUriLead.toList uri.toList
  textOf? (← Base64.decode? payload)

/-- The markup a data URI stands for: the decoded SVG, or an image of the URI. -/
def markupOfUri (uri : String) : String :=
  (svgOf? uri).getD ("<img src=\"" ++ Html.Entity.escapeAttribute uri ++ "\">")

open Html in
/-- Puts a result on its target: images get a source, other elements get content. -/
def display? (target : Element) (uri : String) : Option Edit :=
  if target.tag = "img" then some (.setAttr target "src" uri)
  else Edit.setInner? target (markupOfUri uri)

open Html in
def shownTarget? (e : Element) : Option String := (e.attr? "data-src").map trimBlanks

open Html in
def displayAll (elements : List Element) (cache : ArtifactCache) : List Edit :=
  elements.filterMap fun e => do display? e (← cache.get? (← shownTarget? e))

end Playground
