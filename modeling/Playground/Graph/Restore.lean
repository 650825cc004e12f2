import Playground.Graph.ArtifactCache

/-! Putting cached results back into a document. -/

namespace Playground

open Html

structure Restored where
  text : String
  /-- The targets found in readable markers, each once. -/
  targets : List String
  errors : List BlockError
  deriving DecidableEq, Repr

def isScriptOfAny (types : List String) (e : Element) : Bool := types.any e.isScriptOf

def readMarker (doc : String) :
    ArtifactCache × List BlockError → Element → ArtifactCache × List BlockError
  | (cache, errors), marker =>
    match ArtifactCache.parse (marker.inner doc) with
    | .ok parsed => (cache.extend parsed, errors)
    | .error error => (cache, errors ++ [error])

/-- The caches of markers merged in order, and the errors of the unreadable ones. -/
def readMarkers (doc : String) (markers : List Element) : ArtifactCache × List BlockError :=
  markers.foldl (readMarker doc) (.empty, [])

/-- Displays what the cache markers of a document hold and removes them, unreadable ones too, with
the input-file markers of the given types. Without a cache marker nothing changes. -/
def restore (doc : String) (inputFileTypes : List String) : Restored :=
  let elements := scan doc
  let markers := elements.filter (·.isScriptOf cacheMarkerType)
  if markers.isEmpty then ⟨doc, [], []⟩
  else
    let (cache, errors) := readMarkers doc markers
    let edits := displayAll elements cache ++ markers.map Edit.remove ++
      (elements.filter (isScriptOfAny inputFileTypes)).map Edit.remove
    ⟨withEdits doc edits, cache.targets, errors⟩

end Playground
