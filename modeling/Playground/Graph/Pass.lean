import Playground.Graph.Block
import Playground.Graph.Restore
import Playground.Loader.Session

/-! One handler's pass over a document. -/

namespace Playground

open Html

/-- Where a pass puts its results. -/
inductive Emit
  | substitute
  /-- Into a cache marker at the end of the document. -/
  | serialize
  deriving DecidableEq, Repr

structure PassOutput where
  text : String
  errors : List BlockError
  deriving DecidableEq, Repr

inductive BlockOutcome
  | unavailable (error : FetchError)
  | refused (error : EngineError)
  | rendered (result : Rendered)
  deriving DecidableEq, Repr

/-- A block, its marker, and what became of it. -/
structure HandledBlock where
  marker : Element
  block : EmbeddedBlock
  outcome : BlockOutcome
  deriving DecidableEq, Repr

namespace Session

def resolveSource (env : Surroundings) (asker : Asker) (source : BlockSource) (s : Session) :
    Except FetchError String × Session :=
  match source with
  | .inline text => (.ok text, s)
  | .external url => s.ask env asker url

def resolveSources (env : Surroundings) : List (Asker × BlockSource) → Session →
    List (Except FetchError String) × Session
  | [], s => ([], s)
  | (asker, source) :: rest, s =>
    let (content, s) := resolveSource env asker source s
    let (contents, s) := resolveSources env rest s
    (content :: contents, s)

def engineOf (env : Surroundings) (h : GraphHandler) (s : Session) :
    Except EngineLoadError GraphEngine × Session :=
  let (result, s) := s.loadCall env ⟨h.engineUrl, h.global⟩
  (result.bind EngineHandle.graph, s)

end Session

def sortFiles (kind : GraphKind) :
    List (PendingInputFile × Except FetchError String) → List InputFile × List BlockError
  | [] => ([], [])
  | (file, .ok content) :: rest =>
    let (files, errors) := sortFiles kind rest
    (⟨file.name, content⟩ :: files, errors)
  | (_, .error e) :: rest =>
    let (files, errors) := sortFiles kind rest
    (files, .resourceFetch kind.name none e.url e.message :: errors)

def fileSources (kind : GraphKind) (files : List PendingInputFile) : List (Asker × BlockSource) :=
  files.zipIdx.map fun (file, place) => (.file kind.marker place, file.source)

def EmbeddedBlock.asker (block : EmbeddedBlock) : Asker := .block block.kind.marker block.index

def blockSources (pending : List (Element × EmbeddedBlock)) : List (Asker × BlockSource) :=
  pending.map fun b => (b.2.asker, b.2.source)

def inputFileMarkers (h : GraphHandler) (elements : List Element) : List Element :=
  match h.inputFiles with
  | some type_ => elements.filter (·.isScriptOf type_)
  | none => []

def requestOf (files : List InputFile) (block : EmbeddedBlock) (content : String) :
    RenderRequest :=
  { content := content
    hints := block.hints
    files := files
    output := block.output
    index := block.index }

def handleBlocks (engine : GraphEngine) (files : List InputFile) :
    List ((Element × EmbeddedBlock) × Except FetchError String) → List HandledBlock × List Event
  | [] => ([], [])
  | ((marker, block), .error e) :: rest =>
    let (handled, events) := handleBlocks engine files rest
    (⟨marker, block, .unavailable e⟩ :: handled, events)
  | ((marker, block), .ok content) :: rest =>
    let request := requestOf files block content
    let outcome := match engine.render request with
      | .ok result => BlockOutcome.rendered result
      | .error e => .refused e
    let (handled, events) := handleBlocks engine files rest
    (⟨marker, block, outcome⟩ :: handled, .render engine.name request :: events)

namespace HandledBlock

def result? (h : HandledBlock) : Option Rendered :=
  match h.outcome with
  | .rendered result => some result
  | _ => none

def error? (kind : GraphKind) (h : HandledBlock) : Option BlockError :=
  match h.outcome with
  | .unavailable e => some (.resourceFetch kind.name (some h.block.output) e.url e.message)
  | .refused e => some (.render kind.name h.block.output e.message)
  | .rendered _ => none

end HandledBlock

def addResult (cache : ArtifactCache) (h : HandledBlock) : ArtifactCache :=
  match h.result? with
  | some result => cache.insertRendered h.block.output result
  | none => cache

/-- The results by target; the last one for a target counts. -/
def resultsOf (handled : List HandledBlock) : ArtifactCache := handled.foldl addResult .empty

def readableMarkers (elements : List Element) (doc : String) : List (Element × ArtifactCache) :=
  (elements.filter (·.isScriptOf cacheMarkerType)).filterMap fun marker =>
    match ArtifactCache.parse (marker.inner doc) with
    | .ok cache => some (marker, cache)
    | .error _ => none

/-- The edits that store results: readable markers are merged into one new marker at the end. -/
def serializeEdits (elements : List Element) (doc : String) (results : ArtifactCache)
    (removals : List Edit) : List Edit :=
  if results.isEmpty then removals
  else
    let existing := readableMarkers elements doc
    let merged := (existing.map Prod.snd ++ [results]).foldl ArtifactCache.extend .empty
    .insert doc.utf8ByteSize merged.toMarker ::
      (removals ++ existing.map fun (marker, _) => Edit.remove marker)

def emitEdits (emit : Emit) (elements : List Element) (doc : String) (results : ArtifactCache)
    (removals : List Edit) : List Edit :=
  match emit with
  | .substitute => displayAll elements results ++ removals
  | .serialize => serializeEdits elements doc results removals

/-- What became of the blocks of a pass, and the errors of its input files. -/
structure Handling where
  blocks : List HandledBlock
  fileErrors : List BlockError
  deriving DecidableEq, Repr

/-- Loads the engine, fetches input files and contents, and renders blocks one after the other. -/
def handlePending (env : Surroundings) (h : GraphHandler) (elements : List Element) (doc : String)
    (pending : List (Element × EmbeddedBlock)) (s : Session) :
    Except EngineLoadError Handling × Session :=
  match s.engineOf env h with
  | (.error error, s) => (.error error, s)
  | (.ok engine, s) =>
    let files := (inputFileMarkers h elements).map fun e => PendingInputFile.ofMarker e doc
    let (fileContents, s) := s.resolveSources env (fileSources h.kind files)
    let (contents, s) := s.resolveSources env (blockSources pending)
    let (inputs, fileErrors) := sortFiles h.kind (files.zip fileContents)
    let (handled, events) := handleBlocks engine inputs (pending.zip contents)
    (.ok ⟨handled, fileErrors⟩, s.record events)

/-- The blocks of a kind whose target is not in `satisfied`. -/
def pendingBlocks (elements : List Element) (doc : String) (kind : GraphKind)
    (satisfied : List String) : List (Element × EmbeddedBlock) :=
  (blocksIn elements doc kind).filter fun (_, block) => !satisfied.contains block.output

def dropEdits (elements : List Element) (doc : String) (kind : GraphKind)
    (satisfied : List String) : List Edit :=
  ((blocksIn elements doc kind).filter fun (_, block) => satisfied.contains block.output).map
    fun (marker, _) => Edit.remove marker

def renderedOf (handled : List HandledBlock) : List HandledBlock :=
  handled.filter fun b => b.result?.isSome

def renderKind (env : Surroundings) (h : GraphHandler) (doc : String) (emit : Emit)
    (satisfied : List String) (s : Session) : Except EngineLoadError PassOutput × Session :=
  let elements := scan doc
  let pending := pendingBlocks elements doc h.kind satisfied
  let drops := dropEdits elements doc h.kind satisfied
  if pending.isEmpty then (.ok ⟨withEdits doc drops, []⟩, s)
  else
    match handlePending env h elements doc pending s with
    | (.error error, s) => (.error error, s)
    | (.ok handling, s) =>
      let removals := drops ++ (renderedOf handling.blocks).map fun b => Edit.remove b.marker
      let edits := emitEdits emit elements doc (resultsOf handling.blocks) removals
      (.ok ⟨withEdits doc edits,
        handling.fileErrors ++ handling.blocks.filterMap (·.error? h.kind)⟩, s)

end Playground
