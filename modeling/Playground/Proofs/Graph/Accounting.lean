import Playground.Proofs.Graph.StoredPass
import Playground.Proofs.Loader.Coalescing

/-! What a pass owes to each of its blocks. -/

namespace Playground

open Html Session

def BlockSource.url? : BlockSource → Option String
  | inline _ => none
  | external url => some url

def fetchesOf (sources : List BlockSource) : List Event :=
  sources.filterMap fun source => source.url?.map Event.fetch

/-- What is asked for to load engines: modules, and the texts of those that are scripts. -/
def Event.IsLoading (urls : List String) : Event → Prop
  | .load _ => True
  | .fetch url => url ∈ urls
  | .render _ _ | .transform _ _ => False

theorem Event.IsLoading.mono {event : Event} {urls urls' : List String}
    (loading : event.IsLoading urls) (more : urls ⊆ urls') : event.IsLoading urls' := by
  cases event with
  | load url => trivial
  | fetch url => exact more loading
  | render | transform => exact loading

namespace Session

theorem record_nil (s : Session) : s.record [] = s := by rw [record, List.append_nil]

theorem record_record (s : Session) (events later : List Event) :
    (s.record events).record later = s.record (events ++ later) := by
  simp only [record, List.append_assoc]

theorem resolveSource_record (env : Surroundings) (asker : Asker) (source : BlockSource)
    (s : Session) :
    resolveSource env asker source s = (sourceText env asker source, s.record (fetchesOf [source])) := by
  cases source with
  | inline text => exact congrArg (Prod.mk _) s.record_nil.symm
  | external url => rfl

theorem resolveSources_record (env : Surroundings) (sources : List (Asker × BlockSource))
    (s : Session) :
    resolveSources env sources s = (sources.map fun asked => sourceText env asked.1 asked.2,
      s.record (fetchesOf (sources.map Prod.snd))) := by
  induction sources generalizing s with
  | nil => exact congrArg (Prod.mk _) s.record_nil.symm
  | cons source sources ih =>
    obtain ⟨asker, source⟩ := source
    have whole : fetchesOf [source] ++ fetchesOf (sources.map Prod.snd) =
        fetchesOf (source :: sources.map Prod.snd) := by
      rw [fetchesOf, fetchesOf, ← List.filterMap_append]
      rfl
    rw [resolveSources, resolveSource_record]
    dsimp only
    rw [ih, record_record, whole]
    rfl

/-- Time in which engines were loaded: none was called, and nothing was fetched but modules. -/
structure OnlyLoads (s s' : Session) : Prop where
  kept : s.loader.loads.map Load.url ⊆ s'.loader.loads.map Load.url
  asked : ∃ events, s'.trace = s.trace ++ events ∧
    ∀ event ∈ events, event.IsLoading (s'.loader.loads.map Load.url)

namespace OnlyLoads

variable {s s' s'' : Session}

theorem of_trace (kept : s.loader.loads.map Load.url ⊆ s'.loader.loads.map Load.url)
    (same : s'.trace = s.trace) : OnlyLoads s s' :=
  ⟨kept, [], by rw [List.append_nil, same], List.forall_mem_nil _⟩

theorem trans (first : OnlyLoads s s') (second : OnlyLoads s' s'') : OnlyLoads s s'' := by
  obtain ⟨events, whole, loading⟩ := first.asked
  obtain ⟨events', whole', loading'⟩ := second.asked
  refine ⟨List.Subset.trans first.kept second.kept, events ++ events', ?_, ?_⟩
  · rw [whole', whole, List.append_assoc]
  · exact List.forall_mem_append.2 ⟨fun event mem => (loading event mem).mono second.kept, loading'⟩

end OnlyLoads

theorem enter_onlyLoads (call : LoadCall) (s : Session) : OnlyLoads s (enter call s).2 := by
  unfold enter
  split
  · exact .of_trace (List.Subset.refl _) rfl
  · dsimp only
    split
    · refine .of_trace ?_ rfl
      rw [withLoader_loader, (EngineLoader.deliver_frame _ _ _).2]
      exact List.Subset.refl _
    · exact .of_trace (List.Subset.refl _) rfl
    · refine ⟨?_, [.load _], rfl, List.forall_mem_singleton.2 trivial⟩
      obtain ⟨attempt, loads⟩ := s.loader.loads_begin (s.loader.resolve call.reference)
      rw [record_loader, withLoader_loader, loads, List.map_append]
      exact List.subset_append_left _ _

theorem arrive_isLoading {load : Load} {urls : List String} (known : load.url ∈ urls)
    (env : Surroundings) : ∀ event ∈ (load.arrive env).2, event.IsLoading urls := by
  unfold Load.arrive
  split
  · exact List.forall_mem_nil _
  · exact List.forall_mem_nil _
  · split <;> exact List.forall_mem_singleton.2 known

theorem advance_onlyLoads (env : Surroundings) (wait : Bool) (id : Nat) (s : Session) :
    OnlyLoads s (advance env wait id s).2 := by
  have urls := EngineLoader.advance_urls env wait id s
  refine ⟨fun url mem => urls ▸ mem, ?_⟩
  rw [urls]
  unfold advance
  split
  · exact ⟨[], (List.append_nil _).symm, List.forall_mem_nil _⟩
  · next load at_ =>
    split
    · exact ⟨[], (List.append_nil _).symm, List.forall_mem_nil _⟩
    · split
      · exact ⟨[], (List.append_nil _).symm, List.forall_mem_nil _⟩
      · exact ⟨_, rfl, arrive_isLoading (List.mem_map_of_mem (List.mem_of_getElem? at_)) env⟩

theorem conclude_onlyLoads (url : String) (id : Nat) (global : Option String) (result : LoadResult)
    (s : Session) : OnlyLoads s (conclude url id global result s).2 := by
  refine .of_trace ?_ rfl
  rw [conclude, withLoader_loader, (EngineLoader.deliver_frame _ _ _).2, EngineLoader.settle_loads]
  exact List.Subset.refl _

theorem engineOf_onlyLoads (env : Surroundings) (h : GraphHandler) (s : Session) :
    OnlyLoads s (s.engineOf env h).2 := by
  have entered := enter_onlyLoads ⟨h.engineUrl, h.global⟩ s
  unfold engineOf loadCall
  generalize enter ⟨h.engineUrl, h.global⟩ s = entry at entered
  obtain ⟨entry, s'⟩ := entry
  cases entry with
  | done result => exact entered
  | waiting url id =>
    have advanced := entered.trans (advance_onlyLoads env true id s')
    dsimp only
    generalize advance env true id s' = answer at advanced
    obtain ⟨answer, s''⟩ := answer
    cases answer with
    | none => exact advanced
    | some result => exact advanced.trans (conclude_onlyLoads url id h.global result s'')

end Session

/-- The input file a marker at a place stands for, if its content comes. -/
def PendingInputFile.fetched? (env : Surroundings) (kind : GraphKind) (place : Nat)
    (file : PendingInputFile) : Option InputFile :=
  match sourceText env (.file kind.marker place) file.source with
  | .ok content => some ⟨file.name, content⟩
  | .error _ => none

def PendingInputFile.error? (env : Surroundings) (kind : GraphKind) (place : Nat)
    (file : PendingInputFile) : Option BlockError :=
  match sourceText env (.file kind.marker place) file.source with
  | .ok _ => none
  | .error e => some (.resourceFetch kind.name none e.url e.message)

theorem inputsWith_eq (env : Surroundings) (kind : GraphKind) (files : List PendingInputFile) :
    inputsWith env kind files =
      (files.zipIdx.filterMap fun (f, place) => f.fetched? env kind place,
        files.zipIdx.filterMap fun (f, place) => f.error? env kind place) := by
  unfold inputsWith
  generalize 0 = first
  induction files generalizing first with
  | nil => rfl
  | cons file files ih =>
    rw [List.zipIdx_cons, List.map_cons, List.zip_cons_cons, List.filterMap_cons,
      List.filterMap_cons]
    unfold PendingInputFile.fetched? PendingInputFile.error?
    dsimp only
    cases sourceText env (.file kind.marker first) file.source with
    | ok content =>
      rw [sortFiles, ih]
      rfl
    | error e =>
      rw [sortFiles, ih]
      rfl

def Html.Element.target (e : Element) : String := ((e.attr? "data-output").map trimBlanks).getD ""

/-- A block says what its marker says. -/
structure EmbeddedBlock.IsAt (doc : String) (kind : GraphKind) (e : Element) (block : EmbeddedBlock) :
    Prop where
  kind : block.kind = kind
  output : block.output = e.target
  source : block.source = .ofElement e doc

theorem ofMarkers_numbered_from (kind : GraphKind) (doc : String) (index : Nat)
    (markers : List Element) :
    let blocks := EmbeddedBlock.ofMarkers kind doc index markers
    blocks.map Prod.fst = markers.filter (fun e => !e.target.isEmpty) ∧
      blocks.map (·.2.index) = List.range' index blocks.length ∧
      ∀ b ∈ blocks, EmbeddedBlock.IsAt doc kind b.1 b.2 := by
  induction markers generalizing index with
  | nil => exact ⟨rfl, rfl, List.forall_mem_nil _⟩
  | cons e markers ih =>
    dsimp only at ih ⊢
    rw [EmbeddedBlock.ofMarkers, List.filter_cons]
    cases blank : e.target.isEmpty with
    | true =>
      have none_ : EmbeddedBlock.ofMarker? kind e doc index = none := if_pos blank
      rw [none_]
      exact ih index
    | false =>
      obtain ⟨markers_, numbers, here⟩ := ih (index + 1)
      obtain ⟨block, some_, number, at_⟩ : ∃ block,
          EmbeddedBlock.ofMarker? kind e doc index = some block ∧
            block.index = index ∧ EmbeddedBlock.IsAt doc kind e block :=
        ⟨_, if_neg (by rw [← Element.target, blank]; exact Bool.false_ne_true), rfl, rfl, rfl, rfl⟩
      rw [some_]
      refine ⟨?_, ?_, ?_⟩
      · exact congrArg (e :: ·) markers_
      · rw [List.map_cons, number]
        exact congrArg (index :: ·) numbers
      · rw [List.forall_mem_cons]
        exact ⟨at_, here⟩

/-- The blocks of a kind are its scripts that name a target, numbered from 1 in the order of the
document. -/
theorem blocksIn_numbered (doc : String) (kind : GraphKind) :
    let blocks := blocksIn (scan doc) doc kind
    blocks.map Prod.fst = (scan doc).filter (fun e => e.isScriptOf kind.marker && !e.target.isEmpty) ∧
      blocks.map (·.2.index) = List.range' 1 blocks.length ∧
      ∀ b ∈ blocks, EmbeddedBlock.IsAt doc kind b.1 b.2 := by
  have numbered := ofMarkers_numbered_from kind doc 1
    ((scan doc).filter (·.isScriptOf kind.marker))
  rw [List.filter_filter] at numbered
  simp only [Bool.and_comm] at numbered ⊢
  exact numbered

/-- What becomes of a block of a pass. -/
inductive Fate
  | dropped
  | reported (error : BlockError)
  | rendered (result : Rendered)
  deriving DecidableEq, Repr

namespace Fate

def error? : Fate → Option BlockError
  | reported error => some error
  | _ => none

def result? : Fate → Option Rendered
  | rendered result => some result
  | _ => none

end Fate

def BlockError.target? : BlockError → Option String
  | resourceFetch _ target _ _ => target
  | render _ target _ => some target
  | invalidCache _ => none

section Blocks

variable (env : Surroundings) (engine : GraphEngine) (kind : GraphKind) (files : List InputFile)
variable (satisfied : List String)

/-- A satisfied block is dropped; of the others the ones without content are reported, and so are
those that the engine refuses. -/
def fateOf (block : EmbeddedBlock) : Fate :=
  if satisfied.contains block.output then .dropped
  else
    match sourceText env block.asker block.source with
    | .error e => .reported (.resourceFetch kind.name (some block.output) e.url e.message)
    | .ok content =>
      match engine.render (requestOf files block content) with
      | .ok result => .rendered result
      | .error e => .reported (.render kind.name block.output e.message)

def requestFor? (block : EmbeddedBlock) : Option RenderRequest :=
  if satisfied.contains block.output then none
  else
    match sourceText env block.asker block.source with
    | .error _ => none
    | .ok content => some (requestOf files block content)

variable {env engine kind files satisfied}

theorem target?_fateOf {block : EmbeddedBlock} {error : BlockError}
    (reported : (fateOf env engine kind files satisfied block).error? = some error) :
    error.target? = some block.output := by
  unfold fateOf at reported
  split at reported
  · cases reported
  · split at reported
    · cases reported
      rfl
    · split at reported
      · cases reported
      · cases reported
        rfl

theorem result?_fateOf {block : EmbeddedBlock} {result : Rendered} :
    (fateOf env engine kind files satisfied block).result? = some result ↔
      ∃ request, requestFor? env files satisfied block = some request ∧
        engine.render request = .ok result := by
  unfold fateOf requestFor?
  split
  · exact ⟨nofun, nofun⟩
  · cases sourceText env block.asker block.source with
    | error e => exact ⟨nofun, nofun⟩
    | ok content =>
      dsimp only
      cases answer : engine.render (requestOf files block content) with
      | ok other => simp [Fate.result?, answer]
      | error e => simp [Fate.result?, answer]

theorem handleBlocks_requests {pending : List (Element × EmbeddedBlock)}
    (needed : ∀ b ∈ pending, satisfied.contains b.2.output = false) :
    (handleBlocks engine files
        (pending.zip (pending.map fun b => sourceText env b.2.asker b.2.source))).2 =
      (pending.filterMap fun b => requestFor? env files satisfied b.2).map
        (Event.render engine.name) := by
  induction pending with
  | nil => rfl
  | cons b pending ih =>
    obtain ⟨marker, block⟩ := b
    rw [List.forall_mem_cons] at needed
    rw [List.map_cons, List.zip_cons_cons, List.filterMap_cons, requestFor?,
      if_neg (by rw [needed.1]; exact Bool.false_ne_true)]
    cases sourceText env block.asker block.source with
    | error e => exact ih needed.2
    | ok content => exact congrArg (_ :: ·) (ih needed.2)

theorem outcomeOf_fateOf {marker : Element} {block : EmbeddedBlock}
    (needed : satisfied.contains block.output = false) :
    HandledBlock.error? kind ⟨marker, block, outcomeOf env engine files block⟩ =
        (fateOf env engine kind files satisfied block).error? ∧
      HandledBlock.result? ⟨marker, block, outcomeOf env engine files block⟩ =
        (fateOf env engine kind files satisfied block).result? := by
  unfold HandledBlock.error? HandledBlock.result? outcomeOf fateOf
  rw [if_neg (by rw [needed]; exact Bool.false_ne_true)]
  cases sourceText env block.asker block.source with
  | error e => exact ⟨rfl, rfl⟩
  | ok content =>
    dsimp only
    cases engine.render (requestOf files block content) <;> exact ⟨rfl, rfl⟩

theorem filterMap_pending {α : Type} {blocks : List (Element × EmbeddedBlock)}
    (f g : Element × EmbeddedBlock → Option α)
    (same : ∀ b, satisfied.contains b.2.output = false → f b = g b)
    (none_ : ∀ b, satisfied.contains b.2.output = true → g b = none) :
    (blocks.filter fun b => !satisfied.contains b.2.output).filterMap f = blocks.filterMap g := by
  rw [List.filterMap_filter]
  apply List.filterMap_congr
  intro b _
  cases done : satisfied.contains b.2.output with
  | true => exact (none_ b done).symm
  | false => exact same b done

end Blocks

section Pass

variable (env : Surroundings) (engine : GraphEngine) (h : GraphHandler) (doc : String)
variable (satisfied : List String)

def inputFilesIn : List PendingInputFile :=
  (inputFileMarkers h (scan doc)).map fun e => .ofMarker e doc

def filesFor : List InputFile :=
  (inputFilesIn h doc).zipIdx.filterMap fun (f, place) => f.fetched? env h.kind place

def fileErrorsIn : List BlockError :=
  (inputFilesIn h doc).zipIdx.filterMap fun (f, place) => f.error? env h.kind place

def requestsIn : List RenderRequest :=
  (blocksIn (scan doc) doc h.kind).filterMap fun b =>
    requestFor? env (filesFor env h doc) satisfied b.2

def fateIn (b : Element × EmbeddedBlock) : Fate :=
  fateOf env engine h.kind (filesFor env h doc) satisfied b.2

/-- The results of a pass under their targets. -/
def renderedIn : List (String × Rendered) :=
  (blocksIn (scan doc) doc h.kind).filterMap fun b =>
    (fateIn env engine h doc satisfied b).result?.map (b.2.output, ·)

/-- The markers that are taken out: those of the dropped blocks, and those of the rendered ones. -/
def takenOut : List Element :=
  ((blocksIn (scan doc) doc h.kind).filter fun b => satisfied.contains b.2.output).map Prod.fst ++
    (blocksIn (scan doc) doc h.kind).filterMap fun b =>
      (fateIn env engine h doc satisfied b).result?.map fun _ => b.1

/-- What is asked for once the engine is there: the input files, the contents of the blocks that
are needed, and then their results. -/
def askedBy : List Event :=
  fetchesOf ((inputFilesIn h doc).map (·.source)) ++
    fetchesOf ((pendingBlocks (scan doc) doc h.kind satisfied).map (·.2.source)) ++
      (requestsIn env h doc satisfied).map (Event.render engine.name)

/-- The account of a pass that has its engine. -/
structure Accounts (emit : Emit) (pass : PassOutput) : Prop where
  once : (requestsIn env h doc satisfied).Pairwise fun first second => first.index < second.index
  errors : pass.errors = fileErrorsIn env h doc ++
    (blocksIn (scan doc) doc h.kind).filterMap fun b => (fateIn env engine h doc satisfied b).error?
  targets : ∀ b ∈ blocksIn (scan doc) doc h.kind, ∀ error,
    (fateIn env engine h doc satisfied b).error? = some error → error.target? = some b.2.output
  text : pass.text = withEdits doc (emitEdits emit (scan doc) doc
    ((renderedIn env engine h doc satisfied).foldl (fun cache r => cache.insertRendered r.1 r.2) .empty)
    ((takenOut env engine h doc satisfied).map Edit.remove))
  rendered : ∀ b ∈ blocksIn (scan doc) doc h.kind, ∀ result,
    (fateIn env engine h doc satisfied b).result? = some result ↔
      ∃ request, requestFor? env (filesFor env h doc) satisfied b.2 = some request ∧
        engine.render request = .ok result
  whole : (blocksIn (scan doc) doc h.kind).length =
    ((blocksIn (scan doc) doc h.kind).countP fun b => satisfied.contains b.2.output) +
      (pass.errors.countP fun error => error.target?.isSome) +
        (renderedIn env engine h doc satisfied).length

variable {env engine h doc satisfied}

theorem requestsIn_increasing :
    (requestsIn env h doc satisfied).Pairwise fun first second => first.index < second.index := by
  have numbers := (blocksIn_numbered doc h.kind).2.1
  have order : (blocksIn (scan doc) doc h.kind).Pairwise fun b c => b.2.index < c.2.index := by
    rw [← List.pairwise_map, numbers]
    exact List.pairwise_lt_range'
  have kept : ∀ {block : EmbeddedBlock} {request : RenderRequest},
      requestFor? env (filesFor env h doc) satisfied block = some request →
        request.index = block.index := by
    intro block request asked
    unfold requestFor? at asked
    split at asked
    · cases asked
    · split at asked <;> cases asked
      rfl
  refine order.filterMap _ fun b c later request asked request' asked' => ?_
  rw [kept asked, kept asked']
  exact later

theorem whole_of_fates (blocks : List (Element × EmbeddedBlock)) :
    blocks.length = (blocks.countP fun b => satisfied.contains b.2.output) +
      (blocks.filterMap fun b => (fateIn env engine h doc satisfied b).error?).length +
        (blocks.filterMap fun b =>
          (fateIn env engine h doc satisfied b).result?.map (b.2.output, ·)).length := by
  induction blocks with
  | nil => rfl
  | cons b blocks ih =>
    have one : (satisfied.contains b.2.output = true ∧
          fateIn env engine h doc satisfied b = .dropped) ∨
        (satisfied.contains b.2.output = false ∧
          ((∃ error, fateIn env engine h doc satisfied b = .reported error) ∨
            ∃ result, fateIn env engine h doc satisfied b = .rendered result)) := by
      unfold fateIn fateOf
      cases satisfied.contains b.2.output with
      | true => exact .inl ⟨rfl, rfl⟩
      | false =>
        refine .inr ⟨rfl, ?_⟩
        rw [if_neg Bool.false_ne_true]
        split
        · exact .inl ⟨_, rfl⟩
        · split
          · exact .inr ⟨_, rfl⟩
          · exact .inl ⟨_, rfl⟩
    rw [List.length_cons, List.countP_cons, List.filterMap_cons, List.filterMap_cons, ih]
    rcases one with ⟨done, fate⟩ | ⟨needed, ⟨error, fate⟩ | ⟨result, fate⟩⟩
    · simp only [done, fate, Fate.error?, Fate.result?, Option.map_none, if_true]
      omega
    · simp only [needed, fate, Fate.error?, Fate.result?, Option.map_none, List.length_cons]
      simp only [Bool.false_eq_true, if_false]
      omega
    · simp only [needed, fate, Fate.error?, Fate.result?, Option.map_some, List.length_cons]
      simp only [Bool.false_eq_true, if_false]
      omega

theorem mem_pendingBlocks_needed {b : Element × EmbeddedBlock}
    (mem : b ∈ pendingBlocks (scan doc) doc h.kind satisfied) :
    satisfied.contains b.2.output = false := by
  simpa using (List.mem_filter.1 mem).2

theorem handlingWith_fates :
    handlingWith env engine h (scan doc) doc (pendingBlocks (scan doc) doc h.kind satisfied) =
      ⟨(pendingBlocks (scan doc) doc h.kind satisfied).map fun b =>
          ⟨b.1, b.2, outcomeOf env engine (filesFor env h doc) b.2⟩,
        fileErrorsIn env h doc⟩ := by
  rw [handlingWith_blocks, ← inputFilesIn, inputsWith_eq]
  rfl

theorem requests_pending :
    (pendingBlocks (scan doc) doc h.kind satisfied).filterMap (fun b =>
        requestFor? env (filesFor env h doc) satisfied b.2) = requestsIn env h doc satisfied := by
  refine filterMap_pending _ _ (fun _ _ => rfl) fun b done => ?_
  exact if_pos done

theorem handlePending_asks {s s' : Session} (loaded : s.engineOf env h = (.ok engine, s')) :
    handlePending env h (scan doc) doc (pendingBlocks (scan doc) doc h.kind satisfied) s =
      (.ok (handlingWith env engine h (scan doc) doc
          (pendingBlocks (scan doc) doc h.kind satisfied)),
        s'.record (askedBy env engine h doc satisfied)) := by
  have inputs : sortFiles h.kind ((inputFilesIn h doc).zip
      ((inputFilesIn h doc).zipIdx.map fun (f, place) =>
        sourceText env (.file h.kind.marker place) f.source)) =
        (filesFor env h doc, fileErrorsIn env h doc) :=
    inputsWith_eq env h.kind (inputFilesIn h doc)
  have calls := @handleBlocks_requests env engine (filesFor env h doc) satisfied
    (pendingBlocks (scan doc) doc h.kind satisfied) fun b mem => mem_pendingBlocks_needed mem
  rw [requests_pending] at calls
  have sources : (inputFilesIn h doc).zipIdx.map (fun f => f.1.source) =
      (inputFilesIn h doc).map (·.source) := by
    have each := congrArg (List.map PendingInputFile.source) (List.zipIdx_map_fst 0 (inputFilesIn h doc))
    rwa [List.map_map] at each
  unfold handlePending handlingWith
  rw [loaded]
  dsimp only
  rw [← inputFilesIn, resolveSources_record]
  dsimp only
  rw [resolveSources_record]
  simp only [fileSources, blockSources, List.map_map, Function.comp_def, inputs, calls,
    record_record, askedBy, List.append_assoc, sources]

theorem errors_pending :
    ((pendingBlocks (scan doc) doc h.kind satisfied).map fun b =>
        (⟨b.1, b.2, outcomeOf env engine (filesFor env h doc) b.2⟩ : HandledBlock)).filterMap
          (·.error? h.kind) =
      (blocksIn (scan doc) doc h.kind).filterMap fun b =>
        (fateIn env engine h doc satisfied b).error? := by
  rw [List.filterMap_map]
  refine filterMap_pending _ _ (fun b needed => (outcomeOf_fateOf needed).1) fun b done => ?_
  rw [fateIn, fateOf, if_pos done]
  rfl

theorem results_pending {α : Type} (f : Element × EmbeddedBlock → Rendered → α) :
    (pendingBlocks (scan doc) doc h.kind satisfied).filterMap (fun b =>
        (HandledBlock.result? ⟨b.1, b.2, outcomeOf env engine (filesFor env h doc) b.2⟩).map (f b)) =
      (blocksIn (scan doc) doc h.kind).filterMap fun b =>
        (fateIn env engine h doc satisfied b).result?.map (f b) := by
  refine filterMap_pending _ _ (fun b needed => ?_) fun b done => ?_
  · rw [(outcomeOf_fateOf needed).2]
    rfl
  · rw [fateIn, fateOf, if_pos done]
    rfl

theorem resultsOf_pending :
    resultsOf ((pendingBlocks (scan doc) doc h.kind satisfied).map fun b =>
        ⟨b.1, b.2, outcomeOf env engine (filesFor env h doc) b.2⟩) =
      (renderedIn env engine h doc satisfied).foldl (fun cache r => cache.insertRendered r.1 r.2)
        .empty := by
  rw [renderedIn, ← results_pending, List.foldl_filterMap, resultsOf, List.foldl_map]
  congr 1
  funext cache b
  rw [addResult]
  cases HandledBlock.result? ⟨b.1, b.2, outcomeOf env engine (filesFor env h doc) b.2⟩ <;> rfl

theorem renderedOf_markers (handled : List HandledBlock) :
    (renderedOf handled).map (·.marker) =
      handled.filterMap fun b => b.result?.map fun _ => b.marker := by
  rw [renderedOf]
  induction handled with
  | nil => rfl
  | cons b handled ih =>
    rw [List.filter_cons, List.filterMap_cons]
    cases b.result? with
    | none => exact ih
    | some result => exact congrArg (b.marker :: ·) ih

theorem takenOut_pending :
    dropEdits (scan doc) doc h.kind satisfied ++
        (renderedOf ((pendingBlocks (scan doc) doc h.kind satisfied).map fun b =>
          ⟨b.1, b.2, outcomeOf env engine (filesFor env h doc) b.2⟩)).map
            (fun b => Edit.remove b.marker) =
      (takenOut env engine h doc satisfied).map Edit.remove := by
  have rendered := renderedOf_markers ((pendingBlocks (scan doc) doc h.kind satisfied).map fun b =>
    ⟨b.1, b.2, outcomeOf env engine (filesFor env h doc) b.2⟩)
  rw [List.filterMap_map] at rendered
  rw [takenOut, List.map_append, dropEdits, List.map_map, ← results_pending]
  congr 1
  have removals := congrArg (List.map Edit.remove) rendered
  rwa [List.map_map] at removals

theorem accounts_passWith (some_ : pendingBlocks (scan doc) doc h.kind satisfied ≠ []) (emit : Emit) :
    Accounts env engine h doc satisfied emit (passWith env engine h doc emit satisfied) := by
  have errors : (passWith env engine h doc emit satisfied).errors =
      fileErrorsIn env h doc ++
        (blocksIn (scan doc) doc h.kind).filterMap fun b =>
          (fateIn env engine h doc satisfied b).error? := by
    rw [passWith, if_neg (mt List.isEmpty_iff.1 some_), handlingWith_fates]
    exact congrArg (_ ++ ·) errors_pending
  refine ⟨requestsIn_increasing, errors, fun b _ error => target?_fateOf, ?_,
    fun b _ result => result?_fateOf, ?_⟩
  · rw [passWith, if_neg (mt List.isEmpty_iff.1 some_), handlingWith_fates]
    dsimp only
    rw [resultsOf_pending, takenOut_pending]
  · have files : ∀ error ∈ fileErrorsIn env h doc,
        ¬ error.target?.isSome = true := by
      intro error mem
      obtain ⟨⟨file, place⟩, -, failed⟩ := List.mem_filterMap.1 mem
      dsimp only at failed
      unfold PendingInputFile.error? at failed
      split at failed <;> cases failed
      exact Bool.false_ne_true
    have blocks : ∀ error ∈ (blocksIn (scan doc) doc h.kind).filterMap (fun b =>
        (fateIn env engine h doc satisfied b).error?), error.target?.isSome = true := by
      intro error mem
      obtain ⟨b, -, reported⟩ := List.mem_filterMap.1 mem
      rw [target?_fateOf reported]
      rfl
    rw [errors, List.countP_append, List.countP_eq_zero.2 files, List.countP_eq_length.2 blocks,
      Nat.zero_add]
    exact whole_of_fates _

end Pass

/-- Every block is accounted for. The blocks of a pass are numbered in the order of the document.
Where all are satisfied their markers are dropped, and nothing is loaded or asked for. Otherwise the
engine is loaded, for which nothing is asked for but modules. A load that fails ends the pass. With
its engine the pass fetches the input files and the contents of the needed blocks, renders those
whose content came, and gives an account of each block. -/
theorem blocks_accounted (env : Surroundings) (h : GraphHandler) (doc : String) (emit : Emit)
    (satisfied : List String) (s : Session) :
    let blocks := blocksIn (scan doc) doc h.kind
    (blocks.map Prod.fst =
        (scan doc).filter (fun e => e.isScriptOf h.kind.marker && !e.target.isEmpty) ∧
      blocks.map (·.2.index) = List.range' 1 blocks.length ∧
      ∀ b ∈ blocks, EmbeddedBlock.IsAt doc h.kind b.1 b.2) ∧
    if blocks.all fun b => satisfied.contains b.2.output then
      renderKind env h doc emit satisfied s =
        (.ok ⟨withEdits doc (blocks.map fun b => Edit.remove b.1), []⟩, s)
    else
      OnlyLoads s (s.engineOf env h).2 ∧
        match s.engineOf env h with
        | (.error error, s') => renderKind env h doc emit satisfied s = (.error error, s')
        | (.ok engine, s') => ∃ pass,
          renderKind env h doc emit satisfied s =
              (.ok pass, s'.record (askedBy env engine h doc satisfied)) ∧
            Accounts env engine h doc satisfied emit pass := by
  intro blocks
  refine ⟨blocksIn_numbered doc h.kind, ?_⟩
  split
  · next all =>
    rw [List.all_eq_true] at all
    have none_ : pendingBlocks (scan doc) doc h.kind satisfied = [] := by
      refine List.filter_eq_nil_iff.2 fun b mem => ?_
      have done := all b mem
      simpa using done
    have drops : dropEdits (scan doc) doc h.kind satisfied = blocks.map fun b => Edit.remove b.1 := by
      rw [dropEdits, List.filter_eq_self.2 all]
    rw [renderKind, none_, drops]
    rfl
  · next needed =>
    have some_ : pendingBlocks (scan doc) doc h.kind satisfied ≠ [] := by
      intro none_
      apply needed
      rw [List.all_eq_true]
      intro b mem
      have done := List.filter_eq_nil_iff.1 none_ b mem
      simpa using done
    refine ⟨engineOf_onlyLoads env h s, ?_⟩
    have full : (pendingBlocks (scan doc) doc h.kind satisfied).isEmpty = false := by
      rw [← Bool.not_eq_true, List.isEmpty_iff]
      exact some_
    cases loaded : s.engineOf env h with
    | mk result s' =>
      cases result with
      | error error =>
        simp only [renderKind, full, handlePending, loaded, Bool.false_eq_true, if_false]
      | ok engine =>
        refine ⟨passWith env engine h doc emit satisfied, ?_, accounts_passWith some_ emit⟩
        simp only [renderKind, passWith, full, handlePending_asks loaded, Bool.false_eq_true, if_false]

end Playground
