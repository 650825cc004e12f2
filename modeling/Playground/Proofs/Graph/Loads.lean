import Playground.Graph.Pipeline

/-! Passes and whole stages when every engine can be loaded. -/

namespace Playground

open Html

namespace Session

def afterLoads (env : Surroundings) (handlers : List GraphHandler) (s : Session) : Session :=
  handlers.foldl (fun s h => (s.engineOf env h).2) s

/-- In whatever order engines of the pipeline are loaded from here on, each load succeeds, with an
engine that is right for its handler. -/
def LoadsGive (env : Surroundings) (p : GraphPipeline) (right : GraphHandler → GraphEngine → Prop)
    (s : Session) : Prop :=
  ∀ earlier : List GraphHandler, (∀ h ∈ earlier, h ∈ p) →
    ∀ h ∈ p, ∃ engine, ((s.afterLoads env earlier).engineOf env h).1 = .ok engine ∧ right h engine

/-- Every load of an engine of the pipeline succeeds. -/
def LoadsSucceed (env : Surroundings) (p : GraphPipeline) (s : Session) : Prop :=
  s.LoadsGive env p fun _ _ => True

/-- Every load of an engine of the pipeline succeeds, and a handler's engine is always the same. -/
def LoadsAnswer (env : Surroundings) (p : GraphPipeline) (engineFor : GraphHandler → GraphEngine)
    (s : Session) : Prop :=
  s.LoadsGive env p fun h engine => engine = engineFor h

def SameLoader (s s' : Session) : Prop := s.loader = s'.loader

theorem enter_same {s s' : Session} (same : s.SameLoader s') (call : LoadCall) :
    (enter call s).1 = (enter call s').1 ∧ (enter call s).2.SameLoader (enter call s').2 := by
  obtain ⟨loader, trace⟩ := s
  obtain ⟨_, trace'⟩ := s'
  cases same
  unfold enter
  dsimp only
  cases call.global.bind fun name => loader.scope.lookup name with
  | some handle => exact ⟨rfl, rfl⟩
  | none =>
    dsimp only
    cases loader.slot? (loader.resolve call.reference) with
    | none => exact ⟨rfl, rfl⟩
    | some slot => cases slot <;> exact ⟨rfl, rfl⟩

theorem advance_same {s s' : Session} (same : s.SameLoader s') (env : Surroundings) (wait : Bool)
    (id : Nat) : (advance env wait id s).1 = (advance env wait id s').1 ∧
      (advance env wait id s).2.SameLoader (advance env wait id s').2 := by
  obtain ⟨loader, trace⟩ := s
  obtain ⟨_, trace'⟩ := s'
  cases same
  unfold advance
  dsimp only
  cases loader.loads[id]? with
  | none => exact ⟨rfl, rfl⟩
  | some load =>
    dsimp only
    cases load.result with
    | some result => exact ⟨rfl, rfl⟩
    | none =>
      dsimp only
      cases !wait && decide (load.turns < env.modules.delay load.url load.attempt) <;>
        exact ⟨rfl, rfl⟩

theorem loadCall_same {s s' : Session} (same : s.SameLoader s') (env : Surroundings)
    (call : LoadCall) : (loadCall env call s).1 = (loadCall env call s').1 ∧
      (loadCall env call s).2.SameLoader (loadCall env call s').2 := by
  obtain ⟨entry, entered⟩ := enter_same same call
  unfold loadCall
  generalize enter call s = x at entry entered
  generalize enter call s' = y at entry entered
  obtain ⟨a, s⟩ := x
  obtain ⟨_, s'⟩ := y
  cases entry
  cases a with
  | done result => exact ⟨rfl, entered⟩
  | waiting url id =>
    obtain ⟨outcome, advanced⟩ := advance_same entered env true id
    dsimp only
    generalize advance env true id s = x at outcome advanced
    generalize advance env true id s' = y at outcome advanced
    obtain ⟨a, s⟩ := x
    obtain ⟨_, s'⟩ := y
    cases outcome
    cases a with
    | none => exact ⟨rfl, advanced⟩
    | some result =>
      obtain ⟨loader, trace⟩ := s
      obtain ⟨_, trace'⟩ := s'
      cases advanced
      exact ⟨rfl, rfl⟩

theorem engineOf_same {s s' : Session} (same : s.SameLoader s') (env : Surroundings)
    (h : GraphHandler) : (s.engineOf env h).1 = (s'.engineOf env h).1 ∧
      (s.engineOf env h).2.SameLoader (s'.engineOf env h).2 := by
  obtain ⟨result, loaded⟩ := loadCall_same same env ⟨h.engineUrl, h.global⟩
  exact ⟨congrArg (Except.bind · EngineHandle.graph) result, loaded⟩

theorem afterLoads_same {s s' : Session} (same : s.SameLoader s') (env : Surroundings)
    (handlers : List GraphHandler) :
    (s.afterLoads env handlers).SameLoader (s'.afterLoads env handlers) := by
  induction handlers generalizing s s' with
  | nil => exact same
  | cons h handlers ih => exact ih (engineOf_same same env h).2

namespace LoadsGive

variable {env : Surroundings} {p : GraphPipeline} {right : GraphHandler → GraphEngine → Prop}
variable {s s' : Session}

theorem same (loads : s.LoadsGive env p right) (same : s.SameLoader s') :
    s'.LoadsGive env p right := by
  intro earlier within h mem
  rw [← (engineOf_same (afterLoads_same same env earlier) env h).1]
  exact loads earlier within h mem

theorem engine (loads : s.LoadsGive env p right) {h : GraphHandler} (mem : h ∈ p) :
    ∃ engine, (s.engineOf env h).1 = .ok engine ∧ right h engine := loads [] (by simp) h mem

theorem load (loads : s.LoadsGive env p right) {h : GraphHandler} (mem : h ∈ p) :
    (s.engineOf env h).2.LoadsGive env p right := by
  intro earlier within
  apply loads (h :: earlier)
  intro d d_mem
  rcases List.mem_cons.1 d_mem with rfl | later
  · exact mem
  · exact within d later

theorem succeed (loads : s.LoadsGive env p right) : s.LoadsSucceed env p := by
  intro earlier within h mem
  obtain ⟨engine, loaded, -⟩ := loads earlier within h mem
  exact ⟨engine, loaded, trivial⟩

end LoadsGive

def sourceText (env : Surroundings) (asker : Asker) : BlockSource → Except FetchError String
  | .inline text => .ok text
  | .external url => env.fetch.answer asker url

theorem resolveSources_eq (env : Surroundings) (sources : List (Asker × BlockSource)) (s : Session) :
    (resolveSources env sources s).1 = sources.map (fun asked => sourceText env asked.1 asked.2) ∧
      s.SameLoader (resolveSources env sources s).2 := by
  induction sources generalizing s with
  | nil => exact ⟨rfl, rfl⟩
  | cons source sources ih =>
    obtain ⟨asker, source⟩ := source
    have first : (resolveSource env asker source s).1 = sourceText env asker source ∧
        s.SameLoader (resolveSource env asker source s).2 := by
      cases source <;> exact ⟨rfl, rfl⟩
    obtain ⟨content, loader⟩ := first
    obtain ⟨contents, loader'⟩ := ih (resolveSource env asker source s).2
    refine ⟨?_, loader.trans loader'⟩
    rw [List.map_cons, ← content, ← contents]
    rfl

end Session

open Session

def handlingWith (env : Surroundings) (engine : GraphEngine) (h : GraphHandler)
    (elements : List Element) (doc : String) (pending : List (Element × EmbeddedBlock)) : Handling :=
  let files := (inputFileMarkers h elements).map fun e => PendingInputFile.ofMarker e doc
  let sorted := sortFiles h.kind
    (files.zip (files.zipIdx.map fun (f, place) =>
      sourceText env (.file h.kind.marker place) f.source))
  let contents := pending.map fun b => sourceText env b.2.asker b.2.source
  ⟨(handleBlocks engine sorted.1 (pending.zip contents)).1, sorted.2⟩

theorem handlePending_ok {env : Surroundings} {h : GraphHandler} {engine : GraphEngine}
    {s : Session} (loaded : (s.engineOf env h).1 = .ok engine) (elements : List Element)
    (doc : String) (pending : List (Element × EmbeddedBlock)) :
    (handlePending env h elements doc pending s).1 =
        .ok (handlingWith env engine h elements doc pending) ∧
      (s.engineOf env h).2.SameLoader (handlePending env h elements doc pending s).2 := by
  have engineOf : s.engineOf env h = (.ok engine, (s.engineOf env h).2) := by
    rw [← loaded]
  unfold handlePending
  rw [engineOf]
  dsimp only
  generalize (s.engineOf env h).2 = s
  obtain ⟨fileContents, loader⟩ := resolveSources_eq env
    (fileSources h.kind ((inputFileMarkers h elements).map fun e => PendingInputFile.ofMarker e doc)) s
  generalize resolveSources env _ s = x at fileContents loader
  obtain ⟨_, s'⟩ := x
  cases fileContents
  obtain ⟨contents, loader'⟩ := resolveSources_eq env (blockSources pending) s'
  dsimp only
  generalize resolveSources env _ s' = x at contents loader'
  obtain ⟨_, s''⟩ := x
  cases contents
  refine ⟨?_, loader.trans loader'⟩
  simp only [handlingWith, fileSources, blockSources, List.map_map]
  rfl

def passWith (env : Surroundings) (engine : GraphEngine) (h : GraphHandler) (doc : String)
    (emit : Emit) (satisfied : List String) : PassOutput :=
  let elements := scan doc
  let pending := pendingBlocks elements doc h.kind satisfied
  let drops := dropEdits elements doc h.kind satisfied
  if pending.isEmpty then ⟨withEdits doc drops, []⟩
  else
    let handling := handlingWith env engine h elements doc pending
    let removals := drops ++ (renderedOf handling.blocks).map fun b => Edit.remove b.marker
    ⟨withEdits doc (emitEdits emit elements doc (resultsOf handling.blocks) removals),
      handling.fileErrors ++ handling.blocks.filterMap (·.error? h.kind)⟩

variable {env : Surroundings} {p : GraphPipeline} {right : GraphHandler → GraphEngine → Prop}
variable {engineFor : GraphHandler → GraphEngine} {s : Session}

theorem renderKind_ok {h : GraphHandler} (loads : s.LoadsGive env p right) (mem : h ∈ p)
    (doc : String) (emit : Emit) (satisfied : List String) :
    ∃ engine, (s.engineOf env h).1 = .ok engine ∧ right h engine ∧
      (renderKind env h doc emit satisfied s).1 =
        .ok (passWith env engine h doc emit satisfied) ∧
      (renderKind env h doc emit satisfied s).2.LoadsGive env p right := by
  obtain ⟨engine, loaded, fine⟩ := loads.engine mem
  refine ⟨engine, loaded, fine, ?_⟩
  unfold renderKind passWith
  dsimp only
  split
  · exact ⟨rfl, loads⟩
  · obtain ⟨handled, loader⟩ := handlePending_ok loaded (scan doc) doc
      (pendingBlocks (scan doc) doc h.kind satisfied)
    generalize handlePending env h _ doc _ s = x at handled loader
    obtain ⟨_, s'⟩ := x
    cases handled
    exact ⟨rfl, (loads.load mem).same loader⟩

theorem renderKind_cases {env : Surroundings} {h : GraphHandler} {doc : String} {emit : Emit}
    {satisfied : List String} {s s' : Session} {pass : PassOutput}
    (ran : renderKind env h doc emit satisfied s = (.ok pass, s')) :
    (pendingBlocks (scan doc) doc h.kind satisfied = [] ∧ s' = s ∧
        pass = ⟨withEdits doc (dropEdits (scan doc) doc h.kind satisfied), []⟩) ∨
      ∃ engine, (s.engineOf env h).1 = .ok engine ∧ (s.engineOf env h).2.SameLoader s' ∧
        pendingBlocks (scan doc) doc h.kind satisfied ≠ [] ∧
          pass = passWith env engine h doc emit satisfied := by
  unfold renderKind at ran
  dsimp only at ran
  split at ran
  · next none_ =>
    cases ran
    exact .inl ⟨List.isEmpty_iff.1 none_, rfl, rfl⟩
  · next some_ =>
    cases loaded : (s.engineOf env h).1 with
    | error error =>
      have failed : s.engineOf env h = (.error error, (s.engineOf env h).2) := by rw [← loaded]
      rw [handlePending, failed] at ran
      cases ran
    | ok engine =>
      obtain ⟨handled, loader⟩ := handlePending_ok loaded (scan doc) doc
        (pendingBlocks (scan doc) doc h.kind satisfied)
      generalize handlePending env h _ doc _ s = x at handled loader ran
      obtain ⟨_, s''⟩ := x
      cases handled
      cases ran
      refine .inr ⟨engine, rfl, loader, mt List.isEmpty_iff.2 some_, ?_⟩
      rw [passWith, if_neg some_]

/-- Passes one after the other, each on the text the one before it left. -/
def stageWith (env : Surroundings) (engineFor : GraphHandler → GraphEngine) (emit : Emit)
    (satisfied : List String) : List GraphHandler → PassOutput → PassOutput
  | [], out => out
  | h :: rest, out =>
    let pass := passWith env (engineFor h) h out.text emit satisfied
    stageWith env engineFor emit satisfied rest ⟨pass.text, out.errors ++ pass.errors⟩

theorem runHandlers_ok {handlers : List GraphHandler} (loads : s.LoadsAnswer env p engineFor)
    (within : ∀ h ∈ handlers, h ∈ p) (emit : Emit) (satisfied : List String) (out : PassOutput) :
    (GraphPipeline.runHandlers env emit satisfied handlers out s).1 =
        .ok (stageWith env engineFor emit satisfied handlers out) ∧
      (GraphPipeline.runHandlers env emit satisfied handlers out s).2.LoadsAnswer env p
        engineFor := by
  induction handlers generalizing out s with
  | nil => exact ⟨rfl, loads⟩
  | cons h rest ih =>
    obtain ⟨_, -, rfl, pass, loads'⟩ :=
      renderKind_ok loads (within h List.mem_cons_self) out.text emit satisfied
    rw [GraphPipeline.runHandlers, stageWith]
    generalize renderKind env h out.text emit satisfied s = x at pass loads'
    obtain ⟨_, s'⟩ := x
    cases pass
    exact ih loads' (fun d mem => within d (List.mem_cons_of_mem h mem)) _

end Playground
