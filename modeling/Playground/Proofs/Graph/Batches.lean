import Playground.Proofs.Graph.StoredPass
import Playground.Proofs.Html.NestedEdits

/-! The batches of edits of a pipeline. Each edit is made from an element of its text or stands at
its end. -/

namespace Playground

open Html Text

structure Span.FitsIn (doc : String) (span : Span) : Prop where
  order : span.start ≤ span.stop
  inside : span.stop ≤ doc.utf8ByteSize
  startBoundary : Boundary doc.toList span.start
  stopBoundary : Boundary doc.toList span.stop

theorem Span.fitsIn_iff {doc : String} {span : Span} :
    span.FitsIn doc ↔ (slice? doc.toList span.start span.stop).isSome := by
  constructor
  · intro fits
    obtain ⟨-, m, -, -, -, -, slice⟩ :=
      slice?_boundary fits.startBoundary fits.stopBoundary fits.order
    rw [slice]
    rfl
  · intro taken
    obtain ⟨m, slice⟩ := Option.isSome_iff_exists.1 taken
    obtain ⟨a, c, whole, start, stop⟩ := slice?_iff.1 slice
    have ends := Html.boundaries_of_append whole
    rw [← stop, ← start] at ends
    exact ⟨by omega, size_toList doc ▸ ends.2.le, ends.1, ends.2⟩

namespace Html

/-- The slices that a splice takes of a text of some bytes: what it copies before each edit that is put
in, and the rest. -/
def slicesTaken (bytes : Nat) : Nat → List Edit → List Span
  | cursor, [] => [⟨cursor, bytes⟩]
  | cursor, e :: edits =>
    if e.span.start < cursor then slicesTaken bytes cursor edits
    else ⟨cursor, e.span.start⟩ :: slicesTaken bytes e.span.stop edits

theorem sliceFrom?_eq (cs : List Char) (start : Nat) :
    sliceFrom? cs start = slice? cs start (size cs) := by
  cases from_ : sliceFrom? cs start with
  | some rest =>
    obtain ⟨⟨before, rest⟩, cut, rfl⟩ := Option.map_eq_some_iff.1 from_
    obtain ⟨rfl, rfl⟩ := append_of_splitBytes? cut
    have slice := slice?_append before rest []
    rw [List.append_nil, ← size_append] at slice
    exact slice.symm
  | none =>
    have cut := Option.map_eq_none_iff.1 from_
    rw [slice?, cut]
    simp

theorem splice?_isSome_iff {cs : List Char} {cursor : Nat} {edits : List Edit} :
    (splice? cs cursor edits).isSome ↔
      ∀ span ∈ slicesTaken (size cs) cursor edits, (slice? cs span.start span.stop).isSome := by
  induction edits generalizing cursor with
  | nil => rw [splice?, slicesTaken, List.forall_mem_singleton, sliceFrom?_eq]
  | cons e edits ih =>
    rw [splice?, slicesTaken]
    split
    · exact ih
    · rw [List.forall_mem_cons, ← ih]
      cases slice? cs cursor e.span.start with
      | none => simp
      | some kept => cases splice? cs e.span.stop edits <;> simp [bind, Option.bind]

/-- A batch is put into a text, and all that it replaces or copies lies between characters. -/
structure Spliced (doc : String) (edits : List Edit) (text : String) : Prop where
  spans : ∀ e ∈ edits, e.span.FitsIn doc
  slices : ∀ span ∈ slicesTaken doc.utf8ByteSize 0 (edits.mergeSort Edit.precedes), span.FitsIn doc
  left : edited? doc edits = some text

variable {doc : String} {edits : List Edit}

theorem Spliced.of_fits (fits : ∀ e ∈ edits, e.Fits doc.toList) :
    Spliced doc edits (withEdits doc edits) := by
  have sorted : ∀ e ∈ edits.mergeSort Edit.precedes, e.Fits doc.toList :=
    fun e mem => fits e (List.mem_mergeSort.1 mem)
  obtain ⟨out, left⟩ := splice?_isSome (boundary_zero doc.toList) sorted
  refine ⟨fun e mem => ?_, fun span mem => ?_, ?_⟩
  · have here := fits e mem
    exact ⟨here.order, size_toList doc ▸ here.stop.le, here.start, here.stop⟩
  · have taken := splice?_isSome_iff.1 (Option.isSome_iff_exists.2 ⟨out, left⟩)
    rw [size_toList] at taken
    exact Span.fitsIn_iff.2 (taken span mem)
  · rw [withEdits, edited?, left]
    rfl

def ContentsFit (doc : String) : Prop :=
  ∀ e ∈ scan doc, ∀ span, e.content? = some span → span.FitsIn doc

theorem contents_fit (doc : String) : ContentsFit doc := by
  intro e mem span found
  obtain ⟨close, closes, rfl⟩ := Option.map_eq_some_iff.1 found
  have placed := ((scan_places doc).1 e mem).1
  have stop := placed.closeBoundary close closes
  exact ⟨(placed.closed close closes).1, size_toList doc ▸ stop.le, placed.openEndBoundary, stop⟩

theorem Spliced.of_made (made : ∀ e ∈ edits, e.IsMadeIn doc) :
    Spliced doc edits (withEdits doc edits) :=
  .of_fits fun e mem => (made e mem).fits

theorem Edit.fits_insert_end (doc text : String) :
    (Edit.insert doc.utf8ByteSize text).Fits doc.toList := by
  rw [← size_toList]
  exact ⟨boundary_size _, boundary_size _, Nat.le_refl _⟩

theorem isMadeIn_removals {elements : List Element} (within : ∀ e ∈ elements, e ∈ scan doc) :
    ∀ edit ∈ elements.map Edit.remove, edit.IsMadeIn doc := by
  intro edit mem
  obtain ⟨e, known, rfl⟩ := List.mem_map.1 mem
  exact ⟨e, within e known, .remove⟩

end Html

theorem isMadeIn_display? {doc uri : String} {target : Element} {edit : Edit}
    (mem : target ∈ scan doc) (shown : display? target uri = some edit) : edit.IsMadeIn doc := by
  unfold display? at shown
  split at shown
  · cases shown
    exact ⟨target, mem, .setAttr "src" uri⟩
  · exact ⟨target, mem, .setInner _ edit shown⟩

theorem isMadeIn_displayAll (doc : String) (cache : ArtifactCache) :
    ∀ edit ∈ displayAll (scan doc) cache, edit.IsMadeIn doc := by
  intro edit mem
  obtain ⟨e, known, made⟩ := List.mem_filterMap.1 mem
  obtain ⟨t, -, made⟩ := Option.bind_eq_some_iff.1 made
  obtain ⟨uri, -, shown⟩ := Option.bind_eq_some_iff.1 made
  exact isMadeIn_display? known shown

def restoreEdits (doc : String) (inputFileTypes : List String) : List Edit :=
  let markers := (scan doc).filter (·.isScriptOf cacheMarkerType)
  if markers.isEmpty then []
  else
    displayAll (scan doc) (readMarkers doc markers).1 ++ markers.map Edit.remove ++
      ((scan doc).filter (isScriptOfAny inputFileTypes)).map Edit.remove

theorem restore_text (doc : String) (types : List String) :
    (restore doc types).text = withEdits doc (restoreEdits doc types) := by
  rw [restore, restoreEdits]
  dsimp only
  split
  · exact (withEdits_nil doc).symm
  · rfl

theorem spliced_restore (doc : String) (types : List String) :
    Spliced doc (restoreEdits doc types) (restore doc types).text := by
  rw [restore_text]
  refine .of_made fun edit mem => ?_
  simp only [restoreEdits] at mem
  split at mem
  · cases mem
  · rcases List.mem_append.1 mem with mem | mem
    · rcases List.mem_append.1 mem with mem | mem
      · exact isMadeIn_displayAll doc _ edit mem
      · exact isMadeIn_removals (fun _ known => List.mem_of_mem_filter known) edit mem
    · exact isMadeIn_removals (fun _ known => List.mem_of_mem_filter known) edit mem

namespace GraphPipeline

def stripEdits (p : GraphPipeline) (doc : String) : List Edit :=
  ((scan doc).filter (isScriptOfAny p.inputFileTypes)).map Edit.remove

theorem spliced_strip (p : GraphPipeline) (doc : String) :
    Spliced doc (p.stripEdits doc) (p.stripInputFiles doc) :=
  .of_made (isMadeIn_removals fun _ known => List.mem_of_mem_filter known)

end GraphPipeline

def passEdits? (env : Surroundings) (h : GraphHandler) (doc : String) (emit : Emit)
    (satisfied : List String) (s : Session) : Option (List Edit) :=
  let pending := pendingBlocks (scan doc) doc h.kind satisfied
  let drops := dropEdits (scan doc) doc h.kind satisfied
  if pending.isEmpty then some drops
  else
    match handlePending env h (scan doc) doc pending s with
    | (.error _, _) => none
    | (.ok handling, _) =>
      some (emitEdits emit (scan doc) doc (resultsOf handling.blocks)
        (drops ++ (renderedOf handling.blocks).map fun b => Edit.remove b.marker))

inductive Answers (doc : String) : Except EngineLoadError PassOutput → Option (List Edit) → Prop
  | failed (e : EngineLoadError) : Answers doc (.error e) none
  | passed (out : PassOutput) (edits : List Edit) (spliced : Spliced doc edits out.text) :
      Answers doc (.ok out) (some edits)

theorem fits_emitEdits {doc : String} {removals : List Edit} (emit : Emit) (results : ArtifactCache)
    (made : ∀ edit ∈ removals, edit.IsMadeIn doc) :
    ∀ edit ∈ emitEdits emit (scan doc) doc results removals, edit.Fits doc.toList := by
  intro edit mem
  cases emit with
  | substitute =>
    rcases List.mem_append.1 mem with mem | mem
    · exact (isMadeIn_displayAll doc results edit mem).fits
    · exact (made edit mem).fits
  | serialize =>
    simp only [emitEdits, serializeEdits] at mem
    split at mem
    · exact (made edit mem).fits
    · rcases List.mem_cons.1 mem with rfl | mem
      · exact Edit.fits_insert_end doc _
      · rcases List.mem_append.1 mem with mem | mem
        · exact (made edit mem).fits
        · obtain ⟨⟨marker, cache⟩, known, rfl⟩ := List.mem_map.1 mem
          have scanned := (mem_readableMarkers.1 known).1
          exact Edit.IsMadeIn.fits ⟨marker, (List.mem_filter.1 scanned).1, .remove⟩

theorem answers_renderKind (env : Surroundings) (h : GraphHandler) (doc : String) (emit : Emit)
    (satisfied : List String) (s : Session) :
    Answers doc (renderKind env h doc emit satisfied s).1 (passEdits? env h doc emit satisfied s) := by
  have dropped : ∀ edit ∈ dropEdits (scan doc) doc h.kind satisfied, edit.IsMadeIn doc := by
    intro edit mem
    obtain ⟨b, known, rfl⟩ := List.mem_map.1 mem
    exact ⟨b.1, (script_of_block (List.mem_of_mem_filter known)).1, .remove⟩
  unfold renderKind passEdits?
  dsimp only
  split
  · exact .passed _ _ (.of_made dropped)
  · cases loaded : (s.engineOf env h).1 with
    | error e =>
      have engineOf : s.engineOf env h = (.error e, (s.engineOf env h).2) := by rw [← loaded]
      rw [handlePending, engineOf]
      exact .failed e
    | ok engine =>
      have handled := (handlePending_ok loaded (scan doc) doc
        (pendingBlocks (scan doc) doc h.kind satisfied)).1
      generalize handlePending env h (scan doc) doc _ s = x at handled
      obtain ⟨_, s'⟩ := x
      cases handled
      refine .passed _ _ (.of_fits (fits_emitEdits emit _ fun edit mem => ?_))
      have removal : edit ∈ (removedBy env engine h doc satisfied).map Edit.remove := by
        rw [removedBy, List.map_append, List.map_map, List.map_map]
        exact mem
      exact isMadeIn_removals (fun e known => (removedBy_scripts engine e known).1) edit removal

/-- The batches of some handlers, with the texts they are for, as far as engines load. -/
def handlerBatches (env : Surroundings) (emit : Emit) (satisfied : List String) :
    List GraphHandler → String → Session → List (String × List Edit)
  | [], _, _ => []
  | h :: rest, doc, s =>
    match renderKind env h doc emit satisfied s, passEdits? env h doc emit satisfied s with
    | (.ok pass, s'), some edits =>
      (doc, edits) :: handlerBatches env emit satisfied rest pass.text s'
    | _, _ => []

/-- Batches that are spliced in one after the other, each into the text that the one before it left. -/
inductive SplicedInTurn : String → List (String × List Edit) → String → Prop
  | done (doc : String) : SplicedInTurn doc [] doc
  | next {doc text last : String} {edits : List Edit} {rest : List (String × List Edit)}
      (spliced : Spliced doc edits text) (later : SplicedInTurn text rest last) :
      SplicedInTurn doc ((doc, edits) :: rest) last

def Leaves (answer : Except EngineLoadError PassOutput) (text : String) : Prop :=
  match answer with
  | .ok out => out.text = text
  | .error _ => True

theorem handlers_batches (env : Surroundings) (emit : Emit) (satisfied : List String)
    (hs : List GraphHandler) (out : PassOutput) (s : Session) :
    ∃ last, SplicedInTurn out.text (handlerBatches env emit satisfied hs out.text s) last ∧
      Leaves (GraphPipeline.runHandlers env emit satisfied hs out s).1 last := by
  induction hs generalizing out s with
  | nil => exact ⟨out.text, .done _, rfl⟩
  | cons h rest ih =>
    have answers := answers_renderKind env h out.text emit satisfied s
    rw [handlerBatches, GraphPipeline.runHandlers]
    generalize renderKind env h out.text emit satisfied s = x at answers
    generalize passEdits? env h out.text emit satisfied s = y at answers
    obtain ⟨answer, s'⟩ := x
    cases answers with
    | failed e => exact ⟨out.text, .done _, trivial⟩
    | passed pass edits spliced =>
      obtain ⟨last, later, leaves⟩ := ih ⟨pass.text, out.errors ++ pass.errors⟩ s'
      exact ⟨last, .next spliced later, leaves⟩

namespace GraphPipeline

def batches (env : Surroundings) (p : GraphPipeline) (chosen : GraphHandler → Bool) (doc : String)
    (s : Session) : List (String × List Edit) :=
  let restored := p.restoreText doc
  (doc, restoreEdits doc p.inputFileTypes) ::
    (handlerBatches env .substitute restored.targets (p.filter chosen) restored.text s ++
      match (runHandlers env .substitute restored.targets (p.filter chosen)
        ⟨restored.text, restored.errors⟩ s).1 with
      | .ok out => [(out.text, p.stripEdits out.text)]
      | .error _ => [])

end GraphPipeline

theorem SplicedInTurn.append {doc text last : String} {first rest : List (String × List Edit)}
    (before : SplicedInTurn doc first text) (after : SplicedInTurn text rest last) :
    SplicedInTurn doc (first ++ rest) last := by
  induction before with
  | done => exact after
  | next spliced _ ih => exact .next spliced (ih after)

theorem run_batches (env : Surroundings) (p : GraphPipeline) (chosen : GraphHandler → Bool)
    (doc : String) (s : Session) :
    ∃ last, SplicedInTurn doc (p.batches env chosen doc s) last ∧
      Leaves (p.restoreAndRender env chosen doc s).1 last := by
  obtain ⟨text, inTurn, leaves⟩ := handlers_batches env .substitute (p.restoreText doc).targets
    (p.filter chosen) ⟨(p.restoreText doc).text, (p.restoreText doc).errors⟩ s
  have restored := spliced_restore doc p.inputFileTypes
  rw [GraphPipeline.batches, GraphPipeline.restoreAndRender]
  dsimp only
  generalize GraphPipeline.runHandlers env .substitute _ _ _ s = x at leaves ⊢
  obtain ⟨answer, s'⟩ := x
  cases answer with
  | error e =>
    rw [List.append_nil]
    exact ⟨text, .next restored inTurn, trivial⟩
  | ok out =>
    obtain rfl : out.text = text := leaves
    have stripped : SplicedInTurn out.text [(out.text, p.stripEdits out.text)] _ :=
      .next (p.spliced_strip out.text) (.done _)
    exact ⟨_, .next restored (inTurn.append stripped), rfl⟩

/-- Whatever the text, the pipeline and the answers of its engines, what a restore, a pass or a strip
replaces and what is copied for it lies in the text and between its characters, and so does all
content that is read. The batches of a run are put in one after the other, up to the text that is
left or the load that fails. -/
theorem batches_spliced (env : Surroundings) (p : GraphPipeline) (doc : String) (s : Session) :
    ContentsFit doc ∧
      (∀ types, Spliced doc (restoreEdits doc types) (restore doc types).text) ∧
      (∀ h emit satisfied, Answers doc (renderKind env h doc emit satisfied s).1
        (passEdits? env h doc emit satisfied s)) ∧
      Spliced doc (p.stripEdits doc) (p.stripInputFiles doc) ∧
      (∀ chosen, ∃ last, SplicedInTurn doc (p.batches env chosen doc s) last ∧
        Leaves (p.restoreAndRender env chosen doc s).1 last) ∧
      ∃ last, SplicedInTurn doc (handlerBatches env .serialize [] (p.filter (·.isolated)) doc s) last ∧
        Leaves (p.runIsolated env doc s).1 last :=
  ⟨contents_fit doc, spliced_restore doc,
    fun h emit satisfied => answers_renderKind env h doc emit satisfied s, p.spliced_strip doc,
    fun chosen => run_batches env p chosen doc s,
    handlers_batches env .serialize [] (p.filter (·.isolated)) ⟨doc, []⟩ s⟩

end Playground
