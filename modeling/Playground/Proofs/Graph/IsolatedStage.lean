import Playground.Proofs.Graph.CacheMarkers
import Playground.Proofs.Graph.Delivery
import Playground.Proofs.Html.Splice

/-! What the isolated stage keeps of its results. -/

namespace Playground

open Html ArtifactCache

def markerTag : String := "<script type=\"data-urls\">"

/-- Whether the open tag of a cache marker begins a marker when it is put after the text. -/
def TakesMarker (text : String) : Prop :=
  ∃ e ∈ scan (text ++ markerTag), e.isScriptOf cacheMarkerType = true ∧
    e.content? = some ⟨(text ++ markerTag).utf8ByteSize, (text ++ markerTag).utf8ByteSize⟩

structure IsolatedPass where
  handler : GraphHandler
  doc : String
  session : Session

def isolatedPasses (env : Surroundings) : List GraphHandler → String → Session → List IsolatedPass
  | [], _, _ => []
  | h :: rest, doc, s =>
    ⟨h, doc, s⟩ :: match renderKind env h doc .serialize [] s with
      | (.ok pass, s) => isolatedPasses env rest pass.text s
      | (.error _, _) => []

namespace IsolatedPass

def rendered (env : Surroundings) (pass : IsolatedPass) : List HandledBlock :=
  let elements := scan pass.doc
  let pending := pendingBlocks elements pass.doc pass.handler.kind []
  match (handlePending env pass.handler elements pass.doc pending pass.session).1 with
  | .ok handling => renderedOf handling.blocks
  | .error _ => []

def targets (env : Surroundings) (pass : IsolatedPass) : List String :=
  (pass.rendered env).map fun b => b.block.output

/-- The document without the markers of rendered blocks and without readable cache markers. -/
def remainder (env : Surroundings) (pass : IsolatedPass) : String :=
  withEdits pass.doc ((pass.rendered env).map (fun b => Edit.remove b.marker) ++
    (readableMarkers (scan pass.doc) pass.doc).map fun (marker, _) => Edit.remove marker)

/-- Whether the marker of the turn is found again: it is begun by its open tag, and what is left of
the document lists no targets of its own. -/
def Carries (env : Surroundings) (pass : IsolatedPass) : Prop :=
  (∀ t ∈ (restore (pass.remainder env ++ markerTag) []).targets,
    t ∈ (restore pass.doc []).targets ∨ t ∈ pass.targets env) ∧
  (TakesMarker (pass.remainder env) ∨
    ∀ t, t ∈ (restore pass.doc []).targets ∨ t ∈ pass.targets env →
      t ∈ (restore (pass.remainder env ++ markerTag) []).targets)

end IsolatedPass

theorem size_eq_zero {cs : List Char} (empty : Text.size cs = 0) : cs = [] := by
  cases cs with
  | nil => rfl
  | cons c cs =>
    have positive := Char.utf8Size_pos c
    rw [Text.size_cons] at empty
    omega

theorem takesMarker_iff (text : String) :
    TakesMarker text ↔ WaitsIn (text.toList ++ markerOpen) := by
  have chars : (text ++ markerTag).toList = text.toList ++ markerOpen := String.toList_append
  unfold TakesMarker WaitsIn
  rw [← chars, ← Text.size_toList]
  generalize text ++ markerTag = whole
  constructor
  · rintro ⟨e, mem, script, content⟩
    obtain ⟨before, t, after, tokens, found⟩ :=
      (mem_scan_script (Element.isScriptOf_tag script)).1 mem
    have lexemes := Token.ofText_lexeme whole.toList
    rw [tokens, List.flatMap_append, List.flatMap_cons] at lexemes
    refine ⟨t, by rw [tokens]; simp, ?_⟩
    have type_ := (Token.script?_isScriptOf found cacheMarkerType).symm.trans script
    cases t with
    | raw name body text closing =>
      simp only [Token.script?, Option.ite_none_right_eq_some, Option.some.injEq] at found
      obtain ⟨-, rfl⟩ := found
      simp only [Element.content?, Element.closedAt, Option.map_some, Option.some.injEq,
        Span.mk.injEq] at content
      have opened : (Element.ofOpenTag (Text.size (before.flatMap Token.lexeme)) name body).openEnd =
          Text.size (before.flatMap Token.lexeme) + Text.size ('<' :: name ++ body.lexeme) :=
        Element.openEnd_ofOpenTag _ name body
      have sizes := congrArg Text.size lexemes
      rw [Text.size_append, Text.size_append, Token.lexeme, Text.size_append, Text.size_append]
        at sizes
      have nothing : text = [] := size_eq_zero (by omega)
      have unclosed : closing = [] := size_eq_zero (by omega)
      rw [nothing, unclosed]
      exact ⟨name, body, rfl, type_⟩
    | openTag name body =>
      simp only [Token.script?, Option.ite_none_right_eq_some, Option.some.injEq] at found
      obtain ⟨-, rfl⟩ := found
      cases content
    | char | aside | closeTag | unfinished => cases found
  · rintro ⟨t, mem, name, body, rfl, script⟩
    obtain ⟨before, after, tokens⟩ := List.append_of_mem mem
    have last := Token.ofText_raw_open tokens
    subst last
    have lexemes := Token.ofText_lexeme whole.toList
    rw [tokens, List.flatMap_append, List.flatMap_singleton] at lexemes
    have type_ : (Token.raw name body [] []).isScriptOf cacheMarkerType = true := script
    obtain ⟨e, found⟩ :=
      Token.script?_of_isScriptOf type_ (Text.size (before.flatMap Token.lexeme))
    refine ⟨e, (mem_scan_script (Token.script?_tag found)).2 ⟨before, _, [], tokens, found⟩, ?_, ?_⟩
    · exact (Token.script?_isScriptOf found cacheMarkerType).trans type_
    · simp only [Token.script?, Option.ite_none_right_eq_some, Option.some.injEq] at found
      obtain ⟨-, rfl⟩ := found
      have sizes := congrArg Text.size lexemes
      rw [Text.size_append, Token.lexeme, List.append_nil, List.append_nil,
        ← Element.openEnd_ofOpenTag _ name body] at sizes
      rw [← sizes]
      rfl

theorem fits_remove {doc : String} {e : Element} (mem : e ∈ scan doc) (script : e.tag = "script") :
    (Edit.remove e).Fits doc.toList ∧ (Edit.remove e).span.start < doc.utf8ByteSize := by
  obtain ⟨before, t, after, tokens, found⟩ := (mem_scan_script script).1 mem
  obtain ⟨start, stop⟩ := Token.script?_span found
  have lexemes := Token.ofText_lexeme doc.toList
  rw [tokens, List.flatMap_append, List.flatMap_cons] at lexemes
  have some_ : 0 < Text.size t.lexeme := by
    cases empty : t.lexeme with
    | nil =>
      have mem' : t ∈ Token.ofText doc.toList := by
        rw [tokens]
        simp
      have visible := Token.lexeme_ne_nil_of_mem mem'
      exact absurd empty visible
    | cons c cs =>
      have positive := Char.utf8Size_pos c
      rw [Text.size_cons]
      omega
  refine ⟨⟨⟨_, _, lexemes.symm, start⟩, ⟨before.flatMap Token.lexeme ++ t.lexeme,
    after.flatMap Token.lexeme, ?_, ?_⟩, ?_⟩, ?_⟩
  · rw [← lexemes, List.append_assoc]
  · rw [Text.size_append]
    exact stop
  · simp only [Edit.remove, Element.span, start, stop]
    omega
  · have sizes := congrArg Text.size lexemes
    rw [Text.size_append, Text.size_append, Text.size_toList] at sizes
    simp only [Edit.remove, Element.span, start]
    omega

theorem mem_ofMarkers {kind : GraphKind} {doc : String} {index : Nat} {markers : List Element}
    {e : Element} {block : EmbeddedBlock}
    (mem : (e, block) ∈ EmbeddedBlock.ofMarkers kind doc index markers) : e ∈ markers := by
  induction markers generalizing index with
  | nil => cases mem
  | cons m markers ih =>
    rw [EmbeddedBlock.ofMarkers] at mem
    split at mem
    · rcases List.mem_cons.1 mem with same | later
      · cases same
        exact List.mem_cons_self
      · exact List.mem_cons_of_mem m (ih later)
    · exact List.mem_cons_of_mem m (ih mem)

theorem script_of_pending {doc : String} {kind : GraphKind} {satisfied : List String} {e : Element}
    {block : EmbeddedBlock} (mem : (e, block) ∈ pendingBlocks (scan doc) doc kind satisfied) :
    e ∈ scan doc ∧ e.tag = "script" := by
  have marker := mem_ofMarkers (List.mem_filter.1 mem).1
  obtain ⟨scanned, script⟩ := List.mem_filter.1 marker
  exact ⟨scanned, Element.isScriptOf_tag script⟩

theorem handleBlocks_markers (engine : GraphEngine) (files : List InputFile)
    (items : List ((Element × EmbeddedBlock) × Except FetchError String)) :
    (handleBlocks engine files items).1.map (fun b => (b.marker, b.block)) =
      items.map Prod.fst := by
  induction items with
  | nil => rfl
  | cons item items ih =>
    obtain ⟨⟨marker, block⟩, content⟩ := item
    cases content with
    | error e => exact congrArg _ ih
    | ok content => exact congrArg _ ih

theorem handlingWith_markers (env : Surroundings) (engine : GraphEngine) (h : GraphHandler)
    (elements : List Element) (doc : String) (pending : List (Element × EmbeddedBlock)) :
    (handlingWith env engine h elements doc pending).blocks.map (fun b => (b.marker, b.block)) =
      pending := by
  rw [handlingWith, handleBlocks_markers, List.map_fst_zip]
  exact Nat.le_of_eq (List.length_map _).symm

theorem mem_targets_addResult {cache : ArtifactCache} {handled : List HandledBlock}
    {target : String} :
    target ∈ (handled.foldl addResult cache).targets ↔
      target ∈ cache.targets ∨ target ∈ (renderedOf handled).map fun b => b.block.output := by
  induction handled generalizing cache with
  | nil => simp [renderedOf]
  | cons h handled ih =>
    rw [List.foldl_cons, ih, addResult]
    cases result : h.result? with
    | none => simp [renderedOf, result]
    | some r =>
      dsimp only
      rw [insertRendered, mem_targets_insert]
      simp only [renderedOf, List.filter_cons, result, Option.isSome_some, if_true, List.map_cons,
        List.mem_cons]
      rw [or_comm (a := target = h.block.output), or_assoc]

theorem mem_targets_resultsOf {handled : List HandledBlock} {target : String} :
    target ∈ (resultsOf handled).targets ↔
      target ∈ (renderedOf handled).map fun b => b.block.output := by
  rw [resultsOf, mem_targets_addResult]
  simp [empty, ArtifactCache.targets]

theorem resultsOf_isEmpty {handled : List HandledBlock} :
    (resultsOf handled).isEmpty = true ↔ renderedOf handled = [] := by
  constructor
  · intro none_
    cases found : renderedOf handled with
    | nil => rfl
    | cons b rest =>
      have mem : b.block.output ∈ (resultsOf handled).targets := by
        rw [mem_targets_resultsOf, found]
        exact List.mem_cons_self
      rw [ArtifactCache.targets, List.isEmpty_iff.1 none_] at mem
      cases mem
  · intro none_
    cases found : (resultsOf handled).entries with
    | nil => exact List.isEmpty_iff.2 found
    | cons entry rest =>
      have mem : entry.1 ∈ (resultsOf handled).targets := by
        rw [ArtifactCache.targets, found]
        exact List.mem_cons_self
      rw [mem_targets_resultsOf, none_] at mem
      cases mem

variable {env : Surroundings} {p : GraphPipeline} {s : Session}

theorem rendered_eq {pass : IsolatedPass} {engine : GraphEngine}
    (loaded : (pass.session.engineOf env pass.handler).1 = .ok engine) :
    pass.rendered env = renderedOf (handlingWith env engine pass.handler (scan pass.doc) pass.doc
      (pendingBlocks (scan pass.doc) pass.doc pass.handler.kind [])).blocks := by
  have handled := (handlePending_ok loaded (scan pass.doc) pass.doc
    (pendingBlocks (scan pass.doc) pass.doc pass.handler.kind [])).1
  simp only [IsolatedPass.rendered, handled]

theorem withEdits_nil (doc : String) : withEdits doc [] = doc := by
  have whole : Text.sliceFrom? doc.toList 0 = some doc.toList := Text.sliceFrom?_size [] doc.toList
  simp [withEdits, edited?, splice?, whole]

theorem dropEdits_nil (elements : List Element) (doc : String) (kind : GraphKind) :
    dropEdits elements doc kind [] = [] := by
  simp [dropEdits]

theorem text_serialize (env : Surroundings) (engine : GraphEngine) (h : GraphHandler) (doc : String) :
    let handled := (handlingWith env engine h (scan doc) doc
      (pendingBlocks (scan doc) doc h.kind [])).blocks
    (passWith env engine h doc .serialize []).text =
      withEdits doc (serializeEdits (scan doc) doc (resultsOf handled)
        ((renderedOf handled).map fun b => Edit.remove b.marker)) := by
  unfold passWith
  dsimp only
  rw [dropEdits_nil, List.nil_append]
  split
  · next none_ =>
    have empty := handlingWith_markers env engine h (scan doc) doc
      (pendingBlocks (scan doc) doc h.kind [])
    rw [List.isEmpty_iff.1 none_] at empty ⊢
    rw [List.map_eq_nil_iff.1 empty]
    rfl
  · rfl

theorem script_of_rendered {engine : GraphEngine} {h : GraphHandler} {doc : String} {b : HandledBlock}
    (mem : b ∈ renderedOf (handlingWith env engine h (scan doc) doc
      (pendingBlocks (scan doc) doc h.kind [])).blocks) :
    b.marker ∈ scan doc ∧ b.marker.tag = "script" := by
  have pair := List.mem_map_of_mem (f := fun b : HandledBlock => (b.marker, b.block))
    (List.mem_filter.1 mem).1
  rw [handlingWith_markers] at pair
  exact script_of_pending pair

/-- What a pass takes out, the scripts it rendered and the markers it read, lies before the end of
the document. -/
theorem removals_fit {doc : String} {blocks : List HandledBlock}
    (scripts : ∀ b ∈ blocks, b.marker ∈ scan doc ∧ b.marker.tag = "script") :
    ∀ e ∈ blocks.map (fun b => Edit.remove b.marker) ++
        (readableMarkers (scan doc) doc).map (fun (marker, _) => Edit.remove marker),
      e.Fits doc.toList ∧ e.span.start < doc.utf8ByteSize := by
  intro e mem
  rcases List.mem_append.1 mem with mem | mem
  · obtain ⟨b, here, rfl⟩ := List.mem_map.1 mem
    exact fits_remove (scripts b here).1 (scripts b here).2
  · obtain ⟨⟨m, cache⟩, here, rfl⟩ := List.mem_map.1 mem
    obtain ⟨scanned, script⟩ := List.mem_filter.1 (mem_readableMarkers.1 here).1
    exact fits_remove scanned (Element.isScriptOf_tag script)

theorem text_stored (env : Surroundings) (engine : GraphEngine) (h : GraphHandler) (doc : String) :
    let handled := (handlingWith env engine h (scan doc) doc
      (pendingBlocks (scan doc) doc h.kind [])).blocks
    (resultsOf handled).isEmpty ≠ true →
    (passWith env engine h doc .serialize []).text =
      withEdits doc ((renderedOf handled).map (fun b => Edit.remove b.marker) ++
        (readableMarkers (scan doc) doc).map fun (marker, _) => Edit.remove marker) ++
      (((readableMarkers (scan doc) doc).map Prod.snd ++ [resultsOf handled]).foldl
        ArtifactCache.extend .empty).toMarker := by
  intro handled some_
  have scripts : ∀ b ∈ renderedOf handled, b.marker ∈ scan doc ∧ b.marker.tag = "script" :=
    fun _ => script_of_rendered
  have removals := removals_fit scripts
  rw [text_serialize, serializeEdits, if_neg some_]
  exact withEdits_insert_end _ (fun e mem => (removals e mem).1) fun e mem => (removals e mem).2

/-- A pass that renders nothing leaves the document alone; any other puts a marker after what is
left of it. -/
theorem pass_text {pass : IsolatedPass} {engine : GraphEngine}
    (loaded : (pass.session.engineOf env pass.handler).1 = .ok engine) :
    (pass.rendered env = [] →
      (passWith env engine pass.handler pass.doc .serialize []).text = pass.doc) ∧
    (pass.rendered env ≠ [] → ∃ cache : ArtifactCache, cache.Distinct ∧
      (passWith env engine pass.handler pass.doc .serialize []).text =
        pass.remainder env ++ cache.toMarker ∧
      ∀ t, t ∈ cache.targets ↔ t ∈ (restore pass.doc []).targets ∨ t ∈ pass.targets env) := by
  have rendered := rendered_eq loaded
  have stored := text_stored env engine pass.handler pass.doc
  rw [IsolatedPass.remainder, IsolatedPass.targets, rendered]
  refine ⟨fun none_ => ?_, fun some_ => ?_⟩
  · rw [text_serialize, serializeEdits, if_pos (resultsOf_isEmpty.2 none_), none_, List.map_nil, withEdits_nil]
  · refine ⟨_, distinct_merged _, stored fun none_ => some_ (resultsOf_isEmpty.1 none_), ?_⟩
    intro t
    rw [mem_targets_merged, mem_restore_readable, ← mem_targets_resultsOf]
    simp [empty, ArtifactCache.targets, or_comm]

/-- A pass keeps what was listed before it and what it renders just when it renders nothing or its
marker is found again. -/
theorem pass_keeps_iff (pass : IsolatedPass) {engine : GraphEngine}
    (loaded : (pass.session.engineOf env pass.handler).1 = .ok engine) :
    (∀ t, t ∈ (restore (passWith env engine pass.handler pass.doc .serialize []).text []).targets ↔
        t ∈ (restore pass.doc []).targets ∨ t ∈ pass.targets env) ↔
      (pass.rendered env ≠ [] → pass.Carries env) := by
  obtain ⟨idle, busy⟩ := pass_text loaded
  by_cases none_ : pass.rendered env = []
  · have nothing : pass.targets env = [] := by
      rw [IsolatedPass.targets, none_]
      rfl
    simp [idle none_, nothing, none_]
  · obtain ⟨cache, distinct, text, holds⟩ := busy none_
    have found : ∀ t,
        t ∈ (restore (passWith env engine pass.handler pass.doc .serialize []).text []).targets ↔
          t ∈ (restore (pass.remainder env ++ markerTag) []).targets ∨
            TakesMarker (pass.remainder env) ∧
              (t ∈ (restore pass.doc []).targets ∨ t ∈ pass.targets env) := by
      intro t
      rw [mem_restore, mem_restore, takesMarker_iff, ← holds, text, String.toList_append,
        String.toList_append]
      exact listsIn_append_marker distinct _ t
    simp only [found, IsolatedPass.Carries]
    by_cases takes : TakesMarker (pass.remainder env)
    · simp [takes, none_]
    · simp [takes, none_, iff_iff_implies_and_implies, forall_and]

/-- Whether the isolated stage of a pipeline succeeds and what is restored from its text are the
targets restored from the document and those of the blocks it rendered. -/
def ResultsKept (env : Surroundings) (p : GraphPipeline) (doc : String) (s : Session) : Prop :=
  ∃ out s', p.runIsolated env doc s = (.ok out, s') ∧
    ∀ t, t ∈ (p.restoreText out.text).targets ↔ t ∈ (p.restoreText doc).targets ∨
      ∃ pass ∈ isolatedPasses env (p.filter (·.isolated)) doc s, t ∈ pass.targets env

def StageKeeps (env : Surroundings) (handlers : List GraphHandler) (out : PassOutput)
    (s : Session) : Prop :=
  ∃ out' s', GraphPipeline.runHandlers env .serialize [] handlers out s = (.ok out', s') ∧
    ∀ t, t ∈ (restore out'.text []).targets ↔ t ∈ (restore out.text []).targets ∨
      ∃ pass ∈ isolatedPasses env handlers out.text s, t ∈ pass.targets env

theorem stageKeeps_nil (out : PassOutput) : StageKeeps env [] out s :=
  ⟨out, s, rfl, by simp [isolatedPasses]⟩

theorem resultsKept_iff {doc : String} :
    ResultsKept env p doc s ↔ StageKeeps env (p.filter (·.isolated)) ⟨doc, []⟩ s := by
  simp only [ResultsKept, StageKeeps, GraphPipeline.runIsolated, GraphPipeline.restoreText,
    mem_restore]

theorem stageKeeps_cons {h : GraphHandler} {rest : List GraphHandler} {out : PassOutput}
    {pass : PassOutput} {s' : Session}
    (first : renderKind env h out.text .serialize [] s = (.ok pass, s'))
    (kept : ∀ t, t ∈ (restore pass.text []).targets ↔
      t ∈ (restore out.text []).targets ∨ t ∈ IsolatedPass.targets env ⟨h, out.text, s⟩) :
    StageKeeps env (h :: rest) out s ↔
      StageKeeps env rest ⟨pass.text, out.errors ++ pass.errors⟩ s' := by
  simp only [StageKeeps, GraphPipeline.runHandlers, isolatedPasses, first, kept, or_assoc,
    List.mem_cons, or_and_right, exists_or, exists_eq_left]

theorem stageKeeps_all_iff {handlers : List GraphHandler} (out : PassOutput)
    (loads : s.LoadsSucceed env p) (within : ∀ h ∈ handlers, h ∈ p) :
    (∀ earlier, earlier <+: handlers → StageKeeps env earlier out s) ↔
      ∀ pass ∈ isolatedPasses env handlers out.text s,
        pass.rendered env ≠ [] → pass.Carries env := by
  induction handlers generalizing out s with
  | nil =>
    simp only [List.prefix_nil, forall_eq, stageKeeps_nil, isolatedPasses, true_iff]
    simp
  | cons h rest ih =>
    obtain ⟨engine, loaded, -, answer, loads'⟩ :=
      renderKind_ok loads (within h List.mem_cons_self) out.text .serialize []
    have first : renderKind env h out.text .serialize [] s =
        (.ok (passWith env engine h out.text .serialize []),
          (renderKind env h out.text .serialize [] s).2) := by
      rw [← answer]
    generalize (renderKind env h out.text .serialize [] s).2 = s' at first loads'
    have keeps := pass_keeps_iff ⟨h, out.text, s⟩ loaded
    dsimp only at keeps
    generalize passWith env engine h out.text .serialize [] = pass at first keeps
    have later := ih ⟨pass.text, out.errors ++ pass.errors⟩ loads'
      fun d mem => within d (List.mem_cons_of_mem h mem)
    have passes : isolatedPasses env (h :: rest) out.text s =
        ⟨h, out.text, s⟩ :: isolatedPasses env rest pass.text s' := by
      rw [isolatedPasses, first]
    rw [passes, List.forall_mem_cons, ← keeps, ← later]
    constructor
    · intro all
      have kept : ∀ t, t ∈ (restore pass.text []).targets ↔ t ∈ (restore out.text []).targets ∨
          t ∈ IsolatedPass.targets env ⟨h, out.text, s⟩ := by
        obtain ⟨out', s'', ran, found⟩ := all [h] (by simp)
        rw [GraphPipeline.runHandlers, first] at ran
        cases ran
        simpa [isolatedPasses, first] using found
      refine ⟨kept, fun earlier before => ?_⟩
      rw [← stageKeeps_cons first kept]
      exact all (h :: earlier) ((List.prefix_cons_inj h).2 before)
    · rintro ⟨kept, others⟩ earlier before
      rcases List.prefix_cons_iff.1 before with rfl | ⟨earlier, rfl, initial⟩
      · exact stageKeeps_nil out
      · rw [stageKeeps_cons first kept]
        exact others earlier initial

/-- The isolated stage loses no result and brings up no other, for a pipeline and all its initial
parts, just when every pass that renders something has its marker found again. -/
theorem isolated_stage_keeps_iff (doc : String) (loads : s.LoadsSucceed env p) :
    (∀ q, q <+: p → ResultsKept env q doc s) ↔
      ∀ pass ∈ isolatedPasses env (p.filter (·.isolated)) doc s,
        pass.rendered env ≠ [] → pass.Carries env := by
  rw [← stageKeeps_all_iff ⟨doc, []⟩ loads fun h mem => (List.mem_filter.1 mem).1]
  simp only [resultsKept_iff]
  constructor
  · intro all earlier before
    obtain ⟨q, initial, rfl⟩ := List.prefix_filter_iff.1 before
    exact all q initial
  · intro all q initial
    exact all _ (initial.filter _)

def drawEngine : GraphEngine where
  name := "draw"
  render request := .ok (.markup ("<svg>" ++ request.content ++ "</svg>"))

def drawHandler : GraphHandler := ⟨.custom "x/a", "https://e.test/a", none, true, none⟩

def drawSurroundings : Surroundings where
  modules := .ofTable [("https://e.test/a", .ok (.graph drawEngine))] false
  fetch := .empty

def openComment : String :=
  "<script type=\"x/a\" data-output=\"a\">x</script><div data-src=\"a\"></div><!-- "

theorem drawSurroundings_delivers :
    Delivers drawSurroundings "https://e.test/" [drawHandler] fun _ => drawEngine where
  modules := by
    intro h mem attempt
    cases List.mem_singleton.1 mem
    rw [show drawHandler.engineUrl = "https://e.test/a" from rfl, resolveUrl_test.1]
    rfl
  names _ _ _ _ _ _ _ := rfl

theorem open_comment_loses_result :
    (Session.new "https://e.test/").LoadsSucceed drawSurroundings [drawHandler] ∧
      ¬ ResultsKept drawSurroundings [drawHandler] openComment (Session.new "https://e.test/") := by
  have loads := (Session.loadsAnswer_new drawSurroundings_delivers).succeed
  refine ⟨loads, fun kept => ?_⟩
  have all : ∀ q, q <+: [drawHandler] →
      ResultsKept drawSurroundings q openComment (Session.new "https://e.test/") := by
    intro q initial
    rcases List.prefix_cons_iff.1 initial with rfl | ⟨rest, rfl, nothing⟩
    · exact resultsKept_iff.2 (stageKeeps_nil _)
    · rw [List.prefix_nil.1 nothing]
      exact kept
  have ⟨targets, left⟩ : IsolatedPass.targets drawSurroundings
        ⟨drawHandler, openComment, Session.new "https://e.test/"⟩ = ["a"] ∧
      IsolatedPass.remainder drawSurroundings
        ⟨drawHandler, openComment, Session.new "https://e.test/"⟩ =
          "<div data-src=\"a\"></div><!-- " := by decide +kernel
  have some_ : IsolatedPass.rendered drawSurroundings
      ⟨drawHandler, openComment, Session.new "https://e.test/"⟩ ≠ [] := by
    intro none_
    rw [IsolatedPass.targets, none_] at targets
    cases targets
  have unmarked : ∀ e ∈ scan ("<div data-src=\"a\"></div><!-- " ++ markerTag),
      e.isScriptOf cacheMarkerType ≠ true := by
    rw [show "<div data-src=\"a\"></div><!-- " ++ markerTag = String.ofList _ ++ String.ofList _
      from rfl, scan, String.toList_append, String.toList_ofList, String.toList_ofList]
    decide +kernel
  have carries := (isolated_stage_keeps_iff openComment loads).1 all
    ⟨drawHandler, openComment, Session.new "https://e.test/"⟩ List.mem_cons_self some_
  rw [IsolatedPass.Carries, left, targets] at carries
  rcases carries.2 with ⟨e, mem, script, -⟩ | listed
  · exact unmarked e mem script
  · obtain ⟨m, mem, -⟩ := mem_restore_scan.1 (listed "a" (.inr (List.mem_singleton_self _)))
    obtain ⟨mem, script⟩ := List.mem_filter.1 mem
    exact unmarked m mem script

end Playground
