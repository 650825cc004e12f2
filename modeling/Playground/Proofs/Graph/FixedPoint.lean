import Playground.Proofs.Graph.Blocks
import Playground.Proofs.Graph.DataUris

/-! Rendering a document that has been rendered. -/

namespace Playground

open Html Session

namespace Session

/-- In whatever order engines of the pipeline are loaded from here on, each that is got is right. -/
def EnginesAre (env : Surroundings) (p : GraphPipeline) (right : GraphEngine → Prop) (s : Session) :
    Prop :=
  ∀ earlier : List GraphHandler, (∀ h ∈ earlier, h ∈ p) → ∀ h ∈ p, ∀ engine,
    ((s.afterLoads env earlier).engineOf env h).1 = .ok engine → right engine

namespace EnginesAre

variable {env : Surroundings} {p : GraphPipeline} {right : GraphEngine → Prop} {s s' : Session}

theorem same (engines : s.EnginesAre env p right) (same : s.SameLoader s') :
    s'.EnginesAre env p right := by
  intro earlier within h mem engine loaded
  rw [← (engineOf_same (afterLoads_same same env earlier) env h).1] at loaded
  exact engines earlier within h mem engine loaded

theorem load (engines : s.EnginesAre env p right) {h : GraphHandler} (mem : h ∈ p) :
    (s.engineOf env h).2.EnginesAre env p right := by
  intro earlier within
  refine engines (h :: earlier) ?_
  rw [List.forall_mem_cons]
  exact ⟨mem, within⟩

theorem of_loadsAnswer {engineFor : GraphHandler → GraphEngine}
    (loads : s.LoadsAnswer env p engineFor) (fine : ∀ h ∈ p, right (engineFor h)) :
    s.EnginesAre env p right := by
  intro earlier within h mem engine loaded
  obtain ⟨_, answer, rfl⟩ := loads earlier within h mem
  rw [answer] at loaded
  cases loaded
  exact fine h mem

end EnginesAre

end Session

namespace Html

/-- Neither a script nor a raw-text element that shows a target. -/
def Element.IsCalm (e : Element) : Prop :=
  e.tag ≠ "script" ∧ (e.tag ∈ rawTextTags → e.attr? "data-src" = none)

instance (e : Element) : Decidable e.IsCalm := inferInstanceAs (Decidable (_ ∧ (_ → _)))

def Token.IsCalm (t : Token) : Prop := ¬ t.IsScript ∧ t.IsTidy

theorem Token.IsPlain.calm {t : Token} (plain : t.IsPlain) : t.IsCalm :=
  ⟨plain.1, fun _ _ _ => plain.2⟩

theorem Placed.Agrees.calm {x : Placed} (agrees : x.Agrees) (calm : x.element.IsCalm) :
    x.token.IsCalm := by
  refine ⟨fun script => ?_, agrees.tidy calm.2⟩
  rw [Token.IsScript, agrees.tag, Option.some.injEq] at script
  exact calm.1 script

/-- A forest as passes leave it. -/
structure Forest.Calm (f : Forest) : Prop where
  sound : f.Sound
  tidy : ∀ t ∈ f.tokens, t.IsTidy

end Html

variable {env : Surroundings} {p : GraphPipeline} {s s' : Session} {f : Forest}

/-- An engine all results of which are calm. -/
def GraphEngine.IsCalm (engine : GraphEngine) : Prop :=
  ∀ request result, engine.render request = .ok result →
    IsFineResult Element.IsCalm result.toDataUri

theorem calm_rendered (results : Results) {gone : Nat → Token → Bool} (calm : f.Calm)
    (only : OnlyScripts gone)
    (fine : ∀ target uri, results target = some uri → IsFineResult Element.IsCalm uri) :
    (∀ t ∈ f.tokens, t.Takes Token.IsCalm results) ∧ (f.rendered results gone).Calm ∧
      ∀ t ∈ (f.rendered results gone).tokens, t.IsScript →
        t ∈ f.tokens ∧ ∃ mark, gone mark t = false := by
  have takes : ∀ t ∈ f.tokens, t.Takes Token.IsCalm results := by
    intro t _
    cases t with
    | openTag name body =>
      intro uri found
      obtain ⟨target, -, found⟩ := Option.bind_eq_some_iff.1 found
      have result := fine target uri found
      exact ⟨fun _ => result.clean, fun _ =>
        result.markup (fun _ => Token.IsPlain.calm) fun t e agrees => agrees.calm⟩
    | char | aside | closeTag | raw | unfinished => exact trivial
  refine ⟨takes, ⟨Forest.rendered_sound calm.sound takes, fun t mem => ?_⟩, fun t mem script => ?_⟩
  · rcases Forest.mem_tokens_rendered only calm.sound takes mem with new | ⟨u, known, rfl, -⟩
    · exact new.2
    · exact (calm.tidy u known).shown
  · rcases Forest.mem_tokens_rendered only calm.sound takes mem with new | ⟨u, known, rfl, kept⟩
    · exact absurd script new.1
    · have script' : u.IsScript := by
        rw [Token.IsScript, ← Token.tag?_shown]
        exact script
      rw [Token.shown_script script']
      exact ⟨known, kept⟩

theorem renderedOf_all {kind : GraphKind} {blocks : List HandledBlock}
    (fine : blocks.filterMap (·.error? kind) = []) : renderedOf blocks = blocks := by
  rw [List.filterMap_eq_nil_iff] at fine
  rw [renderedOf, List.filter_eq_self]
  intro b mem
  have none_ := fine b mem
  unfold HandledBlock.error? at none_
  unfold HandledBlock.result?
  cases outcome : b.outcome with
  | rendered result => rfl
  | unavailable e | refused e =>
    rw [outcome] at none_
    cases none_

theorem passWith_all {engine : GraphEngine} {h : GraphHandler} {text : String} (sound : f.Sound)
    (pending : pendingBlocks (scan (String.ofList f.text)) (String.ofList f.text) h.kind [] ≠ [])
    (pass : ⟨text, []⟩ = passWith env engine h (String.ofList f.text) .substitute []) :
    ∃ cache : ArtifactCache,
      (∀ target uri, cache.get? target = some uri →
        ∃ request result, engine.render request = .ok result ∧ uri = result.toDataUri) ∧
      text = withEdits (String.ofList f.text)
        (displayAll (scan (String.ofList f.text)) cache ++
          ((f.placed 0).filter fun x => x.token.isBlock h.kind).map fun x =>
            Edit.remove x.element) := by
  rw [passWith, if_neg (mt List.isEmpty_iff.1 pending), handlingWith_blocks, dropEdits_nil,
    pendingBlocks_nil, Forest.blocksIn_text sound] at pass
  dsimp only at pass
  rw [List.nil_append] at pass
  generalize inputsWith env h.kind _ = inputs at pass
  generalize handled_ : List.map _ (numbered h.kind 1 _) = handled at pass
  obtain ⟨text_, errors⟩ := PassOutput.mk.inj pass
  have all := renderedOf_all (List.append_eq_nil_iff.1 errors.symm).2
  dsimp only [emitEdits] at text_
  rw [all] at text_
  refine ⟨resultsOf handled, ?_, text_.trans ?_⟩
  · intro target uri found
    obtain ⟨b, mem, -, result, rendered, rfl⟩ := get?_resultsOf found
    rw [← handled_] at mem
    obtain ⟨⟨marker, block⟩, -, rfl⟩ := List.mem_map.1 mem
    obtain ⟨content, -, answer⟩ := result?_outcomeOf.1 rendered
    exact ⟨_, result, answer, rfl⟩
  · have elements := congrArg (List.map Edit.remove)
      (numbered_elements h.kind 1 ((f.placed 0).filter fun x => x.token.isBlock h.kind))
    rw [List.map_map, List.map_map] at elements
    rw [← handled_, List.map_map]
    exact congrArg (fun removals => withEdits _ (_ ++ removals)) elements

/-- A pass without errors leaves a calm document without blocks of its kind and with no new
scripts. -/
theorem calm_pass {h : GraphHandler} {text : String} (calm : f.Calm) (mem : h ∈ p)
    (engines : s.EnginesAre env p GraphEngine.IsCalm)
    (ran : renderKind env h (String.ofList f.text) .substitute [] s = (.ok ⟨text, []⟩, s')) :
    ∃ g : Forest, g.Calm ∧ text = String.ofList g.text ∧
      (∀ t ∈ g.tokens, t.IsScript → t ∈ f.tokens ∧ t.isBlock h.kind = false) ∧
      s'.EnginesAre env p GraphEngine.IsCalm := by
  have blocks := Forest.blocksIn_text calm.sound h.kind
  rcases renderKind_cases ran with ⟨none_, rfl, pass⟩ | ⟨engine, loaded, loader, pending, pass⟩
  · rw [dropEdits_nil, withEdits_nil] at pass
    cases pass
    refine ⟨f, calm, rfl, fun t known script => ⟨known, ?_⟩, engines⟩
    rw [pendingBlocks_nil, blocks] at none_
    have elements := congrArg (List.map Prod.fst) none_
    rw [numbered_elements, List.map_nil, List.map_eq_nil_iff, List.filter_eq_nil_iff] at elements
    obtain ⟨x, placed, rfl⟩ := Forest.placed_of_token 0 known (by rw [script]; exact nofun)
    simpa using elements x placed
  · have right := engines [] (by simp) h mem engine loaded
    have engines' := (engines.load mem).same loader
    obtain ⟨cache, results, rfl⟩ := passWith_all calm.sound pending pass
    have only : OnlyScripts fun _ t => t.isBlock h.kind := fun _ _ => Token.isScript_of_isBlock
    have fine : ∀ target uri, cache.get? target = some uri → IsFineResult Element.IsCalm uri := by
      intro target uri found
      obtain ⟨request, result, rendered, rfl⟩ := results target uri found
      exact right request result rendered
    obtain ⟨takes, calm', scripts⟩ := calm_rendered _ calm only fine
    refine ⟨_, calm', withEdits_rendered only calm.sound calm.tidy takes (.refl _), ?_, engines'⟩
    intro t known script
    obtain ⟨old, -, kept⟩ := scripts t known script
    exact ⟨old, kept⟩

theorem runHandlers_errors {emit : Emit} {satisfied : List String} {handlers : List GraphHandler}
    {out final : PassOutput}
    (ran : GraphPipeline.runHandlers env emit satisfied handlers out s = (.ok final, s')) :
    out.errors <+: final.errors := by
  induction handlers generalizing out s with
  | nil =>
    cases ran
    exact List.prefix_refl _
  | cons h rest ih =>
    rw [GraphPipeline.runHandlers] at ran
    split at ran
    · cases ran
    · exact (List.prefix_append _ _).trans (ih ran)

theorem calm_passes {handlers : List GraphHandler} {text : String} (calm : f.Calm)
    (within : ∀ h ∈ handlers, h ∈ p) (engines : s.EnginesAre env p GraphEngine.IsCalm)
    (ran : GraphPipeline.runHandlers env .substitute [] handlers ⟨String.ofList f.text, []⟩ s =
      (.ok ⟨text, []⟩, s')) :
    ∃ g : Forest, g.Calm ∧ text = String.ofList g.text ∧
      ∀ t ∈ g.tokens, t.IsScript → t ∈ f.tokens ∧ ∀ h ∈ handlers, t.isBlock h.kind = false := by
  induction handlers generalizing f s with
  | nil =>
    cases ran
    exact ⟨f, calm, rfl, fun t mem _ => ⟨mem, nofun⟩⟩
  | cons h rest ih =>
    rw [List.forall_mem_cons] at within
    rw [GraphPipeline.runHandlers] at ran
    split at ran
    · cases ran
    · next pass s₁ first =>
      obtain ⟨passed, errors⟩ := pass
      have none_ : errors = [] := List.prefix_nil.1 (runHandlers_errors ran)
      subst none_
      obtain ⟨g, calm', rfl, scripts, engines'⟩ := calm_pass calm within.1 engines first
      obtain ⟨g', calm'', text_, scripts'⟩ := ih calm' within.2 engines' ran
      refine ⟨g', calm'', text_, fun t mem script => ?_⟩
      obtain ⟨known, free⟩ := scripts' t mem script
      obtain ⟨known', free'⟩ := scripts t known script
      rw [List.forall_mem_cons]
      exact ⟨known', free', free⟩

/-- A piece in which nothing is left to do for a pipeline. -/
structure Html.Token.Rests (p : GraphPipeline) (t : Token) : Prop where
  unmarked : t.isScriptOf cacheMarkerType = false
  blocks : ∀ h ∈ p, t.isBlock h.kind = false
  files : p.inputFileTypes.any t.isScriptOf = false

theorem runHandlers_rests {handlers : List GraphHandler} (sound : f.Sound)
    (rests : ∀ t ∈ f.tokens, ∀ h ∈ handlers, t.isBlock h.kind = false) (env : Surroundings)
    (s : Session) (emit : Emit) (errors : List BlockError) :
    GraphPipeline.runHandlers env emit [] handlers ⟨String.ofList f.text, errors⟩ s =
      (.ok ⟨String.ofList f.text, errors⟩, s) := by
  induction handlers generalizing errors with
  | nil => rfl
  | cons h rest ih =>
    have none_ : pendingBlocks (scan (String.ofList f.text)) (String.ofList f.text) h.kind [] = [] := by
      have nothing : (f.placed 0).filter (fun x => x.token.isBlock h.kind) = [] := by
        rw [List.filter_eq_nil_iff]
        intro x mem
        rw [rests x.token (Forest.mem_placed mem).1 h List.mem_cons_self]
        exact Bool.false_ne_true
      rw [pendingBlocks_nil, Forest.blocksIn_text sound, nothing]
      rfl
    have idle : renderKind env h (String.ofList f.text) emit [] s =
        (.ok ⟨String.ofList f.text, []⟩, s) := by
      rw [renderKind, none_, if_pos List.isEmpty_nil, dropEdits_nil, withEdits_nil]
    rw [GraphPipeline.runHandlers, idle]
    dsimp only
    rw [List.append_nil]
    exact ih (fun t mem d known => rests t mem d (List.mem_cons_of_mem h known)) errors

theorem run_rests (sound : f.Sound) (rests : ∀ t ∈ f.tokens, t.Rests p) (env : Surroundings)
    (s : Session) :
    p.run env (String.ofList f.text) s = (.ok ⟨String.ofList f.text, []⟩, s) := by
  have of_token : ∀ e ∈ scan (String.ofList f.text), ∃ t ∈ f.tokens,
      ∀ type_, e.isScriptOf type_ = t.isScriptOf type_ := by
    rw [Forest.scan_text sound]
    intro e mem
    obtain ⟨x, placed, rfl⟩ := List.mem_map.1 mem
    obtain ⟨known, agrees⟩ := Forest.mem_placed placed
    exact ⟨x.token, known, agrees.isScriptOf⟩
  have unmarked : ∀ e ∈ scan (String.ofList f.text), e.isScriptOf cacheMarkerType = false := by
    intro e mem
    obtain ⟨t, known, same⟩ := of_token e mem
    rw [same, (rests t known).unmarked]
  have files : (scan (String.ofList f.text)).filter (isScriptOfAny p.inputFileTypes) = [] := by
    rw [List.filter_eq_nil_iff]
    intro e mem
    obtain ⟨t, known, same⟩ := of_token e mem
    rw [isScriptOfAny, funext same, (rests t known).files]
    exact Bool.false_ne_true
  have passes := runHandlers_rests sound (fun t mem => (rests t mem).blocks) env s
    .substitute []
  rw [run_unmarked unmarked, passes]
  dsimp only [Except.map]
  rw [GraphPipeline.stripInputFiles, files, List.map_nil, withEdits_nil]

/-- A run without errors leaves a document on which the pipeline has nothing to do: running it again
gives the same text, renders nothing and loads nothing. Results may bring elements that show other
targets, but no scripts and no raw-text elements that show one. -/
theorem rendered_is_fixed {doc text : String} (fine : WellFormed doc = true)
    (unmarked : ∀ e ∈ scan doc, e.isScriptOf cacheMarkerType = false)
    (tidy : ∀ e ∈ scan doc, e.tag ∈ rawTextTags → e.attr? "data-src" = none)
    (engines : s.EnginesAre env p GraphEngine.IsCalm)
    (ran : p.run env doc s = (.ok ⟨text, []⟩, s')) (env' : Surroundings) (again : Session) :
    p.run env' text again = (.ok ⟨text, []⟩, again) := by
  obtain ⟨f, sound, whole⟩ := WellFormed.forest fine
  have doc_ : doc = String.ofList f.text := by rw [whole, String.ofList_toList]
  rw [doc_] at unmarked tidy ran
  have calm : f.Calm := ⟨sound, Forest.tidy_of_scan sound tidy⟩
  have scripts := Forest.unmarked_of_scan sound unmarked
  rw [run_unmarked unmarked] at ran
  cases passes : GraphPipeline.runHandlers env .substitute [] p ⟨String.ofList f.text, []⟩ s with
  | mk result s₁ =>
    rw [passes] at ran
    obtain ⟨mapped, rfl⟩ := Prod.mk.inj ran
    cases result with
    | error error => cases mapped
    | ok out =>
      obtain ⟨passed, errors⟩ := out
      obtain ⟨text_, none_⟩ := PassOutput.mk.inj (Except.ok.inj mapped)
      subst none_
      obtain ⟨g, calm', rfl, left⟩ := calm_passes calm (fun h mem => mem) engines passes
      obtain ⟨-, calm'', stripped⟩ := calm_rendered (fun _ => none) calm'
        (onlyScripts_any p.inputFileTypes) nofun
      rw [← text_, stripInputFiles_text calm'.sound]
      refine run_rests calm''.sound (fun t mem => ?_) env' again
      by_cases script : t.IsScript
      · obtain ⟨known, -, kept⟩ := stripped t mem script
        obtain ⟨known', free⟩ := left t known script
        exact ⟨scripts t known', free, kept⟩
      · have other : ∀ type_, t.isScriptOf type_ = false := by
          intro type_
          rw [← Bool.not_eq_true]
          exact fun is => script (Token.isScript_of is)
        refine ⟨other _, fun h _ => ?_, ?_⟩
        · rw [Token.isBlock, other, Bool.false_and]
        · rw [List.any_eq_false]
          intro type_ _
          rw [other]
          exact Bool.false_ne_true

def stillEngine (name markup : String) : GraphEngine := ⟨name, fun _ => .ok (.markup markup)⟩

def stillHandlers : GraphPipeline :=
  [⟨.custom "a", "https://e.test/a", none, false, none⟩,
    ⟨.custom "b", "https://e.test/b", none, false, none⟩]

def stillEngines (first second : String) (h : GraphHandler) : GraphEngine :=
  if h.engineUrl = "https://e.test/a" then stillEngine "A" first else stillEngine "B" second

def stillSurroundings (first second : String) : Surroundings where
  modules := .ofTable [("https://e.test/a", .ok (.graph (stillEngine "A" first))),
    ("https://e.test/b", .ok (.graph (stillEngine "B" second)))] false
  fetch := .empty

def twoBlocks : String :=
  "<p data-src=a></p><script type=a data-output=a></script><script type=b data-output=b></script>"

theorem stillSurroundings_delivers (first second : String) :
    Delivers (stillSurroundings first second) "https://e.test/" stillHandlers
      (stillEngines first second) where
  modules := by
    intro h mem attempt
    simp only [stillHandlers, List.mem_cons, List.not_mem_nil, or_false] at mem
    rcases mem with rfl | rfl
    · rw [resolveUrl_test.1]
      rfl
    · rw [resolveUrl_test.2]
      rfl
  names := by
    intro h mem d _ name named
    simp only [stillHandlers, List.mem_cons, List.not_mem_nil, or_false] at mem
    rcases mem with rfl | rfl <;> cases named

theorem loadsAnswer_still (first second : String) :
    (Session.new "https://e.test/").LoadsAnswer (stillSurroundings first second) stillHandlers
      (stillEngines first second) :=
  loadsAnswer_new (stillSurroundings_delivers first second)

theorem enginesAre_still {Q : Element → Prop} (first second : String)
    (a : WellFormed first = true ∧ ∀ e ∈ scan first, Q e)
    (b : WellFormed second = true ∧ ∀ e ∈ scan second, Q e) :
    (Session.new "https://e.test/").EnginesAre (stillSurroundings first second) stillHandlers
      fun engine => ∀ request result, engine.render request = .ok result →
        IsFineResult Q result.toDataUri := by
  refine .of_loadsAnswer (loadsAnswer_still first second) ?_
  intro h _ request result rendered
  unfold stillEngines at rendered
  split at rendered
  · cases rendered
    exact (isFineResult_markup first).2 a
  · cases rendered
    exact (isFineResult_markup second).2 b

theorem twoBlocks_fine : WellFormed twoBlocks = true ∧
    (∀ e ∈ scan twoBlocks, e.isScriptOf cacheMarkerType = false) ∧
    ∀ e ∈ scan twoBlocks, e.tag ∈ rawTextTags → e.attr? "data-src" = none := by
  rw [show twoBlocks = String.ofList _ from rfl, wellFormed_ofList, scan_ofList]
  decide +kernel

def rawTarget : String := "<style data-src=b></style>"

def hiddenBlock : String := "<!--</style><script type=a data-output=q></script>-->"

def hiddenText : String := "<p data-src=a><style data-src=b>" ++ hiddenBlock ++ "</style></p>"

theorem run_still {first second doc text : String} {s : Session}
    (loads : s.LoadsAnswer (stillSurroundings first second) stillHandlers
      (stillEngines first second))
    (unmarked : ∀ e ∈ scan doc, e.isScriptOf cacheMarkerType = false)
    (passes : stageWith (stillSurroundings first second) (stillEngines first second) .substitute []
      stillHandlers ⟨doc, []⟩ = ⟨text, []⟩) :
    ∃ s', stillHandlers.run (stillSurroundings first second) doc s = (.ok ⟨text, []⟩, s') ∧
      s'.LoadsAnswer (stillSurroundings first second) stillHandlers (stillEngines first second) := by
  have none_ : isScriptOfAny (GraphPipeline.inputFileTypes stillHandlers) = fun _ => false := rfl
  have nothing : (scan text).filter (fun _ => false) = [] := by
    rw [List.filter_eq_nil_iff]
    exact fun _ _ => Bool.false_ne_true
  have left : stillHandlers.stripInputFiles text = text := by
    rw [GraphPipeline.stripInputFiles, none_, nothing, List.map_nil, withEdits_nil]
  obtain ⟨answer, loads'⟩ := run_ok loads unmarked
  rw [passes, left] at answer
  generalize stillHandlers.run (stillSurroundings first second) doc s = x at answer loads'
  obtain ⟨_, s'⟩ := x
  cases answer
  exact ⟨s', rfl, loads'⟩

def displayMarkup? (markup : String) (e : Element) : Option Edit :=
  if e.tag = "img" then some (.setAttr e "src" (Rendered.markup markup).toDataUri)
  else Edit.setInner? e markup

theorem displayAll_markup (elements : List Element) (target markup : String) :
    displayAll elements (ArtifactCache.empty.insertRendered target (.markup markup)) =
      elements.filterMap fun e =>
        if shownTarget? e = some target then displayMarkup? markup e else none := by
  refine List.filterMap_congr fun e _ => ?_
  cases shownTarget? e with
  | none => rfl
  | some shown =>
    rw [ArtifactCache.insertRendered, Option.bind_eq_bind, Option.bind_some,
      ArtifactCache.get?_insert]
    by_cases same : shown = target
    · simp [same, display?, displayMarkup?, markupOfUri_markup]
    · simp [same, ArtifactCache.get?, ArtifactCache.empty]

/-- A pass of an engine that draws one thing, as it is evaluated: over the characters of a text with
one block or none, whose content is not looked at. -/
def drawn? (kind : GraphKind) (satisfied : List String) (markup : String) (cs : List Char) :
    Option (List Char) :=
  let elements := elementsOf (Token.ofText cs)
  let drops := dropEdits elements (String.ofList cs) kind satisfied
  match pendingBlocks elements (String.ofList cs) kind satisfied with
  | [] => splice? cs 0 (drops.foldr Edit.place [])
  | [(marker, ⟨_, target, _, .inline _, _⟩)] =>
    let displays := elements.filterMap fun e =>
      if shownTarget? e = some target then displayMarkup? markup e else none
    splice? cs 0 ((displays ++ (drops ++ [Edit.remove marker])).foldr Edit.place [])
  | _ => none

theorem passWith_drawn {env : Surroundings} {h : GraphHandler} {name markup : String}
    {satisfied : List String} {cs out : List Char} (files : h.inputFiles = none)
    (drawn : drawn? h.kind satisfied markup cs = some out) :
    passWith env (stillEngine name markup) h (String.ofList cs) .substitute satisfied =
      ⟨String.ofList out, []⟩ := by
  let doc := String.ofList cs
  have spliced : ∀ edits, splice? cs 0 (edits.foldr Edit.place []) = some out →
      withEdits doc edits = String.ofList out := by
    intro edits left
    rw [withEdits, edited?, Edit.mergeSort_foldr, String.toList_ofList, left]
    rfl
  unfold drawn? at drawn
  rw [← scan_ofList] at drawn
  dsimp only at drawn
  split at drawn
  · next nothing =>
    rw [passWith, nothing, if_pos List.isEmpty_nil, spliced _ drawn]
  · next marker kind target hints text index pending =>
    have handled : handlingWith env (stillEngine name markup) h (scan doc) doc
        [(marker, ⟨kind, target, hints, .inline text, index⟩)] =
          ⟨[⟨marker, ⟨kind, target, hints, .inline text, index⟩, .rendered (.markup markup)⟩], []⟩ := by
      rw [handlingWith, inputFileMarkers, files]
      rfl
    rw [← displayAll_markup] at drawn
    rw [passWith, pending, if_neg (by simp), handled, ← spliced _ drawn]
    rfl
  · cases drawn

theorem stageWith_drawn {first second doc text : String} {satisfied : List String}
    {cs out : List Char} (chars : doc = String.ofList cs) (left : text = String.ofList out)
    (drawn : (drawn? (.custom "a") satisfied first cs).bind (drawn? (.custom "b") satisfied second) =
      some out) :
    stageWith (stillSurroundings first second) (stillEngines first second) .substitute satisfied
      stillHandlers ⟨doc, []⟩ = ⟨text, []⟩ := by
  subst chars left
  obtain ⟨between, before, after⟩ := Option.bind_eq_some_iff.1 drawn
  have a : stillEngines first second ⟨.custom "a", "https://e.test/a", none, false, none⟩ =
      stillEngine "A" first := if_pos rfl
  have b : stillEngines first second ⟨.custom "b", "https://e.test/b", none, false, none⟩ =
      stillEngine "B" second := if_neg (by decide)
  rw [stillHandlers, stageWith, a, passWith_drawn rfl before, stageWith, b]
  dsimp only
  rw [passWith_drawn rfl after]
  rfl

def shownText : String := "<p data-src=a><style data-src=b><!--</style>--></style></p>"

theorem passes_hidden :
    stageWith (stillSurroundings rawTarget hiddenBlock) (stillEngines rawTarget hiddenBlock)
      .substitute [] stillHandlers ⟨twoBlocks, []⟩ = ⟨hiddenText, []⟩ ∧
    stageWith (stillSurroundings rawTarget hiddenBlock) (stillEngines rawTarget hiddenBlock)
      .substitute [] stillHandlers ⟨hiddenText, []⟩ = ⟨shownText, []⟩ := by
  have chars : hiddenText = String.ofList _ ++ String.ofList _ ++ String.ofList _ := rfl
  rw [← String.ofList_append, ← String.ofList_append] at chars
  exact ⟨stageWith_drawn rfl chars (by decide +kernel), stageWith_drawn chars rfl (by decide +kernel)⟩

/-- A result that shows a target in raw text can make the next run find a block in another
result: that the results hold no scripts does not make a rendered document a fixed point. -/
theorem rendered_not_fixed :
    ¬ ∀ (env : Surroundings) (p : GraphPipeline) (s s' : Session) (doc text : String),
      WellFormed doc = true → (∀ e ∈ scan doc, e.isScriptOf cacheMarkerType = false) →
      (∀ e ∈ scan doc, e.tag ∈ rawTextTags → e.attr? "data-src" = none) →
      s.EnginesAre env p (fun engine => ∀ request result, engine.render request = .ok result →
        IsFineResult (fun e => e.tag ≠ "script") result.toDataUri) →
      p.run env doc s = (.ok ⟨text, []⟩, s') → (p.run env text s').1 = .ok ⟨text, []⟩ := by
  intro fixed
  obtain ⟨fine, unmarked, tidy⟩ := twoBlocks_fine
  have raw : WellFormed rawTarget = true ∧ ∀ e ∈ scan rawTarget, e.tag ≠ "script" := by
    rw [show rawTarget = String.ofList _ from rfl, wellFormed_ofList, scan_ofList]
    decide +kernel
  have comment : WellFormed hiddenBlock = true ∧ ∀ e ∈ scan hiddenBlock, e.tag ≠ "script" := by
    rw [show hiddenBlock = String.ofList _ from rfl, wellFormed_ofList, scan_ofList]
    decide +kernel
  have unmarked' : ∀ e ∈ scan hiddenText, e.isScriptOf cacheMarkerType = false := by
    rw [show hiddenText = String.ofList _ ++ String.ofList _ ++ String.ofList _ from rfl,
      ← String.ofList_append, ← String.ofList_append, scan_ofList]
    decide +kernel
  have loads := loadsAnswer_still rawTarget hiddenBlock
  have results := enginesAre_still rawTarget hiddenBlock raw comment
  obtain ⟨s₁, first, loads'⟩ := run_still loads unmarked passes_hidden.1
  obtain ⟨s₂, second, -⟩ := run_still loads' unmarked' passes_hidden.2
  have again := fixed _ _ _ _ _ _ fine unmarked tidy results first
  rw [second] at again
  exact absurd (PassOutput.mk.inj (Except.ok.inj again)).1 (by decide)

theorem calm_is_fixed : ∃ s : Session,
    stillHandlers.run (stillSurroundings "<p data-src=b></p>" "<b>2</b>") twoBlocks
      (Session.new "https://e.test/") =
        (.ok ⟨"<p data-src=a><p data-src=b><b>2</b></p></p>", []⟩, s) ∧
    ∀ env again, stillHandlers.run env "<p data-src=a><p data-src=b><b>2</b></p></p>" again =
      (.ok ⟨"<p data-src=a><p data-src=b><b>2</b></p></p>", []⟩, again) := by
  obtain ⟨fine, unmarked, tidy⟩ := twoBlocks_fine
  have passes : stageWith (stillSurroundings "<p data-src=b></p>" "<b>2</b>")
      (stillEngines "<p data-src=b></p>" "<b>2</b>") .substitute [] stillHandlers ⟨twoBlocks, []⟩ =
        ⟨"<p data-src=a><p data-src=b><b>2</b></p></p>", []⟩ :=
    stageWith_drawn rfl rfl (by decide +kernel)
  obtain ⟨s, ran, -⟩ := run_still (loadsAnswer_still _ _) unmarked passes
  exact ⟨s, ran, rendered_is_fixed fine unmarked tidy
    (enginesAre_still _ _ (by decide +kernel) (by decide +kernel)) ran⟩

end Playground
