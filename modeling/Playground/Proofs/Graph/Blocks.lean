import Playground.Proofs.Graph.IsolatedStage
import Playground.Proofs.Graph.Rendering

/-! What a pass finds in a well-formed document. -/

namespace Playground

open Html Session

namespace Html

def TagBody.dataAttrs (body : TagBody) : List (String × String) :=
  body.attrs.filterMap fun a =>
    (Text.dropLead? "data-".toList (Text.lower a.name)).map fun name =>
      (String.ofList name, a.meaning)

theorem Element.dataAttrs_ofOpenTag (pos : Nat) (name : List Char) (body : TagBody) :
    (Element.ofOpenTag pos name body).dataAttrs = body.dataAttrs := by
  obtain ⟨attrs, trail, selfClosing⟩ := body
  simp only [Element.dataAttrs, Element.ofOpenTag, TagBody.dataAttrs]
  generalize pos + 1 + Text.size name = start
  induction attrs generalizing start with
  | nil => rfl
  | cons a attrs ih =>
    have here : (a.place start).name.toList = Text.lower a.name := String.toList_ofList
    rw [RawAttribute.placeAll, List.filterMap_cons, List.filterMap_cons, here, ih]
    rfl

namespace Token

def dataAttrs : Token → List (String × String)
  | openTag _ body | raw _ body _ _ => body.dataAttrs
  | _ => []

def output (t : Token) : String := ((t.attr? "data-output").map trimBlanks).getD ""

def source (t : Token) : BlockSource :=
  let url := ((t.attr? "src").map trimBlanks).getD ""
  if url.isEmpty then .inline (String.ofList t.content) else .external url

/-- The block a script is, when it has the number among those of its kind. -/
def block (kind : GraphKind) (index : Nat) (t : Token) : EmbeddedBlock where
  kind := kind
  output := t.output
  hints := sortByKey (t.dataAttrs.filter fun (name, _) => name != "output" && name != "src")
  source := t.source
  index := index

def isBlock (kind : GraphKind) (t : Token) : Bool := t.isScriptOf kind.marker && !t.output.isEmpty

def inputFile (t : Token) : PendingInputFile :=
  let given := ((t.attr? "data-file").map trimBlanks).getD ""
  let derived := match t.source with
    | .external url => lastSegment url
    | .inline _ => ""
  let name :=
    if !given.isEmpty then given
    else if !derived.isEmpty then derived
    else defaultInputFileName
  ⟨name, t.source⟩

theorem isScript_of_isBlock {t : Token} {kind : GraphKind} (is : t.isBlock kind = true) :
    t.IsScript := by
  rw [isBlock, Bool.and_eq_true] at is
  exact isScript_of is.1

theorem script?_dataAttrs {t : Token} {pos : Nat} {e : Element} (found : t.script? pos = some e) :
    e.dataAttrs = t.dataAttrs := by
  cases t with
  | openTag name body =>
    simp only [script?, Option.ite_none_right_eq_some, Option.some.injEq] at found
    rw [← found.2]
    exact Element.dataAttrs_ofOpenTag pos name body
  | raw name body content closing =>
    simp only [script?, Option.ite_none_right_eq_some, Option.some.injEq] at found
    rw [← found.2]
    exact Element.dataAttrs_ofOpenTag pos name body
  | char | aside | closeTag | unfinished => cases found

theorem script?_of_element? {t : Token} {pos : Nat} {e : Element} (found : t.element? pos = some e)
    (script : t.IsScript) : t.script? pos = some e := by
  cases t with
  | openTag name body | raw name body content closing =>
    have tag : tagOf name = "script" := Option.some.inj script
    rw [script?, if_pos tag]
    exact found
  | char | aside | closeTag | unfinished => cases found

end Token

structure Placed.IsScriptIn (doc : String) (x : Placed) : Prop extends x.Agrees where
  dataAttrs : x.element.dataAttrs = x.token.dataAttrs
  inner : x.element.inner doc = String.ofList x.token.content

theorem Placed.Agrees.tidy {x : Placed} (agrees : x.Agrees)
    (calm : x.element.tag ∈ rawTextTags → x.element.attr? "data-src" = none) : x.token.IsTidy := by
  intro tag named raw
  rw [agrees.tag, Option.some.injEq] at named
  rw [← agrees.attr?]
  exact calm (named ▸ raw)

namespace Forest

theorem tidy_of_scan {f : Forest} (sound : f.Sound)
    (tidy : ∀ e ∈ scan (String.ofList f.text), e.tag ∈ rawTextTags → e.attr? "data-src" = none) :
    ∀ t ∈ f.tokens, t.IsTidy := by
  intro t mem tag named raw
  obtain ⟨x, placed, rfl⟩ := placed_of_token 0 mem (by rw [named]; exact nofun)
  refine (mem_placed placed).2.tidy (tidy x.element ?_) tag named raw
  rw [scan_text sound]
  exact List.mem_map_of_mem placed

theorem unmarked_of_scan {f : Forest} {type_ : String} (sound : f.Sound)
    (unmarked : ∀ e ∈ scan (String.ofList f.text), e.isScriptOf type_ = false) :
    ∀ t ∈ f.tokens, t.isScriptOf type_ = false := by
  intro t mem
  rw [Bool.eq_false_iff]
  intro is
  obtain ⟨x, placed, rfl⟩ := placed_of_token 0 mem (by rw [Token.isScript_of is]; exact nofun)
  rw [← (mem_placed placed).2.isScriptOf, unmarked x.element] at is
  · cases is
  · rw [scan_text sound]
    exact List.mem_map_of_mem placed

theorem script_at {f : Forest} (sound : f.Sound) {pos : Nat} {x : Placed} (mem : x ∈ f.placed pos)
    (script : x.token.IsScript) : ∃ before after, f.text = before ++ (x.token.lexeme ++ after) ∧
      x.token.script? (pos + Text.size before) = some x.element := by
  induction f generalizing pos with
  | nil => cases mem
  | leaf mark token rest ih =>
    rcases List.mem_append.1 mem with mem | mem
    · obtain ⟨e, found, rfl⟩ := Option.map_eq_some_iff.1 (Option.mem_toList.1 mem)
      exact ⟨[], rest.text, rfl, Token.script?_of_element? found script⟩
    · obtain ⟨before, after, text, found⟩ := ih sound.2.2 mem
      refine ⟨token.lexeme ++ before, after, by rw [text_leaf, text, List.append_assoc], ?_⟩
      rwa [Text.size_append, ← Nat.add_assoc]
  | element name body inside closing tail rest inner_ih rest_ih =>
    obtain ⟨opens, more, -, -, inner, later⟩ := sound
    rcases List.mem_cons.1 mem with rfl | mem
    · exact absurd (Option.some.inj script) (Token.tags_of_element opens more).1
    rw [text_element]
    rcases List.mem_append.1 mem with mem | mem
    · obtain ⟨before, after, text, found⟩ := inner_ih inner mem
      refine ⟨(Token.openTag name body).lexeme ++ before,
        after ++ ((Token.closeTag closing tail).lexeme ++ rest.text), by simp [text], ?_⟩
      rwa [Text.size_append, ← Nat.add_assoc]
    · obtain ⟨before, after, text, found⟩ := rest_ih later mem
      refine ⟨(Token.openTag name body).lexeme ++ (inside.text ++
        ((Token.closeTag closing tail).lexeme ++ before)), after, by simp [text], ?_⟩
      simpa only [Text.size_append, Nat.add_assoc] using found

theorem script_of_placed {f : Forest} (sound : f.Sound) {x : Placed} (mem : x ∈ f.placed 0)
    (script : x.token.IsScript) : x.IsScriptIn (String.ofList f.text) := by
  obtain ⟨before, after, text, found⟩ := script_at sound mem script
  rw [Nat.zero_add] at found
  refine ⟨(mem_placed mem).2, Token.script?_dataAttrs found, ?_⟩
  rw [text]
  exact Token.script?_inner after found

end Forest

namespace Placed.IsScriptIn

variable {doc : String} {x : Placed}

theorem source (script : x.IsScriptIn doc) :
    BlockSource.ofElement x.element doc = x.token.source := by
  simp only [BlockSource.ofElement, Token.source, script.attr?, script.inner]

theorem inputFile (script : x.IsScriptIn doc) :
    PendingInputFile.ofMarker x.element doc = x.token.inputFile := by
  rw [Token.inputFile, ← script.source, ← script.attr?]
  rfl

theorem block (script : x.IsScriptIn doc) (kind : GraphKind) (index : Nat) :
    EmbeddedBlock.ofMarker? kind x.element doc index =
      if x.token.output.isEmpty then none else some (x.token.block kind index) := by
  simp only [EmbeddedBlock.ofMarker?, script.attr?, script.dataAttrs, script.source]
  rfl

end Placed.IsScriptIn

def numbered (kind : GraphKind) : Nat → List Placed → List (Element × EmbeddedBlock)
  | _, [] => []
  | index, x :: xs => (x.element, x.token.block kind index) :: numbered kind (index + 1) xs

theorem numbered_elements (kind : GraphKind) (index : Nat) (xs : List Placed) :
    (numbered kind index xs).map Prod.fst = xs.map Placed.element := by
  induction xs generalizing index with
  | nil => rfl
  | cons x xs ih => rw [numbered, List.map_cons, List.map_cons, ih]

theorem mem_numbered {kind : GraphKind} {index : Nat} {xs : List Placed}
    {b : Element × EmbeddedBlock} (mem : b ∈ numbered kind index xs) :
    ∃ x ∈ xs, b.1 = x.element ∧ ∃ i, b.2 = x.token.block kind i := by
  induction xs generalizing index with
  | nil => cases mem
  | cons x xs ih =>
    rcases List.mem_cons.1 mem with rfl | mem
    · exact ⟨x, List.mem_cons_self, rfl, index, rfl⟩
    · obtain ⟨y, known, same⟩ := ih mem
      exact ⟨y, List.mem_cons_of_mem x known, same⟩

theorem ofMarkers_numbered {doc : String} {kind : GraphKind} {xs : List Placed}
    (scripts : ∀ x ∈ xs, x.IsScriptIn doc) (index : Nat) :
    EmbeddedBlock.ofMarkers kind doc index (xs.map Placed.element) =
      numbered kind index (xs.filter fun x => !x.token.output.isEmpty) := by
  induction xs generalizing index with
  | nil => rfl
  | cons x xs ih =>
    rw [List.forall_mem_cons] at scripts
    rw [List.map_cons, EmbeddedBlock.ofMarkers, scripts.1.block, List.filter_cons]
    cases x.token.output.isEmpty with
    | true => exact ih scripts.2 index
    | false =>
      simp only [Bool.false_eq_true, if_false, Bool.not_false, if_true, numbered]
      rw [ih scripts.2]

namespace Forest

theorem filter_scripts {f : Forest} (sound : f.Sound) (is : Element → Bool)
    (is' : Token → Bool) (agree : ∀ x : Placed, x.Agrees → is x.element = is' x.token) :
    (scan (String.ofList f.text)).filter is =
      ((f.placed 0).filter fun x => is' x.token).map Placed.element := by
  rw [scan_text sound, elements, List.filter_map]
  congr 1
  apply List.filter_congr
  intro x mem
  exact agree x (mem_placed mem).2

theorem blocksIn_text {f : Forest} (sound : f.Sound) (kind : GraphKind) :
    blocksIn (scan (String.ofList f.text)) (String.ofList f.text) kind =
      numbered kind 1 ((f.placed 0).filter fun x => x.token.isBlock kind) := by
  rw [blocksIn, filter_scripts sound _ (·.isScriptOf kind.marker)
    fun x agrees => agrees.isScriptOf kind.marker, ofMarkers_numbered, List.filter_filter]
  · simp only [Token.isBlock, Bool.and_comm]
  · intro x mem
    obtain ⟨known, is⟩ := List.mem_filter.1 mem
    exact script_of_placed sound known (Token.isScript_of is)

theorem inputFiles_text {f : Forest} (sound : f.Sound) (type_ : String) :
    ((scan (String.ofList f.text)).filter (·.isScriptOf type_)).map (fun e =>
        PendingInputFile.ofMarker e (String.ofList f.text)) =
      ((f.placed 0).filter fun x => x.token.isScriptOf type_).map fun x => x.token.inputFile := by
  rw [filter_scripts sound _ (·.isScriptOf type_) fun x agrees => agrees.isScriptOf type_,
    List.map_map]
  apply List.map_congr_left
  intro x mem
  obtain ⟨known, is⟩ := List.mem_filter.1 mem
  exact (script_of_placed sound known (Token.isScript_of is)).inputFile

end Forest

end Html

/-- What becomes of a block when the engine and the input files are at hand. -/
def outcomeOf (env : Surroundings) (engine : GraphEngine) (files : List InputFile)
    (block : EmbeddedBlock) : BlockOutcome :=
  match sourceText env block.asker block.source with
  | .error e => .unavailable e
  | .ok content =>
    match engine.render (requestOf files block content) with
    | .ok result => .rendered result
    | .error e => .refused e

theorem result?_outcomeOf {env : Surroundings} {engine : GraphEngine} {files : List InputFile}
    {marker : Element} {block : EmbeddedBlock} {result : Rendered} :
    HandledBlock.result? ⟨marker, block, outcomeOf env engine files block⟩ = some result ↔
      ∃ content, sourceText env block.asker block.source = .ok content ∧
        engine.render (requestOf files block content) = .ok result := by
  unfold HandledBlock.result? outcomeOf
  cases sourceText env block.asker block.source with
  | error e => simp
  | ok content =>
    dsimp only
    cases rendered : engine.render (requestOf files block content) <;> simp [rendered]

def inputsWith (env : Surroundings) (kind : GraphKind) (files : List PendingInputFile) :
    List InputFile × List BlockError :=
  sortFiles kind
    (files.zip (files.zipIdx.map fun (f, place) => sourceText env (.file kind.marker place) f.source))

theorem handleBlocks_outcomes (env : Surroundings) (engine : GraphEngine) (files : List InputFile)
    (pending : List (Element × EmbeddedBlock)) :
    (handleBlocks engine files
        (pending.zip (pending.map fun b => sourceText env b.2.asker b.2.source))).1 =
      pending.map fun b => ⟨b.1, b.2, outcomeOf env engine files b.2⟩ := by
  induction pending with
  | nil => rfl
  | cons b pending ih =>
    obtain ⟨marker, block⟩ := b
    rw [List.map_cons, List.zip_cons_cons, List.map_cons, ← ih, outcomeOf]
    cases sourceText env block.asker block.source with
    | error e => rfl
    | ok content =>
      cases rendered : engine.render (requestOf files block content) <;>
        simp only [handleBlocks, rendered]

theorem handlingWith_blocks (env : Surroundings) (engine : GraphEngine) (h : GraphHandler)
    (elements : List Element) (doc : String) (pending : List (Element × EmbeddedBlock)) :
    let inputs := inputsWith env h.kind
      ((inputFileMarkers h elements).map fun e => PendingInputFile.ofMarker e doc)
    handlingWith env engine h elements doc pending =
      ⟨pending.map fun b => ⟨b.1, b.2, outcomeOf env engine inputs.1 b.2⟩, inputs.2⟩ := by
  intro inputs
  rw [handlingWith, handleBlocks_outcomes]
  rfl

theorem pendingBlocks_nil (elements : List Element) (doc : String) (kind : GraphKind) :
    pendingBlocks elements doc kind [] = blocksIn elements doc kind := by
  simp [pendingBlocks]

section Fresh

variable {elements : List Element} {doc : String} {kind : GraphKind} {satisfied : List String}
variable (fresh : ∀ b ∈ blocksIn elements doc kind, b.2.output ∉ satisfied)

include fresh

theorem pendingBlocks_fresh :
    pendingBlocks elements doc kind satisfied = blocksIn elements doc kind := by
  rw [pendingBlocks, List.filter_eq_self]
  intro b mem
  simpa using fresh b mem

theorem dropEdits_fresh : dropEdits elements doc kind satisfied = [] := by
  rw [dropEdits, List.map_eq_nil_iff, List.filter_eq_nil_iff]
  intro b mem
  simpa using fresh b mem

end Fresh

theorem get?_resultsOf {handled : List HandledBlock} {target uri : String}
    (found : (resultsOf handled).get? target = some uri) :
    ∃ b ∈ handled, b.block.output = target ∧ ∃ r, b.result? = some r ∧ uri = r.toDataUri := by
  have kept : ∀ (handled : List HandledBlock) (cache : ArtifactCache),
      (handled.foldl addResult cache).get? target = some uri → cache.get? target = some uri ∨
        ∃ b ∈ handled, b.block.output = target ∧ ∃ r, b.result? = some r ∧ uri = r.toDataUri := by
    intro handled
    induction handled with
    | nil => exact fun _ found => .inl found
    | cons b handled ih =>
      intro cache found
      rcases ih _ found with here | ⟨d, mem, rest_⟩
      · rw [addResult] at here
        cases result : b.result? with
        | none =>
          rw [result] at here
          exact .inl here
        | some r =>
          rw [result] at here
          dsimp only at here
          rw [ArtifactCache.insertRendered, ArtifactCache.get?_insert] at here
          split at here
          · next same =>
            cases here
            exact .inr ⟨b, List.mem_cons_self, same.symm, r, result, rfl⟩
          · exact .inl here
      · exact .inr ⟨d, List.mem_cons_of_mem b mem, rest_⟩
  rcases kept handled .empty found with nothing | some_
  · cases nothing
  · exact some_

variable {p : GraphPipeline} {f : Forest}

theorem restore_unmarked {doc : String} {types : List String}
    (unmarked : ∀ e ∈ scan doc, e.isScriptOf cacheMarkerType = false) :
    restore doc types = ⟨doc, [], []⟩ := by
  have none_ : (scan doc).filter (·.isScriptOf cacheMarkerType) = [] := by
    rw [List.filter_eq_nil_iff]
    intro e mem
    rw [unmarked e mem]
    exact Bool.false_ne_true
  rw [restore, none_]
  rfl

theorem Html.Forest.unmarked_text (sound : f.Sound)
    (unmarked : ∀ t ∈ f.tokens, t.isScriptOf cacheMarkerType = false) :
    ∀ e ∈ scan (String.ofList f.text), e.isScriptOf cacheMarkerType = false := by
  rw [scan_text sound]
  intro e mem
  obtain ⟨x, placed, rfl⟩ := List.mem_map.1 mem
  obtain ⟨known, agrees⟩ := mem_placed placed
  rw [agrees.isScriptOf, unmarked x.token known]

theorem run_unmarked {doc : String} (unmarked : ∀ e ∈ scan doc, e.isScriptOf cacheMarkerType = false)
    (env : Surroundings) (s : Session) :
    p.run env doc s =
      ((GraphPipeline.runHandlers env .substitute [] p ⟨doc, []⟩ s).1.map fun out =>
          { out with text := p.stripInputFiles out.text },
        (GraphPipeline.runHandlers env .substitute [] p ⟨doc, []⟩ s).2) := by
  have everyone : p.filter (fun _ => true) = p := List.filter_eq_self.2 fun _ _ => rfl
  rw [GraphPipeline.run, GraphPipeline.restoreAndRender, GraphPipeline.restoreText,
    restore_unmarked unmarked, everyone]

theorem run_ok {env : Surroundings} {engineFor : GraphHandler → GraphEngine} {s : Session}
    {doc : String} (loads : s.LoadsAnswer env p engineFor)
    (unmarked : ∀ e ∈ scan doc, e.isScriptOf cacheMarkerType = false) :
    let out := stageWith env engineFor .substitute [] p ⟨doc, []⟩
    (p.run env doc s).1 = .ok ⟨p.stripInputFiles out.text, out.errors⟩ ∧
      (p.run env doc s).2.LoadsAnswer env p engineFor := by
  intro out
  obtain ⟨passes, loads'⟩ := runHandlers_ok loads (fun h mem => mem) .substitute [] ⟨doc, []⟩
  rw [run_unmarked unmarked, passes]
  exact ⟨rfl, loads'⟩

theorem onlyScripts_any (types : List String) : OnlyScripts fun _ t => types.any t.isScriptOf := by
  intro _ t is
  obtain ⟨type_, -, script⟩ := List.any_eq_true.1 is
  exact Token.isScript_of script

theorem stripInputFiles_text (sound : f.Sound) :
    p.stripInputFiles (String.ofList f.text) =
      String.ofList (f.rendered (fun _ => none) fun _ t => p.inputFileTypes.any t.isScriptOf).text := by
  rw [GraphPipeline.stripInputFiles, Forest.filter_scripts sound _
    (fun t => p.inputFileTypes.any t.isScriptOf), List.map_map]
  · exact withEdits_removals (onlyScripts_any p.inputFileTypes) sound (.refl _)
  · exact fun x agrees => congrArg p.inputFileTypes.any (funext agrees.isScriptOf)

theorem stripInputFiles_none {doc : String}
    (none_ : ∀ e ∈ scan doc, isScriptOfAny p.inputFileTypes e = false) :
    p.stripInputFiles doc = doc := by
  have files : (scan doc).filter (isScriptOfAny p.inputFileTypes) = [] := by
    rw [List.filter_eq_nil_iff]
    intro e mem
    rw [none_ e mem]
    exact Bool.false_ne_true
  rw [GraphPipeline.stripInputFiles, files, List.map_nil, withEdits_nil]

end Playground
