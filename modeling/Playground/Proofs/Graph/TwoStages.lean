import Playground.Proofs.Graph.Display
import Playground.Proofs.Graph.Stages
import Playground.Proofs.Html.Places

/-! Rendering a document at once and in two stages. -/

namespace Playground

open Html Session

namespace GraphPipeline

/-- A pipeline that can be run in two stages: isolated handlers come first, only they take input
files, and markers of different types are not taken for each other. -/
structure IsStaged (p : GraphPipeline) : Prop where
  order : p.Pairwise fun h d => d.isolated = true → h.isolated = true
  files : ∀ h ∈ p, h.inputFiles ≠ none → h.isolated = true
  types : ((p.map fun h => h.kind.marker) ++ p.inputFileTypes).Pairwise fun a b =>
    sameIgnoringCase a b = false

end GraphPipeline

def resultsIn (env : Surroundings) (engine : GraphEngine) (h : GraphHandler) (doc : String) :
    ArtifactCache :=
  resultsOf (handlingWith env engine h (scan doc) doc (blocksIn (scan doc) doc h.kind)).blocks

/-- A result that is displayed on an element as a clean URI, or as well-formed markup that holds no
scripts and shows no targets. -/
def Html.Element.CanShow (e : Element) (uri : String) : Prop :=
  (e.tag = "img" → IsCleanUri uri) ∧
    (e.tag ≠ "img" → e.content? ≠ none →
      IsFineResult (fun d => d.tag ≠ "script" ∧ d.attr? "data-src" = none) uri)

/-- A document whose blocks are independent of one another: well formed, without cache markers, the
elements that show targets hold no scripts, and handlers have targets of their own. -/
structure GraphPipeline.Suits (p : GraphPipeline) (doc : String) : Prop where
  wellFormed : WellFormed doc = true
  unmarked : ∀ e ∈ scan doc, e.isScriptOf cacheMarkerType = false
  places : ∀ e ∈ scan doc, e.attr? "data-src" ≠ none →
    e.tag ∉ rawTextTags ∧ ∀ d ∈ scan doc, e.Holds d → d.tag ≠ "script"
  targets : ∀ h ∈ p, ∀ d ∈ p, h ≠ d → ∀ b ∈ discover doc h.kind, ∀ c ∈ discover doc d.kind,
    b.output ≠ c.output

theorem Html.Token.same_of_isScriptOf {t : Token} {a b : String} (first : t.isScriptOf a = true)
    (second : t.isScriptOf b = true) : sameIgnoringCase a b = true := by
  have types : ∀ {name : List Char} {body : TagBody}, body.isScriptOf name a = true →
      body.isScriptOf name b = true → sameIgnoringCase a b = true := by
    intro name body first second
    unfold TagBody.isScriptOf at first second
    cases typed : body.attr? "type" with
    | none => simp [typed] at first
    | some value =>
      simp only [typed, Bool.and_eq_true, sameIgnoringCase, beq_iff_eq] at first second ⊢
      rw [← first.2, second.2]
  cases t with
  | openTag name body => exact types first second
  | raw name body content closing => exact types first second
  | char | aside | closeTag | unfinished => cases first

namespace GraphPipeline.IsStaged

variable {p : GraphPipeline}

theorem kinds (staged : p.IsStaged) {h d : GraphHandler} (mem : h ∈ p) (mem' : d ∈ p)
    (other : h ≠ d) : sameIgnoringCase h.kind.marker d.kind.marker = false := by
  have symm : Std.Symm fun h d : GraphHandler =>
      sameIgnoringCase h.kind.marker d.kind.marker = false :=
    ⟨fun h d apart => by rw [← apart, sameIgnoringCase, sameIgnoringCase, BEq.comm]⟩
  exact (List.pairwise_map.1 (List.pairwise_append.1 staged.types).1).forall mem mem' other

theorem nodup (staged : p.IsStaged) : p.Nodup := by
  refine (List.pairwise_map.1 (List.pairwise_append.1 staged.types).1).imp ?_
  rintro h _ apart rfl
  rw [sameIgnoringCase_self] at apart
  cases apart

theorem parts (staged : p.IsStaged) :
    p = p.filter (·.isolated) ++ p.filter fun h => !h.isolated := by
  have order := staged.order
  clear staged
  induction p with
  | nil => rfl
  | cons h p ih =>
    rw [List.pairwise_cons] at order
    rw [List.filter_cons, List.filter_cons]
    cases isolated : h.isolated with
    | true =>
      rw [if_pos rfl, if_neg (by decide), List.cons_append, ← ih order.2]
    | false =>
      have none_ : p.filter (·.isolated) = [] := by
        rw [List.filter_eq_nil_iff]
        intro d mem later
        rw [order.1 d mem later] at isolated
        cases isolated
      have all : (p.filter fun h => !h.isolated) = p := by
        rw [none_, List.nil_append] at ih
        exact (ih order.2).symm
      rw [if_neg Bool.false_ne_true, none_, all]
      rfl

theorem apart (staged : p.IsStaged) {h : GraphHandler} (mem : h ∈ p) {t : Token}
    (is : t.isBlock h.kind = true) :
    p.inputFileTypes.any t.isScriptOf = false ∧
      ∀ d ∈ p, h ≠ d → t.concerns d = false := by
  rw [Token.isBlock, Bool.and_eq_true] at is
  have types := List.pairwise_append.1 staged.types
  have files : ∀ type_ ∈ p.inputFileTypes, t.isScriptOf type_ = false := by
    intro type_ given
    rw [Bool.eq_false_iff]
    intro file
    have same := Token.same_of_isScriptOf is.1 file
    rw [types.2.2 _ (List.mem_map_of_mem mem) type_ given] at same
    cases same
  constructor
  · rw [List.any_eq_false]
    exact fun type_ given => Bool.eq_false_iff.1 (files type_ given)
  · intro d mem' other
    have kinds : t.isBlock d.kind = false := by
      rw [Bool.eq_false_iff]
      intro block
      rw [Token.isBlock, Bool.and_eq_true] at block
      have same := Token.same_of_isScriptOf is.1 block.1
      rw [staged.kinds mem mem' other] at same
      cases same
    rw [Token.concerns, kinds, Bool.false_or, Token.isInputOf]
    cases given : d.inputFiles with
    | none => rfl
    | some type_ =>
      exact files type_ (List.mem_filterMap.2 ⟨d, mem', given⟩)

end GraphPipeline.IsStaged

section Documents

variable {env : Surroundings} {engineFor : GraphHandler → GraphEngine} {p : GraphPipeline}
variable {f : Forest} {doc : String}

theorem Html.Forest.resultsIn_text {engine : GraphEngine} {h : GraphHandler} (sound : f.Sound)
    (numbers : f.IsNumbered h.kind) :
    resultsIn env engine h (String.ofList f.text) = madeIn env engine h f.scripts := by
  rw [resultsIn, handlingWith_text sound numbers]
  exact resultsOf_text sound

theorem Html.Forest.outputs_text (sound : f.Sound) (kind : GraphKind) :
    (discover (String.ofList f.text) kind).map (·.output) =
      (f.scripts.filter fun s => s.2.isBlock kind).map fun s => s.2.output := by
  rw [← scripts_placed sound (·.isBlock kind) (fun t is => Token.isScript_of_isBlock is) 0,
    discover, blocksIn_text sound]
  generalize (f.placed 0).filter _ = xs
  generalize 1 = index
  induction xs generalizing index with
  | nil => rfl
  | cons x xs ih =>
    have rest_ := ih (index + 1)
    rw [List.map_map, List.map_map] at rest_ ⊢
    rw [numbered, List.map_cons, List.map_cons, rest_]
    rfl

theorem Html.Forest.content_of_placed (sound : f.Sound) {pos : Nat} {x : Placed}
    (mem : x ∈ f.placed pos) {name : List Char} {body : TagBody}
    (opens : x.token = .openTag name body) (more : body.isAlone name = false) :
    x.element.content? ≠ none := by
  induction f generalizing pos with
  | nil => cases mem
  | leaf mark token rest ih =>
    rcases List.mem_append.1 mem with mem | mem
    · obtain ⟨e, -, rfl⟩ := Option.map_eq_some_iff.1 (Option.mem_toList.1 mem)
      have alone := sound.2.1
      dsimp only at opens
      rw [opens, Token.isAlone, more] at alone
      cases alone
    · exact ih sound.2.2 mem
  | element name body inside closing tail rest inner_ih rest_ih =>
    obtain ⟨-, -, -, -, inner, later⟩ := sound
    rcases List.mem_cons.1 mem with rfl | mem
    · exact Option.some_ne_none _
    · rcases List.mem_append.1 mem with mem | mem
      · exact inner_ih inner mem
      · exact rest_ih later mem

theorem Html.Forest.keeps_of_placed (sound : f.Sound) (pos : Nat)
    (places : ∀ x ∈ f.placed pos, x.element.attr? "data-src" ≠ none →
      ∀ y ∈ f.placed pos, x.element.Holds y.element → ¬ y.token.IsScript) : f.KeepsScripts := by
  induction f generalizing pos with
  | nil => exact trivial
  | leaf mark token rest ih =>
    refine ih sound.2.2 (pos + Text.size token.lexeme) fun x mem shows y mem' => ?_
    exact places x (List.mem_append_right _ mem) shows y (List.mem_append_right _ mem')
  | element name body inside closing tail rest inner_ih rest_ih =>
    obtain ⟨-, -, -, -, inner, later⟩ := sound
    let openEnd := pos + Text.size (Token.openTag name body).lexeme
    let stop := openEnd + Text.size inside.text + Text.size (Token.closeTag closing tail).lexeme
    rw [placed] at places
    refine ⟨fun shows => ?_, inner_ih inner openEnd ?_, rest_ih later stop ?_⟩
    · rw [List.eq_nil_iff_forall_not_mem]
      intro s mem
      obtain ⟨script, known⟩ := script_of_mem mem
      obtain ⟨y, placed_, same⟩ := placed_of_token openEnd known (by rw [script]; exact Option.some_ne_none _)
      obtain ⟨after, -, before⟩ := placed_bounds inner placed_
      refine places _ List.mem_cons_self ?_ y
        (List.mem_cons_of_mem _ (List.mem_append_left _ placed_)) ⟨_, rfl, ?_, before⟩ ?_
      · exact fun none_ => shows ((Element.attr?_ofOpenTag pos name body "data-src").symm.trans none_)
      · rw [Element.closedAt, Element.openEnd_ofOpenTag]
        exact after
      · rw [same]
        exact script
    · intro x mem shows y mem'
      exact places x (List.mem_cons_of_mem _ (List.mem_append_left _ mem)) shows y
        (List.mem_cons_of_mem _ (List.mem_append_left _ mem'))
    · intro x mem shows y mem'
      exact places x (List.mem_cons_of_mem _ (List.mem_append_right _ mem)) shows y
        (List.mem_cons_of_mem _ (List.mem_append_right _ mem'))

theorem Html.Forest.exists_block (sound : f.Sound) {kind : GraphKind} {s : Nat × Token}
    (mem : s ∈ f.scripts) (is : s.2.isBlock kind = true) :
    ∃ b ∈ discover (String.ofList f.text) kind, b.output = s.2.output := by
  have block : s ∈ f.scripts.filter fun s => s.2.isBlock kind := List.mem_filter.2 ⟨mem, is⟩
  have known := List.mem_map_of_mem (f := fun s : Nat × Token => s.2.output) block
  rw [← outputs_text sound] at known
  exact List.mem_map.1 known

theorem Html.Forest.takes_of_canShow {results : Results} (sound : f.Sound)
    (shown : ∀ e ∈ scan (String.ofList f.text), ∀ target uri, shownTarget? e = some target →
      results target = some uri → e.CanShow uri) :
    ∀ t ∈ f.tokens, t.Takes Token.IsPlain results := by
  intro t known
  cases t with
  | openTag name body =>
    intro uri found
    obtain ⟨target, shows, made⟩ := Option.bind_eq_some_iff.1 found
    obtain ⟨x, placed, same⟩ := placed_of_token 0 known (Option.some_ne_none _)
    have agrees := (mem_placed placed).2
    have scanned : x.element ∈ scan (String.ofList f.text) := by
      rw [scan_text sound]
      exact List.mem_map_of_mem placed
    have target_ : shownTarget? x.element = some target := by
      rw [agrees.shownTarget?, same]
      exact shows
    have tag := agrees.tag
    rw [same, Token.tag?, Option.some.injEq] at tag
    obtain ⟨image, other⟩ := shown x.element scanned target uri target_ made
    rw [tag]
    refine ⟨image, fun more => ?_⟩
    have not_image := (Token.tags_of_element (sound.tokens _ known) more).2.1
    rw [tag] at not_image
    refine (other not_image (content_of_placed sound placed same more)).markup
      (fun _ plain => plain) fun t e agrees' plain => ?_
    refine ⟨fun script => plain.1 ?_, ?_⟩
    · have tag' := agrees'.tag
      rw [script] at tag'
      exact (Option.some.inj tag').symm
    · rw [← agrees'.attr?]
      exact plain.2
  | char | aside | closeTag | raw | unfinished => exact trivial

theorem GraphPipeline.Suits.splits (env : Surroundings)
    (engineFor : GraphHandler → GraphEngine) (staged : p.IsStaged) (suits : p.Suits doc)
    (results : ∀ h ∈ p, ∀ e ∈ scan doc, ∀ target uri, shownTarget? e = some target →
      (resultsIn env (engineFor h) h doc).get? target = some uri → e.CanShow uri) :
    ∃ f : Forest, String.ofList f.text = doc ∧ Splits env engineFor p f := by
  obtain ⟨bare, sound_, whole⟩ := WellFormed.forest suits.wellFormed
  have single : ∀ h ∈ p, ∀ t : Token, t.isBlock h.kind = true → ∀ k ∈ p.map (·.kind),
      t.isBlock k = true → k = h.kind := by
    intro h mem t is k known is'
    obtain ⟨d, mem', rfl⟩ := List.mem_map.1 known
    by_cases same : h = d
    · rw [same]
    · have other := (staged.apart mem is).2 d mem' same
      rw [concerns_of_isBlock is'] at other
      cases other
  let f := bare.marked (p.map (·.kind)) []
  have sound : f.Sound := Forest.marked_sound sound_
  have text : String.ofList f.text = doc := by
    rw [Forest.text, Forest.tokens_marked, ← Forest.text, whole, String.ofList_toList]
  have numbers : ∀ h ∈ p, f.IsNumbered h.kind := fun h mem =>
    Forest.marked_isNumbered (List.mem_map_of_mem mem) (single h mem)
  clear_value f
  subst text
  have scanned : ∀ x ∈ f.placed 0, x.element ∈ scan (String.ofList f.text) := by
    rw [Forest.scan_text sound]
    exact fun x mem => List.mem_map_of_mem mem
  refine ⟨f, rfl, sound, ?_, ?_, ?_, numbers, ?_, ?_, ?_⟩
  · refine Forest.tidy_of_scan sound fun e mem raw => ?_
    exact Classical.byContradiction fun shows => (suits.places e mem shows).1 raw
  · refine Forest.keeps_of_placed sound 0 fun x mem shows y mem' holds script => ?_
    refine (suits.places _ (scanned x mem) shows).2 _ (scanned y mem') holds ?_
    have tag := (Forest.mem_placed mem').2.tag
    rw [script] at tag
    exact (Option.some.inj tag).symm
  · exact Forest.unmarked_of_scan sound suits.unmarked
  · refine fun h mem => Forest.takes_of_canShow sound fun e mem' target uri shows made => ?_
    rw [← Forest.resultsIn_text sound (numbers h mem)] at made
    exact results h mem e mem' target uri shows made
  · refine staged.nodup.imp_of_mem fun mem mem' other => ⟨?_, ?_, ?_⟩
    · exact fun s _ is => (staged.apart mem is).2 _ mem' other
    · exact fun s _ is => (staged.apart mem' is).2 _ mem other.symm
    · intro s known is r known' is' same
      obtain ⟨b, block, output⟩ := Forest.exists_block sound known is
      obtain ⟨c, block', output'⟩ := Forest.exists_block sound known' is'
      exact suits.targets _ mem _ mem' other b block c block' (output.trans (same.trans output'.symm))
  · exact fun h mem s _ is => (staged.apart mem is).1

variable {s s₁ s₂ : Session}

theorem runMain_ok (loads : s.LoadsAnswer env p engineFor) (doc : String) :
    let restored := p.restoreText doc
    let out := stageWith env engineFor .substitute restored.targets (p.filter fun h => !h.isolated)
      ⟨restored.text, restored.errors⟩
    (p.runMain env doc s).1 = .ok ⟨p.stripInputFiles out.text, out.errors⟩ := by
  intro restored out
  have passes := (runHandlers_ok loads
    (fun h (mem : h ∈ p.filter fun h => !h.isolated) => (List.mem_filter.1 mem).1) .substitute restored.targets
    ⟨restored.text, restored.errors⟩).1
  rw [GraphPipeline.runMain, GraphPipeline.restoreAndRender]
  dsimp only
  rw [passes]
  rfl

/-- Splitting a document across the two stages cannot be seen, unless cache markers are taken for input
files: what the main stage leaves of the text of the isolated stage is what a run leaves of the
document, and the errors of the run are those of the two stages. -/
theorem stages_as_run (staged : p.IsStaged)
    (unlike : ∀ type_ ∈ p.inputFileTypes, sameIgnoringCase cacheMarkerType type_ = false)
    (suits : p.Suits doc)
    (results : ∀ h ∈ p, ∀ e ∈ scan doc, ∀ target uri, shownTarget? e = some target →
      (resultsIn env (engineFor h) h doc).get? target = some uri → e.CanShow uri)
    (loads : s.LoadsAnswer env p engineFor) (loads₁ : s₁.LoadsAnswer env p engineFor)
    (loads₂ : s₂.LoadsAnswer env p engineFor) :
    ∃ out isolated main : PassOutput, (p.run env doc s).1 = .ok out ∧
      (p.runIsolated env doc s₁).1 = .ok isolated ∧
      (p.runMain env isolated.text s₂).1 = .ok main ∧
      main.text = out.text ∧ out.errors = isolated.errors ++ main.errors := by
  obtain ⟨f, rfl, splits⟩ := suits.splits env engineFor staged results
  have run := (run_ok loads suits.unmarked).1
  have isolated := (runHandlers_ok loads₁
    (fun h (mem : h ∈ p.filter (·.isolated)) => (List.mem_filter.1 mem).1) .serialize [] ⟨String.ofList f.text, []⟩).1
  have none_ : ∀ h ∈ p.filter (fun h => !h.isolated), h.inputFiles = none := by
    intro h mem
    obtain ⟨known, main⟩ := List.mem_filter.1 mem
    refine Classical.byContradiction fun some_ => ?_
    rw [staged.files h known some_] at main
    cases main
  have agree := stages_agree splits staged.parts none_ unlike rfl rfl rfl rfl
  exact ⟨_, _, _, run, isolated, runMain_ok loads₂ _, agree⟩

end Documents

def stagedHandlers : GraphPipeline :=
  [⟨.custom "a", "https://e.test/a", none, true, some "f"⟩,
    ⟨.custom "b", "https://e.test/b", none, false, none⟩]

def boldEngine : GraphEngine where
  name := "bold"
  render request :=
    if request.content = "" then .error ⟨"nothing to draw", none⟩ else .ok (.markup "<b>1</b>")

def stagedSurroundings (engine : GraphEngine) : Surroundings where
  modules := .ofTable [("https://e.test/a", .ok (.graph engine)),
    ("https://e.test/b", .ok (.graph engine))] false
  fetch := .empty

def stagedDocument : String :=
  "<script type=f>1</script><script type=a data-output=q></script>" ++
    "<script type=a data-output=a>x</script><script type=b data-output=b>y</script>" ++
    "<p data-src=a></p><img data-src=b>"

theorem stagedSurroundings_delivers (engine : GraphEngine) {p : GraphPipeline}
    (urls : ∀ h ∈ p, h.engineUrl = "https://e.test/a" ∨ h.engineUrl = "https://e.test/b") :
    Delivers (stagedSurroundings engine) "https://e.test/" p fun _ => engine where
  modules := by
    intro h mem attempt
    rcases urls h mem with url | url
    · rw [url, resolveUrl_test.1]
      rfl
    · rw [url, resolveUrl_test.2]
      rfl
  names := fun _ _ _ _ _ _ _ => rfl

theorem stagedHandlers_isStaged : stagedHandlers.IsStaged where
  order := by decide
  files := by decide
  types := by decide

theorem stagedDocument_suits : stagedHandlers.Suits stagedDocument := by
  have checked : WellFormed stagedDocument = true ∧
      (∀ e ∈ scan stagedDocument, e.isScriptOf cacheMarkerType = false) ∧
      (∀ e ∈ scan stagedDocument, e.attr? "data-src" ≠ none →
        e.tag ∉ rawTextTags ∧ ∀ d ∈ scan stagedDocument, e.Holds d → d.tag ≠ "script") ∧
      ∀ h ∈ stagedHandlers, ∀ d ∈ stagedHandlers, h ≠ d →
        ∀ b ∈ discover stagedDocument h.kind, ∀ c ∈ discover stagedDocument d.kind,
          b.output ≠ c.output := by
    rw [show stagedDocument = String.ofList _ ++ String.ofList _ ++ String.ofList _ from rfl,
      ← String.ofList_append, ← String.ofList_append]
    simp only [wellFormed_ofList, scan_ofList, discover]
    decide +kernel
  exact ⟨checked.1, checked.2.1, checked.2.2.1, checked.2.2.2⟩

theorem boldEngine_markup {request : RenderRequest} {result : Rendered}
    (answer : boldEngine.render request = .ok result) : result = .markup "<b>1</b>" := by
  unfold boldEngine at answer
  dsimp only at answer
  split at answer
  · cases answer
  · exact (Except.ok.inj answer).symm

theorem boldEngine_shown {h : GraphHandler} {doc target uri : String} (e : Element)
    (found : (resultsIn (stagedSurroundings boldEngine) boldEngine h doc).get? target = some uri) :
    e.CanShow uri := by
  rw [resultsIn, handlingWith_blocks] at found
  obtain ⟨b, mem, -, result, rendered, same⟩ := get?_resultsOf found
  obtain ⟨block, -, rfl⟩ := List.mem_map.1 mem
  obtain ⟨content, -, answer⟩ := result?_outcomeOf.1 rendered
  have bold : WellFormed "<b>1</b>" = true ∧ ∀ d ∈ scan "<b>1</b>",
      d.tag ≠ "script" ∧ d.attr? "data-src" = none := by decide +kernel
  have fine := (isFineResult_markup "<b>1</b>").2 bold
  rw [← boldEngine_markup answer, ← same] at fine
  exact ⟨fun _ => fine.clean, fun _ _ => fine⟩

theorem stagedDocument_as_run :
    ∃ out isolated main : PassOutput,
      (stagedHandlers.run (stagedSurroundings boldEngine) stagedDocument
        (Session.new "https://e.test/")).1 = .ok out ∧
      (stagedHandlers.runIsolated (stagedSurroundings boldEngine) stagedDocument
        (Session.new "https://e.test/")).1 = .ok isolated ∧
      (stagedHandlers.runMain (stagedSurroundings boldEngine) isolated.text
        (Session.new "https://e.test/")).1 = .ok main ∧
      main.text = out.text ∧ out.errors = isolated.errors ++ main.errors :=
  have loads := loadsAnswer_new (stagedSurroundings_delivers boldEngine (by decide))
  stages_as_run stagedHandlers_isStaged (by decide) stagedDocument_suits
    (fun _ _ e _ _ _ _ found => boldEngine_shown e found) loads loads loads

def watchfulEngine : GraphEngine where
  name := "watchful"
  render request := .ok (.dataUri (if request.files.isEmpty then "data:,0" else "data:,1"))

def watchfulHandlers : GraphPipeline :=
  [⟨.custom "a", "https://e.test/a", none, true, none⟩,
    ⟨.custom "b", "https://e.test/b", none, true, some cacheMarkerType⟩]

def watchedDocument : String :=
  "<script type=a data-output=x>1</script><script type=b data-output=y>2</script><p data-src=y></p>"

theorem watchfulHandlers_isStaged : watchfulHandlers.IsStaged where
  order := by decide
  files := by decide
  types := by decide

theorem watchedDocument_suits : watchfulHandlers.Suits watchedDocument := by
  have checked : WellFormed watchedDocument = true ∧
      (∀ e ∈ scan watchedDocument, e.isScriptOf cacheMarkerType = false) ∧
      (∀ e ∈ scan watchedDocument, e.attr? "data-src" ≠ none →
        e.tag ∉ rawTextTags ∧ ∀ d ∈ scan watchedDocument, e.Holds d → d.tag ≠ "script") ∧
      ∀ h ∈ watchfulHandlers, ∀ d ∈ watchfulHandlers, h ≠ d →
        ∀ b ∈ discover watchedDocument h.kind, ∀ c ∈ discover watchedDocument d.kind,
          b.output ≠ c.output := by
    rw [show watchedDocument = String.ofList _ from rfl]
    simp only [wellFormed_ofList, scan_ofList, discover]
    decide +kernel
  exact ⟨checked.1, checked.2.1, checked.2.2.1, checked.2.2.2⟩

theorem isCleanUri_ofList {cs : List Char}
    (clean : (cs.all fun c => !isMarkupBlank c && !isQuote c && c != '<' && c != '>') = true) :
    IsCleanUri (String.ofList cs) := by
  simpa [IsCleanUri, and_assoc] using clean

theorem watchfulEngine_shown {h : GraphHandler} {doc target uri : String} (e : Element)
    (found : (resultsIn (stagedSurroundings watchfulEngine) watchfulEngine h doc).get? target =
      some uri) : e.CanShow uri := by
  rw [resultsIn, handlingWith_blocks] at found
  obtain ⟨b, mem, -, result, rendered, same⟩ := get?_resultsOf found
  obtain ⟨block, -, rfl⟩ := List.mem_map.1 mem
  obtain ⟨content, -, answer⟩ := result?_outcomeOf.1 rendered
  have clean : IsCleanUri "data:,0" ∧ IsCleanUri "data:,1" ∧ svgOf? "data:,0" = none ∧
      svgOf? "data:,1" = none := by
    rw [show "data:,0" = String.ofList _ from rfl, show "data:,1" = String.ofList _ from rfl]
    exact ⟨isCleanUri_ofList (by decide), isCleanUri_ofList (by decide), rfl, rfl⟩
  have shown : IsCleanUri uri ∧ svgOf? uri = none := by
    rw [same, ← Except.ok.inj answer, Rendered.toDataUri]
    split
    · exact ⟨clean.1, clean.2.2.1⟩
    · exact ⟨clean.2.1, clean.2.2.2⟩
  refine ⟨fun _ => shown.1, fun _ _ => ?_⟩
  rw [IsFineResult, shown.2]
  exact shown.1

def watchedOnce : String :=
  "<script type=b data-output=y>2</script><p data-src=y></p>" ++
    "<script type=\"data-urls\">\x7b\"x\":\"data:,0\"\x7d</script>"

def watchedTwice : String :=
  "<p data-src=y></p><script type=\"data-urls\">\x7b\"x\":\"data:,0\",\"y\":\"data:,1\"\x7d</script>"

theorem stageWith_pair {env : Surroundings} {engineFor : GraphHandler → GraphEngine} {emit : Emit}
    {h d : GraphHandler} {doc middle last : String}
    (first : (passWith env (engineFor h) h doc emit []).text = middle)
    (second : (passWith env (engineFor d) d middle emit []).text = last) :
    (stageWith env engineFor emit [] [h, d] ⟨doc, []⟩).text = last := by
  rw [stageWith, stageWith, stageWith, first, second]

theorem watched_run :
    watchfulHandlers.stripInputFiles (stageWith (stagedSurroundings watchfulEngine)
      (fun _ => watchfulEngine) .substitute [] watchfulHandlers ⟨watchedDocument, []⟩).text =
        "<p data-src=y><img src=\"data:,0\"></p>" := by
  have first : (passWith (stagedSurroundings watchfulEngine) watchfulEngine
        ⟨.custom "a", "https://e.test/a", none, true, none⟩ watchedDocument .substitute []).text =
          "<script type=b data-output=y>2</script><p data-src=y></p>" := by
    rw [passWith, withEdits_foldr, show watchedDocument = String.ofList _ from rfl, scan_ofList]
    dsimp only
    rw [String.toList_ofList]
    decide +kernel
  have second : (passWith (stagedSurroundings watchfulEngine) watchfulEngine
        ⟨.custom "b", "https://e.test/b", none, true, some cacheMarkerType⟩
        "<script type=b data-output=y>2</script><p data-src=y></p>" .substitute []).text =
          "<p data-src=y><img src=\"data:,0\"></p>" := by
    rw [passWith, withEdits_foldr,
      show "<script type=b data-output=y>2</script><p data-src=y></p>" = String.ofList _ from rfl,
      scan_ofList]
    dsimp only
    rw [String.toList_ofList]
    decide +kernel
  have plain : ∀ e ∈ scan "<p data-src=y><img src=\"data:,0\"></p>",
      isScriptOfAny watchfulHandlers.inputFileTypes e = false := by
    rw [show "<p data-src=y><img src=\"data:,0\"></p>" = String.ofList _ from rfl, scan_ofList]
    decide +kernel
  have text : (stageWith (stagedSurroundings watchfulEngine) (fun _ => watchfulEngine) .substitute []
      watchfulHandlers ⟨watchedDocument, []⟩).text = "<p data-src=y><img src=\"data:,0\"></p>" :=
    stageWith_pair first second
  rw [text, stripInputFiles_none plain]

theorem watched_stages :
    (stageWith (stagedSurroundings watchfulEngine) (fun _ => watchfulEngine) .serialize []
      watchfulHandlers ⟨watchedDocument, []⟩).text = watchedTwice ∧
    watchfulHandlers.stripInputFiles (watchfulHandlers.restoreText watchedTwice).text =
      "<p data-src=y><img src=\"data:,1\"></p>" := by
  have drawn : (resultsOf (handlingWith (stagedSurroundings watchfulEngine) watchfulEngine
      ⟨.custom "a", "https://e.test/a", none, true, none⟩ (scan watchedDocument) watchedDocument
        (pendingBlocks (scan watchedDocument) watchedDocument (.custom "a") [])).blocks).isEmpty ≠
          true := by
    rw [show watchedDocument = String.ofList _ from rfl, scan_ofList]
    decide +kernel
  have first : (passWith (stagedSurroundings watchfulEngine) watchfulEngine
        ⟨.custom "a", "https://e.test/a", none, true, none⟩ watchedDocument .serialize []).text =
          watchedOnce := by
    rw [text_stored _ _ _ _ drawn, withEdits_foldr,
      show watchedDocument = String.ofList _ from rfl, scan_ofList]
    dsimp only
    rw [String.toList_ofList]
    decide +kernel
  have drawn' : (resultsOf (handlingWith (stagedSurroundings watchfulEngine) watchfulEngine
      ⟨.custom "b", "https://e.test/b", none, true, some cacheMarkerType⟩ (scan watchedOnce)
        watchedOnce (pendingBlocks (scan watchedOnce) watchedOnce (.custom "b") [])).blocks).isEmpty ≠
          true := by
    rw [show watchedOnce = String.ofList _ ++ String.ofList _ from rfl, ← String.ofList_append,
      scan_ofList]
    decide +kernel
  have second : (passWith (stagedSurroundings watchfulEngine) watchfulEngine
        ⟨.custom "b", "https://e.test/b", none, true, some cacheMarkerType⟩ watchedOnce .serialize
          []).text = watchedTwice := by
    rw [text_stored _ _ _ _ drawn', withEdits_foldr,
      show watchedOnce = String.ofList _ ++ String.ofList _ from rfl, ← String.ofList_append,
      scan_ofList]
    simp only [readableMarkers, Element.inner, textIn, String.toList_ofList]
    decide +kernel
  have restored : (watchfulHandlers.restoreText watchedTwice).text =
      "<p data-src=y><img src=\"data:,1\"></p>" := by
    rw [GraphPipeline.restoreText, restore, withEdits_foldr,
      show watchedTwice = String.ofList _ from rfl, scan_ofList]
    unfold readMarkers readMarker
    simp only [Element.inner, textIn, String.toList_ofList]
    decide +kernel
  refine ⟨stageWith_pair first second, ?_⟩
  have plain : ∀ e ∈ scan "<p data-src=y><img src=\"data:,1\"></p>",
      isScriptOfAny watchfulHandlers.inputFileTypes e = false := by
    rw [show "<p data-src=y><img src=\"data:,1\"></p>" = String.ofList _ from rfl, scan_ofList]
    decide +kernel
  rw [restored, stripInputFiles_none plain]

/-- A handler that takes cache markers for its input files is handed the marker that the isolated
handler before it has left, which a run never writes. -/
theorem stages_not_as_run :
    ¬ ∀ (env : Surroundings) (engineFor : GraphHandler → GraphEngine) (p : GraphPipeline)
        (s : Session) (doc : String), p.IsStaged → p.Suits doc →
      (∀ h ∈ p, ∀ e ∈ scan doc, ∀ target uri, shownTarget? e = some target →
        (resultsIn env (engineFor h) h doc).get? target = some uri → e.CanShow uri) →
      s.LoadsAnswer env p engineFor →
      ∀ out isolated main : PassOutput, (p.run env doc s).1 = .ok out →
        (p.runIsolated env doc s).1 = .ok isolated →
        (p.runMain env isolated.text s).1 = .ok main → main.text = out.text := by
  intro agree
  have loads := loadsAnswer_new (stagedSurroundings_delivers watchfulEngine
    (show ∀ h ∈ watchfulHandlers, _ from by decide))
  have run := (run_ok loads watchedDocument_suits.unmarked).1
  have isolated := (runHandlers_ok loads (fun h mem => mem) .serialize [] ⟨watchedDocument, []⟩).1
  have same := agree _ _ _ _ _ watchfulHandlers_isStaged watchedDocument_suits
    (fun _ _ e _ _ _ _ found => watchfulEngine_shown e found) loads _ _ _ run isolated
    (runMain_ok loads _)
  have none_ : (watchfulHandlers.filter fun h => !h.isolated) = [] := by decide
  obtain ⟨stored, restored⟩ := watched_stages
  dsimp only at same
  rw [stored, none_, stageWith, restored, watched_run] at same
  exact absurd same (by decide)

end Playground
