import Playground.Proofs.Graph.FixedPoint
import Playground.Proofs.Graph.MarkerText
import Playground.Proofs.Graph.Restored

/-! Runs over a document with a cache marker that has nothing to do with it. -/

namespace Playground

open Html

def GraphPipeline.turns (env : Surroundings) :
    List GraphHandler → String → Session → List (GraphHandler × String)
  | [], _, _ => []
  | h :: rest, doc, s =>
    (h, doc) :: match renderKind env h doc .substitute [] s with
      | (.ok pass, s) => turns env rest pass.text s
      | (.error _, _) => []

variable {env : Surroundings} {p : GraphPipeline} {doc : String} {s : Session}

theorem discover_blocks (doc : String) (kind : GraphKind) {b : Element × EmbeddedBlock}
    (mem : b ∈ blocksIn (scan doc) doc kind) : b.2 ∈ discover doc kind :=
  List.mem_map_of_mem mem

theorem renderKind_fresh {h : GraphHandler} {satisfied : List String}
    (fresh : ∀ block ∈ discover doc h.kind, block.output ∉ satisfied) (emit : Emit) :
    renderKind env h doc emit satisfied s = renderKind env h doc emit [] s := by
  have other : ∀ b ∈ blocksIn (scan doc) doc h.kind, b.2.output ∉ satisfied :=
    fun b mem => fresh b.2 (discover_blocks doc h.kind mem)
  rw [renderKind, renderKind, pendingBlocks_fresh other, dropEdits_fresh other, pendingBlocks_nil,
    dropEdits_nil]

theorem runHandlers_fresh {handlers : List GraphHandler} {satisfied : List String} {out : PassOutput}
    (fresh : ∀ turn ∈ GraphPipeline.turns env handlers out.text s,
      ∀ block ∈ discover turn.2 turn.1.kind, block.output ∉ satisfied) :
    GraphPipeline.runHandlers env .substitute satisfied handlers out s =
      GraphPipeline.runHandlers env .substitute [] handlers out s := by
  induction handlers generalizing out s with
  | nil => rfl
  | cons h rest ih =>
    rw [GraphPipeline.turns, List.forall_mem_cons] at fresh
    rw [GraphPipeline.runHandlers, GraphPipeline.runHandlers, renderKind_fresh fresh.1]
    cases ran : renderKind env h out.text .substitute [] s with
    | mk result s' =>
      rw [ran] at fresh
      cases result with
      | error e => rfl
      | ok pass => exact ih fresh.2

/-- Whether an element has to do with a target. -/
def Html.Element.Mentions (e : Element) (target : String) : Prop :=
  shownTarget? e = some target ∨ (e.attr? "data-output").map trimBlanks = some target

instance (e : Element) (target : String) : Decidable (e.Mentions target) :=
  inferInstanceAs (Decidable (_ ∨ _))

theorem restoreText_unrelated {cache : ArtifactCache} (p : GraphPipeline)
    (fine : WellFormed doc = true)
    (unmarked : ∀ e ∈ scan doc, e.isScriptOf cacheMarkerType = false) (distinct : cache.Distinct)
    (hidden : ∀ e ∈ scan doc, ∀ target ∈ cache.targets, shownTarget? e ≠ some target) :
    p.restoreText (doc ++ cache.toMarker) = ⟨p.stripInputFiles doc, cache.targets, []⟩ := by
  obtain ⟨f, sound, chars⟩ := WellFormed.forest fine
  have doc_ : doc = String.ofList f.text := by rw [chars, String.ofList_toList]
  subst doc_
  have hides : ∀ t ∈ f.tokens, t.Hides cache.get? := by
    intro t mem target shows
    have tagged : t.tag? ≠ none := by
      cases t with
      | openTag | raw => exact Option.some_ne_none _
      | char | aside | closeTag | unfinished => cases shows
    obtain ⟨x, placed, rfl⟩ := Forest.placed_of_token 0 mem tagged
    have scanned : x.element ∈ scan (String.ofList f.text) := by
      rw [Forest.scan_text sound]
      exact List.mem_map_of_mem placed
    have shown := (Forest.mem_placed placed).2.shownTarget?.trans shows
    cases found : cache.get? target with
    | none => rfl
    | some uri =>
      have known : target ∈ cache.targets :=
        ArtifactCache.mem_targets_iff.2 (found ▸ Option.some_ne_none uri)
      exact absurd shown (hidden x.element scanned target known)
  have unmarked' := Forest.unmarked_of_scan sound unmarked
  rw [GraphPipeline.restoreText, restore_marker p.inputFileTypes sound unmarked' distinct,
    Forest.displayed_hides hides, stripInputFiles_text sound]

theorem stripInputFiles_unmarked (p : GraphPipeline) (fine : WellFormed doc = true)
    (unmarked : ∀ e ∈ scan doc, e.isScriptOf cacheMarkerType = false) :
    ∀ e ∈ scan (p.stripInputFiles doc), e.isScriptOf cacheMarkerType = false := by
  obtain ⟨f, sound, chars⟩ := WellFormed.forest fine
  have doc_ : doc = String.ofList f.text := by rw [chars, String.ofList_toList]
  subst doc_
  have only := onlyScripts_any p.inputFileTypes
  have unmarked' := Forest.unmarked_of_scan sound unmarked
  rw [stripInputFiles_text sound]
  exact Forest.unmarked_text (Forest.removed_sound sound _) fun t mem =>
    unmarked' t (Forest.mem_tokens_removed only sound mem)

theorem run_unrelated {cache : ArtifactCache} (fine : WellFormed doc = true)
    (unmarked : ∀ e ∈ scan doc, e.isScriptOf cacheMarkerType = false) (distinct : cache.Distinct)
    (hidden : ∀ e ∈ scan doc, ∀ target ∈ cache.targets, shownTarget? e ≠ some target) :
    p.run env (doc ++ cache.toMarker) s =
      ((GraphPipeline.runHandlers env .substitute cache.targets p ⟨p.stripInputFiles doc, []⟩ s).1.map
          fun out => { out with text := p.stripInputFiles out.text },
        (GraphPipeline.runHandlers env .substitute cache.targets p ⟨p.stripInputFiles doc, []⟩ s).2) := by
  have every : p.filter (fun _ => true) = p := List.filter_eq_self.2 fun _ _ => rfl
  rw [GraphPipeline.run, GraphPipeline.restoreAndRender,
    restoreText_unrelated p fine unmarked distinct hidden]
  dsimp only
  rw [every]

/-- With a marker at its end whose targets it does not show a document is run as it is without its
input files: the same is rendered, loaded and fetched, with the same errors and the same text, as
long as no handler meets a block for a target of the marker. -/
theorem run_unrelated_marker {cache : ArtifactCache} (fine : WellFormed doc = true)
    (unmarked : ∀ e ∈ scan doc, e.isScriptOf cacheMarkerType = false)
    (reachable : cache.Reachable)
    (hidden : ∀ e ∈ scan doc, ∀ target ∈ cache.targets, shownTarget? e ≠ some target)
    (fresh : ∀ turn ∈ GraphPipeline.turns env p (p.stripInputFiles doc) s,
      ∀ block ∈ discover turn.2 turn.1.kind, block.output ∉ cache.targets) :
    p.run env (doc ++ cache.toMarker) s = p.run env (p.stripInputFiles doc) s ∧
      ((∀ e ∈ scan doc, isScriptOfAny p.inputFileTypes e = false) →
        p.run env (doc ++ cache.toMarker) s = p.run env doc s) := by
  have stripped : p.run env (doc ++ cache.toMarker) s = p.run env (p.stripInputFiles doc) s := by
    rw [run_unrelated fine unmarked reachable.distinct hidden, runHandlers_fresh fresh,
      run_unmarked (stripInputFiles_unmarked p fine unmarked)]
  exact ⟨stripped, fun files => stripped.trans (by rw [stripInputFiles_none files])⟩

def listingEngine : GraphEngine where
  name := "list"
  render request := .ok (.markup (request.files.foldl (fun text file => text ++ file.content) ""))

def listingHandlers : GraphPipeline := [⟨.custom "a", "https://e.test/a", none, false, some "f"⟩]

def listingSurroundings : Surroundings where
  modules := .ofTable [("https://e.test/a", .ok (.graph listingEngine))] false
  fetch := .empty

def listedDocument : String :=
  "<script type=f>1</script><script type=a data-output=a></script><p data-src=a></p>"

def strangeCache : ArtifactCache := ArtifactCache.empty.insert "t" "u"

theorem strangeCache_reachable : strangeCache.Reachable := .insert "t" "u" .empty

theorem listingSurroundings_delivers :
    Delivers listingSurroundings "https://e.test/" listingHandlers fun _ => listingEngine where
  modules := by
    intro h mem attempt
    rw [List.mem_singleton.1 mem, resolveUrl_test.1]
    rfl
  names := fun _ _ _ _ _ _ _ => rfl

theorem listedDocument_fine : WellFormed listedDocument = true ∧
    (∀ e ∈ scan listedDocument, e.isScriptOf cacheMarkerType = false) ∧
    ∀ e ∈ scan listedDocument, ∀ target ∈ strangeCache.targets, ¬ e.Mentions target := by
  rw [show listedDocument = String.ofList _ from rfl, wellFormed_ofList, scan_ofList]
  decide +kernel

theorem passes_listing :
    listingHandlers.stripInputFiles listedDocument =
      "<script type=a data-output=a></script><p data-src=a></p>" ∧
    (stageWith listingSurroundings (fun _ => listingEngine) .substitute [] listingHandlers
      ⟨listedDocument, []⟩).text = "<script type=f>1</script><p data-src=a>1</p>" ∧
    (stageWith listingSurroundings (fun _ => listingEngine) .substitute strangeCache.targets
      listingHandlers ⟨"<script type=a data-output=a></script><p data-src=a></p>", []⟩).text =
        "<p data-src=a></p>" := by
  rw [GraphPipeline.stripInputFiles, listingHandlers, stageWith, stageWith, stageWith, stageWith,
    passWith, passWith, withEdits_foldr, show listedDocument = String.ofList _ from rfl, scan_ofList]
  dsimp only
  rw [show "<script type=a data-output=a></script><p data-src=a></p>" = String.ofList _ from rfl,
    scan_ofList, String.toList_ofList, String.toList_ofList]
  decide +kernel

theorem listing_fresh (s : Session) :
    ∀ turn ∈ GraphPipeline.turns listingSurroundings listingHandlers
        (listingHandlers.stripInputFiles listedDocument) s,
      ∀ block ∈ discover turn.2 turn.1.kind, block.output ∉ strangeCache.targets := by
  have one (doc : String) : GraphPipeline.turns listingSurroundings listingHandlers doc s =
      [(⟨.custom "a", "https://e.test/a", none, false, some "f"⟩, doc)] := by
    rw [listingHandlers, GraphPipeline.turns]
    split <;> rfl
  rw [one, List.forall_mem_singleton, passes_listing.1, discover,
    show "<script type=a data-output=a></script><p data-src=a></p>" = String.ofList _ from rfl,
    scan_ofList]
  decide +kernel

theorem listedDocument_strange :
    listingHandlers.run listingSurroundings (listedDocument ++ strangeCache.toMarker)
        (Session.new "https://e.test/") =
      listingHandlers.run listingSurroundings (listingHandlers.stripInputFiles listedDocument)
        (Session.new "https://e.test/") :=
  have apart := listedDocument_fine.2.2
  (run_unrelated_marker listedDocument_fine.1 listedDocument_fine.2.1 strangeCache_reachable
    (fun e mem target known shows => apart e mem target known (.inl shows)) (listing_fresh _)).1

def blockBringer : String := "<script type=b data-output=t></script><i data-src=t></i>"

def bringingDocument : String := "<p data-src=a></p><script type=a data-output=a></script>"

theorem bringingDocument_fine : WellFormed bringingDocument = true ∧
    (∀ e ∈ scan bringingDocument, e.isScriptOf cacheMarkerType = false) ∧
    ∀ e ∈ scan bringingDocument, ∀ target ∈ strangeCache.targets, ¬ e.Mentions target := by
  rw [show bringingDocument = String.ofList _ from rfl, wellFormed_ofList, scan_ofList]
  decide +kernel

theorem passes_bringing :
    stageWith (stillSurroundings blockBringer "<b>2</b>") (stillEngines blockBringer "<b>2</b>")
      .substitute [] stillHandlers ⟨bringingDocument, []⟩ =
        ⟨"<p data-src=a><i data-src=t><b>2</b></i></p>", []⟩ ∧
    stageWith (stillSurroundings blockBringer "<b>2</b>") (stillEngines blockBringer "<b>2</b>")
      .substitute ["t"] stillHandlers ⟨bringingDocument, []⟩ =
        ⟨"<p data-src=a><i data-src=t></i></p>", []⟩ :=
  ⟨stageWith_drawn rfl rfl (by decide +kernel), stageWith_drawn rfl rfl (by decide +kernel)⟩

/-- A document, and a cache no target of which it mentions. -/
structure Unrelated (doc : String) (cache : ArtifactCache) : Prop where
  fine : WellFormed doc = true
  unmarked : ∀ e ∈ scan doc, e.isScriptOf cacheMarkerType = false
  reachable : cache.Reachable
  apart : ∀ e ∈ scan doc, ∀ target ∈ cache.targets, ¬ e.Mentions target

/-- A marker that a document has nothing to do with can change its run: its input files are taken
out before the blocks that use them are rendered, and a block that a result brings is not rendered
when its target is one of the marker's. Either is enough. -/
theorem marker_not_inert :
    (¬ ∀ (env : Surroundings) (p : GraphPipeline) (s : Session) (doc : String)
        (cache : ArtifactCache), Unrelated doc cache →
      (∀ turn ∈ GraphPipeline.turns env p (p.stripInputFiles doc) s,
        ∀ block ∈ discover turn.2 turn.1.kind, block.output ∉ cache.targets) →
      (p.run env (doc ++ cache.toMarker) s).1 = (p.run env doc s).1) ∧
    ¬ ∀ (env : Surroundings) (p : GraphPipeline) (s : Session) (doc : String)
        (cache : ArtifactCache), Unrelated doc cache →
      (∀ e ∈ scan doc, isScriptOfAny p.inputFileTypes e = false) →
      (p.run env (doc ++ cache.toMarker) s).1 = (p.run env doc s).1 := by
  constructor
  · intro inert
    obtain ⟨fine, unmarked, apart⟩ := listedDocument_fine
    have loads := Session.loadsAnswer_new listingSurroundings_delivers
    have same := inert _ _ (Session.new "https://e.test/") _ _
      ⟨fine, unmarked, strangeCache_reachable, apart⟩ (listing_fresh _)
    rw [run_unrelated fine unmarked strangeCache_reachable.distinct
      (fun e mem target known shows => apart e mem target known (.inl shows)),
      (runHandlers_ok loads (fun _ mem => mem) _ _ _).1, (run_ok loads unmarked).1] at same
    have texts := congrArg PassOutput.text (Except.ok.inj same)
    dsimp only at texts
    rw [passes_listing.1, passes_listing.2.1, passes_listing.2.2] at texts
    revert texts
    rw [GraphPipeline.stripInputFiles, GraphPipeline.stripInputFiles, withEdits_foldr]
    decide +kernel
  · intro inert
    obtain ⟨fine, unmarked, apart⟩ := bringingDocument_fine
    have loads := loadsAnswer_still blockBringer "<b>2</b>"
    have same := inert (stillSurroundings blockBringer "<b>2</b>") stillHandlers (Session.new "https://e.test/") _ _
      ⟨fine, unmarked, strangeCache_reachable, apart⟩ fun _ _ => rfl
    have targets : strangeCache.targets = ["t"] := by decide
    obtain ⟨_, brought, -⟩ := run_still loads unmarked passes_bringing.1
    rw [run_unrelated fine unmarked strangeCache_reachable.distinct
      (fun e mem target known shows => apart e mem target known (.inl shows)), targets,
      stripInputFiles_none fun _ _ => rfl, (runHandlers_ok loads (fun _ mem => mem) _ _ _).1,
      passes_bringing.2, brought] at same
    have texts := congrArg PassOutput.text (Except.ok.inj same)
    dsimp only at texts
    rw [stripInputFiles_none fun _ _ => rfl] at texts
    exact absurd texts (by decide)

end Playground
