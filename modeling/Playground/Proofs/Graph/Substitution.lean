import Playground.Proofs.Graph.Accounting
import Playground.Proofs.Graph.Pieces

/-! What a substituting pass changes. -/

namespace Playground

open Html Session

theorem get?_foldl_insertRendered (rendered : List (String × Rendered)) (cache : ArtifactCache)
    (target : String) :
    (rendered.foldl (fun cache r => cache.insertRendered r.1 r.2) cache).get? target =
      ((lastValue? target rendered).map Rendered.toDataUri).or (cache.get? target) := by
  have uris := ArtifactCache.insert_foldl cache (rendered.map fun r => (r.1, r.2.toDataUri))
  rw [List.foldl_map] at uris
  rw [← lastValue?_map]
  exact (congrArg (ArtifactCache.get? · target) uris).trans (lookup_foldl_upsert _ _ target)

section Pass

variable (env : Surroundings) (engine : GraphEngine) (h : GraphHandler) (doc : String)
variable (satisfied : List String)

/-- The last result of a pass for a target. -/
def lastResult? : Results := fun target =>
  (lastValue? target (renderedIn env engine h doc satisfied)).map Rendered.toDataUri

def substituted : List Edit :=
  pieces (lastResult? env engine h doc satisfied) (takenOut env engine h doc satisfied).contains
    (scan doc)

variable {env engine h doc satisfied}

theorem get?_renderedIn :
    ((renderedIn env engine h doc satisfied).foldl
      (fun (cache : ArtifactCache) r => cache.insertRendered r.1 r.2) .empty).get? =
        lastResult? env engine h doc satisfied := by
  funext target
  rw [get?_foldl_insertRendered]
  exact Option.or_none

theorem removedBy_takenOut :
    removedBy env engine h doc satisfied = takenOut env engine h doc satisfied := by
  rw [removedBy, takenOut, handlingWith_fates]
  dsimp only
  rw [renderedOf_markers, List.filterMap_map, ← results_pending]
  rfl

theorem replaced_passWith (fine : WellFormed doc = true)
    (some_ : pendingBlocks (scan doc) doc h.kind satisfied ≠ []) :
    Replaced 0 (substituted env engine h doc satisfied) doc.toList
      (passWith env engine h doc .substitute satisfied).text.toList := by
  have nodup := removedBy_nodup env engine h doc satisfied
  have scripts : ∀ e ∈ removedBy env engine h doc satisfied, e ∈ scan doc ∧ e.tag = "script" :=
    removedBy_scripts engine
  rw [removedBy_takenOut] at nodup scripts
  rw [(accounts_passWith some_ .substitute).text, substituted, ← get?_renderedIn]
  exact withEdits_pieces_list fine nodup scripts _

end Pass

theorem replaced_blocks {doc : String} (fine : WellFormed doc = true) (kind : GraphKind) :
    Replaced 0 (pieces (fun _ => none) ((blocksIn (scan doc) doc kind).map Prod.fst).contains (scan doc))
      doc.toList
      (withEdits doc ((blocksIn (scan doc) doc kind).map fun b => Edit.remove b.1)).toList := by
  have scripts : ∀ e ∈ (blocksIn (scan doc) doc kind).map Prod.fst, e ∈ scan doc ∧ e.tag = "script" := by
    intro e mem
    obtain ⟨b, known, rfl⟩ := List.mem_map.1 mem
    exact script_of_block known
  have replaced := withEdits_pieces_list fine (blocksIn_elements doc kind) scripts .empty
  rwa [displayAll_empty, List.nil_append, List.map_map] at replaced

theorem pendingBlocks_nil_iff {doc : String} {kind : GraphKind} {satisfied : List String} :
    pendingBlocks (scan doc) doc kind satisfied = [] ↔
      ((blocksIn (scan doc) doc kind).all fun b => satisfied.contains b.2.output) = true := by
  rw [pendingBlocks, List.filter_eq_nil_iff, List.all_eq_true]
  simp only [Bool.not_eq_true', Bool.not_eq_false]

/-- A substituting pass over a well-formed document. Where all blocks are satisfied it takes their
markers out; where the engine does not load there is no text. Otherwise what shows a target of a
rendered block is given the last result for it, the markers that are satisfied or rendered are taken
out as far as they do not stand in new content, and all else is copied. -/
theorem substitution_exact {doc : String} (fine : WellFormed doc = true) (env : Surroundings)
    (h : GraphHandler) (satisfied : List String) (s : Session) :
    let blocks := blocksIn (scan doc) doc h.kind
    if blocks.all fun b => satisfied.contains b.2.output then
      ∃ text, renderKind env h doc .substitute satisfied s = (.ok ⟨text, []⟩, s) ∧
        Replaced 0 (pieces (fun _ => none) (blocks.map Prod.fst).contains (scan doc))
          doc.toList text.toList
    else
      match (s.engineOf env h).1 with
      | .error e => (renderKind env h doc .substitute satisfied s).1 = .error e
      | .ok engine => ∃ pass,
        (renderKind env h doc .substitute satisfied s).1 = .ok pass ∧
          Replaced 0 (substituted env engine h doc satisfied) doc.toList pass.text.toList ∧
          (substituted env engine h doc satisfied).Pairwise fun e f => e.span.stop ≤ f.span.start := by
  intro blocks
  split
  · next all =>
    have none_ := pendingBlocks_nil_iff.2 all
    have drops : dropEdits (scan doc) doc h.kind satisfied = blocks.map fun b => Edit.remove b.1 := by
      rw [dropEdits, List.filter_eq_self.2 (List.all_eq_true.1 all)]
    refine ⟨_, ?_, replaced_blocks fine h.kind⟩
    rw [renderKind, none_, drops]
    rfl
  · next needed =>
    have some_ := mt pendingBlocks_nil_iff.1 needed
    have answer : (renderKind env h doc .substitute satisfied s).1 = _ :=
      renderKind_answer .substitute s
    rw [if_neg (mt List.isEmpty_iff.1 some_)] at answer
    cases loaded : (s.engineOf env h).1 with
    | error e =>
      rw [loaded] at answer
      exact answer
    | ok engine =>
      rw [loaded] at answer
      have replaced : Replaced 0 (substituted env engine h doc satisfied) _ _ :=
        replaced_passWith fine some_
      exact ⟨_, answer, replaced, replaced.apart⟩

/-- A target with a block that is rendered and one that is not, which is shown inside itself. -/
def mixedTargets : String :=
  "<p data-src=a><i data-src=a></i></p><script type=x/a data-output=a>1</script>" ++
    "<script type=x/a data-output=a src=u></script><b data-src=c></b>"

theorem mixedTargets_substituted :
    WellFormed mixedTargets = true ∧
      ∃ pass, (renderKind drawSurroundings drawHandler mixedTargets .substitute []
          (Session.new "https://e.test/")).1 = .ok pass ∧
        Replaced 0 [⟨⟨14, 32⟩, "<svg>1</svg>"⟩, ⟨⟨36, 77⟩, ""⟩] mixedTargets.toList
          pass.text.toList := by
  -- all in one evaluation, which reads the text once
  have ⟨fine, needed, pieces_⟩ : WellFormed mixedTargets = true ∧
      (¬ ((blocksIn (scan mixedTargets) mixedTargets drawHandler.kind).all
        fun b => ([] : List String).contains b.2.output) = true) ∧
      substituted drawSurroundings drawEngine drawHandler mixedTargets [] =
        [⟨⟨14, 32⟩, "<svg>1</svg>"⟩, ⟨⟨36, 77⟩, ""⟩] := by
    rw [show mixedTargets = String.ofList _ ++ String.ofList _ from rfl, ← String.ofList_append]
    unfold substituted lastResult? takenOut renderedIn
    simp only [wellFormed_ofList, scan_ofList]
    decide +kernel
  have loads := Session.loadsAnswer_new drawSurroundings_delivers
  obtain ⟨_, loaded, rfl, -, -⟩ :=
    renderKind_ok loads (List.mem_singleton.2 rfl) mixedTargets .substitute []
  have exact_ := substitution_exact fine drawSurroundings drawHandler []
    (Session.new "https://e.test/")
  dsimp only at exact_
  rw [if_neg needed, loaded] at exact_
  obtain ⟨pass, answer, replaced, -⟩ := exact_
  rw [pieces_] at replaced
  exact ⟨fine, pass, answer, replaced⟩

end Playground
