import Playground.Proofs.Graph.IsolatedStage

/-! Documents that reference nothing. -/

namespace Playground

open Html Session

theorem BlockSource.ofElement_inline {doc : String} (inline : referencesExternal doc = false)
    {e : Element} (mem : e ∈ scan doc) (script : e.tag = "script") :
    BlockSource.ofElement e doc = .inline (e.inner doc) := by
  have silent := List.any_eq_false.1 inline e mem
  have blank : (((e.attr? "src").map trimBlanks).getD "").isEmpty = true := by
    simpa [script] using silent
  exact if_pos blank

theorem EmbeddedBlock.source_ofMarkers {kind : GraphKind} {doc : String} {index : Nat}
    {markers : List Element} {e : Element} {block : EmbeddedBlock}
    (mem : (e, block) ∈ ofMarkers kind doc index markers) : block.source = .ofElement e doc := by
  induction markers generalizing index with
  | nil => cases mem
  | cons m markers ih =>
    rw [ofMarkers] at mem
    cases made : ofMarker? kind m doc index with
    | none =>
      rw [made] at mem
      exact ih mem
    | some first =>
      rw [made] at mem
      rcases List.mem_cons.1 mem with same | later
      · cases same
        rw [ofMarker?] at made
        dsimp only at made
        split at made
        · cases made
        · cases made
          rfl
      · exact ih later

variable {doc : String} {env env' : Surroundings}

theorem sourceText_inline (inline : referencesExternal doc = false) {e : Element}
    (mem : e ∈ scan doc) (script : e.tag = "script") (asker : Asker) :
    sourceText env asker (.ofElement e doc) = sourceText env' asker (.ofElement e doc) := by
  rw [BlockSource.ofElement_inline inline mem script]
  rfl

theorem passWith_inline (inline : referencesExternal doc = false) (env env' : Surroundings)
    (engine : GraphEngine) (h : GraphHandler) (emit : Emit) (satisfied : List String) :
    passWith env engine h doc emit satisfied = passWith env' engine h doc emit satisfied := by
  have files : ∀ f ∈ ((inputFileMarkers h (scan doc)).map fun e =>
        PendingInputFile.ofMarker e doc).zipIdx,
      sourceText env (.file h.kind.marker f.2) f.1.source =
        sourceText env' (.file h.kind.marker f.2) f.1.source := by
    intro f mem
    obtain ⟨e, taken, same⟩ := List.mem_map.1 (List.fst_mem_of_mem_zipIdx mem)
    rw [inputFileMarkers] at taken
    split at taken
    · obtain ⟨scanned, script⟩ := List.mem_filter.1 taken
      rw [← same]
      exact sourceText_inline inline scanned (Element.isScriptOf_tag script) _
    · cases taken
  have contents : ∀ b ∈ pendingBlocks (scan doc) doc h.kind satisfied,
      sourceText env b.2.asker b.2.source = sourceText env' b.2.asker b.2.source := by
    intro b mem
    obtain ⟨scanned, script⟩ := script_of_pending mem
    rw [EmbeddedBlock.source_ofMarkers (List.mem_filter.1 mem).1]
    exact sourceText_inline inline scanned script _
  have handling : handlingWith env engine h (scan doc) doc
        (pendingBlocks (scan doc) doc h.kind satisfied) =
      handlingWith env' engine h (scan doc) doc
        (pendingBlocks (scan doc) doc h.kind satisfied) := by
    simp only [handlingWith, List.map_congr_left contents, List.map_congr_left files]
  simp only [passWith, handling]

end Playground
