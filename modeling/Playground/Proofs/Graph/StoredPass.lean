import Playground.Proofs.Graph.Restored
import Playground.Proofs.Html.Places
import Mathlib.Data.List.Nodup

/-! Storing the results of a pass and restoring them is showing them. -/

namespace Playground

open Html

namespace Html

def Token.isTicked (mark : Nat) (t : Token) : Bool := decide t.IsScript && mark == 1

/-- The forest of a text at `pos` in which the elements of a kind that are single pieces carry 1. -/
def Forest.ticked (is : Element → Bool) : Nat → Forest → Forest
  | _, nil => nil
  | pos, leaf _ token rest =>
    leaf (if (token.element? pos).any is then 1 else 0) token
      (rest.ticked is (pos + Text.size token.lexeme))
  | pos, element name body inside closing tail rest =>
    let openEnd := pos + Text.size (Token.openTag name body).lexeme
    let stop := openEnd + Text.size inside.text + Text.size (Token.closeTag closing tail).lexeme
    element name body (inside.ticked is openEnd) closing tail (rest.ticked is stop)

theorem onlyScripts_isTicked : OnlyScripts fun mark t => t.isTicked mark := by
  intro mark t is
  obtain ⟨script, -⟩ := Bool.and_eq_true_iff.1 is
  exact of_decide_eq_true script

namespace Forest

variable {f : Forest} {is : Element → Bool}

theorem tokens_ticked (pos : Nat) : (f.ticked is pos).tokens = f.tokens := by
  induction f generalizing pos with
  | nil => rfl
  | leaf mark token rest ih => rw [ticked, tokens, tokens, ih]
  | element name body inside closing tail rest inner_ih rest_ih =>
    rw [ticked, tokens, tokens, inner_ih, rest_ih]

theorem text_ticked (pos : Nat) : (f.ticked is pos).text = f.text := by
  rw [text, text, tokens_ticked]

theorem ticked_sound (sound : f.Sound) (pos : Nat) : (f.ticked is pos).Sound := by
  induction f generalizing pos with
  | nil => exact trivial
  | leaf mark token rest ih => exact ⟨sound.1, sound.2.1, ih sound.2.2 _⟩
  | element name body inside closing tail rest inner_ih rest_ih =>
    obtain ⟨opens, more, closes, same, inner, later⟩ := sound
    exact ⟨opens, more, closes, same, inner_ih inner _, rest_ih later _⟩

theorem placed_ticked (sound : f.Sound) (pos : Nat) :
    (((f.ticked is pos).placed pos).filter fun x => x.token.isTicked x.mark).map Placed.element =
      (f.elements pos).filter fun e => e.tag == "script" && is e := by
  induction f generalizing pos with
  | nil => rfl
  | leaf mark token rest ih =>
    have rest_ := ih sound.2.2 (pos + Text.size token.lexeme)
    rw [elements] at rest_ ⊢
    rw [ticked, placed, placed, List.filter_append, List.map_append, List.map_append,
      List.filter_append, rest_]
    congr 1
    cases found : token.element? pos with
    | none => rfl
    | some e =>
      have agrees : Placed.Agrees ⟨mark, token, e⟩ := Token.element?_agrees found
      have named : token.tag? = some e.tag := agrees.tag
      have tag : decide token.IsScript = (e.tag == "script") := by
        simp only [Token.IsScript, named, Option.some.injEq]
        rfl
      have mark_ : ((if is e = true then 1 else 0) == 1) = is e := by cases is e <;> rfl
      simp only [Option.any_some, Option.map_some, Option.toList_some, List.filter_cons,
        List.filter_nil, Token.isTicked, tag, mark_, List.map_cons, List.map_nil]
      split <;> rfl
  | element name body inside closing tail rest inner_ih rest_ih =>
    obtain ⟨opens, more, -, -, inner, later⟩ := sound
    obtain ⟨script, -, -⟩ := Token.tags_of_element opens more
    have inner_ := inner_ih inner (pos + Text.size (Token.openTag name body).lexeme)
    have rest_ := rest_ih later (pos + Text.size (Token.openTag name body).lexeme +
      Text.size inside.text + Text.size (Token.closeTag closing tail).lexeme)
    have head : (Token.openTag name body).isTicked 0 = false := Bool.and_false _
    have head' : ((Token.tagOf name) == "script") = false := beq_eq_false_iff_ne.2 script
    rw [elements] at inner_ rest_ ⊢
    rw [ticked, placed, placed, text_ticked, List.filter_cons_of_neg (by rw [head]; exact Bool.false_ne_true),
      List.filter_append, List.map_append, inner_, rest_, List.map_cons,
      List.filter_cons_of_neg (by
        change ¬ ((Token.tagOf name == "script") && _) = true
        rw [head', Bool.false_and]
        exact Bool.false_ne_true),
      List.map_append, List.filter_append]

end Forest

theorem scan_nodup (doc : String) : (scan doc).Nodup := by
  refine (laminar_scan doc).leads.imp ?_
  rintro a _ ⟨before, -⟩ rfl
  exact Nat.lt_irrefl _ before

theorem removals_ticked {f : Forest} (sound : f.Sound) {removed : List Element}
    (nodup : removed.Nodup)
    (scripts : ∀ e ∈ removed, e ∈ scan (String.ofList f.text) ∧ e.tag = "script") :
    (removed.map Edit.remove).Perm
      ((((f.ticked removed.contains 0).placed 0).filter fun x => x.token.isTicked x.mark).map
        fun x => Edit.remove x.element) := by
  have chosen : removed.Perm ((scan (String.ofList f.text)).filter fun e =>
      e.tag == "script" && removed.contains e) := by
    rw [List.perm_ext_iff_of_nodup nodup ((scan_nodup _).filter _)]
    intro e
    rw [List.mem_filter, Bool.and_eq_true, beq_iff_eq, List.contains_iff_mem]
    exact ⟨fun mem => ⟨(scripts e mem).1, (scripts e mem).2, mem⟩, fun known => known.2.2⟩
  rw [Forest.scan_text sound, ← Forest.placed_ticked sound 0] at chosen
  have edits := chosen.map Edit.remove
  rwa [List.map_map] at edits

end Html

section Stored

variable {f : Forest}

theorem readableMarkers_unmarked {doc : String}
    (unmarked : ∀ e ∈ scan doc, e.isScriptOf cacheMarkerType = false) :
    readableMarkers (scan doc) doc = [] := by
  have none_ : (scan doc).filter (·.isScriptOf cacheMarkerType) = [] := by
    rw [List.filter_eq_nil_iff]
    intro e mem
    rw [unmarked e mem]
    exact Bool.false_ne_true
  rw [readableMarkers, none_]
  rfl

/-- What a document without cache markers becomes when results are stored is restored to what it
becomes when they are shown. -/
theorem restore_serializeEdits {doc : String} (fine : WellFormed doc = true)
    (unmarked : ∀ e ∈ scan doc, e.isScriptOf cacheMarkerType = false) {removed : List Element}
    (nodup : removed.Nodup) (scripts : ∀ e ∈ removed, e ∈ scan doc ∧ e.tag = "script")
    {made : ArtifactCache} (distinct : made.Distinct) :
    restore (withEdits doc (serializeEdits (scan doc) doc made (removed.map Edit.remove))) [] =
      ⟨withEdits doc (displayAll (scan doc) made ++ removed.map Edit.remove), made.targets, []⟩ := by
  obtain ⟨f, sound, chars⟩ := WellFormed.forest fine
  have doc_ : doc = String.ofList f.text := by rw [chars, String.ofList_toList]
  subst doc_
  let g := f.ticked removed.contains 0
  let gone : Nat → Token → Bool := fun mark t => t.isTicked mark
  have only : OnlyScripts gone := onlyScripts_isTicked
  have sound' : g.Sound := Forest.ticked_sound sound 0
  have text : String.ofList f.text = String.ofList g.text := by rw [Forest.text_ticked]
  have removes := removals_ticked sound nodup scripts
  have shown : withEdits (String.ofList g.text)
      (displayAll (scan (String.ofList g.text)) made ++ removed.map Edit.remove) =
        String.ofList (g.displayed made.get? gone) := withEdits_displayed only sound' removes
  have left := withEdits_removals only sound' removes
  have unmarked_ : ∀ t ∈ (g.rendered (fun _ => none) gone).tokens,
      t.isScriptOf cacheMarkerType = false := by
    intro t mem
    have known := Forest.mem_tokens_removed only sound' mem
    rw [Forest.tokens_ticked] at known
    exact Forest.unmarked_of_scan sound unmarked t known
  have sound_ : (g.rendered (fun _ => none) gone).Sound := Forest.removed_sound sound' gone
  have fits : ∀ e ∈ removed.map Edit.remove, e.Fits (String.ofList f.text).toList ∧
      e.span.start < (String.ofList f.text).utf8ByteSize := by
    intro e mem
    obtain ⟨script, known, rfl⟩ := List.mem_map.1 mem
    exact fits_remove (scripts script known).1 (scripts script known).2
  rw [← text] at shown left
  rw [shown, serializeEdits, readableMarkers_unmarked unmarked]
  cases empty_ : made.isEmpty with
  | true =>
    have nothing := ArtifactCache.isEmpty_iff.1 empty_
    have targets : made.targets = [] := by
      rw [ArtifactCache.targets, List.isEmpty_iff.1 empty_, List.map_nil]
    rw [if_pos rfl, left, restore_unmarked (Forest.unmarked_text sound_ unmarked_), targets,
      Forest.displayed_hides fun _ _ _ _ => nothing _]
  | false =>
    rw [if_neg Bool.false_ne_true]
    dsimp only
    rw [List.map_nil, List.nil_append, List.map_nil, List.append_nil, List.foldl_cons, List.foldl_nil,
      distinct.empty_extend,
      withEdits_insert_end _ (fun e mem => (fits e mem).1) fun e mem => (fits e mem).2, left,
      restore_marker [] sound_ unmarked_ distinct]
    exact congrArg (fun text => Restored.mk (String.ofList text) _ _) Forest.displayed_rendered

end Stored

section Pass

variable {env : Surroundings} {h : GraphHandler} {doc : String} {satisfied : List String}

theorem ofMarkers_elements (kind : GraphKind) (doc : String) (index : Nat) (markers : List Element) :
    ((EmbeddedBlock.ofMarkers kind doc index markers).map Prod.fst).Sublist markers := by
  induction markers generalizing index with
  | nil => exact .slnil
  | cons m markers ih =>
    rw [EmbeddedBlock.ofMarkers]
    split
    · exact (ih (index + 1)).cons_cons m
    · exact (ih index).cons m

theorem blocksIn_elements (doc : String) (kind : GraphKind) :
    ((blocksIn (scan doc) doc kind).map Prod.fst).Nodup :=
  (scan_nodup doc).sublist ((ofMarkers_elements kind doc 1 _).trans List.filter_sublist)

theorem script_of_block {kind : GraphKind} {b : Element × EmbeddedBlock}
    (mem : b ∈ blocksIn (scan doc) doc kind) : b.1 ∈ scan doc ∧ b.1.tag = "script" := by
  have marker := (ofMarkers_elements kind doc 1 _).subset (List.mem_map_of_mem (f := Prod.fst) mem)
  obtain ⟨scanned, script⟩ := List.mem_filter.1 marker
  exact ⟨scanned, Element.isScriptOf_tag script⟩

def removedBy (env : Surroundings) (engine : GraphEngine) (h : GraphHandler) (doc : String)
    (satisfied : List String) : List Element :=
  let pending := pendingBlocks (scan doc) doc h.kind satisfied
  ((blocksIn (scan doc) doc h.kind).filter fun b => satisfied.contains b.2.output).map Prod.fst ++
    (renderedOf (handlingWith env engine h (scan doc) doc pending).blocks).map HandledBlock.marker

theorem removedBy_blocks (env : Surroundings) (engine : GraphEngine) (h : GraphHandler)
    (doc : String) (satisfied : List String) :
    ∃ done : List (Element × EmbeddedBlock),
      done.Sublist (pendingBlocks (scan doc) doc h.kind satisfied) ∧
      removedBy env engine h doc satisfied =
        ((blocksIn (scan doc) doc h.kind).filter fun b => satisfied.contains b.2.output).map Prod.fst
          ++ done.map Prod.fst := by
  let pending := pendingBlocks (scan doc) doc h.kind satisfied
  let handled := (handlingWith env engine h (scan doc) doc pending).blocks
  refine ⟨(renderedOf handled).map fun b => (b.marker, b.block), ?_, ?_⟩
  · have whole := handlingWith_markers env engine h (scan doc) doc pending
    have part : (renderedOf handled).Sublist handled := List.filter_sublist
    have sub := part.map fun b => (b.marker, b.block)
    rwa [whole] at sub
  · rw [List.map_map]
    rfl

theorem removedBy_nodup (env : Surroundings) (engine : GraphEngine) (h : GraphHandler)
    (doc : String) (satisfied : List String) : (removedBy env engine h doc satisfied).Nodup := by
  have blocks := blocksIn_elements doc h.kind
  obtain ⟨done, within, removed⟩ := removedBy_blocks env engine h doc satisfied
  have pending : (pendingBlocks (scan doc) doc h.kind satisfied).Sublist
      (blocksIn (scan doc) doc h.kind) := List.filter_sublist
  rw [removed, List.nodup_append]
  refine ⟨blocks.sublist (List.filter_sublist.map _), blocks.sublist ((within.trans pending).map _),
    ?_⟩
  rintro e mem _ mem' rfl
  obtain ⟨a, dropped, rfl⟩ := List.mem_map.1 mem
  obtain ⟨b, known, same⟩ := List.mem_map.1 mem'
  obtain ⟨first, is⟩ := List.mem_filter.1 dropped
  obtain ⟨second, other⟩ := List.mem_filter.1 (within.subset known)
  have late : (!satisfied.contains b.2.output) = true := other
  rw [List.inj_on_of_nodup_map blocks second first same, is] at late
  cases late

theorem removedBy_scripts (engine : GraphEngine) :
    ∀ e ∈ removedBy env engine h doc satisfied, e ∈ scan doc ∧ e.tag = "script" := by
  intro e mem
  obtain ⟨done, within, removed⟩ := removedBy_blocks env engine h doc satisfied
  rw [removed] at mem
  rcases List.mem_append.1 mem with mem | mem
  · obtain ⟨b, known, rfl⟩ := List.mem_map.1 mem
    exact script_of_block (List.mem_filter.1 known).1
  · obtain ⟨b, known, rfl⟩ := List.mem_map.1 mem
    exact script_of_block (List.mem_filter.1 (within.subset known)).1

theorem distinct_resultsOf (handled : List HandledBlock) : (resultsOf handled).Distinct := by
  rw [resultsOf]
  have start := ArtifactCache.distinct_empty
  generalize ArtifactCache.empty = cache at start
  induction handled generalizing cache with
  | nil => exact start
  | cons b handled ih =>
    refine ih _ ?_
    rw [addResult]
    split
    · exact start.insert _ _
    · exact start

theorem renderKind_answer (emit : Emit) (s : Session) :
    (renderKind env h doc emit satisfied s).1 =
      if (pendingBlocks (scan doc) doc h.kind satisfied).isEmpty then
        .ok ⟨withEdits doc (dropEdits (scan doc) doc h.kind satisfied), []⟩
      else (s.engineOf env h).1.map fun engine => passWith env engine h doc emit satisfied := by
  unfold renderKind
  dsimp only
  split
  · rfl
  · next some_ =>
    cases loaded : (s.engineOf env h).1 with
    | error e =>
      have engineOf : s.engineOf env h = (.error e, (s.engineOf env h).2) := by rw [← loaded]
      rw [handlePending, engineOf]
      rfl
    | ok engine =>
      have handled := (handlePending_ok loaded (scan doc) doc
        (pendingBlocks (scan doc) doc h.kind satisfied)).1
      generalize handlePending env h _ doc _ s = x at handled
      obtain ⟨_, s'⟩ := x
      cases handled
      rw [Except.map, passWith, if_neg some_]

theorem restore_dropEdits (fine : WellFormed doc = true)
    (unmarked : ∀ e ∈ scan doc, e.isScriptOf cacheMarkerType = false) (kind : GraphKind)
    (satisfied : List String) :
    restore (withEdits doc (dropEdits (scan doc) doc kind satisfied)) [] =
      ⟨withEdits doc (dropEdits (scan doc) doc kind satisfied), [], []⟩ := by
  let dropped := ((blocksIn (scan doc) doc kind).filter fun b =>
    satisfied.contains b.2.output).map Prod.fst
  have nodup : dropped.Nodup := (blocksIn_elements doc kind).sublist (List.filter_sublist.map _)
  have scripts : ∀ e ∈ dropped, e ∈ scan doc ∧ e.tag = "script" := by
    intro e mem
    obtain ⟨b, known, rfl⟩ := List.mem_map.1 mem
    exact script_of_block (List.mem_filter.1 known).1
  have drops : dropEdits (scan doc) doc kind satisfied = dropped.map Edit.remove := by
    rw [dropEdits, List.map_map]
    rfl
  have restored := restore_serializeEdits fine unmarked nodup scripts ArtifactCache.distinct_empty
  rw [displayAll_empty, List.nil_append] at restored
  rw [drops]
  exact restored

theorem passWith_removed {engine : GraphEngine} {emit : Emit}
    (some_ : ¬ (pendingBlocks (scan doc) doc h.kind satisfied).isEmpty = true) :
    passWith env engine h doc emit satisfied =
      let handling := handlingWith env engine h (scan doc) doc
        (pendingBlocks (scan doc) doc h.kind satisfied)
      ⟨withEdits doc (emitEdits emit (scan doc) doc (resultsOf handling.blocks)
          ((removedBy env engine h doc satisfied).map Edit.remove)),
        handling.fileErrors ++ handling.blocks.filterMap (·.error? h.kind)⟩ := by
  rw [passWith, if_neg some_, removedBy, List.map_append, List.map_map, List.map_map]
  rfl

/-- A pass that stores its results in a document without cache markers answers like one that shows
them: with the same load error, or with the same errors of its blocks and a text that is restored to
what is shown. -/
theorem restore_stored (fine : WellFormed doc = true)
    (unmarked : ∀ e ∈ scan doc, e.isScriptOf cacheMarkerType = false) {s s' : Session}
    (same : (s.engineOf env h).1 = (s'.engineOf env h).1) (satisfied : List String) :
    (∃ e, (renderKind env h doc .serialize satisfied s).1 = .error e ∧
        (renderKind env h doc .substitute satisfied s').1 = .error e) ∨
      ∃ stored shown, (renderKind env h doc .serialize satisfied s).1 = .ok stored ∧
        (renderKind env h doc .substitute satisfied s').1 = .ok shown ∧
        (restore stored.text []).text = shown.text ∧ (restore stored.text []).errors = [] ∧
          stored.errors = shown.errors := by
  rw [renderKind_answer, renderKind_answer, same]
  split
  · have restored := restore_dropEdits fine unmarked h.kind satisfied
    exact .inr ⟨_, _, rfl, rfl, congrArg Restored.text restored, congrArg Restored.errors restored,
      rfl⟩
  · next some_ =>
    cases (s'.engineOf env h).1 with
    | error e => exact .inl ⟨e, rfl, rfl⟩
    | ok engine =>
      have restored := restore_serializeEdits fine unmarked
        (removedBy_nodup env engine h doc satisfied)
        (removedBy_scripts engine) (distinct_resultsOf (handlingWith env engine h (scan doc) doc
          (pendingBlocks (scan doc) doc h.kind satisfied)).blocks)
      refine .inr ⟨_, _, rfl, rfl, ?_⟩
      dsimp only
      rw [passWith_removed some_, passWith_removed some_]
      exact ⟨congrArg Restored.text restored, congrArg Restored.errors restored, rfl⟩

end Pass

/-- Two blocks for one target, which stands around one of them and in another target, and a block
for a satisfied target. -/
def nestedTargets : String :=
  "<p data-src=b><i data-src=a><script type=\"x/a\" data-output=a>1</script></i></p>" ++
    "<script type=\"x/a\" data-output=\" a \">2</script>" ++
    "<script type=\"x/a\" data-output=b>3</script><img data-src=a>"

theorem nestedTargets_restored :
    let s := Session.new "https://e.test/"
    ∃ stored shown,
      (renderKind drawSurroundings drawHandler nestedTargets .serialize ["b"] s).1 = .ok stored ∧
      (renderKind drawSurroundings drawHandler nestedTargets .substitute ["b"] s).1 = .ok shown ∧
      (restore stored.text []).text = shown.text ∧ (restore stored.text []).errors = [] ∧
        stored.errors = shown.errors := by
  intro s
  have loads := Session.loadsAnswer_new drawSurroundings_delivers
  have ⟨fine, unmarked⟩ : WellFormed nestedTargets = true ∧
      ∀ e ∈ scan nestedTargets, e.isScriptOf cacheMarkerType = false := by
    rw [show nestedTargets = String.ofList _ ++ String.ofList _ ++ String.ofList _ from rfl,
      ← String.ofList_append, ← String.ofList_append, wellFormed_ofList, scan_ofList]
    decide +kernel
  have same : (s.engineOf drawSurroundings drawHandler).1 = (s.engineOf drawSurroundings drawHandler).1 :=
    rfl
  rcases restore_stored fine unmarked same ["b"] with ⟨e, failed, -⟩ | restored
  · obtain ⟨engine, -, -, answer, -⟩ :=
      renderKind_ok loads (List.mem_singleton.2 rfl) nestedTargets .serialize ["b"]
    rw [answer] at failed
    cases failed
  · exact restored

end Playground
