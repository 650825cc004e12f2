import Playground.Proofs.Graph.Passes

/-! Documents that carry a cache in a marker at their end. -/

namespace Playground

open Html Session

namespace Html

namespace Token

def marker (cache : ArtifactCache) : Token :=
  .raw "script".toList markerBody cache.toJsonText.toList ArtifactCache.markerClose

variable (cache : ArtifactCache)

theorem marker_lexeme : (marker cache).lexeme = cache.toMarker.toList := by
  have open_ : ArtifactCache.markerOpen = '<' :: ("script".toList ++ markerBody.lexeme) := rfl
  rw [ArtifactCache.toMarker_toList, open_, marker, lexeme]
  simp only [List.cons_append, List.append_assoc]

theorem marker_sound : (marker cache).Sound := by
  have close : ArtifactCache.markerClose = '<' :: ("/script".toList ++ ['>']) := rfl
  have script : Text.lower "script".toList = "script".toList := by decide
  rw [marker, close]
  refine .raw _ _ _ _ markerBody_begins rfl (by decide) (fun tail => ?_) (by decide)
  have ends : splitRaw "script".toList ('<' :: ("/script".toList ++ '>' :: tail)) =
      ([], '<' :: ("/script".toList ++ '>' :: tail)) := rfl
  rw [script, splitRaw_clean (ArtifactCache.toJsonText_clean cache), ends, List.append_nil]

theorem marker_isScriptOf (type_ : String) :
    (marker cache).isScriptOf type_ = sameIgnoringCase cacheMarkerType type_ := by
  have named : Token.tagOf "script".toList = "script" := by decide
  have typed : (markerBody.attr? "type").map trimBlanks = some cacheMarkerType := by decide +kernel
  obtain ⟨value, found, same⟩ := Option.map_eq_some_iff.1 typed
  rw [marker, isScriptOf, TagBody.isScriptOf, named, found]
  dsimp only
  rw [same, beq_self_eq_true, Bool.true_and]

theorem marker_isBlock (kind : GraphKind) : (marker cache).isBlock kind = false := by
  have untargeted : (marker cache).output.isEmpty = true := by
    have none_ : markerBody.attr? "data-output" = none := by decide
    rw [output, marker, attr?, none_]
    rfl
  rw [isBlock, untargeted]
  exact Bool.and_false _

end Token

/-- A forest with the marker of a cache after it, if the cache holds anything. -/
def Forest.carrying (cache : ArtifactCache) (f : Forest) : Forest :=
  if cache.isEmpty then f else f.append (leaf 0 (.marker cache) nil)

namespace Forest

variable {f : Forest} {cache : ArtifactCache}

theorem carrying_sound (cache : ArtifactCache) (sound : f.Sound) : (f.carrying cache).Sound := by
  rw [carrying]
  split
  · exact sound
  · exact sound.append ⟨Token.marker_sound cache, rfl, trivial⟩

theorem carrying_text (cache : ArtifactCache) : String.ofList (f.carrying cache).text =
    if cache.isEmpty then String.ofList f.text else String.ofList f.text ++ cache.toMarker := by
  rw [carrying]
  split
  · rfl
  · rw [text_append, text_leaf, text_nil, List.append_nil, Token.marker_lexeme, String.ofList_append,
      String.ofList_toList]

theorem scripts_carrying : (f.carrying cache).scripts =
    f.scripts ++ if cache.isEmpty then [] else [(0, .marker cache)] := by
  rw [carrying]
  split
  · rw [List.append_nil]
  · rw [scripts_append]
    rfl

theorem mem_tokens_carrying {t : Token} (mem : t ∈ (f.carrying cache).tokens) :
    t ∈ f.tokens ∨ t = .marker cache := by
  rw [carrying] at mem
  split at mem
  · exact .inl mem
  · rw [tokens_append, List.mem_append] at mem
    exact mem.imp_right List.mem_singleton.1

theorem rendered_append {results : Results} {gone : Nat → Token → Bool} (f g : Forest) :
    (f.append g).rendered results gone =
      (f.rendered results gone).append (g.rendered results gone) := by
  induction f with
  | nil => rfl
  | leaf mark token rest ih =>
    rw [append, rendered, rendered, ih]
    split <;> rfl
  | element name body inside closing tail rest _ ih => rw [append, rendered, rendered, ih, append]

theorem rendered_congr {results : Results} {gone gone' : Nat → Token → Bool}
    (same : ∀ t ∈ f.tokens, ∀ mark, gone mark t = gone' mark t) :
    f.rendered results gone = f.rendered results gone' := by
  induction f with
  | nil => rfl
  | leaf mark token rest ih =>
    rw [tokens, List.forall_mem_cons] at same
    rw [rendered, rendered, same.1, ih same.2]
  | element name body inside closing tail rest inner_ih rest_ih =>
    obtain ⟨-, inner, -, later⟩ := forall_tokens_element.1 same
    rw [rendered, rendered, inner_ih inner, rest_ih later]

theorem rendered_carrying_kept {results : Results} {gone : Nat → Token → Bool}
    (kept : gone 0 (.marker cache) = false) :
    (f.carrying cache).rendered results gone = (f.rendered results gone).carrying cache := by
  rw [carrying, carrying]
  split
  · rfl
  · rw [rendered_append, rendered, kept]
    rfl

theorem rendered_carrying {results : Results} (gone : Nat → Token → Bool)
    {gone' : Nat → Token → Bool}
    (marked_ : gone' 0 (.marker cache) = true)
    (same : ∀ t ∈ f.tokens, ∀ mark, gone' mark t = gone mark t) :
    (f.carrying cache).rendered results gone' = f.rendered results gone := by
  rw [carrying]
  split
  · exact rendered_congr same
  · have nothing : (leaf 0 (.marker cache) nil).rendered results gone' = nil := by
      rw [rendered, if_pos marked_]
      rfl
    rw [rendered_append, nothing, rendered_congr same]
    clear same
    induction f.rendered results gone with
    | nil => rfl
    | leaf mark token rest ih => rw [append, ih]
    | element name body inside closing tail rest _ ih => rw [append, ih]

end Forest

end Html

theorem filter_append_filter_perm {α : Type} {xs : List α} {is is' : α → Bool}
    (apart : ∀ x ∈ xs, is x = true → is' x = false) :
    (xs.filter is ++ xs.filter is').Perm (xs.filter fun x => is x || is' x) := by
  induction xs with
  | nil => exact .nil
  | cons x xs ih =>
    rw [List.forall_mem_cons] at apart
    have rest_ := ih apart.2
    rw [List.filter_cons, List.filter_cons, List.filter_cons]
    cases first : is x with
    | true =>
      rw [apart.1 first]
      exact rest_.cons x
    | false =>
      cases is' x with
      | true => exact List.perm_middle.trans (rest_.cons x)
      | false => exact rest_

theorem distinct_madeIn (env : Surroundings) (engine : GraphEngine) (h : GraphHandler)
    (scripts : List (Nat × Token)) : (madeIn env engine h scripts).Distinct := by
  rw [madeIn]
  generalize scripts.filter (fun s => s.2.isBlock h.kind) = blocks
  have start := ArtifactCache.distinct_empty
  generalize ArtifactCache.empty = cache at start
  induction blocks generalizing cache with
  | nil => exact start
  | cons s blocks ih =>
    refine ih _ ?_
    dsimp only
    cases outcomeIn env engine h scripts s.1 s.2 with
    | rendered result => exact start.insert _ _
    | unavailable | refused => exact start

theorem sameIgnoringCase_self (text : String) : sameIgnoringCase text text = true :=
  beq_self_eq_true _

theorem Html.Token.isScriptOf_marker (cache : ArtifactCache) :
    (marker cache).isScriptOf cacheMarkerType = true :=
  (marker_isScriptOf cache cacheMarkerType).trans (sameIgnoringCase_self _)

theorem onlyScripts_isScriptOf (type_ : String) : OnlyScripts fun _ t => t.isScriptOf type_ :=
  fun _ _ => Token.isScript_of

section Carrying

variable {f : Forest} {cache : ArtifactCache}

theorem Html.Forest.markers_carrying (cache : ArtifactCache) (sound : f.Sound)
    (unmarked : ∀ t ∈ f.tokens, t.isScriptOf cacheMarkerType = false) :
    ((((f.carrying cache).placed 0).filter fun x => x.token.isScriptOf cacheMarkerType).map
      fun x => (x.mark, x.token)) = if cache.isEmpty then [] else [(0, .marker cache)] := by
  rw [scripts_placed (carrying_sound cache sound) (·.isScriptOf cacheMarkerType)
    (fun t is => Token.isScript_of is) 0, scripts_carrying, List.filter_append]
  have none_ : f.scripts.filter (fun s => s.2.isScriptOf cacheMarkerType) = [] := by
    rw [List.filter_eq_nil_iff]
    intro s mem
    rw [unmarked s.2 (script_of_mem mem).2]
    exact Bool.false_ne_true
  rw [none_, List.nil_append]
  split
  · rfl
  · rw [List.filter_cons, Token.isScriptOf_marker]
    rfl

theorem parse_carrying (sound : f.Sound) (distinct : cache.Distinct)
    (unmarked : ∀ t ∈ f.tokens, t.isScriptOf cacheMarkerType = false) {x : Placed}
    (mem : x ∈ ((f.carrying cache).placed 0).filter fun x => x.token.isScriptOf cacheMarkerType) :
    cache.isEmpty = false ∧
      ArtifactCache.parse (x.element.inner (String.ofList (f.carrying cache).text)) =
        .ok cache := by
  have pair := List.mem_map_of_mem (f := fun x : Placed => (x.mark, x.token)) mem
  rw [Forest.markers_carrying cache sound unmarked] at pair
  obtain ⟨known, is⟩ := List.mem_filter.1 mem
  have script := Forest.script_of_placed (Forest.carrying_sound cache sound) known (Token.isScript_of is)
  split at pair
  · cases pair
  · next some_ =>
    rw [List.mem_singleton] at pair
    refine ⟨Bool.eq_false_iff.2 some_, ?_⟩
    rw [script.inner, (Prod.mk.inj pair).2, Token.marker, Token.content, String.ofList_toList]
    exact ArtifactCache.parse_toJsonText distinct

theorem readableMarkers_carrying (sound : f.Sound) (distinct : cache.Distinct)
    (unmarked : ∀ t ∈ f.tokens, t.isScriptOf cacheMarkerType = false) :
    readableMarkers (scan (String.ofList (f.carrying cache).text))
        (String.ofList (f.carrying cache).text) =
      (((f.carrying cache).placed 0).filter fun x => x.token.isScriptOf cacheMarkerType).map
        fun x => (x.element, cache) := by
  rw [readableMarkers, Forest.filter_scripts (Forest.carrying_sound cache sound) _
    (·.isScriptOf cacheMarkerType) fun x agrees => agrees.isScriptOf cacheMarkerType,
    List.filterMap_map]
  have each : ∀ x ∈ ((f.carrying cache).placed 0).filter fun x =>
      x.token.isScriptOf cacheMarkerType, ArtifactCache.parse
        (x.element.inner (String.ofList (f.carrying cache).text)) = .ok cache :=
    fun x mem => (parse_carrying sound distinct unmarked mem).2
  generalize ((f.carrying cache).placed 0).filter _ = xs at each
  induction xs with
  | nil => rfl
  | cons x xs ih =>
    rw [List.forall_mem_cons] at each
    rw [List.filterMap_cons, Function.comp_apply, each.1, List.map_cons, ← ih each.2]

theorem merged_carrying (sound : f.Sound)
    (unmarked : ∀ t ∈ f.tokens, t.isScriptOf cacheMarkerType = false) {made : ArtifactCache}
    (distinct : cache.Distinct) (distinct' : made.Distinct) (target : String) :
    (((((f.carrying cache).placed 0).filter fun x => x.token.isScriptOf cacheMarkerType).map
        (fun _ => cache) ++ [made]).foldl ArtifactCache.extend .empty).get? target =
      (made.get? target).or (cache.get? target) := by
  have markers := congrArg (List.map fun _ => cache)
    (Forest.markers_carrying cache sound unmarked)
  rw [List.map_map] at markers
  have same : ((fun _ => cache) ∘ fun x : Placed => (x.mark, x.token)) = fun _ => cache := rfl
  rw [same] at markers
  rw [markers]
  split
  · next none_ =>
    rw [List.map_nil, List.nil_append, List.foldl_cons, List.foldl_nil,
      ArtifactCache.get?_extend distinct', ArtifactCache.isEmpty_iff.1 none_ target,
      ArtifactCache.get?_empty]
  · rw [List.map_cons, List.map_nil, List.cons_append, List.nil_append, List.foldl_cons,
      List.foldl_cons, List.foldl_nil, ArtifactCache.get?_extend distinct',
      ArtifactCache.get?_extend distinct, ArtifactCache.get?_empty, Option.or_none]

theorem fits_removals {gone : Nat → Token → Bool} (only : OnlyScripts gone) (sound : f.Sound)
    {e : Edit} (mem : e ∈ ((f.placed 0).filter fun x => gone x.mark x.token).map fun x =>
      Edit.remove x.element) :
    e.Fits (String.ofList f.text).toList ∧ e.span.start < (String.ofList f.text).utf8ByteSize := by
  obtain ⟨x, known, rfl⟩ := List.mem_map.1 mem
  obtain ⟨placed, is⟩ := List.mem_filter.1 known
  refine fits_remove ?_ ?_
  · rw [Forest.scan_text sound]
    exact List.mem_map_of_mem placed
  · have tag := (Forest.mem_placed placed).2.tag
    rw [only _ _ is] at tag
    exact (Option.some.inj tag).symm

theorem removals_carrying {gone : Nat → Token → Bool}
    (unmarked : ∀ t ∈ f.tokens, t.isScriptOf cacheMarkerType = false)
    (blocks : ∀ mark t, gone mark t = true → t ≠ .marker cache) :
    let placed := (f.carrying cache).placed 0
    (((placed.filter fun x => gone x.mark x.token).map fun x => Edit.remove x.element) ++
        (placed.filter fun x => x.token.isScriptOf cacheMarkerType).map fun x =>
          Edit.remove x.element).Perm
      ((placed.filter fun x => gone x.mark x.token || x.token.isScriptOf cacheMarkerType).map
        fun x => Edit.remove x.element) := by
  intro placed
  have apart : ∀ x ∈ placed, gone x.mark x.token = true →
      x.token.isScriptOf cacheMarkerType = false := by
    intro x mem is
    rcases Forest.mem_tokens_carrying (Forest.mem_placed mem).1 with known | same
    · exact unmarked _ known
    · exact absurd same (blocks _ _ is)
  rw [← List.map_append]
  exact (filter_append_filter_perm apart).map fun x => Edit.remove x.element

theorem rendered_carrying_unmarked {gone : Nat → Token → Bool}
    (unmarked : ∀ t ∈ f.tokens, t.isScriptOf cacheMarkerType = false) :
    (f.carrying cache).rendered (fun _ => none)
        (fun mark t => gone mark t || t.isScriptOf cacheMarkerType) =
      f.rendered (fun _ => none) gone :=
  Forest.rendered_carrying gone (by rw [Token.isScriptOf_marker, Bool.or_true])
    fun t mem mark => by rw [unmarked t mem, Bool.or_false]

/-- Results that are stored go into the cache that the document carries, and scripts are taken out
with it. -/
theorem withEdits_serialize {gone : Nat → Token → Bool} {made : ArtifactCache} (sound : f.Sound)
    (unmarked : ∀ t ∈ f.tokens, t.isScriptOf cacheMarkerType = false)
    (distinct : cache.Distinct) (distinct' : made.Distinct) (only : OnlyScripts gone)
    (kept : gone 0 (.marker cache) = false)
    (blocks : ∀ mark t, gone mark t = true → t ≠ .marker cache) :
    let doc := String.ofList (f.carrying cache).text
    let removals := (((f.carrying cache).placed 0).filter fun x => gone x.mark x.token).map fun x =>
      Edit.remove x.element
    ∃ cache' : ArtifactCache, cache'.Distinct ∧
      (∀ target, cache'.get? target = (made.get? target).or (cache.get? target)) ∧
      withEdits doc (serializeEdits (scan doc) doc made removals) =
        String.ofList ((f.rendered (fun _ => none) gone).carrying cache').text := by
  have sound' := Forest.carrying_sound cache sound
  intro doc removals
  rw [serializeEdits]
  cases some_ : made.isEmpty with
  | true =>
    refine ⟨cache, distinct, fun target => ?_, ?_⟩
    · rw [ArtifactCache.isEmpty_iff.1 some_, Option.none_or]
    · rw [if_pos rfl, withEdits_removals only sound' (.refl _),
        Forest.rendered_carrying_kept kept]
  | false =>
    rw [if_neg Bool.false_ne_true, readableMarkers_carrying sound distinct unmarked]
    dsimp only
    have held : (Prod.snd ∘ fun x : Placed => (x.element, cache)) = fun _ => cache := rfl
    have merged := merged_carrying sound unmarked distinct distinct'
    have distinct'' := distinct_merged ((((f.carrying cache).placed 0).filter fun x =>
      x.token.isScriptOf cacheMarkerType).map (fun _ => cache) ++ [made])
    rw [List.map_map, List.map_map, held]
    generalize List.foldl ArtifactCache.extend _ _ = new at merged distinct'' ⊢
    refine ⟨new, distinct'', merged, ?_⟩
    have full : ¬ new.isEmpty = true := by
      intro none_
      refine Bool.eq_false_iff.1 some_ (ArtifactCache.isEmpty_iff.2 fun target => ?_)
      have here := (merged target).symm.trans (ArtifactCache.isEmpty_iff.1 none_ target)
      exact (Option.or_eq_none_iff.1 here).1
    have removes := removals_carrying unmarked blocks
    have only' := only.or (onlyScripts_isScriptOf cacheMarkerType)
    have scripts := fun e mem => fits_removals (e := e) only' sound' (removes.mem_iff.1 mem)
    have left := withEdits_removals only' sound' removes
    rw [rendered_carrying_unmarked unmarked] at left
    refine (withEdits_insert_end _ (fun e mem => (scripts e mem).1)
      fun e mem => (scripts e mem).2).trans ?_
    rw [Forest.carrying_text new, if_neg full]
    exact congrArg (· ++ new.toMarker) left

variable {env : Surroundings} {engine : GraphEngine} {h : GraphHandler}

theorem marker_concerns
    (free : ∀ type_, h.inputFiles = some type_ → sameIgnoringCase cacheMarkerType type_ = false) :
    (Token.marker cache).concerns h = false := by
  rw [Token.concerns, Token.marker_isBlock, Bool.false_or, Token.isInputOf]
  cases files : h.inputFiles with
  | none => rfl
  | some type_ => rw [Option.any_some, Token.marker_isScriptOf, free type_ files]

/-- The marker at the end of a document is not among the scripts that a condition it fails picks. -/
theorem filter_scripts_carrying {pick : Token → Bool} (passed : pick (.marker cache) = false) :
    ((f.carrying cache).scripts.filter fun s => pick s.2) = f.scripts.filter fun s => pick s.2 := by
  rw [Forest.scripts_carrying, List.filter_append]
  split
  · rw [List.filter_nil, List.append_nil]
  · rw [List.filter_cons, passed, if_neg Bool.false_ne_true, List.filter_nil, List.append_nil]

theorem isNumbered_carrying {kind : GraphKind} (numbers : f.IsNumbered kind) :
    (f.carrying cache).IsNumbered kind := by
  obtain ⟨n, marks⟩ := numbers
  exact ⟨n, by rw [filter_scripts_carrying (Token.marker_isBlock cache kind), marks]⟩

theorem passWith_serialize (env : Surroundings) (engine : GraphEngine) (sound : f.Sound)
    (numbers : f.IsNumbered h.kind)
    (unmarked : ∀ t ∈ f.tokens, t.isScriptOf cacheMarkerType = false)
    (free : ∀ type_, h.inputFiles = some type_ → sameIgnoringCase cacheMarkerType type_ = false)
    (distinct : cache.Distinct) :
    ∃ cache' : ArtifactCache, cache'.Distinct ∧
      (∀ target, cache'.get? target =
        ((madeIn env engine h f.scripts).get? target).or (cache.get? target)) ∧
      passWith env engine h (String.ofList (f.carrying cache).text) .serialize [] =
        ⟨String.ofList ((f.rendered (fun _ => none) (isDone env engine h f.scripts)).carrying
          cache').text, errorsIn env engine h f.scripts⟩ := by
  obtain ⟨made, errors, done⟩ := of_concerned env engine
    (filter_scripts_carrying (marker_concerns free))
  have pass := passWith_pending env engine .serialize (Forest.carrying_sound cache sound)
    (isNumbered_carrying numbers) fun _ _ _ => List.not_mem_nil
  rw [made, errors, done] at pass
  have never : ∀ mark, isDone env engine h f.scripts mark (.marker cache) = false := by
    intro mark
    rw [isDone, Token.marker_isBlock, Bool.false_and]
  obtain ⟨cache', distinct', merged, text⟩ := withEdits_serialize sound unmarked distinct
    (distinct_madeIn env engine h f.scripts) onlyScripts_isDone (never 0) (by
      rintro mark t is rfl
      rw [never] at is
      cases is)
  exact ⟨cache', distinct', merged, pass.trans (congrArg (PassOutput.mk · _) text)⟩

end Carrying

end Playground
