import Playground.Proofs.Graph.Carried

/-! Restoring a document with one cache marker at its end. -/

namespace Playground

open Html

namespace Html

theorem Edit.place_append {e : Edit} {late : List Edit} (before : ∀ d ∈ late, e.precedes d = true)
    (edits : List Edit) : e.place (edits ++ late) = e.place edits ++ late := by
  induction edits with
  | nil =>
    cases late with
    | nil => rfl
    | cons d late => exact if_pos (before d List.mem_cons_self)
  | cons d edits ih =>
    rw [List.cons_append, place, place, ih]
    split <;> rfl

theorem Edit.foldr_place_append {edits late : List Edit}
    (before : ∀ e ∈ edits, ∀ d ∈ late, e.precedes d = true) (sorted : List Edit) :
    edits.foldr Edit.place (sorted ++ late) = edits.foldr Edit.place sorted ++ late := by
  induction edits with
  | nil => rfl
  | cons e edits ih =>
    rw [List.forall_mem_cons] at before
    rw [List.foldr_cons, List.foldr_cons, ih before.2, Edit.place_append before.1]

theorem splice?_twice {whole : List Char} {cursor : Nat} {r : Edit}
    (some_ : r.span.start < r.span.stop) (edits : List Edit) :
    splice? whole cursor (edits ++ [r, r]) = splice? whole cursor (edits ++ [r]) := by
  induction edits generalizing cursor with
  | nil =>
    by_cases skipped : r.span.start < cursor
    · simp only [List.nil_append, splice?, if_pos skipped]
    · simp only [List.nil_append, splice?, if_neg skipped, if_pos some_]
  | cons e edits ih =>
    rw [List.cons_append, List.cons_append, splice?, splice?, ih, ih]

theorem withEdits_twice {doc : String} {first second : List Edit} {r : Edit}
    (some_ : r.span.start < r.span.stop)
    (before : ∀ e ∈ first ++ second, e.span.start < r.span.start) :
    withEdits doc (first ++ (r :: second ++ [r])) = withEdits doc (first ++ r :: second) := by
  have leads : ∀ e ∈ first ++ second, e.precedes r = true :=
    fun e mem => Edit.precedes_iff.2 (.inl (before e mem))
  have later : ∀ e ∈ first ++ second, ∀ d ∈ [r], e.precedes d = true := by
    intro e mem d last
    rw [List.mem_singleton.1 last]
    exact leads e mem
  have later' : ∀ e ∈ first ++ second, ∀ d ∈ [r, r], e.precedes d = true := by
    intro e mem d last
    simp only [List.mem_cons, List.not_mem_nil, or_false, or_self] at last
    rw [last]
    exact leads e mem
  have back : ∀ d ∈ second.foldr Edit.place [], r.precedes d = false := by
    intro d mem
    rw [← Edit.mergeSort_foldr, List.mem_mergeSort] at mem
    have start := before d (List.mem_append_right _ mem)
    rw [← Bool.not_eq_true]
    intro back
    rcases Edit.precedes_iff.1 back with after | ⟨same, -⟩ <;> omega
  have single : (r :: second).foldr Edit.place [] = second.foldr Edit.place [] ++ [r] := by
    have placed : r.place (second.foldr Edit.place [] ++ []) =
        second.foldr Edit.place [] ++ [r] := Edit.place_between back nofun
    rwa [List.append_nil] at placed
  have base : second.foldr Edit.place [r] = second.foldr Edit.place [] ++ [r] :=
    Edit.foldr_place_append (fun e mem => later e (List.mem_append_right _ mem)) []
  have double : (r :: second ++ [r]).foldr Edit.place [] =
      second.foldr Edit.place [] ++ [r, r] := by
    have same : ∀ d ∈ [r], r.precedes d = true := by
      intro d mem
      rw [List.mem_singleton.1 mem]
      exact Edit.precedes_iff.2 (.inr ⟨rfl, .inr ⟨rfl, Nat.le_refl _⟩⟩)
    rw [List.cons_append, List.foldr_cons, List.foldr_append]
    change r.place (second.foldr Edit.place [r]) = _
    rw [base, Edit.place_between back same]
  rw [withEdits_foldr]
  dsimp only
  rw [List.foldr_append, double,
    Edit.foldr_place_append fun e mem => later' e (List.mem_append_left _ mem), List.foldr_append,
    single, Edit.foldr_place_append fun e mem => later e (List.mem_append_left _ mem),
    splice?_twice some_]

namespace Forest

variable {f : Forest} {results : Results} {gone gone' : Nat → Token → Bool}

theorem displayed_append (f g : Forest) :
    (f.append g).displayed results gone =
      f.displayed results gone ++ g.displayed results gone := by
  induction f with
  | nil => rfl
  | leaf mark token rest ih => rw [append, displayed, displayed, ih, List.append_assoc]
  | element name body inside closing tail rest _ ih =>
    simp only [append, displayed, ih, List.append_assoc]

theorem displayed_congr (same : ∀ t ∈ f.tokens, ∀ mark, gone mark t = gone' mark t) :
    f.displayed results gone = f.displayed results gone' := by
  induction f with
  | nil => rfl
  | leaf mark token rest ih =>
    rw [tokens, List.forall_mem_cons] at same
    rw [displayed, displayed, same.1, ih same.2]
  | element name body inside closing tail rest inner_ih rest_ih =>
    obtain ⟨-, inner, -, later⟩ := forall_tokens_element.1 same
    rw [displayed, displayed, inner_ih inner, rest_ih later]

theorem displayed_rendered :
    (f.rendered (fun _ => none) gone).displayed results (fun _ _ => false) =
      f.displayed results gone := by
  induction f with
  | nil => rfl
  | leaf mark token rest ih =>
    rw [rendered, displayed]
    split
    · rw [ih, List.nil_append]
    · rw [Token.shown_nothing, displayed, if_neg Bool.false_ne_true, ih]
  | element name body inside closing tail rest inner_ih rest_ih =>
    have none_ : body.result? (fun _ => none) = none := Option.bind_eq_none_iff.2 fun _ _ => rfl
    simp only [rendered, none_, displayed, inner_ih, rest_ih]

end Forest

def Token.Hides (results : Results) (t : Token) : Prop :=
  ∀ target, (t.attr? "data-src").map trimBlanks = some target → results target = none

namespace Forest

variable {f : Forest} {results : Results} {gone : Nat → Token → Bool}

theorem displayed_hides (hides : ∀ t ∈ f.tokens, t.Hides results) :
    f.displayed results gone = (f.rendered (fun _ => none) gone).text := by
  induction f with
  | nil => rfl
  | leaf mark token rest ih =>
    rw [tokens, List.forall_mem_cons] at hides
    have same : token.displayed results = token := by
      cases token with
      | openTag name body | raw name body content closing =>
        have none_ : body.result? results = none := Option.bind_eq_none_iff.2 hides.1
        simp only [Token.displayed, Token.shown, none_, ite_self]
      | char | aside | closeTag | unfinished => rfl
    rw [displayed, rendered, ih hides.2, same, Token.shown_nothing]
    split
    · rfl
    · rw [text_leaf]
  | element name body inside closing tail rest inner_ih rest_ih =>
    obtain ⟨here, inner, -, later⟩ := forall_tokens_element.1 hides
    have none_ : body.result? results = none := Option.bind_eq_none_iff.2 here
    have nothing : body.result? (fun _ => none) = none := Option.bind_eq_none_iff.2 fun _ _ => rfl
    rw [displayed, rendered, text_element, rest_ih later, none_, nothing]
    dsimp only
    rw [inner_ih inner]

end Forest

end Html

namespace ArtifactCache

theorem Distinct.empty_extend {c : ArtifactCache} (distinct : c.Distinct) : empty.extend c = c := by
  have only : ((empty.entries ++ c.entries).map Prod.fst).Nodup := distinct
  rw [ArtifactCache.extend, insert_foldl, foldl_upsert_fresh only]
  rfl

end ArtifactCache

def Html.Forest.ending (cache : ArtifactCache) (f : Forest) : Forest :=
  f.append (.leaf 0 (.marker cache) .nil)

variable {f : Forest} {cache : ArtifactCache}

namespace Html.Forest

theorem ending_sound (cache : ArtifactCache) (sound : f.Sound) : (f.ending cache).Sound :=
  sound.append ⟨Token.marker_sound cache, rfl, trivial⟩

theorem ending_text (f : Forest) (cache : ArtifactCache) :
    String.ofList (f.ending cache).text = String.ofList f.text ++ cache.toMarker := by
  rw [ending, text_append, text_leaf, text_nil, List.append_nil, Token.marker_lexeme,
    String.ofList_append, String.ofList_toList]

section Marker

variable {m : Element} (found : (Token.marker cache).element? (Text.size f.text) = some m)

include found

theorem placed_ending : (f.ending cache).placed 0 = f.placed 0 ++ [⟨0, .marker cache, m⟩] := by
  rw [ending, placed_append, placed, Nat.zero_add, found]
  rfl

theorem start_marker : m.start = Text.size f.text ∧ m.start < m.stop := by
  have size := size_pos (Token.marker_sound cache)
  obtain ⟨start, stop⟩ := Span.mk.inj (Token.element?_span found)
  exact ⟨start, by omega⟩

theorem filter_ending (sound : f.Sound) (is : Element → Bool) (is' : Token → Bool)
    (agree : ∀ x : Placed, x.Agrees → is x.element = is' x.token) :
    (scan (String.ofList (f.ending cache).text)).filter is =
      ((f.placed 0).filter fun x => is' x.token).map Placed.element ++
        if is' (.marker cache) then [m] else [] := by
  rw [filter_scripts (ending_sound cache sound) is is' agree, placed_ending found,
    List.filter_append, List.map_append, List.filter_cons]
  split <;> rfl

theorem cacheMarkers_ending (sound : f.Sound)
    (unmarked : ∀ t ∈ f.tokens, t.isScriptOf cacheMarkerType = false) :
    (scan (String.ofList (f.ending cache).text)).filter (·.isScriptOf cacheMarkerType) = [m] := by
  have none_ : (f.placed 0).filter (fun x => x.token.isScriptOf cacheMarkerType) = [] := by
    rw [List.filter_eq_nil_iff]
    intro x mem
    rw [unmarked x.token (mem_placed mem).1]
    exact Bool.false_ne_true
  rw [filter_ending found sound (·.isScriptOf cacheMarkerType) (·.isScriptOf cacheMarkerType)
    fun x agrees => agrees.isScriptOf cacheMarkerType, none_, Token.isScriptOf_marker]
  rfl

theorem inputFiles_ending (sound : f.Sound) (types : List String) :
    (scan (String.ofList (f.ending cache).text)).filter (isScriptOfAny types) =
      ((f.placed 0).filter fun x => types.any x.token.isScriptOf).map Placed.element ++
        if types.any (Token.marker cache).isScriptOf then [m] else [] :=
  filter_ending found sound (isScriptOfAny types) (fun t => types.any t.isScriptOf)
    fun _ agrees => congrArg types.any (funext agrees.isScriptOf)

theorem readMarkers_ending (sound : f.Sound) (distinct : cache.Distinct) :
    readMarkers (String.ofList (f.ending cache).text) [m] = (cache, []) := by
  have mem : (⟨0, .marker cache, m⟩ : Placed) ∈ (f.ending cache).placed 0 := by
    rw [placed_ending found]
    exact List.mem_append_right _ List.mem_cons_self
  have script := script_of_placed (ending_sound cache sound) mem
    (Token.isScript_of (Token.isScriptOf_marker cache))
  have content : m.inner (String.ofList (f.ending cache).text) = cache.toJsonText :=
    script.inner.trans String.ofList_toList
  rw [readMarkers, List.foldl_cons, List.foldl_nil, readMarker, content,
    ArtifactCache.parse_toJsonText distinct]
  dsimp only
  rw [distinct.empty_extend]

theorem before_marker (sound : f.Sound) (types : List String) :
    ∀ e ∈ displayAll (scan (String.ofList (f.ending cache).text)) cache ++
        (((f.placed 0).filter fun x => types.any x.token.isScriptOf).map Placed.element).map Edit.remove,
      e.span.start < (Edit.remove m).span.start := by
  have start : (Edit.remove m).span.start = Text.size f.text := (start_marker found).1
  have agrees : Placed.Agrees ⟨0, .marker cache, m⟩ := Token.element?_agrees found
  intro e mem
  rw [start]
  rcases List.mem_append.1 mem with mem | mem
  · rw [displayAll_text (ending_sound cache sound), placed_ending found, List.filterMap_append,
      List.mem_append] at mem
    rcases mem with mem | mem
    · obtain ⟨x, known, display⟩ := List.mem_filterMap.1 mem
      exact display?_within sound known display
    · -- the marker itself shows no target
      have bare : markerBody.attr? "data-src" = none := by decide
      have hidden : (Token.marker cache).attr? "data-src" = none := bare
      obtain ⟨x, known, display⟩ := List.mem_filterMap.1 mem
      rw [List.mem_singleton.1 known, agrees.display?, hidden] at display
      cases display
  · obtain ⟨file, known, rfl⟩ := List.mem_map.1 mem
    obtain ⟨x, input, rfl⟩ := List.mem_map.1 known
    have bounds := placed_bounds sound (List.mem_filter.1 input).1
    change x.element.start < _
    omega

theorem withEdits_ending (sound : f.Sound)
    (unmarked : ∀ t ∈ f.tokens, t.isScriptOf cacheMarkerType = false) (types : List String) :
    withEdits (String.ofList (f.ending cache).text)
      (displayAll (scan (String.ofList (f.ending cache).text)) cache ++
        Edit.remove m ::
          (((f.placed 0).filter fun x => types.any x.token.isScriptOf).map Placed.element).map
            Edit.remove) =
      String.ofList (f.displayed cache.get? fun _ t => types.any t.isScriptOf) := by
  let gone : Nat → Token → Bool := fun _ t => types.any t.isScriptOf || t.isScriptOf cacheMarkerType
  have only : OnlyScripts gone := (onlyScripts_any types).or (onlyScripts_isScriptOf _)
  have kept : ∀ t ∈ f.tokens, ∀ mark, gone mark t = types.any t.isScriptOf := by
    intro t mem mark
    change (_ || _) = _
    rw [unmarked t mem, Bool.or_false]
  have same : (f.placed 0).filter (fun x => gone x.mark x.token) =
      (f.placed 0).filter fun x => types.any x.token.isScriptOf :=
    List.filter_congr fun x mem => kept x.token (mem_placed mem).1 x.mark
  have away : (Forest.leaf 0 (.marker cache) .nil).displayed cache.get? gone = [] := by
    rw [displayed, if_pos (by simp [gone, Token.isScriptOf_marker])]
    rfl
  rw [withEdits_displayed only (ending_sound cache sound) ?_, ending, displayed_append, away,
    displayed_congr kept, List.append_nil]
  rw [placed_ending found, List.filter_append, same, List.map_append,
    List.filter_cons_of_pos (by simp [gone, Token.isScriptOf_marker]), List.map_map]
  exact (List.perm_append_singleton _ _).symm

end Marker

end Html.Forest

/-- Restoring a document with one marker at its end displays the cache of the marker and takes the
input files out. -/
theorem restore_marker (types : List String) (sound : f.Sound)
    (unmarked : ∀ t ∈ f.tokens, t.isScriptOf cacheMarkerType = false)
    (distinct : cache.Distinct) :
    restore (String.ofList f.text ++ cache.toMarker) types =
      ⟨String.ofList (f.displayed cache.get? fun _ t => types.any t.isScriptOf), cache.targets,
        []⟩ := by
  obtain ⟨m, found⟩ : ∃ m, (Token.marker cache).element? (Text.size f.text) = some m := ⟨_, rfl⟩
  have batch := Forest.withEdits_ending found sound unmarked types
  rw [← Forest.ending_text, restore, Forest.cacheMarkers_ending found sound unmarked,
    Forest.inputFiles_ending found sound types]
  dsimp only
  rw [if_neg (by exact Bool.false_ne_true), Forest.readMarkers_ending found sound distinct,
    List.map_cons, List.map_nil, List.append_assoc, List.singleton_append]
  refine congrArg (Restored.mk · _ _) (.trans ?_ batch)
  split
  · rw [List.map_append, List.map_cons, List.map_nil, ← List.cons_append]
    exact withEdits_twice (Forest.start_marker found).2 (Forest.before_marker found sound types)
  · rw [List.append_nil]

theorem restore_carrying {P : Token → Prop} (types : List String) (sound : f.Sound)
    (tidy : ∀ t ∈ f.tokens, t.IsTidy)
    (unmarked : ∀ t ∈ f.tokens, t.isScriptOf cacheMarkerType = false)
    (takes : ∀ t ∈ f.tokens, t.Takes P cache.get?) (distinct : cache.Distinct)
    (some_ : cache.isEmpty = false) :
    restore (String.ofList (f.carrying cache).text) types =
      ⟨String.ofList (f.rendered cache.get? fun _ t => types.any t.isScriptOf).text, cache.targets,
        []⟩ := by
  have same : ∀ t ∈ f.tokens, t.displayed cache.get? = t.shown cache.get? :=
    fun t mem => Token.displayed_tidy (sound.tokens t mem) (tidy t mem)
  rw [Forest.carrying_text, if_neg (by rw [some_]; exact Bool.false_ne_true),
    restore_marker types sound unmarked distinct, Forest.displayed_text sound same takes]

end Playground
