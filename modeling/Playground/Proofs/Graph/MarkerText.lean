import Playground.Proofs.Graph.Carried

/-! The marker of a cache as a document of its own. -/

namespace Playground.ArtifactCache

open Html

/-- Caches that operations bring about, from the empty one on. -/
inductive Reachable : ArtifactCache → Prop
  | empty : Reachable .empty
  | insert {c : ArtifactCache} (target uri : String) (before : Reachable c) :
      Reachable (c.insert target uri)
  | insertRendered {c : ArtifactCache} (target : String) (r : Rendered) (before : Reachable c) :
      Reachable (c.insertRendered target r)
  | extend {c other : ArtifactCache} (before : Reachable c) (more : Reachable other) :
      Reachable (c.extend other)
  | parse {c : ArtifactCache} {text : String} (read : ArtifactCache.parse text = .ok c) : Reachable c

theorem Distinct.addEntries {c d : ArtifactCache} {fields : List (String × Json)}
    (distinct : c.Distinct) (read : c.addEntries fields = .ok d) : d.Distinct := by
  induction fields generalizing c with
  | nil =>
    cases read
    exact distinct
  | cons field rest ih =>
    obtain ⟨target, value⟩ := field
    cases value with
    | str uri => exact ih (distinct.insert target uri) read
    | null | bool | int | float | arr | obj => cases read

theorem distinct_of_parse {text : String} {c : ArtifactCache} (read : ArtifactCache.parse text = .ok c) :
    c.Distinct := by
  unfold ArtifactCache.parse at read
  dsimp only at read
  split at read
  · cases read
    exact distinct_empty
  · split at read
    · cases read
    · exact distinct_empty.addEntries read

theorem Reachable.distinct {c : ArtifactCache} (reachable : c.Reachable) : c.Distinct := by
  induction reachable with
  | empty => exact distinct_empty
  | insert target uri _ distinct => exact distinct.insert target uri
  | insertRendered target r _ distinct => exact distinct.insert target r.toDataUri
  | extend _ _ distinct _ => exact distinct.extend _
  | parse read => exact distinct_of_parse read

theorem scan_marker (c : ArtifactCache) :
    ∃ e, scan c.toMarker = [e] ∧ (Token.marker c).element? 0 = some e := by
  have sound : (Forest.leaf 0 (.marker c) .nil).Sound := ⟨Token.marker_sound c, rfl, trivial⟩
  have text : String.ofList (Forest.leaf 0 (.marker c) .nil).text = c.toMarker := by
    rw [Forest.text_leaf, Forest.text_nil, List.append_nil, Token.marker_lexeme, String.ofList_toList]
  have elements := Forest.scan_text sound
  rw [text] at elements
  exact ⟨_, elements, rfl⟩

/-- A marker is read back: its text is one script of the type of cache markers, from end to end, and
what it holds is the cache with its entries in order. -/
theorem scan_toMarker {c : ArtifactCache} (reachable : c.Reachable) :
    ∃ e, scan c.toMarker = [e] ∧ e.isScriptOf cacheMarkerType = true ∧
      e.span = ⟨0, c.toMarker.utf8ByteSize⟩ ∧
        ArtifactCache.parse (e.inner c.toMarker) = .ok c := by
  obtain ⟨e, alone, found⟩ := scan_marker c
  have agrees : Placed.Agrees ⟨0, .marker c, e⟩ := Token.element?_agrees found
  have typed := (agrees.isScriptOf cacheMarkerType).trans (Token.isScriptOf_marker c)
  have isScript : (Token.marker c).IsScript := Token.isScript_of (Token.isScriptOf_marker c)
  have script : (Token.marker c).script? (Text.size []) = some e :=
    Token.script?_of_element? found isScript
  have inner := Token.script?_inner [] script
  rw [List.append_nil, List.nil_append, Token.marker_lexeme, String.ofList_toList] at inner
  refine ⟨e, alone, typed, ?_, ?_⟩
  · rw [Token.element?_span found, Token.marker_lexeme, Text.size_toList, Nat.zero_add]
  · have content : String.ofList (Token.marker c).content = c.toJsonText := String.ofList_toList
    rw [inner, content, parse_toJsonText reachable.distinct]

theorem scan_quoted_toMarker :
    let c := (ArtifactCache.empty.insert "</script>" "\\\"<").insertRendered "\n" (.markup "<b>")
    ∃ e, scan c.toMarker = [e] ∧ e.isScriptOf cacheMarkerType = true ∧
      e.span = ⟨0, c.toMarker.utf8ByteSize⟩ ∧ ArtifactCache.parse (e.inner c.toMarker) = .ok c :=
  scan_toMarker (.insertRendered _ _ (.insert _ _ .empty))

end Playground.ArtifactCache
