import Playground.Graph.Pass
import Playground.Proofs.Graph.AppendedMarker

/-! The cache markers of a document: what they hold, and which targets are restored from them. -/

namespace Playground

open Html ArtifactCache

theorem mem_foldl_readMarker {doc : String} {markers : List Element} {target : String}
    {read : ArtifactCache × List BlockError} :
    target ∈ (markers.foldl (readMarker doc) read).1.targets ↔
      target ∈ read.1.targets ∨
        ∃ m ∈ markers, ∃ cache, parse (m.inner doc) = .ok cache ∧ target ∈ cache.targets := by
  induction markers generalizing read with
  | nil => simp
  | cons m markers ih =>
    rw [List.foldl_cons, ih, readMarker]
    cases here : parse (m.inner doc) with
    | ok parsed => simp [here, mem_targets_extend, or_assoc]
    | error error => simp [here]

theorem mem_readMarkers {doc : String} {markers : List Element} {target : String} :
    target ∈ (readMarkers doc markers).1.targets ↔
      ∃ m ∈ markers, ∃ cache, parse (m.inner doc) = .ok cache ∧ target ∈ cache.targets := by
  rw [readMarkers, mem_foldl_readMarker]
  simp [empty, targets]

theorem mem_restore_scan {doc : String} {types : List String} {target : String} :
    target ∈ (restore doc types).targets ↔
      ∃ m ∈ (scan doc).filter (·.isScriptOf cacheMarkerType),
        ∃ cache, parse (m.inner doc) = .ok cache ∧ target ∈ cache.targets := by
  unfold restore
  dsimp only
  split
  · next none_ =>
    rw [List.isEmpty_iff.1 none_]
    simp
  · exact mem_readMarkers

theorem mem_readableMarkers {doc : String} {elements : List Element} {m : Element}
    {cache : ArtifactCache} :
    (m, cache) ∈ readableMarkers elements doc ↔
      m ∈ elements.filter (·.isScriptOf cacheMarkerType) ∧ parse (m.inner doc) = .ok cache := by
  unfold readableMarkers
  rw [List.mem_filterMap]
  constructor
  · rintro ⟨e, mem, found⟩
    cases read : parse (e.inner doc) with
    | ok parsed =>
      rw [read] at found
      cases found
      exact ⟨mem, read⟩
    | error error =>
      rw [read] at found
      cases found
  · rintro ⟨mem, read⟩
    exact ⟨m, mem, by rw [read]⟩

theorem mem_restore_readable {doc : String} {types : List String} {target : String} :
    target ∈ (restore doc types).targets ↔
      ∃ cache ∈ (readableMarkers (scan doc) doc).map Prod.snd, target ∈ cache.targets := by
  rw [mem_restore_scan]
  constructor
  · rintro ⟨m, mem, cache, read, here⟩
    exact ⟨cache, List.mem_map.2 ⟨(m, cache), mem_readableMarkers.2 ⟨mem, read⟩, rfl⟩, here⟩
  · rintro ⟨_, mem, here⟩
    obtain ⟨⟨m, cache⟩, found, rfl⟩ := List.mem_map.1 mem
    obtain ⟨scanned, read⟩ := mem_readableMarkers.1 found
    exact ⟨m, scanned, cache, read, here⟩

theorem mem_restore {doc : String} {types : List String} {target : String} :
    target ∈ (restore doc types).targets ↔ ListsIn target doc.toList := by
  rw [mem_restore_scan]
  constructor
  · rintro ⟨m, mem, cache, read, here⟩
    obtain ⟨mem, script⟩ := List.mem_filter.1 mem
    obtain ⟨before, t, after, whole, found⟩ :=
      (mem_scan_script (Element.isScriptOf_tag script)).1 mem
    have lexemes := Token.ofText_lexeme doc.toList
    rw [whole, List.flatMap_append, List.flatMap_cons] at lexemes
    have inner := Token.script?_inner (after.flatMap Token.lexeme) found
    rw [lexemes, String.ofList_toList] at inner
    have script' := (Token.script?_isScriptOf found cacheMarkerType).symm.trans script
    have read' : parse (String.ofList t.content) = .ok cache := inner ▸ read
    exact ⟨t, by rw [whole]; simp, script', cache, read', here⟩
  · rintro ⟨t, mem, script, cache, read, here⟩
    obtain ⟨before, after, whole⟩ := List.append_of_mem mem
    obtain ⟨m, found⟩ :=
      Token.script?_of_isScriptOf script (Text.size (before.flatMap Token.lexeme))
    have lexemes := Token.ofText_lexeme doc.toList
    rw [whole, List.flatMap_append, List.flatMap_cons] at lexemes
    have inner := Token.script?_inner (after.flatMap Token.lexeme) found
    rw [lexemes, String.ofList_toList] at inner
    have scanned := (mem_scan_script (Token.script?_tag found)).2 ⟨before, t, after, whole, found⟩
    have script' := (Token.script?_isScriptOf found cacheMarkerType).trans script
    have read' : parse (m.inner doc) = .ok cache := inner ▸ read
    exact ⟨m, List.mem_filter.2 ⟨scanned, script'⟩, cache, read', here⟩

theorem mem_targets_merged {caches : List ArtifactCache} {cache : ArtifactCache} {target : String} :
    target ∈ (caches.foldl ArtifactCache.extend cache).targets ↔
      target ∈ cache.targets ∨ ∃ c ∈ caches, target ∈ c.targets := by
  induction caches generalizing cache with
  | nil => simp
  | cons c caches ih =>
    rw [List.foldl_cons, ih, mem_targets_extend, or_assoc]
    simp

theorem distinct_merged (caches : List ArtifactCache) :
    (caches.foldl ArtifactCache.extend .empty).Distinct := by
  have kept : ∀ (caches : List ArtifactCache) (cache : ArtifactCache), cache.Distinct →
      (caches.foldl ArtifactCache.extend cache).Distinct := by
    intro caches
    induction caches with
    | nil => exact fun _ distinct => distinct
    | cons c caches ih => exact fun cache distinct => ih _ (distinct.extend c)
  exact kept caches .empty distinct_empty

end Playground
