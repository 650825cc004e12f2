import Playground.Graph.ArtifactCache
import Playground.Proofs.Json.Quoting
import Playground.Proofs.Json.StringTable

/-! Caches as they are written into markers, and as they are read back. -/

namespace Playground.ArtifactCache

def Distinct (c : ArtifactCache) : Prop := c.targets.Nodup

theorem distinct_empty : empty.Distinct := List.nodup_nil

theorem Distinct.insert {c : ArtifactCache} (distinct : c.Distinct) (target uri : String) :
    (c.insert target uri).Distinct := nodup_upsert target uri distinct

theorem mem_targets_insert {c : ArtifactCache} {target uri t : String} :
    t ∈ (c.insert target uri).targets ↔ t = target ∨ t ∈ c.targets := by
  unfold targets insert
  rw [keys_upsert]
  split
  · next known =>
    constructor
    · exact .inr
    · rintro (rfl | mem)
      · exact known
      · exact mem
  · rw [List.mem_append, List.mem_singleton, or_comm]

theorem insert_foldl (c : ArtifactCache) (pairs : List (String × String)) :
    pairs.foldl (fun c (target, uri) => c.insert target uri) c =
      ⟨pairs.foldl (fun kept (k, v) => upsert k v kept) c.entries⟩ := by
  induction pairs generalizing c with
  | nil => rfl
  | cons pair pairs ih => exact ih _

theorem distinct_foldl {c : ArtifactCache} (distinct : c.Distinct)
    (pairs : List (String × String)) :
    (pairs.foldl (fun c (target, uri) => c.insert target uri) c).Distinct := by
  induction pairs generalizing c with
  | nil => exact distinct
  | cons pair pairs ih => exact ih (distinct.insert _ _)

theorem Distinct.extend {c : ArtifactCache} (distinct : c.Distinct) (other : ArtifactCache) :
    (c.extend other).Distinct := distinct_foldl distinct other.entries

theorem mem_targets_extend {c other : ArtifactCache} {t : String} :
    t ∈ (c.extend other).targets ↔ t ∈ c.targets ∨ t ∈ other.targets := by
  obtain ⟨pairs⟩ := other
  unfold extend
  induction pairs generalizing c with
  | nil => simp [targets]
  | cons pair pairs ih =>
    obtain ⟨target, uri⟩ := pair
    rw [List.foldl_cons, ih, mem_targets_insert]
    simp only [targets, List.map_cons, List.mem_cons]
    rw [or_comm (a := t = target), or_assoc]

section Lookup

variable {c d : ArtifactCache}

theorem get?_empty (target : String) : empty.get? target = none := rfl

theorem isEmpty_iff : c.isEmpty = true ↔ ∀ target, c.get? target = none := by
  obtain ⟨entries⟩ := c
  cases entries with
  | nil => exact ⟨fun _ _ => rfl, fun _ => rfl⟩
  | cons entry entries =>
    constructor
    · intro none_
      cases none_
    · intro none_
      have here := none_ entry.1
      rw [get?, List.lookup_cons_self] at here
      cases here

theorem lookup_eq_none_of_keys {entries : List (String × String)} {target : String}
    (other : target ∉ entries.map Prod.fst) : entries.lookup target = none := by
  rw [List.lookup_eq_none_iff]
  intro entry mem
  rw [bne_iff_ne]
  rintro rfl
  exact other (List.mem_map_of_mem mem)

theorem get?_extend (distinct : d.Distinct) (target : String) :
    (c.extend d).get? target = (d.get? target).or (c.get? target) := by
  obtain ⟨entries⟩ := d
  rw [Distinct, targets] at distinct
  change (entries.foldl (fun c entry => c.insert entry.1 entry.2) c).get? target =
    (entries.lookup target).or (c.get? target)
  dsimp only at distinct
  induction entries generalizing c with
  | nil => rfl
  | cons entry entries ih =>
    obtain ⟨key, uri⟩ := entry
    rw [List.map_cons, List.nodup_cons] at distinct
    have rest_ := ih (c := c.insert key uri) distinct.2
    rw [get?_insert] at rest_
    rw [List.foldl_cons, rest_, lookup_cons_ite]
    split
    · next same =>
      rw [same, lookup_eq_none_of_keys distinct.1]
      rfl
    · rfl

theorem mem_targets_iff {target : String} : target ∈ c.targets ↔ c.get? target ≠ none := by
  constructor
  · intro mem none_
    obtain ⟨entry, known, rfl⟩ := List.mem_map.1 mem
    rw [get?, List.lookup_eq_none_iff] at none_
    simpa using none_ entry known
  · intro some_
    exact Classical.byContradiction fun other => some_ (lookup_eq_none_of_keys other)

end Lookup

theorem toJsonText_toList (c : ArtifactCache) :
    c.toJsonText.toList = '\x7b' :: Json.stringFields c.entries := by
  have written : c.toJsonText = String.ofList (Text.replaceAll '<' [] "\\u003c".toList
      (Json.compactChars (.obj (Json.strings c.entries)))) := by
    simp [toJsonText, replaceText, Json.compact, Json.strings]
  rw [written, String.toList_ofList, Text.replaceAll_single, ← Json.escapeAngle_compact]
  rfl

theorem toJsonText_clean (c : ArtifactCache) : '<' ∉ c.toJsonText.toList := by
  rw [toJsonText_toList, ← Json.escapeAngle_compact, Json.escapeAngle]
  intro mem
  obtain ⟨d, -, mem⟩ := List.mem_flatMap.1 mem
  split at mem
  · exact absurd mem (by decide)
  · next other => exact other (List.mem_singleton.1 mem).symm

theorem stringFields_getLast (pairs : List (String × String)) :
    (Json.stringFields pairs).getLast? = some '\x7d' := by
  have more : ∀ pairs, (Json.moreStrings pairs).getLast? = some '\x7d' := by
    intro pairs
    induction pairs with
    | nil => rfl
    | cons pair pairs ih =>
      obtain ⟨k, v⟩ := pair
      simp [Json.moreStrings, List.getLast?_append, List.getLast?_cons, ih]
  cases pairs with
  | nil => rfl
  | cons pair pairs =>
    obtain ⟨k, v⟩ := pair
    simp [Json.stringFields, List.getLast?_append, List.getLast?_cons, more]

theorem trimEnd_visible {y : Char} (visible : isBlank y = false) (cs : List Char) :
    Text.trimEnd (cs ++ [y]) = cs ++ [y] := by
  simp [Text.trimEnd, visible]

theorem trim_toJsonText (c : ArtifactCache) : trimBlanks c.toJsonText = c.toJsonText := by
  obtain ⟨last, whole⟩ : ∃ cs, '\x7b' :: Json.stringFields c.entries = cs ++ ['\x7d'] := by
    obtain ⟨cs, same⟩ := List.getLast?_eq_some_iff.1 (stringFields_getLast c.entries)
    exact ⟨'\x7b' :: cs, by rw [same]; rfl⟩
  have start : Text.trimStart c.toJsonText.toList = c.toJsonText.toList := by
    rw [toJsonText_toList]
    rfl
  have stop : Text.trimEnd c.toJsonText.toList = c.toJsonText.toList := by
    rw [toJsonText_toList, whole]
    exact trimEnd_visible (by decide) last
  rw [trimBlanks, Text.trim, start, stop, String.ofList_toList]

theorem addEntries_strings (c : ArtifactCache) (pairs : List (String × String)) :
    c.addEntries (Json.strings pairs) =
      .ok (pairs.foldl (fun c (target, uri) => c.insert target uri) c) := by
  induction pairs generalizing c with
  | nil => rfl
  | cons pair pairs ih => exact ih _

theorem readTable_toJsonText {c : ArtifactCache} (distinct : c.Distinct) :
    readTable c.toJsonText = .ok (Json.strings c.entries) := by
  have parsed := Json.parse_strings distinct
  rw [← toJsonText_toList, String.ofList_toList] at parsed
  have start : (Json.skipBlanks (.ofText c.toJsonText)).rest =
      '\x7b' :: Json.stringFields c.entries := by
    rw [Json.Cursor.ofText, toJsonText_toList, Json.skipBlanks_visible (by decide)]
  unfold readTable
  dsimp only
  split
  · rw [parsed]
    rfl
  · next other =>
    rw [start] at other
    exact absurd rfl (other _)

theorem parse_toJsonText {c : ArtifactCache} (distinct : c.Distinct) : parse c.toJsonText = .ok c := by
  have visible : ¬ c.toJsonText.isEmpty = true := by
    intro blank
    have chars := toJsonText_toList c
    rw [String.isEmpty_iff.1 blank] at chars
    cases chars
  have fresh : c.entries.foldl (fun kept (k, v) => upsert k v kept) empty.entries =
      empty.entries ++ c.entries := foldl_upsert_fresh distinct
  unfold parse
  dsimp only
  rw [trim_toJsonText, if_neg visible, readTable_toJsonText distinct]
  dsimp only
  rw [addEntries_strings, insert_foldl, fresh]
  rfl

theorem refuse_ne_ok {α : Type} {expected : String} {c : Json.Cursor} {a : α} :
    Json.refuse expected c ≠ .ok a := by
  unfold Json.refuse
  intro read
  split at read
  · cases read
  · cases read
  · cases read
  · split at read <;> cases read

theorem parse_quoting {text : String} {c : ArtifactCache} (read : parse text = .ok c) :
    c = empty ∧ (trimBlanks text).toList = [] ∨
      Json.Quoting.outside.run (trimBlanks text).toList = some .outside := by
  unfold parse at read
  dsimp only at read
  split at read
  · next blank =>
    cases read
    exact .inl ⟨rfl, by rw [String.isEmpty_iff.1 blank]; rfl⟩
  · split at read
    · cases read
    · next fields table =>
      unfold readTable at table
      dsimp only at table
      split at table
      · obtain ⟨j, parsed, -⟩ := Json.ok_of_map table
        exact .inr (Json.parse_quoting parsed)
      · exact absurd table refuse_ne_ok

def markerOpen : List Char := "<script type=\"data-urls\">".toList

def markerClose : List Char := "</script>".toList

theorem toMarker_toList (c : ArtifactCache) :
    c.toMarker.toList = markerOpen ++ (c.toJsonText.toList ++ markerClose) := by
  have opens : markerOpen =
      "<script type=\"".toList ++ (cacheMarkerType.toList ++ "\">".toList) := rfl
  have closes : markerClose = "</script>".toList := rfl
  unfold toMarker
  rewrite [opens, closes]
  -- The literals stand for themselves here; left in sight they would be evaluated again and again.
  generalize "<script type=\"" = a
  generalize "\">" = b
  generalize "</script>" = d
  generalize cacheMarkerType = e
  simp

theorem dropWhile_visible {m b : List Char} {x : Char} (visible : isBlank x = false)
    (a : List Char) : ∃ a', (a ++ (x :: m ++ b)).dropWhile isBlank = a' ++ (x :: m ++ b) := by
  induction a with
  | nil => exact ⟨[], by simp [visible]⟩
  | cons c a ih =>
    rw [List.cons_append, List.dropWhile_cons]
    split
    · exact ih
    · exact ⟨c :: a, rfl⟩

theorem trim_around {x y : Char} {m : List Char} (first : isBlank x = false)
    (last : isBlank y = false) (a b : List Char) :
    ∃ a' b', Text.trim (a ++ (x :: m ++ [y] ++ b)) = a' ++ (x :: m ++ [y] ++ b') := by
  have whole : a ++ (x :: m ++ [y] ++ b) = a ++ (x :: (m ++ [y]) ++ b) := by simp
  obtain ⟨a', start⟩ := dropWhile_visible (m := m ++ [y]) (b := b) first a
  have turned : (a' ++ (x :: (m ++ [y]) ++ b)).reverse =
      b.reverse ++ (y :: (m.reverse ++ [x]) ++ a'.reverse) := by simp
  obtain ⟨b', stop⟩ := dropWhile_visible (m := m.reverse ++ [x]) (b := a'.reverse) last b.reverse
  refine ⟨a', b'.reverse, ?_⟩
  rw [Text.trim, Text.trimStart, whole, start, Text.trimEnd, turned, stop]
  simp

theorem run_markerOpen (q : Json.Quoting) : q.run markerOpen = none := by
  cases q <;> decide

theorem not_parse_markerOpen (a b : List Char) (c : ArtifactCache) :
    parse (String.ofList (a ++ (markerOpen ++ b))) ≠ .ok c := by
  have shape : markerOpen = '<' :: "script type=\"data-urls\"".toList ++ ['>'] := rfl
  have trimmed : ∃ a' b', Text.trim (a ++ (markerOpen ++ b)) = a' ++ (markerOpen ++ b') := by
    rw [shape]
    exact trim_around (by decide) (by decide) a b
  obtain ⟨a', b', trimmed⟩ := trimmed
  have run : Json.Quoting.outside.run (a' ++ (markerOpen ++ b')) = none := by
    rw [Json.Quoting.run_append]
    cases Json.Quoting.outside.run a' with
    | none => rfl
    | some q =>
      rw [Option.bind_some, Json.Quoting.run_append, run_markerOpen]
      rfl
  intro read
  have quoting := parse_quoting read
  rw [trimBlanks, String.toList_ofList, String.toList_ofList, trimmed, run] at quoting
  rcases quoting with ⟨-, blank⟩ | passes
  · rw [shape] at blank
    simp at blank
  · cases passes

theorem run_trimStart {cs : List Char} {q : Json.Quoting}
    (run : Json.Quoting.inside.run cs = some q) :
    Json.Quoting.inside.run (Text.trimStart cs) = some q := by
  induction cs with
  | nil => exact run
  | cons c cs ih =>
    rw [Text.trimStart, List.dropWhile_cons]
    split
    · next blank =>
      have quote : c ≠ '"' := by
        rintro rfl
        exact absurd blank (by decide)
      have slash : c ≠ '\\' := by
        rintro rfl
        exact absurd blank (by decide)
      simp only [Json.Quoting.run, Json.Quoting.step, if_neg quote, if_neg slash] at run
      exact ih run
    · exact run

theorem run_after_angle {c : ArtifactCache} {a b : List Char} (distinct : c.Distinct)
    (whole : c.toJsonText.toList = a ++ '>' :: b) :
    Json.Quoting.inside.run b = some .outside := by
  have parsed := Json.parse_strings distinct
  rw [← toJsonText_toList, String.ofList_toList] at parsed
  have run := Json.parse_quoting parsed
  rw [whole, Json.Quoting.run_append] at run
  obtain ⟨q, -, rest⟩ := Option.bind_eq_some_iff.1 run
  cases q with
  | inside => exact rest
  | outside =>
    have refused : Json.Quoting.outside.step '>' = none := by decide
    rw [Json.Quoting.run, refused] at rest
    cases rest
  | escaped =>
    have refused : Json.Quoting.escaped.step '>' = none := by decide
    rw [Json.Quoting.run, refused] at rest
    cases rest

theorem parse_tail {c d : ArtifactCache} {a b : List Char} (distinct : c.Distinct)
    (whole : c.toJsonText.toList = a ++ '>' :: b) (read : parse (String.ofList b) = .ok d) :
    d = empty := by
  rcases parse_quoting read with ⟨same, -⟩ | run
  · exact same
  · have inside := run_trimStart (run_after_angle distinct whole)
    have last : b.getLast? = some '\x7d' := by
      have ends := stringFields_getLast c.entries
      obtain ⟨cs, same⟩ := List.getLast?_eq_some_iff.1 ends
      have written := toJsonText_toList c
      rw [whole, same] at written
      have lasts := congrArg List.getLast? written
      cases b with
      | nil => simp [List.getLast?_append, List.getLast?_cons] at lasts
      | cons e b => simpa [List.getLast?_append, List.getLast?_cons] using lasts
    obtain ⟨b, rfl⟩ := List.getLast?_eq_some_iff.1 last
    have trimmed : (trimBlanks (String.ofList (b ++ ['\x7d']))).toList =
        Text.trimStart (b ++ ['\x7d']) := by
      have visible : isBlank '\x7d' = false := by decide
      obtain ⟨b', start⟩ := dropWhile_visible (m := []) (b := []) visible b
      rw [List.append_nil] at start
      rw [trimBlanks, String.toList_ofList, String.toList_ofList, Text.trim, Text.trimStart, start,
        trimEnd_visible visible]
    rw [trimmed] at run
    rcases Json.Quoting.run_opposite run inside with ⟨-, other⟩ | ⟨other, -⟩
    · cases other
    · cases other

end Playground.ArtifactCache
