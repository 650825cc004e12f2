import Playground.Proofs.Graph.MarkerText
import Playground.Proofs.Pairs

/-! The table that the body of a cache marker holds, by the grammar (`HoldsTable`) and as it is
read. -/

namespace Playground

namespace Json

theorem collapseFields_eq_map (fields : List (String × Json)) :
    collapseFields fields = fields.map fun field => (field.1, field.2.collapse) := by
  induction fields with
  | nil => rfl
  | cons field fields ih =>
    obtain ⟨k, v⟩ := field
    rw [collapseFields, ih, List.map_cons]

theorem collapse_eq_str {j : Json} {s : String} : j.collapse = .str s ↔ j = .str s := by
  cases j <;> simp [collapse]

theorem map_collapse_eq_str {value : Option Json} {text : Option String} :
    value.map collapse = text.map .str ↔ value = text.map .str := by
  cases value with
  | none => cases text <;> simp
  | some j =>
    cases text with
    | none => simp
    | some s => simp [collapse_eq_str]

theorem SpellsBy.isObject_iff {j : Json} {cs : List Char} (held : Holds (.value j) cs) :
    (∃ members, j = .obj members) ↔ ∃ more, cs = '\x7b' :: more := by
  cases held with
  | number number read =>
    refine iff_of_false ?_ ?_
    · rintro ⟨members, rfl⟩
      have flat := read.nesting
      rw [nesting] at flat
      cases flat
    · rintro ⟨more, rfl⟩
      rcases number with ⟨whole, fraction, exponent, isWhole, -, -, same⟩ | ⟨magnitude, -, same⟩
      · obtain ⟨d, later, rfl, digit⟩ := whole_head isWhole
        exact digit_ne digit rfl (List.cons.inj same).1.symm
      · exact absurd (List.cons.inj same).1 (by decide)
  | noFields | obj => exact iff_of_true ⟨_, rfl⟩ ⟨_, rfl⟩
  | null | yes | no | str | noItems | arr =>
    refine iff_of_false ?_ ?_
    · rintro ⟨members, ⟨⟩⟩
    · rintro ⟨more, same⟩
      exact absurd (List.cons.inj same).1 (by decide)

theorem IsTextOf.isObject_iff {text : String} {j : Json} (held : IsTextOf text.toList j) :
    (∃ members, j = .obj members) ↔
      ∃ more, (skipBlanks (.ofText text)).rest = '\x7b' :: more := by
  obtain ⟨before, cs, after, shape, blank, -, spelled, -⟩ := held
  obtain ⟨d, more, rfl, visible, -⟩ := spelled.value_head
  obtain ⟨p, skip⟩ := skipBlanks_blank blank visible (more ++ after) 0
  rw [spelled.isObject_iff, Cursor.ofText, shape, List.cons_append, skip]
  simp

end Json

namespace ArtifactCache

open Json (strings)

theorem readTable_ok_iff {text : String} {fields : List (String × Json)} :
    readTable text = .ok fields ↔
      ∃ members, Json.IsTextOf text.toList (.obj members) ∧
        fields = collapsePairs (Json.collapseFields members) := by
  have begins := fun j => @Json.IsTextOf.isObject_iff text j
  simp only [← Json.parseTree_eq_ok_iff] at begins ⊢
  unfold readTable
  dsimp only
  split
  · next more rest =>
    rw [Json.parse]
    cases tree : Json.parseTree text with
    | error fault => simp [Except.map]
    | ok j =>
      obtain ⟨members, rfl⟩ := (begins j tree).2 ⟨more, rest⟩
      simp [Except.map, Json.collapse, eq_comm]
  · next other =>
    refine iff_of_false refuse_ne_ok ?_
    rintro ⟨members, tree, -⟩
    obtain ⟨more, rest⟩ := (begins _ tree).1 ⟨members, rfl⟩
    exact other more rest

theorem addEntries_ok_iff {c d : ArtifactCache} {fields : List (String × Json)} :
    c.addEntries fields = .ok d ↔
      ∃ pairs, fields = strings pairs ∧
        d = pairs.foldl (fun c (target, uri) => c.insert target uri) c := by
  constructor
  · intro read
    induction fields generalizing c with
    | nil =>
      cases read
      exact ⟨[], rfl, rfl⟩
    | cons field fields ih =>
      obtain ⟨target, value⟩ := field
      cases value with
      | str uri =>
        obtain ⟨pairs, rfl, rfl⟩ := ih read
        exact ⟨(target, uri) :: pairs, rfl, rfl⟩
      | null | bool | int | float | arr | obj => cases read
  · rintro ⟨pairs, rfl, rfl⟩
    exact addEntries_strings c pairs

theorem foldl_insert_distinct {pairs : List (String × String)}
    (distinct : (pairs.map Prod.fst).Nodup) :
    pairs.foldl (fun c (target, uri) => c.insert target uri) empty = ⟨pairs⟩ := by
  rw [insert_foldl]
  exact congrArg mk (foldl_upsert_fresh distinct)

theorem keys_strings (pairs : List (String × String)) :
    (strings pairs).map Prod.fst = pairs.map Prod.fst := by
  rw [strings, List.map_map]
  rfl

theorem parse_visible_iff {body : String} (visible : ¬ (trimBlanks body).isEmpty = true)
    {cache : ArtifactCache} :
    parse body = .ok cache ↔
      ∃ members, Json.IsTextOf (trimBlanks body).toList (.obj members) ∧
        collapsePairs (Json.collapseFields members) = strings cache.entries := by
  have whole : parse body = .ok cache ↔
      ∃ fields, readTable (trimBlanks body) = .ok fields ∧ empty.addEntries fields = .ok cache := by
    unfold parse
    dsimp only
    rw [if_neg visible]
    cases readTable (trimBlanks body) <;> simp
  rw [whole]
  constructor
  · rintro ⟨fields, table, added⟩
    obtain ⟨members, tree, rfl⟩ := readTable_ok_iff.1 table
    obtain ⟨pairs, same, rfl⟩ := addEntries_ok_iff.1 added
    have distinct := collapsePairs_nodup (Json.collapseFields members)
    rw [same, keys_strings] at distinct
    exact ⟨members, tree, by rw [foldl_insert_distinct distinct, same]⟩
  · rintro ⟨members, tree, same⟩
    have distinct := collapsePairs_nodup (Json.collapseFields members)
    rw [same, keys_strings] at distinct
    refine ⟨_, readTable_ok_iff.2 ⟨members, tree, rfl⟩, addEntries_ok_iff.2 ⟨_, same, ?_⟩⟩
    rw [foldl_insert_distinct distinct]

theorem lookup_merged (members : List (String × Json)) (key : String) :
    (collapsePairs (Json.collapseFields members)).lookup key =
      (lastValue? key members).map Json.collapse := by
  rw [lookup_collapsePairs, Json.collapseFields_eq_map, lastValue?_map]

end ArtifactCache

end Playground
