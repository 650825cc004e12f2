import Playground.Proofs.Graph.MarkerTables

/-! A cache and what was put into it. -/

namespace Playground

namespace ArtifactCache

/-- All pairs of the object that a text holds, repeated keys with each of their values. -/
def membersOf (text : String) : List (String × Json) :=
  match Json.parseTree (trimBlanks text) with
  | .ok (.obj members) => members
  | _ => []

/-- Caches that operations bring about, with all that was put into them since they were last
replaced, the latest last. What another cache brings along is what was put into that one. -/
inductive History : ArtifactCache → List (String × Json) → Prop
  | empty : History .empty []
  | insert {c : ArtifactCache} {log : List (String × Json)} (target uri : String)
      (before : History c log) : History (c.insert target uri) (log ++ [(target, .str uri)])
  | insertRendered {c : ArtifactCache} {log : List (String × Json)} (target : String) (r : Rendered)
      (before : History c log) :
      History (c.insertRendered target r) (log ++ [(target, .str r.toDataUri)])
  | extend {c other : ArtifactCache} {log more : List (String × Json)} (before : History c log)
      (added : History other more) : History (c.extend other) (log ++ more)
  | parse {c : ArtifactCache} {text : String} (read : ArtifactCache.parse text = .ok c) :
      History c (membersOf text)

theorem History.reachable {c : ArtifactCache} {log : List (String × Json)}
    (history : c.History log) : c.Reachable := by
  induction history with
  | empty => exact .empty
  | insert target uri _ before => exact before.insert target uri
  | insertRendered target r _ before => exact before.insertRendered target r
  | extend _ _ before added => exact before.extend added
  | parse read => exact .parse read

/-- A cache lists the targets of a log in the order of their first entries, with their last values. -/
structure Keeps (c : ArtifactCache) (log : List (String × Json)) : Prop where
  targets : c.targets = (log.map Prod.fst).eraseDups
  latest : ∀ target, (c.get? target).map Json.str = lastValue? target log

namespace Keeps

variable {c other : ArtifactCache} {log more : List (String × Json)}

theorem empty : Keeps .empty [] := ⟨List.eraseDups_nil.symm, fun _ => rfl⟩

theorem insert (keeps : c.Keeps log) (target uri : String) :
    (c.insert target uri).Keeps (log ++ [(target, .str uri)]) where
  targets := by
    rw [List.map_append]
    exact keys_upsert_eraseDups keeps.targets target uri
  latest t := by
    rw [get?_insert, lastValue?_concat, ← keeps.latest]
    split <;> rfl

theorem extend (keeps : c.Keeps log) (distinct : other.Distinct) (added : other.Keeps more) :
    (c.extend other).Keeps (log ++ more) where
  targets := by
    have whole := congrArg entries (insert_foldl c other.entries)
    have keys : other.entries.map Prod.fst = (more.map Prod.fst).eraseDups := added.targets
    rw [ArtifactCache.targets, ArtifactCache.extend, whole, keys_foldl_upsert keeps.targets, keys,
      eraseDups_append_eraseDups, List.map_append]
  latest t := by
    rw [get?_extend distinct, lastValue?_append, ← keeps.latest, ← added.latest]
    cases other.get? t <;> rfl

theorem parse {text : String} (read : ArtifactCache.parse text = .ok c) : c.Keeps (membersOf text) := by
  by_cases nothing : (trimBlanks text).isEmpty = true
  · have none_ : c = .empty := by
      rw [ArtifactCache.parse] at read
      exact (Except.ok.inj ((if_pos nothing).symm.trans read)).symm
    have nowhere : membersOf text = [] := by
      rw [membersOf, String.isEmpty_iff.1 nothing]
      rfl
    rw [none_, nowhere]
    exact empty
  · obtain ⟨members, tree, same⟩ := (parse_visible_iff nothing).1 read
    have here : membersOf text = members := by rw [membersOf, Json.parseTree_eq_ok_iff.2 tree]
    have keys : (Json.collapseFields members).map Prod.fst = members.map Prod.fst := by
      rw [Json.collapseFields_eq_map, List.map_map]
      rfl
    rw [here]
    refine ⟨?_, fun t => (Json.map_collapse_eq_str.1 ?_).symm⟩
    · rw [ArtifactCache.targets, ← keys_strings, ← same, keys_collapsePairs, keys]
    · rw [← lookup_merged, same]
      exact lookup_map_value Json.str c.entries t

end Keeps

theorem History.keeps {c : ArtifactCache} {log : List (String × Json)} (history : c.History log) :
    c.Keeps log := by
  induction history with
  | empty => exact .empty
  | insert target uri _ keeps => exact keeps.insert target uri
  | insertRendered target r _ keeps => exact keeps.insert target r.toDataUri
  | extend _ added keeps more => exact keeps.extend added.reachable.distinct more
  | parse read => exact .parse read

/-- A cache is a map in the order of insertion. Its targets are distinct and stand in the order in
which they were first put in; each has the URI that was put in last, and only targets that were put
in have one. Another cache's entries go before its own when they are taken in. -/
theorem insertion_ordered {c : ArtifactCache} {log : List (String × Json)}
    (history : c.History log) :
    c.targets.Nodup ∧ c.targets = (log.map Prod.fst).eraseDups ∧
      (∀ target, (c.get? target).map Json.str = lastValue? target log) ∧
      (∀ target, c.get? target = none ↔ target ∉ log.map Prod.fst) ∧
      c.size = c.targets.length ∧
      ∀ other more, other.History more →
        ∀ target, (c.extend other).get? target = (other.get? target).or (c.get? target) := by
  have keeps := history.keeps
  refine ⟨history.reachable.distinct, keeps.targets, keeps.latest, fun target => ?_,
    (List.length_map Prod.fst).symm, fun other more added => get?_extend added.reachable.distinct⟩
  rw [← lastValue?_eq_none_iff, ← keeps.latest, Option.map_eq_none_iff]

theorem repeated_target_ordered :
    ∃ c log, History c log ∧ log.map Prod.fst = ["a", "b", "a", "b", "c"] ∧
      c.targets = ["a", "b", "c"] ∧ c.get? "b" = some "y" := by
  obtain ⟨text, read, keys⟩ : ∃ text, (ArtifactCache.parse text).isOk = true ∧
      (membersOf text).map Prod.fst = ["a", "b", "a"] :=
    ⟨"\x7b\"a\":1,\"b\":\"x\",\"a\":\"z\"\x7d", by decide +kernel, by decide +kernel⟩
  cases parsed : ArtifactCache.parse text with
  | error e =>
    rw [parsed] at read
    cases read
  | ok c =>
    have history := ((History.parse parsed).insert "b" "y").insert "c" "w"
    obtain ⟨-, targets, latest, -⟩ := insertion_ordered history
    have value := latest "b"
    rw [lastValue?_concat, lastValue?_concat] at value
    rw [List.map_append, List.map_append, keys] at targets
    refine ⟨_, _, history, ?_, targets.trans (by decide),
      Option.map_injective (fun _ _ => Json.str.inj) value⟩
    rw [List.map_append, List.map_append, keys]
    rfl

end ArtifactCache

end Playground
