import Playground.Config.File
import Playground.Proofs.Files
import Playground.Proofs.Json.Records

/-! A configuration that is saved as JSON is loaded as it was. -/

namespace Playground

open Json (Takes Fills)

theorem Json.takes_field {σ α : Type} {read : Json.Cursor → Except Json.Fault (α × Json.Cursor)}
    {j : Json} {a : α} (takes : Takes read j a) (put : α → σ) :
    Takes (Json.field read put) j (put a) := takes.map put

namespace CacheConfig

theorem fills (c : CacheConfig) : Fills fieldNames readField
    [("max_capacity", .int c.maxCapacity.toNat), ("ttl_secs", .int c.ttlSecs.toNat)] standard c := by
  have capacity : Takes (readField "max_capacity" standard) (.int c.maxCapacity.toNat)
      { standard with maxCapacity := c.maxCapacity } := by
    have taken := Json.takes_field (Json.takes_natural c.maxCapacity.toNat_lt)
      fun n => { standard with maxCapacity := .ofNat n }
    rwa [UInt64.ofNat_toNat] at taken
  have ttl : Takes (readField "ttl_secs" { standard with maxCapacity := c.maxCapacity })
      (.int c.ttlSecs.toNat) c := by
    have taken := Json.takes_field (Json.takes_natural c.ttlSecs.toNat_lt)
      fun n => { maxCapacity := c.maxCapacity, ttlSecs := .ofNat n : CacheConfig }
    rwa [UInt64.ofNat_toNat] at taken
  exact .field (by decide) capacity (.field (by decide) ttl .done)

theorem takes_read (c : CacheConfig) {depth : Nat} (room : 1 < depth) :
    Takes (read depth) c.toJson c :=
  Json.takes_record c.fills (show fieldNames.Nodup by decide) room _

end CacheConfig

namespace LanguageSettings

theorem entries_foldl (pairs : List (String × Json)) (s : LanguageSettings) :
    (pairs.foldl (fun s (language, options) => s.insert language options) s).entries =
      pairs.foldl (fun kept (language, options) => upsert language options kept) s.entries := by
  induction pairs generalizing s with
  | nil => rfl
  | cons pair pairs ih => exact ih _

theorem eq_of_entries {s t : LanguageSettings} (same : s.entries = t.entries) : s = t := by
  obtain ⟨_, _⟩ := s
  obtain ⟨_, _⟩ := t
  cases same
  rfl

theorem ofList_entries (s : LanguageSettings) : ofList s.entries = s := by
  refine eq_of_entries ?_
  rw [ofList, entries_foldl]
  exact collapsePairs_distinct s.distinct

/-- All settings have only whole numbers, those that can be held, and nest at most so deep. -/
def AreExact (s : LanguageSettings) (depth : Nat) : Prop :=
  ∀ entry ∈ s.entries, entry.2.IsExact ∧ entry.2.nesting ≤ depth

theorem takes_read {s : LanguageSettings} {depth : Nat} (exact_ : s.AreExact depth) :
    Takes (read (depth + 2)) s.toJson s := by
  have taken := (Json.takes_pairs (fun entry mem => Json.takes_collapsed (exact_ entry mem).1
    (Nat.lt_succ_of_le (exact_ entry mem).2)) (by omega : 1 < depth + 2) "a map").map ofList
  rwa [ofList_entries] at taken

end LanguageSettings

namespace Config

theorem fills (c : Config) {depth : Nat} (exact_ : c.customSettings.AreExact depth) :
    Fills fieldNames (readField (depth + 2))
      [("vendors_base_url", .str c.vendorsBaseUrl), ("use_worker", .bool c.useWorker),
        ("custom_settings", c.customSettings.toJson), ("cache", c.cache.toJson)] standard c := by
  have url : Takes (readField (depth + 2) "vendors_base_url" standard) (.str c.vendorsBaseUrl)
      { standard with vendorsBaseUrl := c.vendorsBaseUrl } := by
    have taken := Json.takes_field (Json.takes_string c.vendorsBaseUrl)
      fun url => { standard with vendorsBaseUrl := url }
    exact taken
  have use : ∀ base : Config, Takes (readField (depth + 2) "use_worker" base) (.bool c.useWorker)
      { base with useWorker := c.useWorker } := by
    intro base
    have taken := Json.takes_field (Json.takes_bool c.useWorker)
      fun use => { base with useWorker := use }
    exact taken
  have settings : ∀ base : Config, Takes (readField (depth + 2) "custom_settings" base)
      c.customSettings.toJson { base with customSettings := c.customSettings } := by
    intro base
    have taken := Json.takes_field (LanguageSettings.takes_read exact_)
      fun s => { base with customSettings := s }
    exact taken
  have cache : ∀ base : Config, Takes (readField (depth + 2) "cache" base) c.cache.toJson
      { base with cache := c.cache } := by
    intro base
    have taken := Json.takes_field (c.cache.takes_read (by omega : 1 < depth + 2))
      fun cache => { base with cache := cache }
    exact taken
  exact .field (by decide) url (.field (by decide) (use _) (.field (by decide) (settings _)
    (.field (by decide) (cache _) .done)))

theorem takes_read {c : Config} {depth : Nat} (exact_ : c.customSettings.AreExact depth) :
    Takes (read (depth + 3)) c.toJson c :=
  Json.takes_record (c.fills exact_) (show fieldNames.Nodup by decide) (by omega) _

theorem ofJsonText_pretty {c : Config} (exact_ : c.customSettings.AreExact 125) :
    ofJsonText c.toJson.pretty = .ok c := by
  refine Json.readWhole_spelled (takes_read exact_) ?_
  rw [Json.pretty, String.toList_ofList]
  exact Json.spells_pretty 0 c.toJson

/-- A configuration comes back from the file it was saved to, if there can be a file. Its settings
have to be without fractions, as deep as a file can hold. -/
theorem load_saved {c : Config} (exact_ : c.customSettings.AreExact 125) {path : String}
    (json : ConfigFormat.ofPath? path = .ok .json) {tree : FileTree}
    (writable : ∃ other, tree.write path [] = .ok other) :
    ∃ saved, c.save tree path = .ok saved ∧ load saved path = .ok c := by
  obtain ⟨saved, written, kept⟩ := FileTree.read_write writable (bytesOf c.toJson.pretty)
  have text : saved.readText path = .ok c.toJson.pretty := by
    rw [FileTree.readText, kept]
    simp only [bind, Except.bind, textOf?_bytesOf]
  refine ⟨saved, ?_, ?_⟩
  · simp only [save, json, bind, Except.bind, ConfigFormat.write?, FileTree.writeText, written,
      Except.mapError]
  · simp only [load, json, bind, Except.bind, text, Except.mapError, ConfigFormat.read?,
      ofJsonText_pretty exact_]

/-- Settings with empty lists and objects, with the least and the greatest number, and with keys that
need escapes or lie beyond the first 2^16 characters. -/
def strangeSettings : LanguageSettings where
  entries := [("\"\\\n", .obj [("", .arr []), ("\x01", .arr [.obj [], .int (-(2 ^ 63)), .null])]),
    ("𝄞", .int (2 ^ 64 - 1))]
  distinct := by decide

theorem strange_loaded :
    let c : Config := ⟨"é</script>", false, strangeSettings, ⟨0, 18446744073709551615⟩⟩
    ∃ saved, c.save .empty "config.json" = .ok saved ∧ load saved "config.json" = .ok c := by
  have exact_ : strangeSettings.AreExact 125 := by
    intro entry mem
    simp only [strangeSettings, List.mem_cons, List.not_mem_nil, or_false] at mem
    rcases mem with rfl | rfl <;>
      simp [Json.IsExact, Json.AreExact, Json.HaveExact, Json.nesting, Json.nestingItems,
        Json.nestingFields]
  exact load_saved exact_ (by decide +kernel) ⟨_, rfl⟩

end Config

end Playground
