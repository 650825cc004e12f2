import Playground.Config.Basic
import Playground.Json.Fields
import Playground.Json.Record

/-! Configuration as JSON. -/

namespace Playground

def Json.field {σ α : Type} (read : Json.Cursor → Except Json.Fault (α × Json.Cursor))
    (put : α → σ) (c : Json.Cursor) : Except Json.Fault (σ × Json.Cursor) :=
  (read c).map fun (value, after) => (put value, after)

namespace CacheConfig

def fieldNames : List String := ["max_capacity", "ttl_secs"]

def toJson (c : CacheConfig) : Json :=
  .obj [("max_capacity", .int c.maxCapacity.toNat), ("ttl_secs", .int c.ttlSecs.toNat)]

def readField (name : String) (c : CacheConfig) :
    Json.Cursor → Except Json.Fault (CacheConfig × Json.Cursor) :=
  if name = "max_capacity" then
    Json.field Json.readNaturalValue fun n => { c with maxCapacity := .ofNat n }
  else Json.field Json.readNaturalValue fun n => { c with ttlSecs := .ofNat n }

def read (depth : Nat) (c : Json.Cursor) : Except Json.Fault (CacheConfig × Json.Cursor) :=
  (Json.readRecord "struct CacheConfig" depth fieldNames readField standard c).map
    fun (config, _, after) => (config, after)

def ofJson? (j : Json) : Option CacheConfig := do
  match ← j.recordWithDefaults? fieldNames with
  | [capacity, ttl] =>
    let capacity ← Json.given? Json.natural? standard.maxCapacity.toNat capacity
    let ttl ← Json.given? Json.natural? standard.ttlSecs.toNat ttl
    return ⟨.ofNat capacity, .ofNat ttl⟩
  | _ => none

end CacheConfig

namespace LanguageSettings

def toJson (s : LanguageSettings) : Json := .obj s.entries

def read (depth : Nat) (c : Json.Cursor) : Except Json.Fault (LanguageSettings × Json.Cursor) :=
  let value (c : Json.Cursor) := (Json.readValue (Json.stepsFor c) (depth - 1) c).map
    fun (options, after) => (options.collapse, after)
  (Json.readPairs "a map" depth value c).map fun (pairs, after) => (ofList pairs, after)

def ofJson? : Json → Option LanguageSettings
  | .obj fields => some (ofList fields)
  | _ => none

end LanguageSettings

namespace Config

def fieldNames : List String := ["vendors_base_url", "use_worker", "custom_settings", "cache"]

def toJson (c : Config) : Json :=
  .obj [("vendors_base_url", .str c.vendorsBaseUrl), ("use_worker", .bool c.useWorker),
    ("custom_settings", c.customSettings.toJson), ("cache", c.cache.toJson)]

def readField (depth : Nat) (name : String) (c : Config) :
    Json.Cursor → Except Json.Fault (Config × Json.Cursor) :=
  if name = "vendors_base_url" then
    Json.field Json.readStringValue fun url => { c with vendorsBaseUrl := url }
  else if name = "use_worker" then
    Json.field Json.readBoolValue fun use => { c with useWorker := use }
  else if name = "custom_settings" then
    Json.field (LanguageSettings.read depth) fun s => { c with customSettings := s }
  else Json.field (CacheConfig.read depth) fun cache => { c with cache := cache }

def read (depth : Nat) (c : Json.Cursor) : Except Json.Fault (Config × Json.Cursor) :=
  (Json.readRecord "struct Config" depth fieldNames (readField (depth - 1)) standard c).map
    fun (config, _, after) => (config, after)

def ofJsonText (text : String) : Except Json.Fault Config :=
  Json.readWhole (read Json.depthLimit) text

def ofJson? (j : Json) : Option Config := do
  match ← j.recordWithDefaults? fieldNames with
  | [url, use, settings, cache] =>
    return {
      vendorsBaseUrl := ← Json.given? Json.string? standard.vendorsBaseUrl url
      useWorker := ← Json.given? Json.bool? standard.useWorker use
      customSettings := ← Json.given? LanguageSettings.ofJson? standard.customSettings settings
      cache := ← Json.given? CacheConfig.ofJson? standard.cache cache }
  | _ => none

end Config

end Playground
