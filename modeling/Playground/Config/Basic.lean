import Playground.Json.Basic

/-! Configuration: where engines come from, whether to use a worker, and options by language. -/

namespace Playground

/-- The worker's table of results. -/
structure CacheConfig where
  maxCapacity : UInt64
  ttlSecs : UInt64
  deriving DecidableEq, Repr

/-- Options by language, each language once. -/
structure LanguageSettings where
  entries : List (String × Json)
  distinct : (entries.map Prod.fst).Nodup

structure Config where
  vendorsBaseUrl : String
  useWorker : Bool
  customSettings : LanguageSettings
  cache : CacheConfig

namespace LanguageSettings

def empty : LanguageSettings := ⟨[], .nil⟩

def insert (s : LanguageSettings) (language : String) (options : Json) : LanguageSettings :=
  ⟨upsert language options s.entries, nodup_upsert language options s.distinct⟩

def ofList (pairs : List (String × Json)) : LanguageSettings :=
  pairs.foldl (fun s (language, options) => s.insert language options) empty

def get? (s : LanguageSettings) (language : String) : Option Json := s.entries.lookup language

end LanguageSettings

namespace CacheConfig

def standard : CacheConfig := ⟨200, 3600⟩

end CacheConfig

namespace Config

def defaultVendorsBaseUrl : String :=
  "https://cdn.jsdelivr.net/npm/@live-codes/browser-compilers@0.1.0/dist/"

def standard : Config := ⟨defaultVendorsBaseUrl, true, .empty, .standard⟩

def settingsFor (c : Config) (language : String) : Json :=
  (c.customSettings.get? language).getD .emptyObject

/-- The settings of a language laid over defaults, one level deep; null settings say nothing. -/
def layered (defaults settings : Json) : Json :=
  match defaults, settings with
  | .obj base, .obj fields => .obj (fields.foldl (fun all (name, value) => upsert name value all) base)
  | base, .null => base
  | _, other => other

def optionsFor (c : Config) (language : String) (defaults : Json) : Json :=
  layered defaults (c.settingsFor language)

end Config

end Playground
