import Playground.Compile.Host
import Playground.ContentKey
import Playground.Json.Printer
import Playground.Number.Binary64
import Playground.TimedCache

/-! Workers: primary passes on a host of their own, and a cache of their clean results. -/

namespace Playground

inductive WorkerInput
  | compile (id : Nat) (language source : String) (config : Config)
  | clearCache

inductive WorkerOutput
  /-- The number is that of the request; a cached result took no time. -/
  | compiled (id : Nat) (result : Except CompileError Compiled) (milliseconds : Binary64)
      (cached : Bool)
  | cacheCleared

structure CompileWorker where
  host : Host
  cache : TimedCache Compiled

/-- What a primary pass depends on. -/
def cacheKey (language source : String) (config : Config) : String :=
  ContentKey.ofTexts [language, source, (config.settingsFor language).compact]

namespace CompileWorker

def new? (host : Host) (cache : CacheConfig) : Option CompileWorker :=
  (TimedCache.new? cache.ttlSecs.toNat).map fun cache => ⟨host, cache⟩

/-- Whether a result stays right for as long as the source stays the same. -/
def isLasting (source : String) (c : Compiled) : Bool :=
  c.warnings.isEmpty && !referencesExternal source

def keep (w : CompileWorker) (key source : String) (result : Except CompileError Compiled) :
    CompileWorker :=
  match result with
  | .ok c => if isLasting source c then { w with cache := w.cache.insert key c } else w
  | .error _ => w

def handle (env : Surroundings) (input : WorkerInput) (w : CompileWorker) :
    WorkerOutput × CompileWorker :=
  match input with
  | .clearCache => (.cacheCleared, { w with cache := w.cache.clear })
  | .compile id language source config =>
    let key := cacheKey language source config
    match w.cache.get? key with
    | some c => (.compiled id (.ok c) .zero true, w)
    | none =>
      let (result, host) := w.host.compilePrimary env language source config
      (.compiled id result .zero false, { w with host := host }.keep key source result)

end CompileWorker

end Playground
