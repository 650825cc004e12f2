import Playground.Engine.Basic
import Playground.Resource
import Playground.Url.Parser

/-! Loading engines once. Callers move the state by polling it, in any order. -/

namespace Playground

/-- How a load ends: with a module or a failure, or with the text found under its URL. -/
inductive Arrival
  | module (result : Except EngineLoadError Module)
  | script

/-- Where modules come from. Both answers depend on the URL and on how many loads of it were begun
before. -/
structure ModuleSource where
  /-- How many polls a load leaves unanswered. A load that never ends is one with more of them
  than there are polls. -/
  delay : String → Nat → Nat
  arrival : String → Nat → Arrival

namespace ModuleSource

/-- Modules from a table, ready at once: a failed initialiser makes an engine unavailable. Other
URLs hold scripts, or nothing. -/
def ofTable (table : List (String × Except String Module)) (scripts : Bool) : ModuleSource where
  delay := fun _ _ => 0
  arrival := fun url _ =>
    match table.lookup url with
    | some (.ok module) => .module (.ok module)
    | some (.error message) => .module (.error (.unavailable url message))
    | none => if scripts then .script else .module (.error (.notFound url))

def slowed (source : ModuleSource) (delay failures : String → Nat) : ModuleSource where
  delay := fun url _ => delay url
  arrival := fun url attempt =>
    if attempt < failures url then .module (.error (.fetch url "connection reset"))
    else source.arrival url attempt

end ModuleSource

/-- What was asked of the surroundings, in order. -/
inductive Event
  | load (url : String)
  | fetch (url : String)
  | render (engine : String) (request : RenderRequest)
  | transform (engine source : String)
  deriving DecidableEq, Repr

/-- What a session cannot change: its modules, and the resources as they are now. -/
structure Surroundings where
  modules : ModuleSource
  fetch : Fetcher

abbrev LoadResult := Except EngineLoadError EngineHandle

structure Load where
  url : String
  /-- How many loads of the URL were begun before. -/
  attempt : Nat
  turns : Nat
  result : Option LoadResult

inductive Slot
  | pending (id : Nat)
  | ready (handle : EngineHandle)

structure EngineLoader where
  base : String
  slots : List (String × Slot)
  /-- All loads in the order they were begun; a load's number is its place here. -/
  loads : List Load
  /-- Handles under well-known names, in the order of registration. -/
  scope : List (String × EngineHandle)

/-- What a caller wants: an engine, perhaps under a well-known name. -/
structure LoadCall where
  reference : String
  global : Option String
  deriving DecidableEq, Repr

inductive Waiter
  | unstarted (call : LoadCall)
  | waiting (url : String) (id : Nat) (global : Option String)
  deriving DecidableEq, Repr

namespace EngineLoader

def empty (base : String) : EngineLoader := ⟨base, [], [], []⟩

def resolve (l : EngineLoader) (reference : String) : String := resolveUrl l.base reference

def slot? (l : EngineLoader) (url : String) : Option Slot := l.slots.lookup url

def isLoaded (l : EngineLoader) (reference : String) : Bool :=
  match l.slot? (l.resolve reference) with
  | some (.ready _) => true
  | _ => false

def ensureRegistered (l : EngineLoader) (name : String) (handle : EngineHandle) :
    EngineHandle × EngineLoader :=
  match l.scope.lookup name with
  | some bound => (bound, l)
  | none => (handle, { l with scope := l.scope ++ [(name, handle)] })

/-- Begins a load of a URL whose slot is vacant; answers with its number. It has no bound, where a
counter of 64 bits comes round: a number is compared only with the one a slot holds, and would have to
come back while that load is still under way. -/
def begin_ (l : EngineLoader) (url : String) : Nat × EngineLoader :=
  let id := l.loads.length
  let attempt := (l.loads.filter fun load => load.url == url).length
  (id, { l with
    slots := upsert url (.pending id) l.slots
    loads := l.loads ++ [⟨url, attempt, 0, none⟩] })

def setLoad (l : EngineLoader) (id : Nat) (load : Load) : EngineLoader :=
  { l with loads := l.loads.set id load }

/-- Gives the slot of a finished load its handle, or frees it after a failure. A slot that another
load owns by now is left alone. -/
def settle (l : EngineLoader) (url : String) (id : Nat) (result : LoadResult) : EngineLoader :=
  match l.slot? url with
  | some (.pending owner) =>
    if owner = id then
      match result with
      | .ok handle => { l with slots := upsert url (.ready handle) l.slots }
      | .error _ => { l with slots := l.slots.filter fun (u, _) => u != url }
    else l
  | _ => l

def deliver (l : EngineLoader) (global : Option String) (result : LoadResult) :
    LoadResult × EngineLoader :=
  match result, global with
  | .ok handle, some name =>
    let (bound, l) := l.ensureRegistered name handle
    (.ok bound, l)
  | result, _ => (result, l)

end EngineLoader

def Load.arrive (load : Load) (env : Surroundings) : LoadResult × List Event :=
  match env.modules.arrival load.url load.attempt with
  | .module (.ok module) => (.ok ⟨load.url, module⟩, [])
  | .module (.error error) => (.error error, [])
  | .script =>
    match env.fetch.answer (.load load.attempt) load.url with
    | .ok text => (.ok ⟨load.url, .script text⟩, [.fetch load.url])
    | .error error => (.error (.fetch load.url error.message), [.fetch load.url])

end Playground
