import Playground.Loader.Basic

/-! Sessions: a loader, and a record of everything asked of the surroundings. -/

namespace Playground

structure Session where
  loader : EngineLoader
  trace : List Event

namespace Session

def new (base : String) : Session := ⟨.empty base, []⟩

def record (s : Session) (events : List Event) : Session := { s with trace := s.trace ++ events }

def withLoader (s : Session) (l : EngineLoader) : Session := { s with loader := l }

def requestCount (s : Session) (url : String) : Nat :=
  (s.trace.filter (· == Event.fetch url)).length

def ask (env : Surroundings) (asker : Asker) (url : String) (s : Session) :
    Except FetchError String × Session :=
  (env.fetch.answer asker url, s.record [.fetch url])

def fetch (env : Surroundings) (url : String) (s : Session) : Except FetchError String × Session :=
  s.ask env (.load 0) url

/-- Where a call stands once it has looked at the names and at its URL's slot. -/
inductive Entry
  | done (result : LoadResult)
  | waiting (url : String) (id : Nat)

/-- Finds the engine a call asks for, or the load to wait for, which is begun if need be. -/
def enter (call : LoadCall) (s : Session) : Entry × Session :=
  match call.global.bind fun name => s.loader.scope.lookup name with
  | some handle => (.done (.ok handle), s)
  | none =>
    let url := s.loader.resolve call.reference
    match s.loader.slot? url with
    | some (.ready handle) =>
      let (result, loader) := s.loader.deliver call.global (.ok handle)
      (.done result, s.withLoader loader)
    | some (.pending id) => (.waiting url id, s)
    | none =>
      let (id, loader) := s.loader.begin_ url
      (.waiting url id, (s.withLoader loader).record [.load url])

/-- Ends a load unless it has ended; `wait` tells whether unanswered polls are sat out. None while
the load is pending. -/
def advance (env : Surroundings) (wait : Bool) (id : Nat) (s : Session) :
    Option LoadResult × Session :=
  match s.loader.loads[id]? with
  | none => (none, s)
  | some load =>
    match load.result with
    | some result => (some result, s)
    | none =>
      if !wait && load.turns < env.modules.delay load.url load.attempt then
        (none, s.withLoader (s.loader.setLoad id { load with turns := load.turns + 1 }))
      else
        let (result, events) := load.arrive env
        (some result,
          (s.withLoader (s.loader.setLoad id { load with result := some result })).record events)

/-- Settles the slot of a load that has ended and hands its result to a caller. -/
def conclude (url : String) (id : Nat) (global : Option String) (result : LoadResult)
    (s : Session) : LoadResult × Session :=
  let (result, loader) := (s.loader.settle url id result).deliver global result
  (result, s.withLoader loader)

def poll (env : Surroundings) (w : Waiter) (s : Session) : (LoadResult ⊕ Waiter) × Session :=
  match w with
  | .unstarted call =>
    match enter call s with
    | (.done result, s) => (.inl result, s)
    | (.waiting url id, s) => pollLoad url id call.global s
  | .waiting url id global => pollLoad url id global s
where
  pollLoad (url : String) (id : Nat) (global : Option String) (s : Session) :
      (LoadResult ⊕ Waiter) × Session :=
    match advance env false id s with
    | (none, s) => (.inr (.waiting url id global), s)
    | (some result, s) =>
      let (result, s) := conclude url id global result s
      (.inl result, s)

def loadCall (env : Surroundings) (call : LoadCall) (s : Session) : LoadResult × Session :=
  match enter call s with
  | (.done result, s) => (result, s)
  | (.waiting url id, s) =>
    match advance env true id s with
    | (some result, s) => conclude url id call.global result s
    | (none, s) => (.error (.notFound url), s)

def load (env : Surroundings) (reference : String) (s : Session) : LoadResult × Session :=
  loadCall env ⟨reference, none⟩ s

def loadGlobal (env : Surroundings) (reference name : String) (s : Session) :
    LoadResult × Session :=
  loadCall env ⟨reference, some name⟩ s

def pollRound (env : Surroundings) : List (LoadResult ⊕ Waiter) → Session →
    List (LoadResult ⊕ Waiter) × Session
  | [], s => ([], s)
  | .inl result :: more, s =>
    let (rest, s) := pollRound env more s
    (.inl result :: rest, s)
  | .inr w :: more, s =>
    let (now, s) := poll env w s
    let (rest, s) := pollRound env more s
    (now :: rest, s)

def pollAll (env : Surroundings) : Nat → List (LoadResult ⊕ Waiter) → Session →
    List (LoadResult ⊕ Waiter) × Session
  | 0, waiters, s => (waiters, s)
  | fuel + 1, waiters, s =>
    if waiters.all Sum.isLeft then (waiters, s)
    else
      let (waiters, s) := pollRound env waiters s
      pollAll env fuel waiters s

def pollsLeft (env : Surroundings) (s : Session) : LoadResult ⊕ Waiter → Nat
  | .inr (.waiting _ id _) =>
    match s.loader.loads[id]? with
    | some load => env.modules.delay load.url load.attempt - load.turns + 1
    | none => 0
  | _ => 0

def joinLoads (env : Surroundings) (references : List String) (s : Session) :
    List LoadResult × Session :=
  let waiters := references.map fun reference => Sum.inr (Waiter.unstarted ⟨reference, none⟩)
  let (waiters, s) := pollRound env waiters s
  let (waiters, s) := pollAll env (waiters.foldl (fun sum waiter => sum + pollsLeft env s waiter) 0) waiters s
  (waiters.filterMap Sum.getLeft?, s)

end Session

end Playground
