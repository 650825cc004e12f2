import Playground.Worker.Debug

/-! The channel to a worker that many callers share. Its steps may come in between each other
anywhere. -/

namespace Playground

/-- A message, and the ticket its sender waits with. -/
structure Envelope where
  ticket : Nat
  input : WorkerInput

structure WorkerChannel where
  worker : CompileWorker
  /-- What was sent and not handled, the oldest first. -/
  queue : List Envelope
  /-- Replies that nobody has taken yet, by ticket. -/
  replies : List (Nat × WorkerOutput)
  abandoned : List Nat
  nextTicket : Nat
  nextId : Nat

namespace WorkerChannel

def new (worker : CompileWorker) : WorkerChannel := ⟨worker, [], [], [], 0, 1⟩

/-- A number no request had before. It has no bound, where a counter of 64 bits comes round: a reply is
compared only with the number of the request it answers, so the numbers of other requests, the same or
not, are not looked at. -/
def draw (ch : WorkerChannel) : Nat × WorkerChannel :=
  (ch.nextId, { ch with nextId := ch.nextId + 1 })

/-- Puts a message at the end of the queue; answers with the ticket for its reply. -/
def send (ch : WorkerChannel) (input : WorkerInput) : Nat × WorkerChannel :=
  (ch.nextTicket, { ch with
    queue := ch.queue ++ [⟨ch.nextTicket, input⟩]
    nextTicket := ch.nextTicket + 1 })

def handleNext (env : Surroundings) (ch : WorkerChannel) : WorkerChannel :=
  match ch.queue with
  | [] => ch
  | e :: rest =>
    let (output, worker) := ch.worker.handle env e.input
    { ch with
      worker := worker
      queue := rest
      replies := if e.ticket ∈ ch.abandoned then ch.replies else (e.ticket, output) :: ch.replies }

def handleMany (env : Surroundings) : Nat → WorkerChannel → WorkerChannel
  | 0, ch => ch
  | n + 1, ch => handleMany env n (handleNext env ch)

def receive (ch : WorkerChannel) (ticket : Nat) : Option WorkerOutput × WorkerChannel :=
  match ch.replies.lookup ticket with
  | none => (none, ch)
  | some output => (some output, { ch with replies := ch.replies.filter fun r => r.1 != ticket })

def abandon (ch : WorkerChannel) (ticket : Nat) : WorkerChannel :=
  { ch with
    abandoned := ticket :: ch.abandoned
    replies := ch.replies.filter fun r => r.1 != ticket }

end WorkerChannel

inductive WorkerCall
  | compile (language source : String) (config : Config)
  | clearCache

inductive CallResult
  | compiled (result : Except CompileError Compiled)
  | cleared (result : Except CompileError Unit)

inductive Caller
  | fresh (call : WorkerCall)
  | numbered (id : Nat) (language source : String) (config : Config)
  /-- Waiting for the reply to the request of that number, or to a clearing. -/
  | waiting (ticket : Nat) (id : Option Nat)
  | done (result : CallResult)

def unexpectedReply (output : WorkerOutput) : CompileError :=
  .worker ("unexpected reply from worker: " ++ output.debug)

def CallResult.ofReply (id : Option Nat) (output : WorkerOutput) : CallResult :=
  match id, output with
  | some id, .compiled replied result milliseconds cached =>
    if replied = id then .compiled result
    else .compiled (.error (unexpectedReply (.compiled replied result milliseconds cached)))
  | some _, other => .compiled (.error (unexpectedReply other))
  | none, .cacheCleared => .cleared (.ok ())
  | none, other => .cleared (.error (unexpectedReply other))

namespace Caller

/-- One step of a caller: to draw a number, to send, or to take the reply if it has come. -/
def step (c : Caller) (ch : WorkerChannel) : Caller × WorkerChannel :=
  match c with
  | .fresh .clearCache =>
    let (ticket, ch) := ch.send .clearCache
    (.waiting ticket none, ch)
  | .fresh (.compile language source config) =>
    let (id, ch) := ch.draw
    (.numbered id language source config, ch)
  | .numbered id language source config =>
    let (ticket, ch) := ch.send (.compile id language source config)
    (.waiting ticket (some id), ch)
  | .waiting ticket id =>
    match ch.receive ticket with
    | (none, ch) => (.waiting ticket id, ch)
    | (some output, ch) => (.done (.ofReply id output), ch)
  | .done result => (.done result, ch)

def leave (c : Caller) (ch : WorkerChannel) : WorkerChannel :=
  match c with
  | .waiting ticket _ => ch.abandon ticket
  | _ => ch

end Caller

namespace WorkerChannel

/-- A request with nothing else going on: it is sent, all that is queued is handled, and the reply
is taken. -/
def request (env : Surroundings) (call : WorkerCall) (ch : WorkerChannel) :
    CallResult × WorkerChannel :=
  let sent := match call with
    | .clearCache => (Caller.fresh call).step ch
    | .compile _ _ _ =>
      let (c, ch) := (Caller.fresh call).step ch
      c.step ch
  let (c, ch) := sent
  let (c, ch) := c.step (ch.handleMany env ch.queue.length)
  match c with
  | .done result => (result, ch)
  | _ => (.compiled (.error (.worker "worker dropped the request")), ch)

def clearCache (env : Surroundings) (ch : WorkerChannel) : WorkerChannel :=
  (ch.request env .clearCache).2

def isolated (env : Surroundings) : IsolatedWorker WorkerChannel where
  compile := fun language source config ch =>
    match ch.request env (.compile language source config) with
    | (.compiled result, ch) => (result, ch)
    | (.cleared _, ch) => (.error (.worker "worker dropped the request"), ch)

end WorkerChannel

end Playground
