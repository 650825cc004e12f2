import Playground.Proofs.Loader.Slots
import Playground.Proofs.Pairs
import Playground.Proofs.Worker.Conversation
import Playground.Worker.Channel

/-! Any number of callers on one channel, in any order. -/

namespace Playground

/-- The message of a call under a number; to clear the cache takes none. -/
def WorkerCall.message? : WorkerCall → Option Nat → Option WorkerInput
  | .compile language source config, some id => some (.compile id language source config)
  | .clearCache, none => some .clearCache
  | _, _ => none

/-- The reply is one to the message, and means that result to its sender. -/
def WorkerOutput.Answers (output : WorkerOutput) (input : WorkerInput) (result : CallResult) : Prop :=
  match output, input with
  | .compiled id answer _ _, .compile own _ _ _ => id = own ∧ result = .compiled answer
  | .cacheCleared, .clearCache => result = .cleared (.ok ())
  | _, _ => False

/-- The call failed for the sake of the worker itself. -/
def CallResult.Fails (result : CallResult) : Prop :=
  ∃ message, result = .compiled (.error (.worker message)) ∨
    result = .cleared (.error (.worker message))

theorem ofReply_eq {call : WorkerCall} {id : Option Nat} {input : WorkerInput}
    {output : WorkerOutput} {result : CallResult} (own : call.message? id = some input)
    (answers : output.Answers input result) : CallResult.ofReply id output = result := by
  cases call with
  | compile language source config =>
    cases id with
    | none => cases own
    | some id =>
      cases own
      cases output with
      | cacheCleared => exact answers.elim
      | compiled replied answer milliseconds cached =>
        obtain ⟨rfl, rfl⟩ := answers
        exact if_pos rfl
  | clearCache =>
    cases id with
    | some id => cases own
    | none =>
      cases own
      cases output with
      | cacheCleared => exact answers.symm
      | compiled => exact answers.elim

theorem Host.compilePrimary_error {env : Surroundings} {language source : String} {config : Config}
    {h : Host} {e : CompileError}
    (failed : (h.compilePrimary env language source config).1 = .error e) (message : String) :
    e ≠ .worker message := by
  rintro rfl
  have created : ∀ (l : LanguageSpec) (s : Session),
      (s.createCompiler env l).1 ≠ .error (.worker message) := by
    intro l s refused
    unfold Session.createCompiler at refused
    split at refused
    · cases refused
    · cases refused
    · cases refused
    · split at refused <;> cases refused
  have ran : ∀ (c : Compiler) (name : String) (s : Session),
      (s.runCompiler env c name source config).1 ≠ .error (.worker message) := by
    intro c name s refused
    cases c with
    | identity | component => cases refused
    | transform engine defaults =>
      simp only [Session.runCompiler, Session.transform] at refused
      split at refused <;> cases refused
    | graph handlers =>
      simp only [Session.runCompiler, Session.compiledPass] at refused
      split at refused <;> cases refused
  unfold compilePrimary at failed
  split at failed
  · next unknown =>
    cases failed
    rw [LanguageRegistry.resolve] at unknown
    split at unknown <;> cases unknown
  · split at failed
    · cases failed
    · unfold runPrimary at failed
      split at failed
      · next made =>
        cases failed
        unfold compilerFor at made
        split at made
        · cases made
        · split at made
          · next made' =>
            cases made
            exact created _ h.session (congrArg Prod.fst made')
          · cases made
      · exact ran _ _ _ failed

namespace CompileWorker

theorem handle_answers (env : Surroundings) (input : WorkerInput) (w : CompileWorker) :
    ∃ result, (w.handle env input).1.Answers input result ∧ ¬ result.Fails := by
  cases input with
  | clearCache => exact ⟨_, rfl, by simp [CallResult.Fails]⟩
  | compile id language source config =>
    unfold handle
    dsimp only
    split
    · exact ⟨_, ⟨rfl, rfl⟩, by simp [CallResult.Fails]⟩
    · refine ⟨_, ⟨rfl, rfl⟩, ?_⟩
      rintro ⟨message, failed | cleared⟩
      · exact Host.compilePrimary_error (CallResult.compiled.inj failed) message rfl
      · cases cleared

/-- What a worker was told and what it replied, the first exchange first. -/
def exchanges (messages : List (Surroundings × WorkerInput)) (w : CompileWorker) : List Exchange :=
  (converse messages w).1.reverse

theorem converse_snoc (messages : List (Surroundings × WorkerInput))
    (message : Surroundings × WorkerInput) (w : CompileWorker) :
    converse (messages ++ [message]) w = hear (converse messages w) message := by
  rw [converse, converse, List.foldl_append]
  rfl

theorem exchanges_snoc (messages : List (Surroundings × WorkerInput))
    (message : Surroundings × WorkerInput) (w : CompileWorker) :
    exchanges (messages ++ [message]) w = exchanges messages w ++
      [⟨message.2, ((converse messages w).2.handle message.1 message.2).1⟩] := by
  rw [exchanges, converse_snoc, hear, List.reverse_cons]
  rfl

theorem exchanges_input (messages : List (Surroundings × WorkerInput)) (w : CompileWorker) :
    (exchanges messages w).map (·.input) = messages.map Prod.snd := by
  have inputs := (foldl_hear messages ([], w)).1
  rw [List.map_nil, List.append_nil] at inputs
  rw [exchanges, List.map_reverse, converse, inputs, List.reverse_reverse]

theorem length_exchanges (messages : List (Surroundings × WorkerInput)) (w : CompileWorker) :
    (exchanges messages w).length = messages.length := by
  rw [← List.length_map, exchanges_input, List.length_map]

theorem exchanges_grow (w : CompileWorker) {messages more : List (Surroundings × WorkerInput)}
    (within : messages <+: more) : exchanges messages w <+: exchanges more w := by
  obtain ⟨rest, rfl⟩ := within
  induction rest using List.reverseRecOn with
  | nil => rw [List.append_nil]
  | append_singleton rest message ih =>
    rw [← List.append_assoc, exchanges_snoc]
    exact ih.trans (List.prefix_append _ _)

theorem exchanges_answers (messages : List (Surroundings × WorkerInput)) (w : CompileWorker) :
    ∀ x ∈ exchanges messages w, ∃ result, x.output.Answers x.input result ∧ ¬ result.Fails := by
  induction messages using List.reverseRecOn with
  | nil => exact fun _ mem => absurd mem List.not_mem_nil
  | append_singleton messages message ih =>
    rw [exchanges_snoc, List.forall_mem_append, List.forall_mem_singleton]
    exact ⟨ih, handle_answers message.1 message.2 _⟩

end CompileWorker

structure Client where
  call : WorkerCall
  ticket : Option Nat
  caller : Caller
  left : Bool

structure WorkerPool where
  channel : WorkerChannel
  clients : List Client
  /-- All messages in the order they were sent. -/
  sent : List WorkerInput
  /-- All messages in the order they were handled, with the surroundings of the moment. -/
  heard : List (Surroundings × WorkerInput)

inductive PoolAct
  | join (call : WorkerCall)
  /-- A caller draws its number, sends its message, or looks for its reply. -/
  | step (client : Nat)
  | leave (client : Nat)
  | handle (env : Surroundings)

def Caller.ticket? : Caller → Option Nat
  | .waiting ticket _ => some ticket
  | _ => none

namespace Client

def new (call : WorkerCall) : Client := ⟨call, none, .fresh call, false⟩

def moved (c : Client) (next : Caller) : Client :=
  { c with caller := next, ticket := c.ticket.or next.ticket? }

end Client

namespace WorkerPool

def start (w : CompileWorker) : WorkerPool := ⟨.new w, [], [], []⟩

def withClient (p : WorkerPool) (i : Nat) (c : Client) : WorkerPool :=
  { p with clients := p.clients.set i c }

/-- What one step of a caller puts at the end of the queue is sent by it. -/
def step (p : WorkerPool) : PoolAct → WorkerPool
  | .join call => { p with clients := p.clients ++ [.new call] }
  | .step i =>
    match p.clients[i]? with
    | none => p
    | some c =>
      if c.left then p
      else
        let (next, channel) := c.caller.step p.channel
        { p.withClient i (c.moved next) with
          channel := channel
          sent := p.sent ++ (channel.queue.drop p.channel.queue.length).map (·.input) }
  | .leave i =>
    match p.clients[i]? with
    | none => p
    | some c =>
      if c.left then p
      else { p.withClient i { c with left := true } with channel := c.caller.leave p.channel }
  | .handle env =>
    match p.channel.queue with
    | [] => p
    | e :: _ =>
      { p with channel := p.channel.handleNext env, heard := p.heard ++ [(env, e.input)] }

def run (p : WorkerPool) (acts : List PoolAct) : WorkerPool := acts.foldl step p

variable {p : WorkerPool} {i : Nat} {c : Client}

inductive Sends : Caller → Option Nat → WorkerInput → Prop
  | clearing : Sends (.fresh .clearCache) none .clearCache
  | compiling (id : Nat) (language source : String) (config : Config) :
      Sends (.numbered id language source config) (some id) (.compile id language source config)

theorem step_none (none_ : p.clients[i]? = none) : p.step (.step i) = p := by
  simp only [step, none_]

theorem step_left (at_ : p.clients[i]? = some c) (left : c.left = true) : p.step (.step i) = p := by
  simp only [step, at_, left, if_true]

theorem step_draw (at_ : p.clients[i]? = some c) (here : c.left = false)
    {language source : String} {config : Config}
    (fresh : c.caller = .fresh (.compile language source config)) :
    p.step (.step i) =
      { p.withClient i { c with caller := .numbered p.channel.nextId language source config } with
        channel := p.channel.draw.2 } := by
  simp [step, at_, here, fresh, Caller.step, WorkerChannel.draw, Client.moved, Caller.ticket?,
    withClient]

theorem step_send (at_ : p.clients[i]? = some c) (here : c.left = false) {id : Option Nat}
    {input : WorkerInput} (sends : Sends c.caller id input) :
    p.step (.step i) =
      { p.withClient i (c.moved (.waiting p.channel.nextTicket id)) with
        channel := (p.channel.send input).2
        sent := p.sent ++ [input] } := by
  generalize standing : c.caller = caller at sends
  cases sends <;> simp [step, at_, here, standing, Caller.step, WorkerChannel.send, withClient]

theorem step_take (at_ : p.clients[i]? = some c) (here : c.left = false) {ticket : Nat}
    {id : Option Nat} (waits : c.caller = .waiting ticket id) {output : WorkerOutput}
    (reply : p.channel.replies.lookup ticket = some output) :
    p.step (.step i) =
      { p.withClient i { c with caller := .done (.ofReply id output) } with
        channel := (p.channel.receive ticket).2 } := by
  simp [step, at_, here, waits, Caller.step, WorkerChannel.receive, reply, Client.moved,
    Caller.ticket?, withClient]

theorem step_idle (at_ : p.clients[i]? = some c) (here : c.left = false)
    (idle : (∃ result, c.caller = .done result) ∨ ∃ ticket id, c.caller = .waiting ticket id ∧
      c.ticket = some ticket ∧ p.channel.replies.lookup ticket = none) :
    p.step (.step i) = p := by
  have same : p.clients.set i c = p.clients := by
    obtain ⟨inside, rfl⟩ := List.getElem?_eq_some_iff.1 at_
    exact List.set_getElem_self inside
  obtain ⟨channel, clients, sent, heard⟩ := p
  obtain ⟨call, known, caller, left⟩ := c
  obtain ⟨result, standing⟩ | ⟨ticket, id, standing, own, silent⟩ := idle
  · dsimp only at standing here same at_
    subst standing here
    simp [step, at_, Caller.step, Client.moved, Caller.ticket?, withClient, same]
  · dsimp only at standing own here same at_ silent
    subst standing here own
    simp [step, at_, Caller.step, WorkerChannel.receive, silent, Client.moved, withClient, same]

theorem step_leave (at_ : p.clients[i]? = some c) (here : c.left = false) :
    p.step (.leave i) =
      { p.withClient i { c with left := true } with channel := c.caller.leave p.channel } := by
  simp [step, at_, here]

theorem step_handle {e : Envelope} {rest : List Envelope} (queue : p.channel.queue = e :: rest)
    (env : Surroundings) :
    p.step (.handle env) =
      { p with channel := p.channel.handleNext env, heard := p.heard ++ [(env, e.input)] } := by
  simp only [step, queue]

end WorkerPool

end Playground
