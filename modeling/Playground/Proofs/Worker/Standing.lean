import Playground.Proofs.Worker.Callers

/-! How the channel, the callers and the record of a pool belong together. A ticket is a place in
the order of sending. -/

namespace Playground

open CompileWorker

/-- Channels that differ at most in what they keep under one ticket. -/
structure WorkerChannel.AlikeBut (own : Option Nat) (ch ch' : WorkerChannel) : Prop where
  worker : ch'.worker = ch.worker
  queue : ch'.queue = ch.queue
  nextTicket : ch'.nextTicket = ch.nextTicket
  nextId : ch'.nextId = ch.nextId
  replies : ∀ k, own ≠ some k → ch'.replies.lookup k = ch.replies.lookup k
  abandoned : ∀ k, own ≠ some k → (k ∈ ch'.abandoned ↔ k ∈ ch.abandoned)

namespace WorkerChannel

variable {own : Option Nat} {ch ch' ch'' : WorkerChannel}

theorem AlikeBut.refl (ch : WorkerChannel) : ch.AlikeBut own ch :=
  ⟨rfl, rfl, rfl, rfl, fun _ _ => rfl, fun _ _ => Iff.rfl⟩

theorem AlikeBut.symm (alike : ch.AlikeBut own ch') : ch'.AlikeBut own ch where
  worker := alike.worker.symm
  queue := alike.queue.symm
  nextTicket := alike.nextTicket.symm
  nextId := alike.nextId.symm
  replies k other := (alike.replies k other).symm
  abandoned k other := (alike.abandoned k other).symm

theorem AlikeBut.trans (first : ch.AlikeBut own ch') (second : ch'.AlikeBut own ch'') :
    ch.AlikeBut own ch'' where
  worker := second.worker.trans first.worker
  queue := second.queue.trans first.queue
  nextTicket := second.nextTicket.trans first.nextTicket
  nextId := second.nextId.trans first.nextId
  replies k other := (second.replies k other).trans (first.replies k other)
  abandoned k other := (second.abandoned k other).trans (first.abandoned k other)

theorem lookup_abandon (ch : WorkerChannel) (ticket k : Nat) :
    (ch.abandon ticket).replies.lookup k =
      if k = ticket then none else ch.replies.lookup k :=
  lookup_filter_ne ticket k ch.replies

theorem lookup_receive (ch : WorkerChannel) (ticket k : Nat) :
    (ch.receive ticket).2.replies.lookup k =
      if k = ticket then none else ch.replies.lookup k := by
  unfold receive
  split
  · next silent =>
    split
    · next same => rw [same, silent]
    · rfl
  · exact lookup_filter_ne ticket k ch.replies

@[simp] theorem receive_abandoned (ch : WorkerChannel) (ticket : Nat) :
    (ch.receive ticket).2.abandoned = ch.abandoned := by
  unfold receive
  split <;> rfl

theorem alike_abandon (ch : WorkerChannel) (ticket : Nat) :
    ch.AlikeBut (some ticket) (ch.abandon ticket) where
  worker := rfl
  queue := rfl
  nextTicket := rfl
  nextId := rfl
  replies k other := by
    rw [lookup_abandon, if_neg]
    rintro rfl
    exact other rfl
  abandoned k other := by
    rw [abandon, List.mem_cons, or_iff_right]
    rintro rfl
    exact other rfl

theorem alike_receive (ch : WorkerChannel) (ticket : Nat) :
    ch.AlikeBut (some ticket) (ch.receive ticket).2 where
  worker := by unfold receive; split <;> rfl
  queue := by unfold receive; split <;> rfl
  nextTicket := by unfold receive; split <;> rfl
  nextId := by unfold receive; split <;> rfl
  replies k other := by
    rw [lookup_receive, if_neg]
    rintro rfl
    exact other rfl
  abandoned k _ := by rw [receive_abandoned]

theorem handleNext_cons {e : Envelope} {rest : List Envelope} (queue : ch.queue = e :: rest)
    (env : Surroundings) :
    ch.handleNext env = { ch with
      worker := (ch.worker.handle env e.input).2
      queue := rest
      replies :=
        if e.ticket ∈ ch.abandoned then ch.replies
        else (e.ticket, (ch.worker.handle env e.input).1) :: ch.replies } := by
  simp only [handleNext, queue]

end WorkerChannel

namespace WorkerPool

variable {w : CompileWorker} {p : WorkerPool} {i : Nat} {c : Client}

/-- A caller's ticket and how far it has come, as its call and the record want it. -/
inductive Standing (w : CompileWorker) (sent : List WorkerInput)
    (heard : List (Surroundings × WorkerInput)) (call : WorkerCall) : Option Nat → Caller → Prop
  | fresh : Standing w sent heard call none (.fresh call)
  | numbered (id : Nat) {language source : String} {config : Config}
      (compiles : call = .compile language source config) :
      Standing w sent heard call none (.numbered id language source config)
  | waiting {k : Nat} {id : Option Nat} {input : WorkerInput} (own : call.message? id = some input)
      (sent_ : sent[k]? = some input) : Standing w sent heard call (some k) (.waiting k id)
  | done {k : Nat} {id : Option Nat} {x : Exchange} {result : CallResult}
      (own : call.message? id = some x.input) (replied : (exchanges heard w)[k]? = some x)
      (answers : x.output.Answers x.input result) :
      Standing w sent heard call (some k) (.done result)

theorem Standing.mono {sent sent' : List WorkerInput} {heard heard' : List (Surroundings × WorkerInput)}
    {call : WorkerCall} {ticket : Option Nat} {caller : Caller}
    (standing : Standing w sent heard call ticket caller) (more : sent <+: sent')
    (later : heard <+: heard') : Standing w sent' heard' call ticket caller := by
  cases standing with
  | fresh => exact .fresh
  | numbered id compiles => exact .numbered id compiles
  | waiting own sent_ => exact .waiting own (getElem?_of_initial more sent_)
  | done own replied answers =>
    exact .done own (getElem?_of_initial (exchanges_grow w later) replied) answers

theorem Standing.turn {sent : List WorkerInput} {heard : List (Surroundings × WorkerInput)}
    (standing : Standing w sent heard c.call c.ticket c.caller) (ch : WorkerChannel) :
    (∃ language source config, c.call = .compile language source config ∧ c.ticket = none ∧
        c.caller = .fresh (.compile language source config)) ∨
      (∃ id input, c.call.message? id = some input ∧ c.ticket = none ∧ Sends c.caller id input) ∨
      (∃ k id output, c.ticket = some k ∧ c.caller = .waiting k id ∧
        ch.replies.lookup k = some output) ∨
      ((∃ result, c.caller = .done result) ∨ ∃ k id, c.caller = .waiting k id ∧
        c.ticket = some k ∧ ch.replies.lookup k = none) := by
  obtain ⟨call, ticket, caller, left⟩ := c
  dsimp only at standing ⊢
  cases standing with
  | fresh =>
    cases call with
    | compile language source config => exact .inl ⟨_, _, _, rfl, rfl, rfl⟩
    | clearCache => exact .inr (.inl ⟨none, _, rfl, rfl, .clearing⟩)
  | numbered id compiles =>
    subst compiles
    exact .inr (.inl ⟨some id, _, rfl, rfl, .compiling ..⟩)
  | @waiting k id input own sent_ =>
    cases found : ch.replies.lookup k with
    | some output => exact .inr (.inr (.inl ⟨k, id, output, rfl, rfl, found⟩))
    | none => exact .inr (.inr (.inr (.inr ⟨k, id, rfl, rfl, found⟩)))
  | done => exact .inr (.inr (.inr (.inl ⟨_, rfl⟩)))

@[simp] theorem withClient_heard (p : WorkerPool) (i : Nat) (c : Client) :
    (p.withClient i c).heard = p.heard := rfl

def ticketAt (p : WorkerPool) (i : Nat) : Option Nat := p.clients[i]?.bind (·.ticket)

theorem Standing.ticket {sent : List WorkerInput} {heard : List (Surroundings × WorkerInput)}
    (standing : Standing w sent heard c.call c.ticket c.caller) {k : Nat} {id : Option Nat}
    (waits : c.caller = .waiting k id) : c.ticket = some k := by
  rw [waits] at standing
  generalize c.ticket = ticket at standing
  cases standing with
  | waiting => rfl

theorem ticketAt_of (at_ : p.clients[i]? = some c) : p.ticketAt i = c.ticket := by
  rw [ticketAt, at_, Option.bind_some]

theorem ticketAt_withClient (at_ : p.clients[i]? = some c) (c' : Client) (j : Nat) :
    (p.withClient i c').ticketAt j = if j = i then c'.ticket else p.ticketAt j := by
  rw [ticketAt, withClient]
  split
  · next here =>
    rw [here, List.getElem?_set_self (List.getElem?_eq_some_iff.1 at_).1]
    rfl
  · next differs => rw [List.getElem?_set_ne (Ne.symm differs), ticketAt]

theorem ticketAt_join (p : WorkerPool) (call : WorkerCall) (j : Nat) :
    (p.step (.join call)).ticketAt j = p.ticketAt j := by
  rw [ticketAt, step]
  by_cases last : j = p.clients.length
  · rw [last, List.getElem?_concat_length, ticketAt, List.getElem?_eq_none (Nat.le_refl _)]
    rfl
  · rw [getElem?_snoc_ne last, ticketAt]

structure Sound (w : CompileWorker) (p : WorkerPool) : Prop where
  worker : p.channel.worker = (converse p.heard w).2
  order : p.heard.map Prod.snd ++ p.channel.queue.map (·.input) = p.sent
  tickets : p.channel.queue.map (·.ticket) =
    List.range' p.heard.length p.channel.queue.length
  next : p.channel.nextTicket = p.sent.length
  replied : ∀ k, p.heard.length ≤ k → p.channel.replies.lookup k = none
  gone : ∀ k ∈ p.channel.abandoned, k < p.sent.length
  standing : ∀ (i : Nat) (c : Client), p.clients[i]? = some c →
    Standing w p.sent p.heard c.call c.ticket c.caller
  awaited : ∀ (i : Nat) (c : Client), p.clients[i]? = some c → c.left = false →
    ∀ k id, c.caller = .waiting k id → k ∉ p.channel.abandoned ∧
      p.channel.replies.lookup k = (exchanges p.heard w)[k]?.map (·.output)
  sender : ∀ k, k < p.sent.length → ∃! i, p.ticketAt i = some k

namespace Sound

theorem start (w : CompileWorker) : Sound w (start w) where
  worker := rfl
  order := rfl
  tickets := rfl
  next := rfl
  replied _ _ := rfl
  gone _ mem := absurd mem List.not_mem_nil
  standing _ _ := nofun
  awaited _ _ := nofun
  sender _ inside := absurd inside (Nat.not_lt_zero _)

theorem length_eq (h : p.Sound w) :
    p.heard.length + p.channel.queue.length = p.sent.length := by
  rw [← h.order, List.length_append, List.length_map, List.length_map]

theorem length_le (h : p.Sound w) : p.heard.length ≤ p.sent.length :=
  h.length_eq ▸ Nat.le_add_right _ _

theorem sent_replied (h : p.Sound w) {k : Nat} {x : Exchange}
    (replied : (exchanges p.heard w)[k]? = some x) : p.sent[k]? = some x.input := by
  have input : ((exchanges p.heard w).map (·.input))[k]? = some x.input := by
    rw [List.getElem?_map, replied]
    rfl
  rw [exchanges_input] at input
  refine getElem?_of_initial ?_ input
  rw [← h.order]
  exact List.prefix_append _ _

theorem ticket_lt (h : p.Sound w) {k : Nat} (own : p.ticketAt i = some k) : k < p.sent.length := by
  obtain ⟨c, at_, own⟩ := Option.bind_eq_some_iff.1 own
  have standing := h.standing i c at_
  rw [own] at standing
  generalize c.caller = caller at standing
  cases standing with
  | waiting _ sent_ => exact (List.getElem?_eq_some_iff.1 sent_).1
  | done _ replied _ => exact (List.getElem?_eq_some_iff.1 (h.sent_replied replied)).1

theorem apart (h : p.Sound w) {j k : Nat} (first : p.ticketAt i = some k)
    (second : p.ticketAt j = some k) : i = j :=
  (h.sender k (h.ticket_lt first)).unique first second

theorem exchange_of (h : p.Sound w) (at_ : p.clients[i]? = some c) (here : c.left = false) {k : Nat}
    {id : Option Nat} (waits : c.caller = .waiting k id) {output : WorkerOutput}
    (reply : p.channel.replies.lookup k = some output) :
    ∃ x, (exchanges p.heard w)[k]? = some x ∧ x.output = output := by
  rw [(h.awaited i c at_ here k id waits).2] at reply
  exact Option.map_eq_some_iff.1 reply

theorem message (h : p.Sound w) (at_ : p.clients[i]? = some c) {k : Nat} {id : Option Nat}
    (waits : c.caller = .waiting k id) :
    ∃ input, c.call.message? id = some input ∧ p.sent[k]? = some input := by
  have standing := h.standing i c at_
  rw [waits] at standing
  generalize c.ticket = ticket at standing
  cases standing with
  | waiting own sent_ => exact ⟨_, own, sent_⟩

theorem taken (h : p.Sound w) (at_ : p.clients[i]? = some c) {k : Nat} {id : Option Nat}
    (waits : c.caller = .waiting k id) {x : Exchange}
    (replied : (exchanges p.heard w)[k]? = some x) :
    Standing w p.sent p.heard c.call c.ticket (.done (.ofReply id x.output)) := by
  obtain ⟨input, own, sent_⟩ := h.message at_ waits
  obtain rfl : x.input = input := Option.some.inj ((h.sent_replied replied).symm.trans sent_)
  obtain ⟨result, answers, -⟩ := exchanges_answers p.heard w x (List.mem_of_getElem? replied)
  rw [(h.standing i c at_).ticket waits, ofReply_eq own answers]
  exact .done own replied answers

theorem turn (h : p.Sound w) (at_ : p.clients[i]? = some c) {c' : Client} {ch : WorkerChannel}
    (alike : p.channel.AlikeBut c.ticket ch) (own : c'.ticket = c.ticket)
    (standing : Standing w p.sent p.heard c'.call c'.ticket c'.caller)
    (silent : c'.left = false → ∀ k id, c'.caller ≠ .waiting k id)
    (replied : ∀ k, p.heard.length ≤ k → ch.replies.lookup k = none)
    (gone : ∀ k ∈ ch.abandoned, k < p.sent.length) :
    Sound w { p.withClient i c' with channel := ch } where
  worker := alike.worker.trans h.worker
  order := by rw [alike.queue]; exact h.order
  tickets := by rw [alike.queue]; exact h.tickets
  next := alike.nextTicket.trans h.next
  replied := replied
  gone := gone
  standing j d place := by
    rcases (getElem?_replaced at_).1 place with ⟨-, rfl⟩ | ⟨-, old⟩
    · exact standing
    · exact h.standing j d old
  awaited j d place here k id waits := by
    rcases (getElem?_replaced at_).1 place with ⟨-, rfl⟩ | ⟨differs, old⟩
    · exact absurd waits (silent here k id)
    · have known : p.ticketAt j = some k :=
        (ticketAt_of old).trans ((h.standing j d old).ticket waits)
      have other : c.ticket ≠ some k := fun same =>
        differs (h.apart known ((ticketAt_of at_).trans same))
      obtain ⟨kept, reply⟩ := h.awaited j d old here k id waits
      exact ⟨fun mem => kept ((alike.abandoned k other).1 mem), (alike.replies k other).trans reply⟩
  sender k inside := by
    have same : ∀ j, (p.withClient i c').ticketAt j = p.ticketAt j := by
      intro j
      rw [ticketAt_withClient at_]
      split
      · next here => rw [here, own, ticketAt_of at_]
      · rfl
    obtain ⟨j, own_, unique⟩ := h.sender k inside
    exact ⟨j, (same j).trans own_, fun j' own' => unique j' ((same j').symm.trans own')⟩

theorem draw (h : p.Sound w) : Sound w { p with channel := p.channel.draw.2 } :=
  ⟨h.worker, h.order, h.tickets, h.next, h.replied, h.gone, h.standing, h.awaited, h.sender⟩

theorem ticket_moved (h : p.Sound w) (unsent : c.ticket = none) (id : Option Nat) :
    (c.moved (.waiting p.channel.nextTicket id)).ticket = some p.sent.length := by
  rw [Client.moved, unsent, h.next]
  rfl

theorem sender_new (h : p.Sound w) (at_ : p.clients[i]? = some c) (unsent : c.ticket = none)
    {c' : Client} (ticket : c'.ticket = some p.sent.length) :
    ∀ k, k < p.sent.length + 1 → ∃! j, (p.withClient i c').ticketAt j = some k := by
  intro k inside
  simp only [ticketAt_withClient at_, ticket]
  rcases Nat.lt_succ_iff_lt_or_eq.1 inside with before | rfl
  · obtain ⟨j, own, unique⟩ := h.sender k before
    refine ⟨j, ?_, fun j' own' => ?_⟩
    · dsimp only
      rw [if_neg, own]
      rintro rfl
      rw [ticketAt_of at_, unsent] at own
      cases own
    · dsimp only at own'
      split at own'
      · cases own'
        exact absurd before (Nat.lt_irrefl _)
      · exact unique j' own'
  · refine ⟨i, if_pos rfl, fun j own => ?_⟩
    dsimp only at own
    split at own
    · next here => exact here
    · exact absurd (h.ticket_lt own) (Nat.lt_irrefl _)

theorem send (h : p.Sound w) (at_ : p.clients[i]? = some c) (unsent : c.ticket = none)
    {id : Option Nat} {input : WorkerInput} (own : c.call.message? id = some input) :
    Sound w { p.withClient i (c.moved (.waiting p.channel.nextTicket id)) with
      channel := (p.channel.send input).2
      sent := p.sent ++ [input] } where
  worker := h.worker
  order := by
    rw [← h.order]
    simp [WorkerChannel.send]
  tickets := by
    simp only [WorkerChannel.send, List.map_append, List.length_append, h.tickets,
      List.length_singleton, List.range'_concat, h.next, ← h.length_eq, withClient_heard]
    simp
  next := by simp [WorkerChannel.send, h.next]
  replied := h.replied
  gone k mem := (h.gone k mem).trans_le (List.prefix_append _ _).length_le
  standing j d place := by
    rcases (getElem?_replaced at_).1 place with ⟨-, rfl⟩ | ⟨-, old⟩
    · rw [h.ticket_moved unsent, h.next]
      exact .waiting own List.getElem?_concat_length
    · exact (h.standing j d old).mono (List.prefix_append _ _) List.prefix_rfl
  awaited j d place here k id' waits := by
    rcases (getElem?_replaced at_).1 place with ⟨-, rfl⟩ | ⟨-, old⟩
    · cases waits
      rw [h.next]
      refine ⟨fun mem => Nat.lt_irrefl _ (h.gone _ mem), ?_⟩
      rw [withClient_heard, List.getElem?_eq_none ((length_exchanges _ _).trans_le h.length_le)]
      exact h.replied _ h.length_le
    · exact h.awaited j d old here k id' waits
  sender k inside := by
    rw [List.length_append, List.length_singleton] at inside
    exact h.sender_new at_ unsent (h.ticket_moved unsent id) k inside

theorem tickets_cons (h : p.Sound w) {e : Envelope} {rest : List Envelope}
    (queue : p.channel.queue = e :: rest) :
    e.ticket = p.heard.length ∧
      rest.map (·.ticket) = List.range' (p.heard.length + 1) rest.length := by
  have tickets := h.tickets
  rwa [queue, List.map_cons, List.length_cons, List.range'_succ, List.cons.injEq] at tickets

theorem handle (h : p.Sound w) {e : Envelope} {rest : List Envelope}
    (queue : p.channel.queue = e :: rest) (env : Surroundings) :
    Sound w { p with
      channel := p.channel.handleNext env
      heard := p.heard ++ [(env, e.input)] } := by
  obtain ⟨ticket, tickets⟩ := h.tickets_cons queue
  rw [WorkerChannel.handleNext_cons queue]
  constructor
  case worker => rw [converse_snoc, hear, h.worker]
  case order =>
    have order := h.order
    rw [queue] at order
    simpa using order
  case tickets => simpa using tickets
  case next => exact h.next
  case replied =>
    intro k late
    rw [List.length_append, List.length_singleton] at late
    have silent := h.replied k (by omega)
    dsimp only
    split
    · exact silent
    · rw [lookup_cons_ite, if_neg (by omega), silent]
  case gone => exact h.gone
  case standing =>
    exact fun j d place => (h.standing j d place).mono List.prefix_rfl (List.prefix_append _ _)
  case awaited =>
    intro j d place here k id waits
    obtain ⟨kept, reply⟩ := h.awaited j d place here k id waits
    refine ⟨kept, ?_⟩
    rw [exchanges_snoc]
    dsimp only
    by_cases now : k = p.heard.length
    · rw [if_neg (by rwa [ticket, ← now]), lookup_cons_ite, if_pos (now.trans ticket.symm), now,
        ← length_exchanges p.heard w, List.getElem?_concat_length, h.worker]
      rfl
    · have other : k ≠ (exchanges p.heard w).length := by rwa [length_exchanges]
      rw [getElem?_snoc_ne other, ← reply]
      split
      · rfl
      · rw [lookup_cons_ite, if_neg (ticket ▸ now)]
  case sender => exact h.sender

theorem join (h : p.Sound w) (call : WorkerCall) : (p.step (.join call)).Sound w where
  worker := h.worker
  order := h.order
  tickets := h.tickets
  next := h.next
  replied := h.replied
  gone := h.gone
  standing j d place := by
    rcases getElem?_snoc.1 place with old | ⟨-, rfl⟩
    · exact h.standing j d old
    · exact .fresh
  awaited j d place here k id waits := by
    rcases getElem?_snoc.1 place with old | ⟨-, rfl⟩
    · exact h.awaited j d old here k id waits
    · cases waits
  sender k inside := by
    simp only [ticketAt_join]
    exact h.sender k inside

theorem leave (h : p.Sound w) (at_ : p.clients[i]? = some c) :
    Sound w { p.withClient i { c with left := true } with channel := c.caller.leave p.channel } := by
  have standing := h.standing i c at_
  cases state : c.caller with
  | waiting k id =>
    have own := standing.ticket state
    have inside := h.ticket_lt ((ticketAt_of at_).trans own)
    rw [state] at standing
    refine h.turn at_ ?_ rfl standing (fun here => nomatch here) ?_ ?_
    · rw [own]
      exact WorkerChannel.alike_abandon _ _
    · intro k' late
      rw [Caller.leave, WorkerChannel.lookup_abandon, h.replied k' late, ite_self]
    · intro k' mem
      rcases List.mem_cons.1 mem with rfl | mem
      · exact inside
      · exact h.gone k' mem
  | fresh | numbered | done =>
    rw [state] at standing
    exact h.turn at_ (.refl _) rfl standing (fun here => nomatch here) h.replied h.gone

theorem step (h : p.Sound w) (act : PoolAct) : (p.step act).Sound w := by
  cases act with
  | join call => exact h.join call
  | step i =>
    cases at_ : p.clients[i]? with
    | none => rwa [step_none at_]
    | some c =>
      cases here : c.left with
      | true => rwa [step_left at_ here]
      | false =>
        have standing := h.standing i c at_
        rcases standing.turn p.channel with ⟨_, _, _, compiles, unsent, fresh⟩ |
          ⟨_, _, own, unsent, sends⟩ | ⟨k, id, output, own, waits, reply⟩ | idle
        · rw [step_draw at_ here fresh]
          refine h.draw.turn at_ (.refl _) rfl ?_ (fun _ _ _ => nofun) h.replied h.gone
          dsimp only
          rw [unsent]
          exact .numbered _ compiles
        · rw [step_send at_ here sends]
          exact h.send at_ unsent own
        · rw [step_take at_ here waits reply]
          refine h.turn at_ ?_ rfl ?_ (fun _ _ _ => nofun) ?_ ?_
          · rw [own]
            exact WorkerChannel.alike_receive _ _
          · obtain ⟨x, replied, rfl⟩ := h.exchange_of at_ here waits reply
            exact h.taken at_ waits replied
          · intro k' late
            rw [WorkerChannel.lookup_receive, h.replied k' late, ite_self]
          · rw [WorkerChannel.receive_abandoned]
            exact h.gone
        · rwa [step_idle at_ here idle]
  | leave i =>
    cases at_ : p.clients[i]? with
    | none => simpa only [WorkerPool.step, at_] using h
    | some c =>
      cases here : c.left with
      | true => simpa only [WorkerPool.step, at_, here, if_true] using h
      | false =>
        rw [step_leave at_ here]
        exact h.leave at_
  | handle env =>
    cases queue : p.channel.queue with
    | nil => simpa only [WorkerPool.step, queue] using h
    | cons e rest =>
      rw [step_handle queue]
      exact h.handle queue env

end Sound

theorem run_sound (h : p.Sound w) (acts : List PoolAct) : (p.run acts).Sound w := by
  induction acts generalizing p with
  | nil => exact h
  | cons act rest ih => exact ih (h.step act)

end WorkerPool

end Playground
