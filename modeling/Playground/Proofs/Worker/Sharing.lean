import Playground.Proofs.Worker.Routing
import Playground.Proofs.Worker.Standing

/-! What callers see of each other on one channel: all that changes without one is kept under its
ticket. -/

namespace Playground

open CompileWorker

namespace WorkerChannel.AlikeBut

variable {own : Option Nat} {ch ch' : WorkerChannel}

theorem draw (alike : ch.AlikeBut own ch') : ch.draw.2.AlikeBut own ch'.draw.2 where
  worker := alike.worker
  queue := alike.queue
  nextTicket := alike.nextTicket
  nextId := congrArg (· + 1) alike.nextId
  replies := alike.replies
  abandoned := alike.abandoned

theorem send (alike : ch.AlikeBut own ch') (input : WorkerInput) :
    (ch.send input).2.AlikeBut own (ch'.send input).2 where
  worker := alike.worker
  queue := by rw [WorkerChannel.send, WorkerChannel.send, alike.queue, alike.nextTicket]
  nextTicket := congrArg (· + 1) alike.nextTicket
  nextId := alike.nextId
  replies := alike.replies
  abandoned := alike.abandoned

theorem receive (alike : ch.AlikeBut own ch') (ticket : Nat) :
    (ch.receive ticket).2.AlikeBut own (ch'.receive ticket).2 where
  worker := by rw [(alike_receive ch' ticket).worker, (alike_receive ch ticket).worker, alike.worker]
  queue := by rw [(alike_receive ch' ticket).queue, (alike_receive ch ticket).queue, alike.queue]
  nextTicket := by
    rw [(alike_receive ch' ticket).nextTicket, (alike_receive ch ticket).nextTicket,
      alike.nextTicket]
  nextId := by rw [(alike_receive ch' ticket).nextId, (alike_receive ch ticket).nextId, alike.nextId]
  replies k other := by rw [lookup_receive, lookup_receive, alike.replies k other]
  abandoned k other := by rw [receive_abandoned, receive_abandoned, alike.abandoned k other]

theorem leave (alike : ch.AlikeBut own ch') (caller : Caller) :
    (caller.leave ch).AlikeBut own (caller.leave ch') := by
  cases caller with
  | waiting ticket id =>
    exact {
      worker := alike.worker
      queue := alike.queue
      nextTicket := alike.nextTicket
      nextId := alike.nextId
      replies := fun k other => by
        rw [Caller.leave, Caller.leave, lookup_abandon, lookup_abandon, alike.replies k other]
      abandoned := fun k other => by
        rw [Caller.leave, Caller.leave, abandon, abandon, List.mem_cons, List.mem_cons,
          alike.abandoned k other] }
  | fresh | numbered | done => exact alike

theorem handleNext (alike : ch.AlikeBut own ch') (env : Surroundings) :
    (ch.handleNext env).AlikeBut own (ch'.handleNext env) := by
  cases queue : ch.queue with
  | nil =>
    rw [WorkerChannel.handleNext, WorkerChannel.handleNext, alike.queue, queue]
    exact alike
  | cons e rest =>
    rw [handleNext_cons queue, handleNext_cons (alike.queue.trans queue)]
    refine ⟨by rw [alike.worker], rfl, alike.nextTicket, alike.nextId, fun k other => ?_,
      alike.abandoned⟩
    have same := alike.replies k other
    rw [alike.worker]
    dsimp only
    by_cases mine : own = some e.ticket
    · have differs : k ≠ e.ticket := fun here => other (here ▸ mine)
      split <;> split <;> simp only [lookup_cons_ite, if_neg differs, same]
    · have gone := alike.abandoned e.ticket mine
      by_cases kept : e.ticket ∈ ch.abandoned
      · rw [if_pos kept, if_pos (gone.2 kept), same]
      · rw [if_neg kept, if_neg (mt gone.1 kept), lookup_cons_ite, lookup_cons_ite, same]

end WorkerChannel.AlikeBut

namespace WorkerPool

variable {w : CompileWorker} {p q : WorkerPool} {i : Nat} {c : Client} {own : Option Nat}

/-- Pools that differ at most in one caller and in what the channel keeps under its ticket. -/
structure AlikeBut (i : Nat) (own : Option Nat) (p q : WorkerPool) : Prop where
  channel : p.channel.AlikeBut own q.channel
  sent : q.sent = p.sent
  heard : q.heard = p.heard
  count : q.clients.length = p.clients.length
  others : ∀ j, j ≠ i → q.clients[j]? = p.clients[j]?
  left : p.ticketAt i = own
  right : q.ticketAt i = own

namespace AlikeBut

theorem symm (alike : AlikeBut i own p q) : AlikeBut i own q p where
  channel := alike.channel.symm
  sent := alike.sent.symm
  heard := alike.heard.symm
  count := alike.count.symm
  others j other := (alike.others j other).symm
  left := alike.right
  right := alike.left

theorem alone (alike : AlikeBut i own p q) (at_ : p.clients[i]? = some c) {c' : Client}
    (ticket : c'.ticket = c.ticket) {ch : WorkerChannel} (channel : p.channel.AlikeBut c.ticket ch) :
    AlikeBut i own { p.withClient i c' with channel := ch } q := by
  have own_ : c.ticket = own := (ticketAt_of at_).symm.trans alike.left
  refine ⟨(own_ ▸ channel).symm.trans alike.channel, alike.sent, alike.heard, ?_, fun j other => ?_,
    ?_, alike.right⟩
  · rw [withClient, List.length_set, alike.count]
  · rw [withClient, List.getElem?_set_ne (Ne.symm other), alike.others j other]
  · exact (ticketAt_withClient at_ c' i).trans ((if_pos rfl).trans (ticket.trans own_))

theorem both (alike : AlikeBut i own p q) {j : Nat} (other : j ≠ i) (c' : Client)
    {ch ch' : WorkerChannel} (channel : ch.AlikeBut own ch') {sent sent' : List WorkerInput}
    (same : sent' = sent) :
    AlikeBut i own { p.withClient j c' with channel := ch, sent := sent }
      { q.withClient j c' with channel := ch', sent := sent' } where
  channel := channel
  sent := same
  heard := alike.heard
  count := by rw [withClient, withClient, List.length_set, List.length_set, alike.count]
  others k differs := by
    simp only [withClient, List.getElem?_set, alike.count, alike.others k differs]
  left := by
    rw [← alike.left, ticketAt, withClient, List.getElem?_set_ne other]
    rfl
  right := by
    rw [← alike.right, ticketAt, withClient, List.getElem?_set_ne other]
    rfl

theorem own_leave (alike : AlikeBut i own p q) (h : p.Sound w) :
    AlikeBut i own (p.step (.leave i)) q := by
  cases at_ : p.clients[i]? with
  | none => simpa only [WorkerPool.step, at_] using alike
  | some c =>
    cases here : c.left with
    | true => simpa only [WorkerPool.step, at_, here, if_true] using alike
    | false =>
      rw [step_leave at_ here]
      refine alike.alone at_ ?_ ?_
      · rfl
      cases state : c.caller with
      | waiting k id =>
        rw [(h.standing i c at_).ticket state]
        exact WorkerChannel.alike_abandon _ _
      | fresh | numbered | done => exact .refl _

theorem own_step (alike : AlikeBut i own p q) (h : p.Sound w) (sent : own ≠ none) :
    AlikeBut i own (p.step (.step i)) q := by
  cases at_ : p.clients[i]? with
  | none => rwa [step_none at_]
  | some c =>
    have ticket : c.ticket ≠ none := ((ticketAt_of at_).symm.trans alike.left).trans_ne sent
    cases here : c.left with
    | true => rwa [step_left at_ here]
    | false =>
      rcases (h.standing i c at_).turn p.channel with ⟨_, _, _, -, unsent, -⟩ | ⟨_, _, -, unsent, -⟩ |
        ⟨k, id, output, known, waits, reply⟩ | idle
      · exact absurd unsent ticket
      · exact absurd unsent ticket
      · rw [step_take at_ here waits reply]
        refine alike.alone at_ ?_ ?_
        · rfl
        · rw [known]
          exact WorkerChannel.alike_receive _ _
      · rwa [step_idle at_ here idle]

theorem other_step (alike : AlikeBut i own p q) (h : p.Sound w) {j : Nat} (other : j ≠ i) :
    AlikeBut i own (p.step (.step j)) (q.step (.step j)) := by
  have same := alike.others j other
  cases at_ : p.clients[j]? with
  | none => rwa [step_none at_, step_none (same.trans at_)]
  | some c =>
    have at' := same.trans at_
    cases here : c.left with
    | true => rwa [step_left at_ here, step_left at' here]
    | false =>
      have replies : ∀ k, c.ticket = some k →
          q.channel.replies.lookup k = p.channel.replies.lookup k := fun k known =>
        alike.channel.replies k fun mine =>
          other (h.apart ((ticketAt_of at_).trans known) (alike.left.trans mine))
      rcases (h.standing j c at_).turn p.channel with ⟨_, _, _, -, -, fresh⟩ | ⟨_, _, -, -, sends⟩ |
        ⟨k, id, output, known, waits, reply⟩ | idle
      · rw [step_draw at_ here fresh, step_draw at' here fresh, alike.channel.nextId]
        exact alike.both other _ alike.channel.draw alike.sent
      · rw [step_send at_ here sends, step_send at' here sends, alike.channel.nextTicket]
        exact alike.both other _ (alike.channel.send _) (by rw [alike.sent])
      · rw [step_take at_ here waits reply, step_take at' here waits ((replies k known).trans reply)]
        exact alike.both other _ (alike.channel.receive _) alike.sent
      · rw [step_idle at_ here idle, step_idle at' here]
        · exact alike
        · exact idle.imp_right fun ⟨k, id, waits, known, silent⟩ =>
            ⟨k, id, waits, known, (replies k known).trans silent⟩

theorem other_leave (alike : AlikeBut i own p q) {j : Nat} (other : j ≠ i) :
    AlikeBut i own (p.step (.leave j)) (q.step (.leave j)) := by
  have same := alike.others j other
  cases at_ : p.clients[j]? with
  | none => simpa only [WorkerPool.step, same, at_] using alike
  | some c =>
    cases here : c.left with
    | true => simpa only [WorkerPool.step, same, at_, here, if_true] using alike
    | false =>
      rw [step_leave at_ here, step_leave (same.trans at_) here]
      exact alike.both other _ (alike.channel.leave _) alike.sent

theorem step (alike : AlikeBut i own p q) (hp : p.Sound w) (hq : q.Sound w) (act : PoolAct)
    (still : own = none → act ≠ .step i) : AlikeBut i own (p.step act) (q.step act) := by
  cases act with
  | join call =>
    refine ⟨alike.channel, alike.sent, alike.heard, ?_, fun j other => ?_, ?_, ?_⟩
    · simp only [WorkerPool.step, List.length_append, alike.count]
    · simp only [WorkerPool.step, List.getElem?_append, alike.count, alike.others j other]
    · rw [ticketAt_join, alike.left]
    · rw [ticketAt_join, alike.right]
  | step j =>
    by_cases mine : j = i
    · subst mine
      have sent : own ≠ none := fun unsent => still unsent rfl
      exact ((alike.own_step hp sent).symm.own_step hq sent).symm
    · exact alike.other_step hp mine
  | leave j =>
    by_cases mine : j = i
    · subst mine
      exact ((alike.own_leave hp).symm.own_leave hq).symm
    · exact alike.other_leave mine
  | handle env =>
    cases queue : p.channel.queue with
    | nil =>
      have queue' := alike.channel.queue.trans queue
      simpa only [WorkerPool.step, queue, queue'] using alike
    | cons e rest =>
      rw [step_handle queue, step_handle (alike.channel.queue.trans queue)]
      exact ⟨alike.channel.handleNext env, alike.sent, by rw [alike.heard], alike.count,
        alike.others, alike.left, alike.right⟩

theorem run (alike : AlikeBut i own p q) (hp : p.Sound w) (hq : q.Sound w) (acts : List PoolAct)
    (still : own = none → ∀ act ∈ acts, act ≠ .step i) :
    AlikeBut i own (p.run acts) (q.run acts) := by
  induction acts generalizing p q with
  | nil => exact alike
  | cons act rest ih =>
    exact ih (alike.step hp hq act fun unsent => still unsent act List.mem_cons_self)
      (hp.step act) (hq.step act) fun unsent act mem => still unsent act (List.mem_cons_of_mem _ mem)

end AlikeBut

theorem Sound.leave_unnoticed (h : p.Sound w) (i : Nat) (more : List PoolAct)
    (still : p.ticketAt i = none → ∀ act ∈ more, act ≠ .step i) :
    AlikeBut i (p.ticketAt i) ((p.step (.leave i)).run more) (p.run more) := by
  have self : AlikeBut i (p.ticketAt i) p p :=
    ⟨.refl _, rfl, rfl, rfl, fun _ _ => rfl, rfl, rfl⟩
  exact (self.own_leave h).run (h.step _) h more still

theorem run_handles (p : WorkerPool) (envs : List Surroundings) :
    (p.run (envs.map .handle)).sent = p.sent ∧
      (p.run (envs.map .handle)).channel.queue = p.channel.queue.drop envs.length := by
  induction envs generalizing p with
  | nil => exact ⟨rfl, rfl⟩
  | cons env rest ih =>
    obtain ⟨sent, queue⟩ := ih (p.step (.handle env))
    have one : (p.step (.handle env)).sent = p.sent ∧
        (p.step (.handle env)).channel.queue = p.channel.queue.tail := by
      cases waiting : p.channel.queue with
      | nil => simp only [step, waiting, List.tail_nil, and_self]
      | cons e others =>
        rw [step_handle waiting, WorkerChannel.handleNext_cons waiting]
        exact ⟨rfl, rfl⟩
    refine ⟨sent.trans one.1, queue.trans ?_⟩
    rw [one.2, List.length_cons, List.drop_tail]

theorem Sound.heard_all (h : p.Sound w) {envs : List Surroundings}
    (enough : p.channel.queue.length ≤ envs.length) :
    (p.run (envs.map .handle)).heard.length = p.sent.length := by
  obtain ⟨sent, queue⟩ := p.run_handles envs
  have all := (run_sound h (envs.map .handle)).length_eq
  rwa [queue, List.drop_eq_nil_of_le enough, List.length_nil, Nat.add_zero, sent] at all

theorem Sound.delivered (h : p.Sound w) (at_ : p.clients[i]? = some c) (here : c.left = false) {k : Nat}
    {id : Option Nat} (waits : c.caller = .waiting k id) (handled : k < p.heard.length) :
    ∃ result, (p.step (.step i)).clients[i]? = some { c with caller := .done result } := by
  obtain ⟨x, replied⟩ : ∃ x, (exchanges p.heard w)[k]? = some x :=
    ⟨_, List.getElem?_eq_getElem (by rwa [length_exchanges])⟩
  have reply := (h.awaited i c at_ here k id waits).2
  rw [replied, Option.map_some] at reply
  rw [step_take at_ here waits reply]
  exact ⟨_, List.getElem?_set_self (List.getElem?_eq_some_iff.1 at_).1⟩

theorem Sound.told (h : p.Sound w) (at_ : p.clients[i]? = some c) {result : CallResult}
    (done : c.caller = .done result) :
    ∃ k id x, c.ticket = some k ∧ c.call.message? id = some x.input ∧
      p.sent[k]? = some x.input ∧ (exchanges p.heard w)[k]? = some x ∧
      x.output.Answers x.input result ∧ ¬ result.Fails := by
  have standing := h.standing i c at_
  rw [done] at standing
  generalize c.ticket = ticket at standing
  cases standing with
  | @done k id x _ own replied answers =>
    obtain ⟨result', answers', sane⟩ := exchanges_answers p.heard w x (List.mem_of_getElem? replied)
    cases (ofReply_eq own answers).symm.trans (ofReply_eq own answers')
    exact ⟨k, id, x, rfl, own, h.sent_replied replied, replied, answers, sane⟩

end WorkerPool

section Steady

variable {env : Surroundings} {base : String} {right : LoadCall → EngineHandle → Prop}
  {jobs : List Job}

theorem CompileWorker.Honest.clear {w : CompileWorker} (honest : Honest env base right jobs w) :
    Honest env base right jobs (w.handle env .clearCache).2 where
  current := honest.current
  held _ _ := nofun

theorem CompileWorker.Honest.converse
    (settles : Session.Settles env base LanguageRegistry.builtin.calls right)
    (separate : Separate jobs) {w : CompileWorker} (honest : Honest env base right jobs w)
    {messages : List (Surroundings × WorkerInput)} (same : ∀ m ∈ messages, m.1 = env)
    (within : ∀ j ∈ messages.filterMap (·.2.job?), j ∈ jobs) :
    Honest env base right jobs (CompileWorker.converse messages w).2 ∧
      ∀ x ∈ exchanges messages w, ∀ id language source config,
        x.input = .compile id language source config → ∃ milliseconds cached,
          x.output = .compiled id
            ((Host.new .builtin base).compilePrimary env language source config).1
            milliseconds cached := by
  induction messages using List.reverseRecOn with
  | nil => exact ⟨honest, fun _ mem => absurd mem List.not_mem_nil⟩
  | append_singleton messages message ih =>
    rw [List.filterMap_append, List.forall_mem_append] at within
    rw [List.forall_mem_append, List.forall_mem_singleton] at same
    obtain ⟨honest, told⟩ := ih same.1 within.1
    obtain ⟨env', input⟩ := message
    obtain rfl : env' = env := same.2
    rw [converse_snoc, exchanges_snoc, List.forall_mem_append, List.forall_mem_singleton]
    cases input with
    | clearCache => exact ⟨honest.clear, told, fun _ _ _ _ => nofun⟩
    | compile id language source config =>
      have mem : Job.of language source config ∈ jobs := within.2 _ List.mem_cons_self
      obtain ⟨milliseconds, cached, w', handled, honest'⟩ := honest.handle settles separate mem id
      have steady := Host.compilePrimary_steady settles language source config
      rw [CompileWorker.hear, handled]
      refine ⟨honest', told, ?_⟩
      rintro _ _ _ _ ⟨⟩
      rw [steady.same _ _ honest.current Host.current_new]
      exact ⟨milliseconds, cached, rfl⟩

theorem WorkerPool.Sound.told_steady {lifetime : Nat} {p : WorkerPool}
    (h : p.Sound ⟨Host.new .builtin base, ⟨lifetime, []⟩⟩) (same : ∀ m ∈ p.heard, m.1 = env)
    (loads : ∀ c ∈ LanguageRegistry.builtin.calls, ∃ handle, c.Brings env base handle)
    (separate : Separate (p.sent.filterMap (·.job?))) {i : Nat} {c : Client}
    (at_ : p.clients[i]? = some c) {language source : String} {config : Config}
    (call : c.call = .compile language source config) {result : CallResult}
    (done : c.caller = .done result) :
    result = .compiled ((Host.new .builtin base).compilePrimary env language source config).1 := by
  have within : ∀ j ∈ p.heard.filterMap (·.2.job?), j ∈ p.sent.filterMap (·.job?) := by
    intro j mem
    obtain ⟨m, heard, job⟩ := List.mem_filterMap.1 mem
    refine List.mem_filterMap.2 ⟨m.2, ?_, job⟩
    rw [← h.order]
    exact List.mem_append_left _ (List.mem_map_of_mem heard)
  have answered := (Honest.converse (Session.settles_of_loads loads builtin_names) separate
    (.start Host.current_new lifetime) same within).2
  obtain ⟨k, id, ⟨input, output⟩, -, own, -, replied, answers, -⟩ := h.told at_ done
  rw [call] at own
  cases id with
  | none => cases own
  | some id =>
    cases own
    obtain ⟨milliseconds, cached, rfl⟩ := answered _ (List.mem_of_getElem? replied) _ _ _ _ rfl
    exact answers.2

end Steady

/-- Callers of one channel are never mixed up, however many there are and in whatever order they
draw numbers, send, look for replies, leave, and the worker handles messages. It handles them in the
order they were sent, each of which has one sender. A caller that waits gets a reply as soon as the
worker comes to its message, and what a caller gets is the reply to its own message and no failure of
the worker. When a caller leaves, everything goes on for the others as if it had stayed. And while
loads succeed, no request shows in the result of another. -/
theorem WorkerPool.channel_exact (w : CompileWorker) (acts : List PoolAct) :
    let p := (start w).run acts
    (p.heard.map Prod.snd ++ p.channel.queue.map (·.input) = p.sent ∧
      p.channel.worker = (converse p.heard w).2 ∧
      ∀ k, k < p.sent.length → ∃! i, p.ticketAt i = some k) ∧
    (∀ (i : Nat) (c : Client) k id, p.clients[i]? = some c → c.left = false →
      c.caller = .waiting k id →
        c.ticket = some k ∧
        (∃ input, c.call.message? id = some input ∧ p.sent[k]? = some input) ∧
        (k < p.heard.length → ∃ result,
          (p.step (.step i)).clients[i]? = some { c with caller := .done result }) ∧
        ∀ envs : List Surroundings, p.channel.queue.length ≤ envs.length →
          k < (p.run (envs.map .handle)).heard.length) ∧
    (∀ (i : Nat) (c : Client) result, p.clients[i]? = some c → c.caller = .done result →
      ∃ k id x, c.ticket = some k ∧ c.call.message? id = some x.input ∧
        p.sent[k]? = some x.input ∧ (exchanges p.heard w)[k]? = some x ∧
        x.output.Answers x.input result ∧ ¬ result.Fails) ∧
    (∀ i more, (p.ticketAt i = none → ∀ act ∈ more, act ≠ .step i) →
      let leaves := (p.step (.leave i)).run more
      let stays := p.run more
      leaves.sent = stays.sent ∧ leaves.heard = stays.heard ∧
        leaves.channel.worker = stays.channel.worker ∧
        ∀ j, j ≠ i → leaves.clients[j]? = stays.clients[j]?) ∧
    (∀ env base lifetime, w = ⟨Host.new .builtin base, ⟨lifetime, []⟩⟩ →
      (∀ m ∈ p.heard, m.1 = env) →
      (∀ c ∈ LanguageRegistry.builtin.calls, ∃ handle, c.Brings env base handle) →
      (∀ j ∈ p.sent.filterMap (·.job?), j.settings.IsProper) →
      CollisionFree (p.sent.filterMap (·.job?)) →
        ∀ (i : Nat) (c : Client) language source config result, p.clients[i]? = some c →
          c.call = .compile language source config → c.caller = .done result →
            result = .compiled
              ((Host.new .builtin base).compilePrimary env language source config).1) := by
  intro p
  have h : p.Sound w := run_sound (.start w) acts
  refine ⟨⟨h.order, h.worker, h.sender⟩, ?_, fun i c result at_ done => h.told at_ done, ?_, ?_⟩
  · intro i c k id at_ here waits
    have ticket := (h.standing i c at_).ticket waits
    refine ⟨ticket, h.message at_ waits, h.delivered at_ here waits, fun envs enough => ?_⟩
    rw [h.heard_all enough]
    exact h.ticket_lt ((ticketAt_of at_).trans ticket)
  · intro i more still
    have alike := (h.leave_unnoticed i more still).symm
    exact ⟨alike.sent, alike.heard, alike.channel.worker, alike.others⟩
  · rintro env base lifetime rfl same loads proper free i c language source config result at_ call done
    exact h.told_steady same loads (free.separate proper) at_ call done

/-- The second of two callers draws later, sends first and leaves. -/
example :
    ((WorkerPool.start ⟨Host.new .builtin "", ⟨60, []⟩⟩).run
        [.join (.compile "cobol" "x" .standard), .join (.compile "basic" "x" .standard), .step 0,
          .step 1, .step 1, .step 0, .leave 1, .handle emptySurroundings,
          .handle emptySurroundings, .step 0]).clients.map (·.caller) =
      [.done (.compiled (.error (.unsupportedLanguage "cobol"))), .waiting 0 (some 2)] := by
  rfl

end Playground
