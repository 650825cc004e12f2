import Playground.Proofs.Loader.Moves

/-! What a poll does, and what it answers. -/

namespace Playground

namespace EngineLoader

/-- A call that wanted its engine under `global` gets `result` from an outcome: an engine goes by
what the name is bound to. -/
def Answers (l : EngineLoader) (global : Option String) (outcome result : LoadResult) : Prop :=
  match outcome, global with
  | .error e, _ => result = .error e
  | .ok handle, none => result = .ok handle
  | .ok _, some name => ∃ bound, l.scope.lookup name = some bound ∧ result = .ok bound

theorem Answers.later {l l' : EngineLoader} (later : l.Later l') {global : Option String}
    {outcome result : LoadResult} (answers : l.Answers global outcome result) :
    l'.Answers global outcome result := by
  cases outcome with
  | error e => exact answers
  | ok handle =>
    cases global with
    | none => exact answers
    | some name =>
      obtain ⟨bound, known, same⟩ := answers
      exact ⟨bound, later.bound name bound known, same⟩

theorem answers_deliver (l : EngineLoader) (global : Option String) (outcome : LoadResult) :
    (l.deliver global outcome).2.Answers global outcome (l.deliver global outcome).1 := by
  cases outcome with
  | error e => cases global <;> rfl
  | ok handle =>
    cases global with
    | none => rfl
    | some name => exact ⟨_, l.ensureRegistered_bound name handle, rfl⟩

theorem deliver_frame (l : EngineLoader) (global : Option String) (outcome : LoadResult) :
    (l.deliver global outcome).2.slots = l.slots ∧
      (l.deliver global outcome).2.loads = l.loads := by
  cases outcome with
  | error e => cases global <;> exact ⟨rfl, rfl⟩
  | ok handle =>
    cases global with
    | none => exact ⟨rfl, rfl⟩
    | some name =>
      obtain ⟨slots, loads, -⟩ := l.ensureRegistered_frame name handle
      exact ⟨slots, loads⟩

end EngineLoader

namespace Session

open EngineLoader

theorem deliver_moves (s : Session) (global : Option String) (outcome : LoadResult)
    (held : ∀ handle, outcome = .ok handle → s.loader.Holds handle.url handle) :
    Moves s (s.withLoader (s.loader.deliver global outcome).2) := by
  cases outcome with
  | error e => cases global <;> exact .refl
  | ok handle =>
    cases global with
    | none => exact .refl
    | some name => exact .single (.bind s name handle (held handle rfl))

theorem arrive_spec (env : Surroundings) (load : Load) :
    (∀ handle, (load.arrive env).1 = .ok handle → handle.url = load.url) ∧
      ∀ url, Event.load url ∉ (load.arrive env).2 := by
  unfold Load.arrive
  split
  · exact ⟨by rintro handle ⟨⟩; rfl, by simp⟩
  · exact ⟨by rintro handle ⟨⟩, by simp⟩
  · split
    · exact ⟨by rintro handle ⟨⟩; rfl, by simp⟩
    · exact ⟨by rintro handle ⟨⟩, by simp⟩

theorem pollLoad_finished (env : Surroundings) {s : Session} (h : s.loader.Orderly) {url : String}
    {id : Nat} (global : Option String) {load : Load} {outcome : LoadResult}
    (at_ : s.loader.loads[id]? = some load) (ended : load.result = some outcome) :
    poll.pollLoad env url id global s =
      (.inl (s.loader.deliver global outcome).1,
        s.withLoader (s.loader.deliver global outcome).2) := by
  have other : s.loader.slot? url ≠ some (.pending id) := by
    intro owned
    obtain ⟨load', place, -, unfinished⟩ := h.pending url id owned
    rw [at_] at place
    cases place
    rw [ended] at unfinished
    cases unfinished
  simp only [poll.pollLoad, advance, at_, ended, conclude, settle_other _ other]

theorem pollLoad_spec (env : Surroundings) {s : Session} (h : s.loader.Orderly) {url : String}
    {id : Nat} (global : Option String) {load : Load} (at_ : s.loader.loads[id]? = some load)
    (named : load.url = url) :
    Moves s (poll.pollLoad env url id global s).2 ∧
      match (poll.pollLoad env url id global s).1 with
      | .inr w => w = .waiting url id global
      | .inl result => ∃ outcome, (poll.pollLoad env url id global s).2.loader.outcome? id =
          some outcome ∧
        (poll.pollLoad env url id global s).2.loader.Answers global outcome result := by
  subst named
  cases ended : load.result with
  | some outcome =>
    rw [pollLoad_finished env h global at_ ended]
    refine ⟨deliver_moves s global _ ?_, outcome, ?_, answers_deliver _ _ _⟩
    · rintro handle rfl
      obtain ⟨held, named⟩ := h.succeeded id load handle at_ ended
      rwa [named]
    · rw [withLoader_loader, outcome?, (deliver_frame _ _ _).2, at_]
      exact ended
  | none =>
    by_cases wait : load.turns < env.modules.delay load.url load.attempt
    · have held : poll.pollLoad env load.url id global s =
          (.inr (.waiting load.url id global),
            s.withLoader (s.loader.setLoad id { load with turns := load.turns + 1 })) := by
        simp [poll.pollLoad, advance, at_, ended, wait]
      rw [held]
      exact ⟨.single (.hold s id load _ at_ ended), rfl⟩
    · obtain ⟨handles, quiet⟩ := arrive_spec env load
      have move := Move.finish s id load (load.arrive env).1 (load.arrive env).2 at_ ended handles quiet
      have done := move.orderly h
      generalize settled : (s.withLoader ((s.loader.setLoad id
        { load with result := some (load.arrive env).1 }).settle load.url id
          (load.arrive env).1)).record (load.arrive env).2 = after at move done
      have polled : poll.pollLoad env load.url id global s =
          (.inl (after.loader.deliver global (load.arrive env).1).1,
            after.withLoader (after.loader.deliver global (load.arrive env).1).2) := by
        subst settled
        simp [poll.pollLoad, advance, at_, ended, wait, conclude]
        rfl
      have place : after.loader.loads[id]? = some { load with result := some (load.arrive env).1 } := by
        subst settled
        rw [record_loader, withLoader_loader, settle_loads, setLoad_loads]
        exact (getElem?_replaced at_).2 (Or.inl ⟨rfl, rfl⟩)
      rw [polled]
      refine ⟨(Relation.ReflTransGen.single move).trans (deliver_moves after global _ ?_),
        (load.arrive env).1, ?_, answers_deliver _ _ _⟩
      · intro handle same
        obtain ⟨held, named⟩ := done.succeeded id _ handle place (congrArg some same)
        rwa [named]
      · rw [withLoader_loader, outcome?, (deliver_frame _ _ _).2, place]
        rfl

theorem enter_spec {s : Session} (h : s.loader.Orderly) (call : LoadCall) :
    Moves s (s.enter call).2 ∧
      match (s.enter call).1 with
      | .done result => ∃ handle, (s.enter call).2.loader.Holds handle.url handle ∧
          (s.enter call).2.loader.Answers call.global (.ok handle) result
      | .waiting url id => ∃ load : Load, (s.enter call).2.loader.loads[id]? = some load ∧
          load.url = url := by
  unfold enter
  split
  · next handle known =>
    obtain ⟨name, named, bound⟩ := Option.bind_eq_some_iff.1 known
    refine ⟨.refl, handle, h.bound name handle bound, ?_⟩
    rw [named]
    exact ⟨handle, bound, rfl⟩
  · dsimp only
    split
    · next handle ready =>
      obtain ⟨id, load, at_, same, ended⟩ := h.ready _ handle ready
      have held : s.loader.Holds handle.url handle := by
        obtain ⟨holds, named⟩ := h.succeeded id load handle at_ ended
        rwa [named]
      have moves := deliver_moves s call.global (.ok handle) (by rintro _ ⟨⟩; exact held)
      exact ⟨moves, handle, (moves.later.held _ _ held).1, answers_deliver _ _ _⟩
    · next id pending =>
      obtain ⟨load, at_, named, -⟩ := h.pending _ id pending
      exact ⟨.refl, load, at_, named⟩
    · next vacant =>
      exact ⟨.single (.begin s _ vacant), _, List.getElem?_concat_length, rfl⟩

end Session

namespace LoadCaller

/-- What holds of a call while the loader moves on: it waits for a load of its URL, or its answer
comes from the outcome of the load it joined, or from a handle there was already. -/
def Sound (l : EngineLoader) : LoadCaller → Prop
  | running (.unstarted _) => True
  | running (.waiting url id _) => ∃ load : Load, l.loads[id]? = some load ∧ load.url = url
  | answered (some id) global result =>
      ∃ outcome, l.outcome? id = some outcome ∧ l.Answers global outcome result
  | answered none global result =>
      ∃ handle, l.Holds handle.url handle ∧ l.Answers global (.ok handle) result
  | dropped => True

theorem Sound.later {l l' : EngineLoader} (later : l.Later l') {c : LoadCaller} (sound : c.Sound l) :
    c.Sound l' := by
  cases c with
  | dropped => trivial
  | running w =>
    cases w with
    | unstarted call => trivial
    | waiting url id global =>
      obtain ⟨load, at_, named⟩ := sound
      obtain ⟨load', at', same, -⟩ := later.begun id load at_
      exact ⟨load', at', same.trans named⟩
  | answered joined global result =>
    cases joined with
    | some id =>
      obtain ⟨outcome, ended, answers⟩ := sound
      exact ⟨outcome, later.outcome? ended, answers.later later⟩
    | none =>
      obtain ⟨handle, held, answers⟩ := sound
      exact ⟨handle, (later.held _ _ held).1, answers.later later⟩

end LoadCaller

theorem EngineLoader.Orderly.held_of_answered {l : EngineLoader} (h : l.Orderly)
    {joined : Option Nat} {global : Option String} {handle : EngineHandle}
    (sound : LoadCaller.Sound l (.answered joined global (.ok handle))) :
    l.Holds handle.url handle := by
  -- The outcome behind the answer is a handle that its slot holds.
  have source : ∃ made, l.Holds made.url made ∧ l.Answers global (.ok made) (.ok handle) := by
    cases joined with
    | none => exact sound
    | some id =>
      obtain ⟨outcome, ended, answers⟩ := sound
      obtain ⟨load, at_, ended⟩ := Option.bind_eq_some_iff.1 ended
      cases outcome with
      | error e => cases answers
      | ok made =>
        obtain ⟨holds, named⟩ := h.succeeded id load made at_ ended
        exact ⟨made, by rwa [named], answers⟩
  obtain ⟨made, held, answers⟩ := source
  cases global with
  | none =>
    cases answers
    exact held
  | some name =>
    obtain ⟨bound, known, same⟩ := answers
    cases same
    exact h.bound name handle known

namespace Session

open EngineLoader

theorem pollLoad_sound (env : Surroundings) {s : Session} (h : s.loader.Orderly) {url : String}
    {id : Nat} (global : Option String) {load : Load} (at_ : s.loader.loads[id]? = some load)
    (named : load.url = url) :
    Moves s (poll.pollLoad env url id global s).2 ∧
      LoadCaller.Sound (poll.pollLoad env url id global s).2.loader
        (match (poll.pollLoad env url id global s).1 with
        | .inl result => .answered (some id) global result
        | .inr w => .running w) := by
  obtain ⟨moves, answer⟩ := pollLoad_spec env h global at_ named
  refine ⟨moves, ?_⟩
  split at answer
  · next w waits =>
    subst answer
    rw [waits]
    obtain ⟨load', at', same, -⟩ := moves.later.begun id load at_
    exact ⟨load', at', same.trans named⟩
  · next result done =>
    rw [done]
    exact answer

theorem poll_sound (env : Surroundings) {s : Session} (h : s.loader.Orderly) {w : Waiter}
    (sound : LoadCaller.Sound s.loader (.running w)) :
    Moves s (s.poll env w).2 ∧
      LoadCaller.Sound (s.poll env w).2.loader (LoadPool.polled w s (s.poll env w).1) := by
  cases w with
  | waiting url id global =>
    obtain ⟨load, at_, named⟩ := sound
    exact pollLoad_sound env h global at_ named
  | unstarted call =>
    obtain ⟨entered, entry⟩ := enter_spec h call
    simp only [poll, LoadPool.polled, Waiter.joins, Waiter.global]
    generalize found : enter call s = out at entered entry
    obtain ⟨place, s'⟩ := out
    cases place with
    | done result => exact ⟨entered, entry⟩
    | waiting url id =>
      obtain ⟨load, at_, named⟩ := entry
      obtain ⟨moves, answer⟩ := pollLoad_sound env (entered.orderly h) call.global at_ named
      exact ⟨entered.trans moves, answer⟩

end Session

namespace LoadPool

/-- What holds in every state a schedule leads to. -/
structure Sound (p : LoadPool) : Prop where
  orderly : p.loader.Orderly
  callers : ∀ (i : Nat) (c : LoadCaller), p.callers[i]? = some c → c.Sound p.loader
  counted : ∀ url, p.session.trace.count (.load url) = (p.loader.loadsOf url).length

theorem sound_start (base : String) : (start base).Sound where
  orderly := by constructor <;> intros <;> contradiction
  callers := by intro i c at_; cases at_
  counted := fun _ => rfl

theorem step_moves {p : LoadPool} (h : p.Sound) (act : LoadAct) :
    p.session.Moves (p.step act).session := by
  cases act with
  | start call => exact .refl
  | poll env i =>
    simp only [step]
    split
    · next w at_ => exact (Session.poll_sound env h.orderly (h.callers i _ at_)).1
    · exact .refl
  | drop i =>
    simp only [step]
    split <;> exact .refl
  | register name i =>
    simp only [step]
    split
    · next at_ => exact .single (.bind _ name _ (h.orderly.held_of_answered (h.callers i _ at_)))
    · exact .refl

theorem callers_replaced {p : LoadPool} (h : p.Sound) {l : EngineLoader} (later : p.loader.Later l)
    {i : Nat} {c : LoadCaller} (sound : c.Sound l) (j : Nat) (other : LoadCaller)
    (at_ : (p.callers.set i c)[j]? = some other) : other.Sound l := by
  by_cases here : i = j
  · subst here
    rw [List.getElem?_set, if_pos rfl] at at_
    split at at_
    · cases at_
      exact sound
    · cases at_
  · rw [List.getElem?_set_ne here] at at_
    exact (h.callers j other at_).later later

theorem step_sound (p : LoadPool) (act : LoadAct) (h : p.Sound) : (p.step act).Sound := by
  have moves := step_moves h act
  refine ⟨moves.orderly h.orderly, ?_, moves.counted h.counted⟩
  intro j c at_
  cases act with
  | start call =>
    rcases getElem?_snoc.1 at_ with old | ⟨-, rfl⟩
    · exact h.callers j c old
    · trivial
  | poll env i =>
    simp only [step] at at_ ⊢
    split at at_
    · next w running =>
      obtain ⟨moves, sound⟩ := Session.poll_sound env h.orderly (h.callers i _ running)
      exact callers_replaced h moves.later sound j c at_
    · exact h.callers j c at_
  | drop i =>
    simp only [step] at at_ ⊢
    split at at_
    · next w running =>
      have gone : LoadCaller.Sound p.loader .dropped := trivial
      exact callers_replaced h (.refl _) gone j c at_
    · exact h.callers j c at_
  | register name i =>
    have kept : (p.step (.register name i)).callers = p.callers := by
      simp only [step]
      split <;> rfl
    rw [kept] at at_
    exact (h.callers j c at_).later moves.later

theorem run_moves {p : LoadPool} (h : p.Sound) (acts : List LoadAct) :
    p.session.Moves (p.run acts).session := by
  induction acts generalizing p with
  | nil => exact .refl
  | cons act rest ih => exact (step_moves h act).trans (ih (step_sound p act h))

theorem run_sound (base : String) (acts : List LoadAct) : ((start base).run acts).Sound := by
  exact run_induction step_sound (sound_start base) acts

end LoadPool

end Playground
