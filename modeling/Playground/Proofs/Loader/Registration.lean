import Playground.Proofs.Loader.Answers
import Playground.Proofs.Loader.Bindings

/-! Calls for a well-known name agree. -/

namespace Playground

namespace Session

variable {s : Session} {env : Surroundings} {w w' : Waiter}

theorem global_of_poll (waits : (s.poll env w).1 = .inr w') : w'.global = w.global := by
  have joined : ∀ url id global s',
      (poll.pollLoad env url id global s').1 = .inr w' → w'.global = global := by
    intro url id global s' waits
    unfold poll.pollLoad at waits
    split at waits
    · cases waits
      rfl
    · cases waits
  cases w with
  | waiting url id global => exact joined url id global s waits
  | unstarted call =>
    simp only [poll] at waits
    split at waits
    · cases waits
    · exact joined _ _ _ _ waits

theorem poll_bound {name : String} {handle : EngineHandle} (bound : s.Binds name handle)
    (env : Surroundings) (reference : String) :
    s.poll env (.unstarted ⟨reference, some name⟩) = (.inl (.ok handle), s) := by
  rw [Binds] at bound
  simp only [poll, enter, Option.bind_some, bound]

theorem joins_bound {name : String} {handle : EngineHandle} (bound : s.Binds name handle)
    (reference : String) : (Waiter.unstarted ⟨reference, some name⟩).joins s = none := by
  rw [Binds] at bound
  simp only [Waiter.joins, enter, Option.bind_some, bound]

end Session

namespace LoadPool

variable {p : LoadPool} {i : Nat}

/-- A call for an engine under a name, whatever has become of it. -/
inductive Wants (p : LoadPool) (i : Nat) (global : Option String) : Prop
  | running (w : Waiter) (at_ : p.callers[i]? = some (.running w)) (named : w.global = global)
  | answered (joined : Option Nat) (result : LoadResult)
      (at_ : p.callers[i]? = some (.answered joined global result))
  | dropped (at_ : p.callers[i]? = some .dropped)

theorem step_wants {global : Option String} (act : LoadAct) (wants : p.Wants i global) :
    (p.step act).Wants i global := by
  cases wants with
  | answered joined result at_ =>
    obtain same | ⟨w, running, -⟩ := callers_step act at_
    · exact .answered joined result same
    · cases running
  | dropped at_ =>
    obtain same | ⟨w, running, -⟩ := callers_step act at_
    · exact .dropped same
    · cases running
  | running w at_ named =>
    obtain same | ⟨_, ⟨⟩, gone | ⟨env, rfl, now⟩⟩ := callers_step act at_
    · exact .running w same named
    · exact .dropped gone
    · cases answer : (p.session.poll env w).1 with
      | inl result =>
        rw [answer, polled, named] at now
        exact .answered _ _ now
      | inr w' =>
        rw [answer] at now
        exact .running w' now ((Session.global_of_poll answer).trans named)

/-- A call for a bound name that has not begun, whatever has become of it. -/
inductive Served (p : LoadPool) (i : Nat) (reference name : String) (handle : EngineHandle) : Prop
  | unstarted (at_ : p.callers[i]? = some (.running (.unstarted ⟨reference, some name⟩)))
  | answered (at_ : p.callers[i]? = some (.answered none (some name) (.ok handle)))
  | dropped (at_ : p.callers[i]? = some .dropped)

theorem step_served {reference name : String} {handle : EngineHandle} (act : LoadAct)
    (bound : p.session.Binds name handle) (served : p.Served i reference name handle) :
    (p.step act).Served i reference name handle := by
  cases served with
  | answered at_ =>
    obtain same | ⟨w, running, -⟩ := callers_step act at_
    · exact .answered same
    · cases running
  | dropped at_ =>
    obtain same | ⟨w, running, -⟩ := callers_step act at_
    · exact .dropped same
    · cases running
  | unstarted at_ =>
    obtain same | ⟨_, ⟨⟩, gone | ⟨env, rfl, now⟩⟩ := callers_step act at_
    · exact .unstarted same
    · exact .dropped gone
    · rw [Session.poll_bound bound, polled, Session.joins_bound bound] at now
      exact .answered now

theorem poll_served {reference name : String} {handle : EngineHandle}
    (bound : p.session.Binds name handle) (served : p.Served i reference name handle)
    (env : Surroundings) :
    (p.step (.poll env i)).session = p.session ∧
      ∀ w, p.callers[i]? = some (.running w) →
        (p.step (.poll env i)).callers[i]? = some (.answered none (some name) (.ok handle)) := by
  cases served with
  | answered at_ | dropped at_ => simp [step, at_]
  | unstarted at_ =>
    have inside := (List.getElem?_eq_some_iff.1 at_).1
    simp only [step, at_, Session.poll_bound bound, polled, Session.joins_bound bound, Waiter.global]
    exact ⟨trivial, fun _ _ => List.getElem?_set_self inside⟩

theorem run_binds (h : p.Sound) {name : String} {handle : EngineHandle}
    (bound : p.session.Binds name handle) (acts : List LoadAct) :
    (p.run acts).session.Binds name handle :=
  (run_moves h acts).later.bound name handle bound

/-- In every state that calls, polls, drops and registrations lead to: a call for a name that
succeeds, now or later, is answered with the handle the name is bound to; what is bound stays bound to
the handle that the slot of its URL holds; and a call for a bound name that has not begun yet does not
touch the session, and is answered by its first poll. -/
theorem registration_agrees (base : String) (acts : List LoadAct) :
    let p := (start base).run acts
    (∀ (i : Nat) reference name,
      p.callers[i]? = some (.running (.unstarted ⟨reference, some name⟩)) →
        ∀ more joined named handle,
          (p.run more).callers[i]? = some (.answered joined named (.ok handle)) →
            (p.run more).session.Binds name handle) ∧
    (∀ name handle, p.session.Binds name handle →
      p.loader.Holds handle.url handle ∧ ∀ more, (p.run more).session.Binds name handle) ∧
    (∀ name handle, p.session.Binds name handle →
      ∀ (i : Nat) reference,
        p.callers[i]? = some (.running (.unstarted ⟨reference, some name⟩)) → ∀ more env,
          ((p.run more).step (.poll env i)).session = (p.run more).session ∧
          ∀ w, (p.run more).callers[i]? = some (.running w) →
            ((p.run more).step (.poll env i)).callers[i]? =
              some (.answered none (some name) (.ok handle))) := by
  intro p
  have h : p.Sound := run_sound base acts
  refine ⟨?_, ?_, ?_⟩
  · intro i reference name unstarted more joined named handle answered
    have later : (p.run more).Sound := run_induction step_sound h more
    have keep : ∀ (q : LoadPool) act, q.Wants i (some name) → (q.step act).Wants i (some name) :=
      fun _ act => step_wants act
    have wants := run_induction keep (.running _ unstarted rfl) more
    have sound := later.callers i _ answered
    cases wants with
    | running w at_ | dropped at_ =>
      rw [answered] at at_
      cases at_
    | answered joined result at_ =>
      rw [answered] at at_
      cases at_
      -- The answer is what the name is bound to, whether the call had joined a load or not.
      obtain ⟨bound, known, same⟩ : ∃ bound, (p.run more).loader.scope.lookup name = some bound ∧
          (.ok handle : LoadResult) = .ok bound := by
        cases joined with
        | none =>
          obtain ⟨_, -, answers⟩ := sound
          exact answers
        | some id =>
          obtain ⟨outcome, -, answers⟩ := sound
          cases outcome with
          | error e => cases answers
          | ok made => exact answers
      cases same
      exact known
  · intro name handle bound
    exact ⟨h.orderly.bound name handle bound, run_binds h bound⟩
  · intro name handle bound i reference unstarted more env
    have keep : ∀ (q : LoadPool) act,
        q.Sound ∧ q.session.Binds name handle ∧ q.Served i reference name handle →
        (q.step act).Sound ∧ (q.step act).session.Binds name handle ∧
          (q.step act).Served i reference name handle := by
      rintro q act ⟨sound, bound, served⟩
      exact ⟨step_sound q act sound, run_binds sound bound [act], step_served act bound served⟩
    obtain ⟨-, bound, served⟩ := run_induction keep ⟨h, bound, .unstarted unstarted⟩ more
    exact poll_served bound served env

end LoadPool

end Playground
