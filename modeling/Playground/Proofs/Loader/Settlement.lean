import Playground.Proofs.Loader.Answers

/-! Settlement is exact. -/

namespace Playground

namespace EngineLoader

theorem answers_none {l : EngineLoader} {outcome result : LoadResult} :
    l.Answers none outcome result ↔ result = outcome := by
  cases outcome <;> exact Iff.rfl

theorem isLoaded_iff (l : EngineLoader) (reference : String) :
    l.isLoaded reference = true ↔ ∃ handle, l.Holds (l.resolve reference) handle := by
  unfold isLoaded Holds
  constructor
  · intro loaded
    split at loaded
    · next handle ready => exact ⟨handle, ready⟩
    · cases loaded
  · rintro ⟨handle, ready⟩
    rw [ready]

/-- A call for a URL that is ready is answered at its first poll, unless it asks for a name that is
bound. -/
theorem poll_ready {s : Session} {reference : String} {handle : EngineHandle}
    (held : s.loader.Holds (s.loader.resolve reference) handle) {global : Option String}
    (fresh : global.bind (s.loader.scope.lookup ·) = none) (env : Surroundings) :
    (s.poll env (.unstarted ⟨reference, global⟩)).1 = .inl (.ok handle) := by
  rw [Holds] at held
  have entered : s.enter ⟨reference, global⟩ =
      (.done (s.loader.deliver global (.ok handle)).1,
        s.withLoader (s.loader.deliver global (.ok handle)).2) := by
    simp only [Session.enter, fresh, held]
  simp only [Session.poll, entered]
  cases global with
  | none => rfl
  | some name =>
    simp only [Option.bind_some] at fresh
    simp [deliver, ensureRegistered, fresh]

end EngineLoader

namespace LoadPool

open EngineLoader

def Joined (i : Nat) (url : String) (id : Nat) (global : Option String) (p : LoadPool) : Prop :=
  p.callers[i]? = some (.running (.waiting url id global)) ∨
    (∃ result, p.callers[i]? = some (.answered (some id) global result)) ∨
    p.callers[i]? = some .dropped

theorem pollLoad_waits (env : Surroundings) (url : String) (id : Nat) (global : Option String)
    (s : Session) {w : Waiter} (waits : (Session.poll.pollLoad env url id global s).1 = .inr w) :
    w = .waiting url id global := by
  unfold Session.poll.pollLoad at waits
  split at waits
  · exact (Sum.inr.inj waits).symm
  · cases waits

theorem step_joined {i : Nat} {url : String} {id : Nat} {global : Option String} (p : LoadPool)
    (act : LoadAct) (joined : Joined i url id global p) : Joined i url id global (p.step act) := by
  rcases joined with waits | ⟨result, answered⟩ | dropped
  · obtain same | ⟨_, ⟨⟩, gone | ⟨env, rfl, now⟩⟩ := callers_step act waits
    · exact .inl same
    · exact .inr (.inr gone)
    · cases answer : (p.session.poll env (.waiting url id global)).1 with
      | inl result =>
        rw [answer] at now
        exact .inr (.inl ⟨result, now⟩)
      | inr w =>
        rw [answer] at now
        cases pollLoad_waits env url id global p.session answer
        exact .inl now
  · obtain same | ⟨w, running, -⟩ := callers_step act answered
    · exact .inr (.inl ⟨result, same⟩)
    · cases running
  · obtain same | ⟨w, running, -⟩ := callers_step act dropped
    · exact .inr (.inr same)
    · cases running

theorem poll_late {p : LoadPool} (h : p.Sound) (env : Surroundings) {i : Nat} {url : String}
    {id : Nat} {global : Option String} {outcome : LoadResult}
    (waits : p.callers[i]? = some (.running (.waiting url id global)))
    (ended : p.loader.outcome? id = some outcome) :
    (∃ result, (p.step (.poll env i)).callers[i]? = some (.answered (some id) global result) ∧
      (p.step (.poll env i)).loader.Answers global outcome result) ∧
      (p.step (.poll env i)).loader.slots = p.loader.slots ∧
      (p.step (.poll env i)).loader.loads = p.loader.loads := by
  obtain ⟨load, at_, ended⟩ := Option.bind_eq_some_iff.1 ended
  have inside := (List.getElem?_eq_some_iff.1 waits).1
  have polled_ : p.session.poll env (.waiting url id global) =
      (.inl (p.loader.deliver global outcome).1,
        p.session.withLoader (p.loader.deliver global outcome).2) :=
    Session.pollLoad_finished env h.orderly global at_ ended
  simp only [step, waits, polled_]
  exact ⟨⟨_, List.getElem?_set_self inside, answers_deliver _ _ _⟩, deliver_frame _ _ _⟩

/-- In every state that calls, polls and drops lead to: a pending slot holds a load that has not
ended; what is ready stays so, and later calls for it get the same handle; a call that joined a load
is answered with the outcome of that load and no other, which no longer changes; and when the load
has ended before the poll, all slots stay as they are. -/
theorem settlement_exact (base : String) (acts : List LoadAct) :
    let p := (start base).run acts
    (∀ url id, p.loader.slot? url = some (.pending id) →
      ∃ load : Load, p.loader.loads[id]? = some load ∧ load.url = url ∧ load.result = none) ∧
    (∀ url handle, p.loader.Holds url handle → ∀ more, (p.run more).loader.Holds url handle ∧
      ∀ reference, (p.run more).loader.resolve reference = url →
        (p.run more).loader.isLoaded reference = true ∧
        ∀ global, global.bind ((p.run more).loader.scope.lookup ·) = none → ∀ env,
          ((p.run more).session.poll env (.unstarted ⟨reference, global⟩)).1 = .inl (.ok handle)) ∧
    (∀ reference, p.loader.isLoaded reference = true →
      ∀ more, (p.run more).loader.isLoaded reference = true) ∧
    (∀ (i : Nat) url id global, p.callers[i]? = some (.running (.waiting url id global)) →
      ∀ more joined named result,
        (p.run more).callers[i]? = some (.answered joined named result) →
          joined = some id ∧ named = global) ∧
    (∀ (i id : Nat) global result, p.callers[i]? = some (.answered (some id) global result) →
      ∃ outcome, (∀ more, (p.run more).loader.outcome? id = some outcome) ∧
        p.loader.Answers global outcome result ∧ (global = none → result = outcome)) ∧
    (∀ (i : Nat) url id global outcome, p.callers[i]? = some (.running (.waiting url id global)) →
      p.loader.outcome? id = some outcome → ∀ env,
        (∃ result, (p.step (.poll env i)).callers[i]? = some (.answered (some id) global result) ∧
          (p.step (.poll env i)).loader.Answers global outcome result ∧
          (global = none → result = outcome)) ∧
        (p.step (.poll env i)).loader.slots = p.loader.slots ∧
        (p.step (.poll env i)).loader.loads = p.loader.loads) := by
  intro p
  have h : p.Sound := run_sound base acts
  have precise : ∀ {l : EngineLoader} {global : Option String} {outcome result : LoadResult},
      l.Answers global outcome result → global = none → result = outcome := by
    rintro l global outcome result answers rfl
    exact answers_none.1 answers
  refine ⟨h.orderly.pending, ?_, ?_, ?_, ?_, ?_⟩
  · intro url handle held more
    have later := ((run_moves h more).later.held url handle held).1
    refine ⟨later, ?_⟩
    rintro reference rfl
    exact ⟨(isLoaded_iff _ reference).2 ⟨handle, later⟩, fun global fresh => poll_ready later fresh⟩
  · intro reference loaded more
    obtain ⟨handle, held⟩ := (isLoaded_iff _ reference).1 loaded
    have later := (run_moves h more).later
    have resolved : (p.run more).loader.resolve reference = p.loader.resolve reference := by
      exact congrArg (resolveUrl · reference) later.base
    apply (isLoaded_iff _ reference).2
    rw [resolved]
    exact ⟨handle, (later.held _ handle held).1⟩
  · intro i url id global waits more joined named result answered
    have kept : Joined i url id global (p.run more) :=
      run_induction step_joined (Or.inl waits) more
    rcases kept with running | ⟨other, ended⟩ | gone
    · rw [answered] at running
      cases running
    · rw [answered] at ended
      cases ended
      exact ⟨rfl, rfl⟩
    · rw [answered] at gone
      cases gone
  · intro i id global result answered
    obtain ⟨outcome, ended, answers⟩ := h.callers i _ answered
    exact ⟨outcome, fun more => (run_moves h more).later.outcome? ended, answers, precise answers⟩
  · intro i url id global outcome waits ended env
    obtain ⟨⟨result, answered, answers⟩, frame⟩ := poll_late h env waits ended
    exact ⟨⟨result, answered, answers, precise answers⟩, frame⟩

end LoadPool

end Playground
