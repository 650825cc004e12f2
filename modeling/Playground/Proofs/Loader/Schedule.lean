import Playground.Loader.Session
import Playground.Proofs.Pairs

/-! Any number of calls on one loader, in any order. -/

namespace Playground

/-- A call on the loader, from when it is made. An answered one keeps the number of the load it had
joined, if it had joined any, and the name it wanted its engine under. -/
inductive LoadCaller
  | running (w : Waiter)
  | answered (joined : Option Nat) (global : Option String) (result : LoadResult)
  | dropped

/-- A session with all calls made in it; a call's number is its place. -/
structure LoadPool where
  session : Session
  callers : List LoadCaller

inductive LoadAct
  | start (call : LoadCall)
  | poll (env : Surroundings) (caller : Nat)
  | drop (caller : Nat)
  /-- Binds a name to the handle a call was answered with. -/
  | register (name : String) (caller : Nat)

namespace Waiter

def global : Waiter → Option String
  | unstarted call => call.global
  | waiting _ _ global => global

def joins (w : Waiter) (s : Session) : Option Nat :=
  match w with
  | unstarted call =>
    match (s.enter call).1 with
    | .done _ => none
    | .waiting _ id => some id
  | waiting _ id _ => some id

end Waiter

namespace LoadPool

def start (base : String) : LoadPool := ⟨.new base, []⟩

def loader (p : LoadPool) : EngineLoader := p.session.loader

def withCaller (p : LoadPool) (i : Nat) (c : LoadCaller) : LoadPool := { p with callers := p.callers.set i c }

def polled (w : Waiter) (s : Session) : LoadResult ⊕ Waiter → LoadCaller
  | .inl result => .answered (w.joins s) w.global result
  | .inr w => .running w

def step (p : LoadPool) : LoadAct → LoadPool
  | .start call => { p with callers := p.callers ++ [.running (.unstarted call)] }
  | .poll env i =>
    match p.callers[i]? with
    | some (.running w) =>
      let (out, s) := p.session.poll env w
      { session := s, callers := p.callers.set i (polled w p.session out) }
    | _ => p
  | .drop i =>
    match p.callers[i]? with
    | some (.running _) => p.withCaller i .dropped
    | _ => p
  | .register name i =>
    match p.callers[i]? with
    | some (.answered _ _ (.ok handle)) =>
      { p with session := p.session.withLoader (p.loader.ensureRegistered name handle).2 }
    | _ => p

def run (p : LoadPool) (acts : List LoadAct) : LoadPool := acts.foldl step p

theorem run_induction {Kept : LoadPool → Prop} (keep : ∀ p act, Kept p → Kept (p.step act))
    {p : LoadPool} (holds : Kept p) (acts : List LoadAct) : Kept (p.run acts) := by
  induction acts generalizing p with
  | nil => exact holds
  | cons act rest ih => exact ih (keep p act holds)

/-- What an act makes of a call: nothing, unless the call is running and the act drops or polls it. -/
theorem callers_step {p : LoadPool} (act : LoadAct) {i : Nat} {c : LoadCaller}
    (at_ : p.callers[i]? = some c) :
    (p.step act).callers[i]? = some c ∨
      ∃ w, c = .running w ∧ ((p.step act).callers[i]? = some .dropped ∨
        ∃ env, act = .poll env i ∧
          (p.step act).callers[i]? = some (polled w p.session (p.session.poll env w).1)) := by
  have inside := (List.getElem?_eq_some_iff.1 at_).1
  cases act with
  | start call => exact .inl (getElem?_snoc.2 (.inl at_))
  | register name j =>
    left
    simp only [step]
    split <;> exact at_
  | poll env j =>
    by_cases same : j = i
    · subst same
      cases c with
      | answered | dropped =>
        left
        simp only [step, at_]
      | running w =>
        refine .inr ⟨w, rfl, .inr ⟨env, rfl, ?_⟩⟩
        simp only [step, at_]
        exact List.getElem?_set_self inside
    · left
      simp only [step]
      split
      · exact (List.getElem?_set_ne same).trans at_
      · exact at_
  | drop j =>
    by_cases same : j = i
    · subst same
      cases c with
      | answered | dropped =>
        left
        simp only [step, at_]
      | running w =>
        refine .inr ⟨w, rfl, .inl ?_⟩
        simp only [step, at_]
        exact List.getElem?_set_self inside
    · left
      simp only [step]
      split
      · exact (List.getElem?_set_ne same).trans at_
      · exact at_

end LoadPool

namespace Session

variable (s : Session)

@[simp] theorem record_loader (events : List Event) : (s.record events).loader = s.loader := rfl

@[simp] theorem record_trace (events : List Event) :
    (s.record events).trace = s.trace ++ events := rfl

@[simp] theorem withLoader_loader (l : EngineLoader) : (s.withLoader l).loader = l := rfl

@[simp] theorem withLoader_trace (l : EngineLoader) : (s.withLoader l).trace = s.trace := rfl

end Session

end Playground
