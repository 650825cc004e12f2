import Playground.Proofs.Graph.Loads
import Playground.Proofs.Loader.Slots

/-! Well-known names stay bound. -/

namespace Playground

namespace Session

def Binds (s : Session) (name : String) (handle : EngineHandle) : Prop :=
  s.loader.scope.lookup name = some handle

def Keeps (s s' : Session) : Prop := ∀ name handle, s.Binds name handle → s'.Binds name handle

namespace Keeps

variable {s s' s'' : Session}

theorem refl (s : Session) : s.Keeps s := fun _ _ bound => bound

theorem trans (first : s.Keeps s') (second : s'.Keeps s'') : s.Keeps s'' :=
  fun name handle bound => second name handle (first name handle bound)

theorem of_scope (same : s'.loader.scope = s.loader.scope) : s.Keeps s' := by
  intro name handle bound
  rw [Binds, same]
  exact bound

theorem of_same (same : s.SameLoader s') : s.Keeps s' :=
  of_scope (congrArg EngineLoader.scope same).symm

end Keeps

variable {env : Surroundings} {s : Session}

theorem deliver_keeps (s : Session) (global : Option String) (result : LoadResult) :
    s.Keeps (s.withLoader (s.loader.deliver global result).2) := by
  cases result with
  | error e => exact .refl s
  | ok handle =>
    cases global with
    | none => exact .refl s
    | some name =>
      intro other bound known
      have binding := s.loader.scope_ensureRegistered name other handle
      rw [known, Option.some_or] at binding
      exact binding

theorem advance_scope (env : Surroundings) (wait : Bool) (id : Nat) (s : Session) :
    (advance env wait id s).2.loader.scope = s.loader.scope := by
  unfold advance
  split
  · rfl
  · split
    · rfl
    · split <;> rfl

theorem conclude_keeps (url : String) (id : Nat) (global : Option String) (result : LoadResult)
    (s : Session) : s.Keeps (conclude url id global result s).2 := by
  have settled : s.Keeps (s.withLoader (s.loader.settle url id result)) :=
    .of_scope (s.loader.settle_scope url id result)
  exact settled.trans (deliver_keeps _ global result)

theorem enter_keeps (call : LoadCall) (s : Session) : s.Keeps (enter call s).2 := by
  unfold enter
  split
  · exact .refl s
  · dsimp only
    split
    · exact deliver_keeps s call.global _
    · exact .refl s
    · exact .of_scope rfl

theorem loadCall_keeps (env : Surroundings) (call : LoadCall) (s : Session) :
    s.Keeps (loadCall env call s).2 := by
  have entered := enter_keeps call s
  unfold loadCall
  generalize enter call s = x at entered
  obtain ⟨entry, s'⟩ := x
  cases entry with
  | done result => exact entered
  | waiting url id =>
    have advanced := entered.trans (.of_scope (advance_scope env true id s'))
    dsimp only
    generalize advance env true id s' = x at advanced
    obtain ⟨result, s''⟩ := x
    cases result with
    | none => exact advanced
    | some result => exact advanced.trans (conclude_keeps url id call.global result s'')

theorem loadCall_bound {name : String} {handle : EngineHandle} (bound : s.Binds name handle)
    (env : Surroundings) (reference : String) :
    loadCall env ⟨reference, some name⟩ s = (.ok handle, s) := by
  rw [Binds] at bound
  simp only [loadCall, enter, Option.bind_some, bound]

theorem deliver_binds {l : EngineLoader} {name : String} {result : LoadResult}
    {handle : EngineHandle} (answer : (l.deliver (some name) result).1 = .ok handle) :
    (l.deliver (some name) result).2.scope.lookup name = some handle := by
  cases result with
  | error e => cases answer
  | ok found =>
    have bound := l.ensureRegistered_bound name found
    cases answer
    exact bound

theorem enter_binds {name reference : String} {handle : EngineHandle} {s' : Session}
    (entered : enter ⟨reference, some name⟩ s = (.done (.ok handle), s')) :
    s'.Binds name handle := by
  unfold enter at entered
  dsimp only [Option.bind_some] at entered
  cases known : s.loader.scope.lookup name with
  | some bound =>
    rw [known] at entered
    cases entered
    exact known
  | none =>
    rw [known] at entered
    dsimp only at entered
    cases slot : s.loader.slot? (s.loader.resolve reference) with
    | none =>
      rw [slot] at entered
      cases entered
    | some slot_ =>
      rw [slot] at entered
      cases slot_ with
      | pending id => cases entered
      | ready found =>
        obtain ⟨answer, same⟩ := Prod.mk.inj entered
        rw [← same]
        exact deliver_binds (Entry.done.inj answer)

theorem loadCall_binds {name reference : String} {handle : EngineHandle} {s' : Session}
    (answer : loadCall env ⟨reference, some name⟩ s = (.ok handle, s')) : s'.Binds name handle := by
  unfold loadCall at answer
  cases entered : enter ⟨reference, some name⟩ s with
  | mk entry s₁ =>
    rw [entered] at answer
    cases entry with
    | done result =>
      cases answer
      exact enter_binds entered
    | waiting url id =>
      dsimp only at answer
      cases advanced : advance env true id s₁ with
      | mk result s₂ =>
        rw [advanced] at answer
        cases result with
        | none => cases answer
        | some result =>
          dsimp only [conclude] at answer
          obtain ⟨handed, same⟩ := Prod.mk.inj answer
          rw [← same]
          exact deliver_binds handed

end Session

end Playground
