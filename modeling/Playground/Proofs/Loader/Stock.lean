import Playground.Proofs.Loader.Schedule
import Playground.Proofs.Loader.Slots

/-! Loaders that hold only what is right for the calls made to them. -/

namespace Playground

/-- What loads bring for some calls. -/
structure Supplies (env : Surroundings) (base : String) (calls : List LoadCall)
    (right : LoadCall → EngineHandle → Prop) : Prop where
  arrivals : ∀ c ∈ calls, ∀ attempt, ∃ handle,
    ((⟨resolveUrl base c.reference, attempt, 0, none⟩ : Load).arrive env).1 = .ok handle ∧
      right c handle
  urls : ∀ c ∈ calls, ∀ d ∈ calls, resolveUrl base c.reference = resolveUrl base d.reference →
    ∀ handle, right c handle → right d handle
  names : ∀ c ∈ calls, ∀ d ∈ calls, ∀ name, c.global = some name → d.global = some name →
    ∀ handle, right c handle → right d handle

/-- No load for one of the calls is under way, and what is held for one is right for it. -/
structure EngineLoader.Stocked (l : EngineLoader) (base : String) (calls : List LoadCall)
    (right : LoadCall → EngineHandle → Prop) : Prop where
  origin : l.base = base
  slots : ∀ c ∈ calls, ∀ slot, l.slot? (resolveUrl base c.reference) = some slot →
    ∃ handle, slot = .ready handle ∧ right c handle
  scope : ∀ c ∈ calls, ∀ name, c.global = some name → ∀ handle, l.scope.lookup name = some handle →
    right c handle

variable {env : Surroundings} {base : String} {calls : List LoadCall}
variable {right : LoadCall → EngineHandle → Prop} {l : EngineLoader} {s : Session} {c : LoadCall}

namespace EngineLoader.Stocked

theorem start : (EngineLoader.empty base).Stocked base calls right where
  origin := rfl
  slots _ _ _ := nofun
  scope _ _ _ _ _ := nofun

theorem settle (stocked : l.Stocked base calls right) (supplies : Supplies env base calls right)
    (mem : c ∈ calls) {handle : EngineHandle} (fits : right c handle) {l' : EngineLoader} {id : Nat}
    (pending : ∀ u, l'.slot? u =
      if u = resolveUrl base c.reference then some (.pending id) else l.slot? u)
    (origin : l'.base = l.base) (scope : l'.scope = l.scope) :
    (l'.settle (resolveUrl base c.reference) id (.ok handle)).Stocked base calls right where
  origin := by rw [EngineLoader.settle_base, origin, stocked.origin]
  slots := by
    intro d d_mem slot here
    have owned := pending (resolveUrl base c.reference)
    rw [if_pos rfl] at owned
    rw [EngineLoader.slot?_settle _ owned, pending] at here
    split at here
    · next same =>
      cases here
      exact ⟨handle, rfl, supplies.urls c mem d d_mem same.symm handle fits⟩
    · exact stocked.slots d d_mem slot here
  scope := by
    rw [EngineLoader.settle_scope, scope]
    exact stocked.scope

theorem deliver (stocked : l.Stocked base calls right) (supplies : Supplies env base calls right)
    (mem : c ∈ calls) {handle : EngineHandle} (fits : right c handle) :
    ∃ given, (l.deliver c.global (.ok handle)).1 = .ok given ∧ right c given ∧
      (l.deliver c.global (.ok handle)).2.Stocked base calls right := by
  cases named : c.global with
  | none => exact ⟨handle, rfl, fits, stocked⟩
  | some name =>
    have bound : ∀ other, (l.deliver (some name) (.ok handle)).2.scope.lookup other =
        (l.scope.lookup other).or (if other = name then some handle else none) :=
      fun other => l.scope_ensureRegistered name other handle
    have answer : (l.deliver (some name) (.ok handle)).2.scope.lookup name =
        some (l.ensureRegistered name handle).1 := l.ensureRegistered_bound name handle
    obtain ⟨slots, -, origin⟩ := l.ensureRegistered_frame name handle
    have kept : (l.deliver (some name) (.ok handle)).2.Stocked base calls right := {
      origin := origin.trans stocked.origin
      slots := by
        intro d d_mem slot here
        refine stocked.slots d d_mem slot ?_
        rw [EngineLoader.slot?, ← slots]
        exact here
      scope := by
        intro d d_mem other d_named found known
        rw [bound] at known
        cases before : l.scope.lookup other with
        | some earlier =>
          rw [before, Option.some_or] at known
          exact stocked.scope d d_mem other d_named found (before.trans known)
        | none =>
          rw [before, Option.none_or] at known
          split at known
          · next same =>
            cases known
            exact supplies.names c mem d d_mem name named (same ▸ d_named) _ fits
          · cases known }
    exact ⟨_, rfl, kept.scope c mem name named _ answer, kept⟩

end EngineLoader.Stocked

namespace Session

theorem advance_fresh (env : Surroundings) {load : Load} {id : Nat}
    (here : s.loader.loads[id]? = some load) (fresh : load.result = none) :
    advance env true id s = (some (load.arrive env).1,
      (s.withLoader (s.loader.setLoad id { load with result := some (load.arrive env).1 })).record
        (load.arrive env).2) := by
  simp [advance, here, fresh]

theorem loadCall_stocked (stocked : s.loader.Stocked base calls right)
    (supplies : Supplies env base calls right) (mem : c ∈ calls) :
    ∃ handle, (s.loadCall env c).1 = .ok handle ∧ right c handle ∧
      (s.loadCall env c).2.loader.Stocked base calls right := by
  unfold loadCall enter
  dsimp only
  cases known : c.global.bind fun name => s.loader.scope.lookup name with
  | some handle =>
    obtain ⟨name, named, found⟩ := Option.bind_eq_some_iff.1 known
    exact ⟨handle, rfl, stocked.scope c mem name named handle found, stocked⟩
  | none =>
    rw [EngineLoader.resolve, stocked.origin]
    dsimp only
    cases found : s.loader.slot? (resolveUrl base c.reference) with
    | some slot =>
      obtain ⟨handle, rfl, fits⟩ := stocked.slots c mem slot found
      exact stocked.deliver supplies mem fits
    | none =>
      obtain ⟨attempt, loads⟩ := s.loader.loads_begin (resolveUrl base c.reference)
      obtain ⟨handle, arrives, fits⟩ := supplies.arrivals c mem attempt
      have begun : ((s.withLoader (s.loader.begin_ (resolveUrl base c.reference)).2).record
          [.load (resolveUrl base c.reference)]).loader.loads[s.loader.loads.length]? =
            some ⟨resolveUrl base c.reference, attempt, 0, none⟩ := by
        rw [Session.record_loader, Session.withLoader_loader, loads]
        exact List.getElem?_concat_length
      have arrived := advance_fresh env begun rfl
      have id : (s.loader.begin_ (resolveUrl base c.reference)).1 = s.loader.loads.length := rfl
      rw [arrives] at arrived
      simp only [id, arrived, conclude]
      refine EngineLoader.Stocked.deliver ?_ supplies mem fits
      exact stocked.settle supplies mem fits (s.loader.slot?_begin (resolveUrl base c.reference)) rfl rfl

end Session

end Playground
