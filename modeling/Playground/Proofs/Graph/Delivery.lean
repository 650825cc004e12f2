import Playground.Proofs.Graph.Loads
import Playground.Proofs.Loader.Stock

/-! Surroundings that hold every engine of a pipeline. -/

namespace Playground

/-- Every load of an engine of the pipeline brings it, and handlers that ask for one name have one
engine. -/
structure Delivers (env : Surroundings) (base : String) (p : GraphPipeline)
    (engineFor : GraphHandler → GraphEngine) : Prop where
  modules : ∀ h ∈ p, ∀ attempt,
    env.modules.arrival (resolveUrl base h.engineUrl) attempt = .module (.ok (.graph (engineFor h)))
  names : ∀ h ∈ p, ∀ d ∈ p, ∀ name, h.global = some name → d.global = some name →
    engineFor h = engineFor d

variable {env : Surroundings} {base : String} {p : GraphPipeline}
variable {engineFor : GraphHandler → GraphEngine} {s : Session}

def GraphHandler.call (h : GraphHandler) : LoadCall := ⟨h.engineUrl, h.global⟩

/-- A handle is right for a call when it has the engine of every handler that makes the call. -/
def Equips (p : GraphPipeline) (engineFor : GraphHandler → GraphEngine) (c : LoadCall)
    (handle : EngineHandle) : Prop :=
  ∀ h ∈ p, h.call = c → handle.graph = .ok (engineFor h)

theorem Delivers.supplies (delivers : Delivers env base p engineFor) :
    Supplies env base (p.map GraphHandler.call) (Equips p engineFor) where
  arrivals := by
    intro c mem attempt
    obtain ⟨h, h_mem, rfl⟩ := List.mem_map.1 mem
    have arrives := delivers.modules h h_mem attempt
    refine ⟨⟨resolveUrl base h.engineUrl, .graph (engineFor h)⟩, ?_, fun d d_mem same => ?_⟩
    · simp only [Load.arrive, GraphHandler.call, arrives]
    · have urls : d.engineUrl = h.engineUrl := congrArg LoadCall.reference same
      have arrives' := delivers.modules d d_mem attempt
      rw [urls, arrives] at arrives'
      simp only [Arrival.module.injEq, Except.ok.injEq, Module.graph.injEq] at arrives'
      exact congrArg Except.ok arrives'
  urls := by
    intro c mem d mem' same handle fits e e_mem e_call
    obtain ⟨h, h_mem, rfl⟩ := List.mem_map.1 mem
    subst e_call
    have first := delivers.modules h h_mem 0
    have second := delivers.modules e e_mem 0
    have urls : resolveUrl base h.engineUrl = resolveUrl base e.engineUrl := same
    rw [urls, second] at first
    simp only [Arrival.module.injEq, Except.ok.injEq, Module.graph.injEq] at first
    rw [fits h h_mem rfl, first]
  names := by
    intro c mem d mem' name named named' handle fits e e_mem e_call
    obtain ⟨h, h_mem, rfl⟩ := List.mem_map.1 mem
    subst e_call
    rw [fits h h_mem rfl, delivers.names h h_mem e e_mem name named named']

namespace Session

theorem engineOf_stocked
    (stocked : s.loader.Stocked base (p.map GraphHandler.call) (Equips p engineFor))
    (delivers : Delivers env base p engineFor) {h : GraphHandler} (mem : h ∈ p) :
    (s.engineOf env h).1 = .ok (engineFor h) ∧
      (s.engineOf env h).2.loader.Stocked base (p.map GraphHandler.call) (Equips p engineFor) := by
  obtain ⟨handle, answer, fits, kept⟩ :=
    loadCall_stocked stocked delivers.supplies (List.mem_map_of_mem mem)
  have result : (s.engineOf env h).1 = (s.loadCall env h.call).1.bind EngineHandle.graph := rfl
  rw [result, answer]
  exact ⟨fits h mem rfl, kept⟩

theorem loadsAnswer_stocked
    (stocked : s.loader.Stocked base (p.map GraphHandler.call) (Equips p engineFor))
    (delivers : Delivers env base p engineFor) : s.LoadsAnswer env p engineFor := by
  intro earlier within
  induction earlier generalizing s with
  | nil =>
    intro h mem
    exact ⟨engineFor h, (engineOf_stocked stocked delivers mem).1, rfl⟩
  | cons d earlier ih =>
    have loaded := engineOf_stocked stocked delivers (within d List.mem_cons_self)
    exact ih loaded.2 fun h mem => within h (List.mem_cons_of_mem d mem)

theorem loadsAnswer_new (delivers : Delivers env base p engineFor) :
    (Session.new base).LoadsAnswer env p engineFor := loadsAnswer_stocked .start delivers

end Session

theorem resolveUrl_test : resolveUrl "https://e.test/" "https://e.test/a" = "https://e.test/a" ∧
    resolveUrl "https://e.test/" "https://e.test/b" = "https://e.test/b" := by decide +kernel

end Playground
