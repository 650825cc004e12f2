import Playground.Compile.Host
import Playground.Proofs.Graph.Inline
import Playground.Proofs.Language.Registry
import Playground.Proofs.Loader.Bindings

/-! What a host keeps while it runs primary passes: compilers and names are only ever added. -/

namespace Playground

open Html

namespace Session

variable {env env' : Surroundings} {s s' s'' : Session}

theorem handlePending_keeps (env : Surroundings) (h : GraphHandler) (elements : List Element)
    (doc : String) (pending : List (Element × EmbeddedBlock)) (s : Session) :
    s.Keeps (handlePending env h elements doc pending s).2 := by
  have loaded := loadCall_keeps env ⟨h.engineUrl, h.global⟩ s
  cases answer : (s.engineOf env h).1 with
  | ok engine => exact loaded.trans (.of_same (handlePending_ok answer elements doc pending).2)
  | error e =>
    have failed : s.engineOf env h = (.error e, (s.engineOf env h).2) := by rw [← answer]
    rw [handlePending, failed]
    exact loaded

theorem renderKind_keeps (env : Surroundings) (h : GraphHandler) (doc : String) (emit : Emit)
    (satisfied : List String) (s : Session) :
    s.Keeps (renderKind env h doc emit satisfied s).2 := by
  have handled := handlePending_keeps env h (scan doc) doc
    (pendingBlocks (scan doc) doc h.kind satisfied) s
  unfold renderKind
  dsimp only
  split
  · exact .refl s
  · generalize handlePending env h _ doc _ s = x at handled
    obtain ⟨result, s'⟩ := x
    cases result <;> exact handled

theorem runHandlers_keeps (env : Surroundings) (emit : Emit) (satisfied : List String)
    (handlers : List GraphHandler) (out : PassOutput) (s : Session) :
    s.Keeps (GraphPipeline.runHandlers env emit satisfied handlers out s).2 := by
  induction handlers generalizing out s with
  | nil => exact .refl s
  | cons h rest ih =>
    have first := renderKind_keeps env h out.text emit satisfied s
    rw [GraphPipeline.runHandlers]
    generalize renderKind env h out.text emit satisfied s = x at first
    obtain ⟨result, s'⟩ := x
    cases result with
    | error e => exact first
    | ok pass => exact first.trans (ih _ s')

theorem createCompiler_keeps (env : Surroundings) (l : LanguageSpec) (s : Session) :
    s.Keeps (s.createCompiler env l).2 := by
  unfold createCompiler
  split
  · exact .refl s
  · exact .refl s
  · exact .refl s
  · next spec _ =>
    have loaded := loadCall_keeps env ⟨spec.url, spec.global⟩ s
    rw [transformEngine]
    generalize loadCall env ⟨spec.url, spec.global⟩ s = x at loaded
    obtain ⟨result, s'⟩ := x
    dsimp only at loaded ⊢
    cases result.bind EngineHandle.transform <;> exact loaded

theorem primary_of_createCompiler {l : LanguageSpec} {handlers : List GraphHandler}
    (created : s.createCompiler env l = (.ok (.graph handlers), s')) :
    l.primary = .graph handlers := by
  unfold createCompiler at created
  split at created
  · cases created
  · cases created
  · next own =>
    cases created
    exact own
  · split at created <;> cases created

theorem runCompiler_keeps (env : Surroundings) (c : Compiler) (language source : String)
    (config : Config) (s : Session) : s.Keeps (s.runCompiler env c language source config).2 := by
  cases c with
  | identity => exact .refl s
  | component => exact .refl s
  | transform engine defaults => exact .of_same rfl
  | graph handlers => exact runHandlers_keeps env .serialize [] _ _ s

theorem runIsolated_builtin (env : Surroundings) (doc : String) (s : Session) :
    GraphPipeline.runIsolated env GraphHandler.builtin doc s =
      renderKind env .gnuplot doc .serialize [] s := by
  have isolated : GraphHandler.builtin.filter (·.isolated) = [.gnuplot] := rfl
  rw [GraphPipeline.runIsolated, isolated, GraphPipeline.runHandlers]
  generalize renderKind env .gnuplot doc .serialize [] s = x
  obtain ⟨result, s'⟩ := x
  cases result with
  | error e => rfl
  | ok pass => rfl

theorem engineOf_again {h : GraphHandler} {name : String} (named : h.global = some name)
    {engine : GraphEngine} (loaded : (s.engineOf env h).1 = .ok engine)
    (keeps : (s.engineOf env h).2.Keeps s') (env' : Surroundings) :
    s'.engineOf env' h = (.ok engine, s') := by
  unfold engineOf at loaded keeps ⊢
  rw [named] at loaded keeps ⊢
  cases answer : loadCall env ⟨h.engineUrl, some name⟩ s with
  | mk result s₁ =>
    rw [answer] at loaded keeps
    cases result with
    | error e => cases loaded
    | ok handle =>
      rw [loadCall_bound (keeps name handle (loadCall_binds answer)) env']
      exact Prod.ext loaded rfl

/-- An isolated stage that succeeded on a text that references nothing has the same answer from then
on. -/
theorem runIsolated_again {doc : String} {out : PassOutput}
    (inline : referencesExternal doc = false)
    (ran : GraphPipeline.runIsolated env GraphHandler.builtin doc s = (.ok out, s'))
    (keeps : s'.Keeps s'') (env' : Surroundings) :
    (GraphPipeline.runIsolated env' GraphHandler.builtin doc s'').1 = .ok out := by
  rw [runIsolated_builtin] at ran ⊢
  rcases renderKind_cases ran with ⟨none_, -, rfl⟩ | ⟨engine, loaded, same, some_, rfl⟩
  · rw [renderKind, none_]
    rfl
  · have again := engineOf_again rfl loaded ((Keeps.of_same same).trans keeps) env'
    have handled := (handlePending_ok (congrArg Prod.fst again) (scan doc) doc
      (pendingBlocks (scan doc) doc GraphHandler.gnuplot.kind [])).1
    rw [passWith_inline inline env env', passWith, renderKind]
    dsimp only
    rw [if_neg (mt List.isEmpty_iff.1 some_), if_neg (mt List.isEmpty_iff.1 some_)]
    generalize handlePending env' _ _ _ _ _ = x at handled
    obtain ⟨result, s₁⟩ := x
    cases handled
    rfl

theorem runCompiler_settings {language : String} {config config' : Config}
    (settings : config'.settingsFor language = config.settingsFor language) (env : Surroundings)
    (c : Compiler) (source : String) (s : Session) :
    s.runCompiler env c language source config' = s.runCompiler env c language source config := by
  cases c with
  | transform engine defaults =>
    rw [runCompiler, runCompiler, Config.optionsFor, Config.optionsFor, settings]
  | identity | component | graph => rfl

/-- What a compiler of a built-in language answered on a text that references nothing, it answers
from then on. -/
theorem runCompiler_again {c : Compiler} {language source : String} {config : Config}
    {compiled : Compiled} (builtin : ∀ handlers, c = .graph handlers → handlers = GraphHandler.builtin)
    (inline : referencesExternal source = false)
    (ran : s.runCompiler env c language source config = (.ok compiled, s'))
    (keeps : s'.Keeps s'') (env' : Surroundings) :
    (s''.runCompiler env' c language source config).1 = .ok compiled := by
  cases c with
  | identity | component | transform => exact congrArg Prod.fst ran
  | graph handlers =>
    cases builtin handlers rfl
    rw [runCompiler] at ran ⊢
    cases stage : GraphPipeline.runIsolated env GraphHandler.builtin source s with
    | mk result s₁ =>
      rw [stage] at ran
      cases result with
      | error e => cases ran
      | ok out =>
        cases ran
        have again := runIsolated_again inline stage keeps env'
        generalize GraphPipeline.runIsolated env' _ source s'' = x at again
        obtain ⟨result, s₂⟩ := x
        cases again
        rfl

end Session

/-- Languages whose documents are rendered by the built-in handlers, if at all. -/
def LanguageSpec.IsOrdinary (l : LanguageSpec) : Prop :=
  ∀ handlers, l.primary = .graph handlers → handlers = GraphHandler.builtin

theorem LanguageSpec.isOrdinary_builtin : ∀ l ∈ LanguageSpec.builtin, l.IsOrdinary := by
  simp only [builtin, List.forall_mem_cons, List.not_mem_nil, false_implies, implies_true, and_true]
  refine ⟨?_, ?_, ?_, ?_, ?_, ?_, ?_, ?_, ?_, ?_, ?_, ?_⟩
  all_goals
    intro handlers own
    cases own
  rfl

namespace Host

structure Grows (h h' : Host) : Prop where
  registry : h'.registry = h.registry
  compilers : ∀ name c, h.compilers.lookup name = some c → h'.compilers.lookup name = some c
  names : h.session.Keeps h'.session

/-- Hosts over the built-in languages. -/
structure IsBuiltin (h : Host) : Prop where
  registry : h.registry = .builtin
  compilers : ∀ name handlers, h.compilers.lookup name = some (.graph handlers) →
    handlers = GraphHandler.builtin

namespace Grows

variable {h h' h'' : Host}

theorem refl (h : Host) : h.Grows h := ⟨rfl, fun _ _ known => known, .refl h.session⟩

theorem trans (first : h.Grows h') (second : h'.Grows h'') : h.Grows h'' where
  registry := second.registry.trans first.registry
  compilers name c known := second.compilers name c (first.compilers name c known)
  names := first.names.trans second.names

theorem withSession {s : Session} (keeps : h.session.Keeps s) : h.Grows (h.withSession s) :=
  ⟨rfl, fun _ _ known => known, keeps⟩

end Grows

theorem isBuiltin_new (base : String) : (Host.new .builtin base).IsBuiltin := ⟨rfl, nofun⟩

variable {env env' : Surroundings} {l : LanguageSpec} {c : Compiler} {h h' h'' : Host}

theorem compilerFor_known (known : h.compilers.lookup l.name = some c) (env : Surroundings) :
    h.compilerFor env l = (.ok c, h) := by
  rw [compilerFor, known]

theorem compilerFor_kept (made : h.compilerFor env l = (.ok c, h')) :
    h'.compilers.lookup l.name = some c := by
  unfold compilerFor at made
  split at made
  · next known =>
    cases made
    exact known
  · split at made
    · cases made
    · cases made
      rw [lookup_upsert, if_pos rfl]

theorem compilerFor_grows (env : Surroundings) (l : LanguageSpec) (h : Host) :
    h.Grows (h.compilerFor env l).2 := by
  have keeps := Session.createCompiler_keeps env l h.session
  unfold compilerFor
  split
  · exact .refl h
  · next fresh =>
    generalize h.session.createCompiler env l = x at keeps
    obtain ⟨result, s⟩ := x
    cases result with
    | error e => exact .withSession keeps
    | ok c =>
      refine ⟨rfl, fun name known at_ => ?_, keeps⟩
      rw [lookup_upsert, if_neg]
      · exact at_
      · rintro rfl
        rw [fresh] at at_
        cases at_

theorem runPrimary_grows (env : Surroundings) (l : LanguageSpec) (source : String)
    (config : Config) (h : Host) : h.Grows (h.runPrimary env l source config).2 := by
  have grows := compilerFor_grows env l h
  unfold runPrimary
  generalize h.compilerFor env l = x at grows
  obtain ⟨result, h'⟩ := x
  cases result with
  | error e => exact grows
  | ok c =>
    exact grows.trans (.withSession
      (Session.runCompiler_keeps env c l.name source config h'.session))

theorem compilePrimary_grows (env : Surroundings) (language source : String) (config : Config)
    (h : Host) : h.Grows (h.compilePrimary env language source config).2 := by
  unfold compilePrimary
  split
  · exact .refl h
  · split
    · exact .refl h
    · exact runPrimary_grows env _ source config h

namespace IsBuiltin

theorem ordinary (builtin : h.IsBuiltin) {name : String}
    (found : h.registry.resolve name = .ok l) : l.IsOrdinary := by
  have mem := (LanguageRegistry.mem_of_named? (LanguageRegistry.named_of_resolve found).1).1
  rw [builtin.registry] at mem
  exact LanguageSpec.isOrdinary_builtin l (LanguageRegistry.mem_of_specs_ofList mem)

theorem compilerFor (builtin : h.IsBuiltin) (ordinary : l.IsOrdinary) (env : Surroundings) :
    (h.compilerFor env l).2.IsBuiltin := by
  unfold Host.compilerFor
  split
  · exact builtin
  · split
    · exact ⟨builtin.registry, builtin.compilers⟩
    · next c s created =>
      refine ⟨builtin.registry, fun name handlers known => ?_⟩
      rw [lookup_upsert] at known
      split at known
      · cases known
        exact ordinary handlers (Session.primary_of_createCompiler created)
      · exact builtin.compilers name handlers known

theorem runPrimary (builtin : h.IsBuiltin) (ordinary : l.IsOrdinary) (env : Surroundings)
    (source : String) (config : Config) : (h.runPrimary env l source config).2.IsBuiltin := by
  have kept := builtin.compilerFor ordinary env
  unfold Host.runPrimary
  generalize h.compilerFor env l = x at kept
  obtain ⟨result, h'⟩ := x
  cases result <;> exact ⟨kept.registry, kept.compilers⟩

theorem compilePrimary (builtin : h.IsBuiltin) (env : Surroundings) (language source : String)
    (config : Config) : (h.compilePrimary env language source config).2.IsBuiltin := by
  unfold Host.compilePrimary
  split
  · exact builtin
  · next l found =>
    split
    · exact builtin
    · exact builtin.runPrimary (builtin.ordinary found) env source config

end IsBuiltin

theorem compilePrimary_settings {language : String} {config config' : Config}
    (settings : config'.settingsFor language = config.settingsFor language) (env : Surroundings)
    (source : String) (h : Host) :
    h.compilePrimary env language source config' = h.compilePrimary env language source config := by
  unfold compilePrimary
  split
  · rfl
  · next l found =>
    obtain ⟨-, rfl⟩ := LanguageRegistry.named_of_resolve found
    unfold runPrimary
    split
    · rfl
    · split
      · rfl
      · rw [Session.runCompiler_settings settings]

/-- A primary pass that succeeded on a text that references nothing has the same answer on the host
from then on, to whoever asks with the same settings. -/
theorem compilePrimary_again (builtin : h.IsBuiltin) {language source : String}
    {config config' : Config} {compiled : Compiled} (inline : referencesExternal source = false)
    (settings : config'.settingsFor language = config.settingsFor language)
    (ran : h.compilePrimary env language source config = (.ok compiled, h'))
    (grows : h'.Grows h'') (env' : Surroundings) :
    (h''.compilePrimary env' language source config').1 = .ok compiled := by
  have grown := compilePrimary_grows env language source config h
  rw [ran] at grown
  rw [compilePrimary_settings settings]
  unfold compilePrimary at ran ⊢
  rw [(grown.trans grows).registry]
  cases found : h.registry.resolve language with
  | error e =>
    rw [found] at ran
    cases ran
  | ok l =>
    have ordinary := builtin.ordinary found
    rw [found] at ran
    dsimp only at ran ⊢
    split
    · next empty =>
      rw [if_pos empty] at ran
      exact congrArg Prod.fst ran
    · next some_ =>
      rw [if_neg some_] at ran
      have kept := builtin.compilerFor ordinary env
      unfold runPrimary at ran ⊢
      cases made : h.compilerFor env l with
      | mk result h₁ =>
        rw [made] at ran kept
        cases result with
        | error e => cases ran
        | ok c =>
          have known := compilerFor_kept made
          dsimp only at ran
          cases answer : h₁.session.runCompiler env c l.name source config with
          | mk result s =>
            rw [answer] at ran
            cases ran
            rw [compilerFor_known (grows.compilers _ _ known)]
            exact Session.runCompiler_again (fun handlers same => kept.compilers _ handlers (same ▸ known))
              inline answer grows.names env'

end Host

end Playground
