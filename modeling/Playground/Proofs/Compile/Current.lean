import Playground.Proofs.Compile.Growth
import Playground.Proofs.Graph.Delivery
import Playground.Proofs.Graph.StoredPass
import Playground.Proofs.Steady

/-! What a host holds after whatever it has compiled is what a new one would get, while loads
succeed. -/

namespace Playground

open Html

namespace Session

variable {env : Surroundings} {base : String} {calls : List LoadCall}
variable {right : LoadCall → EngineHandle → Prop}

/-- Sessions whose loader holds what is right for some calls. -/
def Holds (base : String) (calls : List LoadCall) (right : LoadCall → EngineHandle → Prop)
    (s : Session) : Prop :=
  s.loader.Stocked base calls right

/-- Loads for the calls succeed, and one handle at most is right for each. -/
structure Settles (env : Surroundings) (base : String) (calls : List LoadCall)
    (right : LoadCall → EngineHandle → Prop) : Prop where
  supplies : Supplies env base calls right
  unique : ∀ c ∈ calls, ∀ a b, right c a → right c b → a = b

variable (settles : Settles env base calls right)
include settles

theorem loadCall_steady {c : LoadCall} (mem : c ∈ calls) :
    Steady (Holds base calls right) (loadCall env c) where
  keeps s holds := by
    obtain ⟨-, -, -, kept⟩ := loadCall_stocked holds settles.supplies mem
    exact kept
  same s s' holds holds' := by
    obtain ⟨a, answer, fits, -⟩ := loadCall_stocked holds settles.supplies mem
    obtain ⟨b, answer', fits', -⟩ := loadCall_stocked holds' settles.supplies mem
    rw [answer, answer', settles.unique c mem a b fits fits']

theorem transformEngine_steady {c : LoadCall} (mem : c ∈ calls) :
    Steady (Holds base calls right) (transformEngine env c) :=
  (loadCall_steady settles mem).map fun result => result.bind EngineHandle.transform

theorem engineOf_steady {h : GraphHandler} (mem : h.call ∈ calls) :
    Steady (Holds base calls right) (engineOf env h) :=
  (loadCall_steady settles mem).map fun result => result.bind EngineHandle.graph

omit settles in
theorem transform_steady (engine : TransformEngine) (language source : String) (options : Json) :
    Steady (Holds base calls right) (transform engine language source options) where
  keeps _ holds := holds
  same _ _ _ _ := rfl

theorem createCompiler_steady {l : LanguageSpec}
    (known : ∀ spec, l.primary = .transform spec → ⟨spec.url, spec.global⟩ ∈ calls) :
    Steady (Holds base calls right) (createCompiler env l) := by
  unfold createCompiler
  cases primary : l.primary with
  | identity | component | graph handlers => exact .pure _ _
  | transform spec =>
    refine (transformEngine_steady settles (known spec primary)).go (k := fun result s =>
      match result with
      | .ok engine => (.ok (.transform engine spec.defaults), s)
      | .error e => (.error (.engineLoad l.name e), s)) (fun s => ?_) fun s _ => ?_
    · dsimp only
      generalize transformEngine env ⟨spec.url, spec.global⟩ s = x
      obtain ⟨_ | _, _⟩ := x <;> rfl
    · split <;> exact .pure _ _

theorem renderKind_steady {h : GraphHandler} (mem : h.call ∈ calls) (doc : String) (emit : Emit)
    (satisfied : List String) :
    Steady (Holds base calls right) (renderKind env h doc emit satisfied) where
  keeps s holds := by
    have loaded := (engineOf_steady settles mem).keeps s holds
    unfold renderKind
    dsimp only
    split
    · exact holds
    · have kept : Holds base calls right (handlePending env h (scan doc) doc
          (pendingBlocks (scan doc) doc h.kind satisfied) s).2 := by
        cases answer : (s.engineOf env h).1 with
        | error e =>
          have failed : s.engineOf env h = (.error e, (s.engineOf env h).2) := by rw [← answer]
          rw [handlePending, failed]
          exact loaded
        | ok engine =>
          have same := (handlePending_ok answer (scan doc) doc
            (pendingBlocks (scan doc) doc h.kind satisfied)).2
          rw [Holds, ← show _ = _ from same]
          exact loaded
      generalize handlePending env h _ doc _ s = x at kept
      obtain ⟨_ | _, _⟩ := x <;> exact kept
  same s s' holds holds' := by
    rw [renderKind_answer, renderKind_answer, (engineOf_steady settles mem).same s s' holds holds']

theorem runHandlers_steady {handlers : List GraphHandler}
    (known : ∀ h ∈ handlers, h.call ∈ calls) (emit : Emit) (satisfied : List String)
    (out : PassOutput) :
    Steady (Holds base calls right)
      (GraphPipeline.runHandlers env emit satisfied handlers out) := by
  induction handlers generalizing out with
  | nil => exact .pure _ _
  | cons h rest ih =>
    rw [List.forall_mem_cons] at known
    refine (renderKind_steady settles known.1 out.text emit satisfied).go (k := fun result s =>
      match result with
      | .error e => (.error e, s)
      | .ok pass => GraphPipeline.runHandlers env emit satisfied rest
          ⟨pass.text, out.errors ++ pass.errors⟩ s) (fun s => ?_) fun s _ => ?_
    · rw [GraphPipeline.runHandlers]
      generalize renderKind env h out.text emit satisfied s = x
      obtain ⟨_ | _, _⟩ := x <;> rfl
    · split
      · exact .pure _ _
      · exact ih known.2 _

theorem runMain_steady {handlers : List GraphHandler}
    (known : ∀ h ∈ handlers, h.call ∈ calls) (doc : String) :
    Steady (Holds base calls right) (GraphPipeline.runMain env handlers doc) :=
  have within : ∀ h ∈ handlers.filter fun h => !h.isolated, h.call ∈ calls :=
    fun h mem => known h (List.mem_filter.1 mem).1
  (runHandlers_steady settles within .substitute _ _).map _

theorem runCompiler_steady {c : Compiler}
    (known : ∀ handlers, c = .graph handlers → ∀ h ∈ handlers, h.call ∈ calls)
    (language source : String) (config : Config) :
    Steady (Holds base calls right) (runCompiler env c language source config) := by
  cases c with
  | identity | component => exact .pure _ _
  | transform engine defaults => exact (transform_steady engine language source _).map _
  | graph handlers =>
    have within : ∀ h ∈ handlers.filter (·.isolated), h.call ∈ calls :=
      fun h mem => known handlers rfl h (List.mem_filter.1 mem).1
    exact (runHandlers_steady settles within .serialize [] _).map _

theorem mdxToJsx_steady (mem : ⟨mdxUrl, none⟩ ∈ calls) (language code : String) (config : Config) :
    Steady (Holds base calls right) (mdxToJsx env language code config) := by
  refine (transformEngine_steady settles mem).go (k := fun result s =>
    match result with
    | .error e => (.error (.engineLoad "mdx" e), s)
    | .ok engine => transform engine "mdx" code (config.optionsFor language Mdx.defaultOptions) s)
    (fun s => ?_) fun s _ => ?_
  · rw [mdxToJsx]
    generalize transformEngine env ⟨mdxUrl, none⟩ s = x
    obtain ⟨_ | _, _⟩ := x <;> rfl
  · split
    · exact .pure _ _
    · exact transform_steady _ _ _ _

end Session

def LanguageSpec.calls (l : LanguageSpec) : List LoadCall :=
  (match l.primary with
    | .transform spec => [⟨spec.url, spec.global⟩]
    | .graph handlers => handlers.map GraphHandler.call
    | .identity | .component => []) ++
  (match l.secondary with
    | some .mdx => [⟨mdxUrl, none⟩]
    | some (.graph handlers) => handlers.map GraphHandler.call
    | some (.nest _) | none => [])

def LanguageRegistry.calls (r : LanguageRegistry) : List LoadCall :=
  r.specs.flatMap LanguageSpec.calls

/-- A host that holds what a new host over the registry would get. -/
structure Host.Current (env : Surroundings) (base : String) (r : LanguageRegistry)
    (right : LoadCall → EngineHandle → Prop) (h : Host) : Prop where
  registry : h.registry = r
  session : Session.Holds base r.calls right h.session
  compilers : ∀ l, r.named? l.name = some l → ∀ c, h.compilers.lookup l.name = some c →
    ∃ s : Session, Session.Holds base r.calls right s ∧ (s.createCompiler env l).1 = .ok c

namespace Host

variable {env : Surroundings} {base : String} {r : LanguageRegistry} {l : LanguageSpec}
variable {right : LoadCall → EngineHandle → Prop}

theorem current_new : (Host.new r base).Current env base r right where
  registry := rfl
  session := .start
  compilers _ _ _ := nofun

theorem Current.withSession {h : Host} (current : h.Current env base r right) {s : Session}
    (holds : Session.Holds base r.calls right s) : (h.withSession s).Current env base r right :=
  ⟨current.registry, holds, current.compilers⟩

theorem lift_steady {α : Type} {f : Session → α × Session}
    (steady : Steady (Session.Holds base r.calls right) f) :
    Steady (Current env base r right) fun h => ((f h.session).1, h.withSession (f h.session).2) where
  keeps h current := current.withSession (steady.keeps h.session current.session)
  same h h' current current' := steady.same h.session h'.session current.session current'.session

theorem calls_of_named (known : r.named? l.name = some l) : ∀ c ∈ l.calls, c ∈ r.calls :=
  fun _ mem => List.mem_flatMap.2 ⟨l, (LanguageRegistry.mem_of_named? known).1, mem⟩

theorem calls_of_primary {handlers : List GraphHandler} (primary : l.primary = .graph handlers) :
    ∀ h ∈ handlers, h.call ∈ l.calls := by
  intro h mem
  rw [LanguageSpec.calls, primary]
  exact List.mem_append_left _ (List.mem_map_of_mem mem)

theorem calls_of_secondary {handlers : List GraphHandler}
    (secondary : l.secondary = some (.graph handlers)) : ∀ h ∈ handlers, h.call ∈ l.calls := by
  intro h mem
  rw [LanguageSpec.calls, secondary]
  exact List.mem_append_right _ (List.mem_map_of_mem mem)

theorem compilePrimary_known {h : Host} (current : h.Current env base r right) {source : String}
    (some_ : ¬ source.isEmpty = true) (known : r.named? l.name = some l) (config : Config) :
    h.compilePrimary env l.name source config = h.runPrimary env l source config := by
  rw [compilePrimary, current.registry, LanguageRegistry.resolve, known]
  dsimp only
  rw [if_neg some_]

variable (settles : Session.Settles env base r.calls right)
include settles

theorem createCompiler_known (known : r.named? l.name = some l) :
    Steady (Session.Holds base r.calls right) (Session.createCompiler env l) := by
  refine Session.createCompiler_steady settles fun spec primary => ?_
  refine calls_of_named known _ ?_
  rw [LanguageSpec.calls, primary]
  exact List.mem_cons_self

theorem compilerFor_answer (known : r.named? l.name = some l) {h : Host}
    (current : h.Current env base r right) :
    (h.compilerFor env l).1 = (h.session.createCompiler env l).1 := by
  unfold compilerFor
  split
  · next c kept =>
    obtain ⟨s, holds, made⟩ := current.compilers l known c kept
    rw [(createCompiler_known settles known).same _ s current.session holds, made]
  · generalize h.session.createCompiler env l = x
    obtain ⟨_ | _, _⟩ := x <;> rfl

theorem compilerFor_steady (known : r.named? l.name = some l) :
    Steady (Current env base r right) (compilerFor env l) where
  keeps h current := by
    have kept := (createCompiler_known settles known).keeps h.session current.session
    unfold compilerFor
    split
    · exact current
    · cases made : h.session.createCompiler env l with
      | mk result s =>
        rw [made] at kept
        cases result with
        | error e => exact current.withSession kept
        | ok c =>
          refine ⟨current.registry, kept, fun l' known' c' found => ?_⟩
          dsimp only at found
          rw [lookup_upsert] at found
          split at found
          · next same =>
            rw [same, known] at known'
            cases known'
            cases found
            exact ⟨h.session, current.session, congrArg Prod.fst made⟩
          · exact current.compilers l' known' c' found
  same h h' current current' := by
    rw [compilerFor_answer settles known current, compilerFor_answer settles known current',
      (createCompiler_known settles known).same _ _ current.session current'.session]

theorem runPrimary_steady (known : r.named? l.name = some l) (source : String) (config : Config) :
    Steady (Current env base r right) (runPrimary env l source config) := by
  refine (compilerFor_steady settles known).go (k := fun result h =>
    match result with
    | .error e => (.error e, h)
    | .ok c => ((h.session.runCompiler env c l.name source config).1,
        h.withSession (h.session.runCompiler env c l.name source config).2)) (fun h => ?_)
    fun h current => ?_
  · rw [runPrimary]
    generalize compilerFor env l h = x
    obtain ⟨_ | _, _⟩ := x <;> rfl
  · have answer := compilerFor_answer settles known current
    split
    · exact .pure _ _
    · next c made =>
      refine lift_steady (Session.runCompiler_steady settles (fun handlers own d mem => ?_) _ _ _)
      rw [made, own] at answer
      have primary := Session.primary_of_createCompiler (Prod.ext answer.symm rfl)
      exact calls_of_named known _ (calls_of_primary primary d mem)

theorem compilePrimary_steady (language source : String) (config : Config) :
    Steady (Current env base r right) (compilePrimary env language source config) := by
  cases found : r.resolve language with
  | error e =>
    refine .congr (fun h current => ?_) (.pure _ (.error e))
    rw [compilePrimary, current.registry, found]
  | ok l =>
    obtain ⟨known, name⟩ := LanguageRegistry.named_of_resolve found
    by_cases empty : source.isEmpty = true
    · refine .congr (fun h current => ?_) (.pure _ (.ok .empty))
      rw [compilePrimary, current.registry, found]
      exact if_pos empty
    · refine .congr (fun h current => ?_) (runPrimary_steady settles (name ▸ known) source config)
      rw [compilePrimary, current.registry, found]
      exact if_neg empty

end Host

def LoadCall.Brings (env : Surroundings) (base : String) (c : LoadCall) (handle : EngineHandle) :
    Prop :=
  ∀ attempt, ((⟨resolveUrl base c.reference, attempt, 0, none⟩ : Load).arrive env).1 = .ok handle

variable {env : Surroundings} {base : String}

theorem Session.settles_of_loads {calls : List LoadCall}
    (loads : ∀ c ∈ calls, ∃ handle, c.Brings env base handle)
    (names : ∀ c ∈ calls, ∀ d ∈ calls, c.global ≠ none → c.global = d.global →
      c.reference = d.reference) :
    Session.Settles env base calls (LoadCall.Brings env base) where
  supplies :=
    { arrivals := by
        intro c mem attempt
        obtain ⟨handle, brings⟩ := loads c mem
        exact ⟨handle, brings attempt, brings⟩
      urls := by
        intro c _ d _ same handle brings attempt
        rw [← same]
        exact brings attempt
      names := by
        intro c mem d mem' name named named' handle brings attempt
        have same := names c mem d mem' (by rw [named]; exact Option.some_ne_none name)
          (named.trans named'.symm)
        rw [← same]
        exact brings attempt }
  unique c _ a b first second := Except.ok.inj ((first 0).symm.trans (second 0))

theorem builtin_names : ∀ c ∈ LanguageRegistry.builtin.calls,
    ∀ d ∈ LanguageRegistry.builtin.calls, c.global ≠ none → c.global = d.global →
      c.reference = d.reference := by
  decide +kernel

end Playground
