import Playground.Compile.Basic
import Playground.Graph.Pipeline
import Playground.Language.Builtin
import Playground.Language.Mdx

/-! Hosts: the languages, the engines loaded so far, and the last good outputs. -/

namespace Playground

/-- A primary pass with its engine, one for each kind of primary pass. -/
inductive Compiler
  | identity
  | component
  | transform (engine : TransformEngine) (defaults : Json)
  | graph (handlers : List GraphHandler)

namespace Session

def transformEngine (env : Surroundings) (call : LoadCall) (s : Session) :
    Except EngineLoadError TransformEngine × Session :=
  let (result, s) := s.loadCall env call
  (result.bind EngineHandle.transform, s)

/-- One answer of a transform engine; its refusals are told as those of a language. -/
def transform (engine : TransformEngine) (language source : String) (options : Json) (s : Session) :
    Except CompileError String × Session :=
  let result := match engine.transform source options with
    | .ok code => .ok code
    | .error e => .error (.failed language e.message e.location)
  (result, s.record [.transform engine.name source])

def compiledPass (language : String) (result : Except EngineLoadError PassOutput) :
    Except CompileError Compiled :=
  match result with
  | .ok out => .ok ⟨out.text, out.errors⟩
  | .error e => .error (.engineLoad language e)

def createCompiler (env : Surroundings) (l : LanguageSpec) (s : Session) :
    Except CompileError Compiler × Session :=
  match l.primary with
  | .identity => (.ok .identity, s)
  | .component => (.ok .component, s)
  | .graph handlers => (.ok (.graph handlers), s)
  | .transform spec =>
    match s.transformEngine env ⟨spec.url, spec.global⟩ with
    | (.ok engine, s) => (.ok (.transform engine spec.defaults), s)
    | (.error e, s) => (.error (.engineLoad l.name e), s)

def runCompiler (env : Surroundings) (c : Compiler) (language source : String) (config : Config)
    (s : Session) : Except CompileError Compiled × Session :=
  match c with
  | .identity => (.ok (.ofCode source), s)
  | .component => (.ok (.ofCode (mountComponent source)), s)
  | .transform engine defaults =>
    let (result, s) := s.transform engine language source (config.optionsFor language defaults)
    (result.map .ofCode, s)
  | .graph handlers =>
    let (result, s) := GraphPipeline.runIsolated env handlers source s
    (compiledPass language result, s)

def mdxToJsx (env : Surroundings) (language code : String) (config : Config) (s : Session) :
    Except CompileError String × Session :=
  match s.transformEngine env ⟨mdxUrl, none⟩ with
  | (.error e, s) => (.error (.engineLoad "mdx" e), s)
  | (.ok engine, s) =>
    s.transform engine "mdx" code (config.optionsFor language Mdx.defaultOptions)

end Session

structure Host where
  registry : LanguageRegistry
  session : Session
  compilers : List (String × Compiler)
  /-- The latest output of each language whose source was not empty. -/
  lastGood : List (String × CompileOutput)

namespace Host

def new (registry : LanguageRegistry) (base : String) : Host := ⟨registry, .new base, [], []⟩

def withSession (h : Host) (s : Session) : Host := { h with session := s }

def compilerFor (env : Surroundings) (l : LanguageSpec) (h : Host) :
    Except CompileError Compiler × Host :=
  match h.compilers.lookup l.name with
  | some c => (.ok c, h)
  | none =>
    match h.session.createCompiler env l with
    | (.error e, s) => (.error e, h.withSession s)
    | (.ok c, s) => (.ok c, { h with session := s, compilers := upsert l.name c h.compilers })

def runPrimary (env : Surroundings) (l : LanguageSpec) (source : String) (config : Config)
    (h : Host) : Except CompileError Compiled × Host :=
  match h.compilerFor env l with
  | (.error e, h) => (.error e, h)
  | (.ok c, h) =>
    let (result, s) := h.session.runCompiler env c l.name source config
    (result, h.withSession s)

/-- The primary pass alone, for a language by name; an empty source needs none. -/
def compilePrimary (env : Surroundings) (language source : String) (config : Config) (h : Host) :
    Except CompileError Compiled × Host :=
  match h.registry.resolve language with
  | .error e => (.error e, h)
  | .ok l => if source.isEmpty then (.ok .empty, h) else h.runPrimary env l source config

section Worker

variable {ω : Type}

def dispatchPrimary (env : Surroundings) (worker : Option (IsolatedWorker ω)) (l : LanguageSpec)
    (source : String) (config : Config) (state : Host × ω) :
    Except CompileError Compiled × (Host × ω) :=
  let (h, w) := state
  match worker with
  | some worker =>
    let (result, w) := worker.compile l.name source config w
    (result, h, w)
  | none =>
    let (result, h) := h.runPrimary env l source config
    (result, h, w)

def compileNested (env : Surroundings) (worker : Option (IsolatedWorker ω))
    (language source : String) (config : Config) (state : Host × ω) :
    Except CompileError Compiled × (Host × ω) :=
  match state.1.registry.resolve language with
  | .error e => (.error e, state)
  | .ok l =>
    if source.isEmpty then (.ok .empty, state)
    else dispatchPrimary env worker l source config state

def runMdx (env : Surroundings) (worker : Option (IsolatedWorker ω)) (l : LanguageSpec)
    (code : String) (config : Config) (state : Host × ω) :
    Except CompileError Compiled × (Host × ω) :=
  if code.isEmpty then (.ok .empty, state)
  else
    let (h, w) := state
    match h.session.mdxToJsx env l.name code config with
    | (.error e, s) => (.error e, h.withSession s, w)
    | (.ok jsx, s) =>
      let (result, state) :=
        compileNested env worker "jsx" (Mdx.wrap jsx) config (h.withSession s, w)
      (result.map fun c => { c with code := Mdx.moduleScript c.code }, state)

def runSecondary (env : Surroundings) (worker : Option (IsolatedWorker ω)) (pass : SecondaryPass)
    (l : LanguageSpec) (code : String) (config : Config) (state : Host × ω) :
    Except CompileError Compiled × (Host × ω) :=
  match pass with
  | .mdx => runMdx env worker l code config state
  | .nest language => compileNested env worker language code config state
  | .graph handlers =>
    let (h, w) := state
    let (result, s) := GraphPipeline.runMain env handlers code h.session
    (Session.compiledPass l.name result, h.withSession s, w)

def runPasses (env : Surroundings) (worker : Option (IsolatedWorker ω)) (l : LanguageSpec)
    (source : String) (config : Config) (state : Host × ω) :
    Except CompileError Compiled × (Host × ω) :=
  match dispatchPrimary env worker l source config state with
  | (.error e, state) => (.error e, state)
  | (.ok primary, state) =>
    match l.secondary with
    | none => (.ok primary, state)
    | some pass =>
      match runSecondary env worker pass l primary.code config state with
      | (.error e, state) => (.error e, state)
      | (.ok c, state) => (.ok ⟨c.code, primary.warnings ++ c.warnings⟩, state)

def compile (env : Surroundings) (worker : Option (IsolatedWorker ω)) (r : CompileRequest)
    (state : Host × ω) : Except CompileError CompileOutput × (Host × ω) :=
  match state.1.registry.resolve r.language with
  | .error e => (.error e, state)
  | .ok l =>
    if r.source.isEmpty then (.ok (.ofCompiled l .empty), state)
    else
      match runPasses env worker l r.source r.config state with
      | (.error e, state) => (.error e, state)
      | (.ok c, h, w) =>
        let output := CompileOutput.ofCompiled l c
        (.ok output, { h with lastGood := upsert l.name output h.lastGood }, w)

/-- The output of an empty source, also for a language that is not registered. -/
def emptyOutput (h : Host) (language : String) : CompileOutput :=
  match h.registry.named? language with
  | some l => .ofCompiled l .empty
  | none => ⟨"", language, [], [], []⟩

def fallbackOutput (h : Host) (language : String) (fallback : Fallback) (e : CompileError) :
    CompileOutput :=
  let blank := h.emptyOutput language
  match fallback with
  | .empty => blank
  | .lastGood => (h.lastGood.lookup language).getD blank
  | .errorMarker => { blank with code := errorMarker blank.compiledLanguage e }

def compileOrRecover (env : Surroundings) (worker : Option (IsolatedWorker ω))
    (r : CompileRequest) (fallback : Fallback) (state : Host × ω) : Recovered × (Host × ω) :=
  match compile env worker r state with
  | (.ok output, state) => (⟨output, none⟩, state)
  | (.error e, state) => (⟨state.1.fallbackOutput r.language fallback e, some e⟩, state)

end Worker

end Host

end Playground
