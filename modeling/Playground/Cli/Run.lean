import Playground.Cli.Help
import Playground.Compile.Json
import Playground.Config.File
import Playground.Engine.Builtin
import Playground.Worker.Channel

/-! Commands, as functions from arguments and a disk to what is printed and the disk afterwards. -/

namespace Playground.Cli

/-- What a command finds around it: outside programs, and a network. -/
structure Installation where
  tools : Toolbox
  fetch : Fetcher

inductive ExitCode
  | success
  | failure
  | misuse
  | crash
  deriving DecidableEq, Repr

def ExitCode.number : ExitCode → Nat
  | success => 0
  | failure => 1
  | misuse => 2
  | crash => 101

structure Outcome where
  exit : ExitCode
  output : String
  warnings : List String
  files : FileTree
  deriving DecidableEq, Repr

namespace Outcome

def failed (exit : ExitCode) (files : FileTree) : Outcome := ⟨exit, "", [], files⟩

def printed (output : String) (files : FileTree) : Outcome := ⟨.success, output, [], files⟩

end Outcome

def loadConfig (files : FileTree) (path : Option String) : Except ConfigError Config :=
  match path with
  | some path => Config.load files path
  | none => .ok .standard

def surroundings (place : Installation) (config : Config) : Surroundings :=
  ⟨builtinSource config place.tools, place.fetch⟩

def newHost (config : Config) : Host := .new .builtin config.vendorsBaseUrl

def compileWith {ω : Type} (env : Surroundings) (worker : Option (IsolatedWorker ω))
    (r : CompileRequest) (fallback : Option Fallback) (state : Host × ω) :
    Except CompileError Recovered :=
  match fallback with
  | none => (Host.compile env worker r state).1.map fun output => ⟨output, none⟩
  | some fallback => .ok (Host.compileOrRecover env worker r fallback state).1

def compileRequest? (env : Surroundings) (useWorker : Bool) (fallback : Option Fallback)
    (r : CompileRequest) : Option (Except CompileError Recovered) :=
  let host := newHost r.config
  if useWorker then do
    let worker ← CompileWorker.new? (newHost r.config) r.config.cache
    return compileWith env (some (WorkerChannel.isolated env)) r fallback
      (host, WorkerChannel.new worker)
  else some (compileWith env (none : Option (IsolatedWorker Unit)) r fallback (host, ()))

def warningsOf (r : Recovered) : List String :=
  (r.error.map CompileError.message).toList ++ r.output.blockErrors.map BlockError.message

/-- Prints what was compiled, or writes it to a file, whose folders are made if need be. -/
def deliver (c : CompileCommand) (r : Recovered) (files : FileTree) : Outcome :=
  let rendered := if c.json then r.output.toJson.pretty else r.output.code
  match c.output with
  | none => ⟨.success, rendered ++ "\n", warningsOf r, files⟩
  | some path =>
    match (files.makeParents path).bind fun files => files.writeText path rendered with
    | .ok written => ⟨.success, "", warningsOf r, written⟩
    | .error _ => ⟨.failure, "", warningsOf r, files⟩

def languageOf (c : CompileCommand) : Except CompileError String :=
  match c.language with
  | some name => .ok name
  | none => (LanguageRegistry.builtin.resolvePath c.file).map LanguageSpec.name

def compileFile (place : Installation) (config : Config) (c : CompileCommand) (files : FileTree) :
    Outcome :=
  match files.readText c.file, languageOf c with
  | .ok source, .ok language =>
    let useWorker := config.useWorker && !c.noWorker
    match compileRequest? (surroundings place config) useWorker c.fallback
        ⟨language, source, config⟩ with
    | none => .failed .crash files
    | some (.error _) => .failed .failure files
    | some (.ok r) => deliver c r files
  | _, _ => .failed .failure files

def runCommand (place : Installation) (line : CommandLine) (files : FileTree) : Outcome :=
  match loadConfig files line.config with
  | .error _ => .failed .failure files
  | .ok config =>
    match line.command with
    | .compile c => compileFile place config c files
    | .languages => .printed (languageTable .builtin) files

def run (place : Installation) (args : List String) (files : FileTree) : Outcome :=
  match readArguments args with
  | .ok line => runCommand place line files
  | .error (.showHelp scope) => .printed (helpText scope) files
  | .error (.showVersion scope) => .printed (versionText scope) files
  | .error .misuse => .failed .misuse files

end Playground.Cli
