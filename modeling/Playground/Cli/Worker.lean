import Playground.Cli.Run
import Playground.Worker.Service

namespace Playground.Cli

/-- A worker with the configuration that the first argument names, and what is around it. -/
def startWorker (place : Installation) (args : List String) (files : FileTree) :
    Except ExitCode (Surroundings × CompileWorker) :=
  match loadConfig files args.head? with
  | .error _ => .error .failure
  | .ok config =>
    match CompileWorker.new? (newHost config) config.cache with
    | none => .error .crash
    | some worker => .ok (surroundings place config, worker)

/-- How the program ends once it has come to the end of its input, or to a line it cannot read. -/
def endOfInput (whole : Bool) : ExitCode := if whole then .success else .failure

def runWorkerOn (place : Installation) (args : List String) (files : FileTree)
    (input : List UInt8) : ExitCode × List WorkerOutput :=
  match startWorker place args files with
  | .error exit => (exit, [])
  | .ok (env, worker) =>
    let (outputs, whole) := worker.serve env (cutLines input)
    (endOfInput whole, outputs)

def runWorker (place : Installation) (args : List String) (files : FileTree) (input : String) :
    ExitCode × List WorkerOutput :=
  runWorkerOn place args files (bytesOf input)

end Playground.Cli
