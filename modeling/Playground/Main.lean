import Playground.Cli.Worker
import Playground.Fetch

/-! The programs: the command line, and the worker when it is started under a name that ends in
`worker`. -/

open Playground

def installation : Cli.Installation := ⟨.empty, fetchOffline⟩

/-- The files that arguments may name, with those after an equals sign or a short switch. -/
def candidates (args : List String) : List String :=
  args ++ args.filterMap (fun arg => (arg.splitOn "=")[1]?)

def gather (names : List String) : IO FileTree :=
  names.foldlM (fun (tree : FileTree) (name : String) => do
    try
      let bytes ← IO.FS.readBinFile name
      match (tree.makeParents name).bind fun tree => tree.write name bytes.data.toList with
      | .ok tree => return tree
      | .error _ => return tree
    catch _ => return tree) .empty

def scatter (before after : FileTree) : IO Bool := do
  let changed := after.files.filter fun (place, bytes) => before.contents? place != some bytes
  for (place, bytes) in changed do
    let path := "/".intercalate place
    try
      IO.FS.createDirAll ("/".intercalate (place.dropLast ++ ["."]))
      IO.FS.writeBinFile path ⟨bytes.toArray⟩
    catch _ => return false
  return true

def runProgram (args : List String) : IO UInt32 := do
  let before ← gather (candidates args)
  let outcome := Cli.run installation args before
  for warning in outcome.warnings do
    IO.eprintln ("⚠ " ++ warning)
  if ← scatter before outcome.files then
    IO.print outcome.output
    return UInt32.ofNat outcome.exit.number
  else return UInt32.ofNat Cli.ExitCode.failure.number

/-- The bytes of a line, its line feed included; none at the end of the input. -/
partial def readLine (input : IO.FS.Stream) (line : List UInt8) : IO (List UInt8) := do
  match (← input.read 1).data.toList with
  | [] => return line.reverse
  | byte :: _ =>
    if byte = lineFeed then return (byte :: line).reverse else readLine input (byte :: line)

/-- Answers line after line until the input ends, and tells whether all of it could be read. -/
partial def serve (env : Surroundings) (worker : CompileWorker) : IO Bool := do
  let line ← readLine (← IO.getStdin) []
  if line.isEmpty then return true
  match lineText? line with
  | none => return false
  | some text =>
    let (reply, worker) := worker.answerLine env text
    match reply with
    | some output => IO.print output.line
    | none => pure ()
    (← IO.getStdout).flush
    serve env worker

def runWorker (args : List String) : IO UInt32 := do
  match Cli.startWorker installation args (← gather args) with
  | .error exit => return UInt32.ofNat exit.number
  | .ok (env, worker) => return UInt32.ofNat (Cli.endOfInput (← serve env worker)).number

def main (args : List String) : IO UInt32 := do
  if (← IO.appPath).toString.endsWith "worker" then runWorker args else runProgram args
