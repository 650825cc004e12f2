import Playground.Text.Bytes
import Playground.Worker.Message

namespace Playground

def WorkerOutput.line (o : WorkerOutput) : String := o.toJson.compact ++ "\n"

def WorkerOutput.lines (outputs : List WorkerOutput) : String := String.join (outputs.map line)

def lineFeed : UInt8 := 10

def cutLines : List UInt8 → List (List UInt8)
  | [] => []
  | b :: rest =>
    if b = lineFeed then [b] :: cutLines rest
    else
      match cutLines rest with
      | [] => [[b]]
      | line :: more => (b :: line) :: more

def withoutBreak (line : List Char) : List Char :=
  match line.reverse with
  | '\n' :: '\r' :: before => before.reverse
  | '\n' :: before => before.reverse
  | _ => line

/-- What a line says, if it is UTF-8. -/
def lineText? (line : List UInt8) : Option String :=
  (textOf? line).map fun text => .ofList (withoutBreak text.toList)

namespace CompileWorker

def answerLine (env : Surroundings) (line : String) (w : CompileWorker) :
    Option WorkerOutput × CompileWorker :=
  if isBlankText line then (none, w)
  else
    match WorkerInput.ofJsonText line with
    | .error _ => (none, w)
    | .ok input =>
      let (output, w) := w.handle env input
      (some output, w)

/-- The replies to some lines, and whether all of them could be read: at one that is not UTF-8 the
worker gives up. -/
def serve (env : Surroundings) : List (List UInt8) → CompileWorker → List WorkerOutput × Bool
  | [], _ => ([], true)
  | line :: rest, w =>
    match lineText? line with
    | none => ([], false)
    | some text =>
      let (output, w) := w.answerLine env text
      let (outputs, whole) := serve env rest w
      (output.toList ++ outputs, whole)

end CompileWorker

end Playground
