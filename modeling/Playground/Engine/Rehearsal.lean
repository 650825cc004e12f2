import Playground.Engine.Gnuplot
import Playground.Text.Offset
import Playground.Text.Replace

/-! Small programs in the place of `dot` and `gnuplot`, for trying out how these are driven. -/

namespace Playground.Rehearsal

/-- Puts its arguments and its input into an SVG. `FAIL` makes it fail with the text after it, and
`BYTES` makes it write what is no text. -/
def dot : Program where
  run := fun r tree =>
    let trimmed := (trimBlanks r.input).toList
    match Text.dropLead? "FAIL".toList trimmed with
    | some rest => .ok ⟨false, [], bytesOf (String.ofList rest), tree⟩
    | none =>
      if trimmed = "BYTES".toList then .ok ⟨true, [0xff, 0xfe], [], tree⟩
      else
        let svg := "<svg args=\"" ++ " ".intercalate r.args ++ "\">" ++ r.input ++ "</svg>"
        .ok ⟨true, bytesOf svg, [], tree⟩

/-- The lines of a script; each ends with a line feed, and perhaps a carriage return before it. -/
def lines (cs : List Char) : List (List Char) :=
  (cs.splitBy fun a _ => a != '\n').map fun line =>
    let line := if line.getLast? = some '\n' then line.dropLast else line
    if line.getLast? = some '\r' then line.dropLast else line

def words (line : List Char) : List Char × List Char × List Char :=
  match Text.splitAt? ' ' line with
  | none => (line, [], [])
  | some (first, rest) =>
    match Text.splitAt? ' ' rest with
    | none => (first, rest, [])
    | some (second, third) => (first, second, third)

def unfold (cs : List Char) : String := replaceText (String.ofList cs) "\\n" "\n"

def hexBytes : List Char → List UInt8
  | a :: b :: rest => UInt8.ofNat (hexValue a * 16 + hexValue b) :: hexBytes rest
  | _ => []

inductive Next
  | more (tree : FileTree)
  | failed (errors : List UInt8)

def writeTo (tree : FileTree) (folder : String) (name : List Char) (bytes : List UInt8) : Next :=
  match tree.write (Path.join folder (String.ofList name)) bytes with
  | .ok tree => .more tree
  | .error e => .failed (bytesOf e.message)

def runLine (folder : String) (tree : FileTree) (line : List Char) : Next :=
  let (command, a, b) := words line
  match String.ofList command, Text.dropLead? "fail".toList line with
  | "write", _ => writeTo tree folder a (bytesOf (unfold b))
  | "hex", _ => writeTo tree folder a (hexBytes b)
  | "copy", _ =>
    match tree.read (Path.join folder (String.ofList a)) with
    | .ok bytes => writeTo tree folder b bytes
    | .error e => .failed (bytesOf e.message)
  | "failhex", _ => .failed (hexBytes a)
  | _, some rest => .failed (bytesOf (unfold rest))
  | _, none => .more tree

def runLines (folder : String) : FileTree → List (List Char) → ProgramResult
  | tree, [] => ⟨true, [], [], tree⟩
  | tree, line :: rest =>
    match runLine folder tree line with
    | .more tree => runLines folder tree rest
    | .failed errors => ⟨false, [], errors, tree⟩

def gnuplot : Program where
  run := fun r tree => .ok (runLines r.folder tree (lines r.input.toList))

def toolbox : Toolbox := ⟨[("dot", dot), ("gnuplot", gnuplot)]⟩

end Playground.Rehearsal
