import Playground.Base64
import Playground.Engine.Basic
import Playground.Engine.Program
import Playground.Text.Blank
import Playground.Text.Bytes

/-! Plots drawn by the program `gnuplot`. -/

namespace Playground.Gnuplot

/-- A folder for one script, and every path in it that was written or read. -/
structure Scratch where
  folder : String
  tree : FileTree
  touched : List String
  deriving DecidableEq, Repr

def isPlain (path : String) : Bool :=
  !path.isEmpty && (Path.components path).all fun
    | .name _ => true
    | _ => false

def scratchPath (folder name : String) : Except EngineError String :=
  if isPlain name then .ok (Path.join folder name)
  else .error (.plain ("invalid file name \"" ++ name ++ "\""))

namespace Scratch

def new (folder : String) : Scratch :=
  match FileTree.empty.makeFolders folder with
  | .ok tree => ⟨folder, tree, []⟩
  | .error _ => ⟨folder, .empty, []⟩

def stage (s : Scratch) (file : InputFile) : Except EngineError Unit × Scratch :=
  match scratchPath s.folder file.name with
  | .error e => (.error e, s)
  | .ok path =>
    let s := { s with touched := s.touched ++ [path] }
    match s.tree.write path (bytesOf file.content) with
    | .ok tree => (.ok (), { s with tree := tree })
    | .error e => (.error (.plain ("failed to stage " ++ file.name ++ ": " ++ e.message)), s)

def stageAll (s : Scratch) : List InputFile → Except EngineError Unit × Scratch
  | [] => (.ok (), s)
  | file :: more =>
    match s.stage file with
    | (.error e, s) => (.error e, s)
    | (.ok (), s) => stageAll s more

def read (s : Scratch) (path : String) : Except FileError (List UInt8) × Scratch :=
  (s.tree.read path, { s with touched := s.touched ++ [path] })

end Scratch

def looksLikeSvg (bytes : List UInt8) : Bool :=
  let start := bytes.dropWhile fun b => isMarkupBlank (Char.ofNat b.toNat)
  (bytesOf "<svg").isPrefixOf start || (bytesOf "<?xml").isPrefixOf start

def dataUri (mime : String) (bytes : List UInt8) : Rendered :=
  .dataUri ("data:" ++ mime ++ ";base64," ++ String.ofList (Base64.encode bytes))

def svg (bytes : List UInt8) : Rendered :=
  match textOf? bytes with
  | some text => .markup text
  | none => dataUri "image/svg+xml" bytes

/-- Images of known extensions are carried as they are, and all else is taken for SVG. -/
def encodeOutput (name : String) (bytes : List UInt8) : Rendered :=
  match (Path.extension? name).map lowerAscii with
  | some "png" => dataUri "image/png" bytes
  | some "jpg" | some "jpeg" => dataUri "image/jpeg" bytes
  | some "gif" => dataUri "image/gif" bytes
  | some "svg" => svg bytes
  | _ => if looksLikeSvg bytes then svg bytes else dataUri "image/svg+xml" bytes

structure Attempt where
  result : Except EngineError Rendered
  started : Bool
  touched : List String

def runScript (gnuplot : Program) (r : RenderRequest) (path : String) (s : Scratch) : Attempt :=
  match gnuplot.run ⟨[], s.folder, r.content⟩ s.tree with
  | .error e => ⟨.error (.plain ("failed to start gnuplot: " ++ e)), true, s.touched⟩
  | .ok p =>
    if p.success then
      match Scratch.read { s with tree := p.tree } path with
      | (.ok bytes, s) => ⟨.ok (encodeOutput r.output bytes), true, s.touched⟩
      | (.error _, s) =>
        ⟨.error (.plain ("output file \"" ++ r.output ++ "\" was not produced")), true, s.touched⟩
    else ⟨.error (.plain (trimBlanks (lossyText p.errors))), true, s.touched⟩

def attempt (gnuplot : Program) (folder : String) (r : RenderRequest) : Attempt :=
  match scratchPath folder r.output with
  | .error e => ⟨.error e, false, []⟩
  | .ok path =>
    match (Scratch.new folder).stageAll r.files with
    | (.error e, s) => ⟨.error e, false, s.touched⟩
    | (.ok (), s) => runScript gnuplot r path s

def scratchFolder : String := "/tmp/scratch"

def engine (gnuplot : Program) : GraphEngine :=
  ⟨"gnuplot", fun r => (attempt gnuplot scratchFolder r).result⟩

def locate (tools : Toolbox) : Except String GraphEngine :=
  match tools.locate "gnuplot" with
  | .ok gnuplot => .ok (engine gnuplot)
  | .error e => .error ("gnuplot executable not found: " ++ e)

end Playground.Gnuplot
