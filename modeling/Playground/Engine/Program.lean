import Playground.Files

/-! Outside programs as functions: what they are given, and what they leave behind. -/

namespace Playground

structure ProgramRun where
  args : List String
  folder : String
  input : String
  deriving DecidableEq, Repr

structure ProgramResult where
  success : Bool
  output : List UInt8
  errors : List UInt8
  tree : FileTree
  deriving DecidableEq, Repr

/-- Fails with a message when it cannot be started. -/
structure Program where
  run : ProgramRun → FileTree → Except String ProgramResult

def Program.missing : Program := ⟨fun _ _ => .error FileError.notFound.message⟩

/-- The programs that can be found by name. -/
structure Toolbox where
  programs : List (String × Program)

namespace Toolbox

def empty : Toolbox := ⟨[]⟩

def locate (t : Toolbox) (name : String) : Except String Program :=
  match t.programs.lookup name with
  | some p => .ok p
  | none => .error "cannot find binary path"

end Toolbox

end Playground
