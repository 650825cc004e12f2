import Playground.Pairs
import Playground.Path
import Playground.Text.Bytes

/-! A disk as a value: folders and the bytes of files. -/

namespace Playground

inductive FileError
  | notFound
  | notFolder
  | isFolder
  | nameTooLong
  | nulInName
  | notText
  deriving DecidableEq, Repr

def FileError.message : FileError → String
  | notFound => "No such file or directory (os error 2)"
  | notFolder => "Not a directory (os error 20)"
  | isFolder => "Is a directory (os error 21)"
  | nameTooLong => "File name too long (os error 36)"
  | nulInName => "file name contained an unexpected NUL byte"
  | notText => "stream did not contain valid UTF-8"

/-- A place on the disk: the names from the root down. -/
abbrev Place := List String

structure FileTree where
  folders : List Place
  files : List (Place × List UInt8)
  deriving DecidableEq, Repr

namespace Path

def join (folder path : String) : String :=
  if path.startsWith "/" || folder.isEmpty then path
  else if folder.endsWith "/" then folder ++ path
  else folder ++ "/" ++ path

def namesFolder (path : String) : Bool :=
  match (segments path.toList).getLast? with
  | some last => last == [] || last == ['.'] || last == ['.', '.']
  | none => false

def endsInDot (path : String) : Bool :=
  ((segments path.toList).filter (· != [])).getLast? == some ['.']

end Path

namespace FileTree

def empty : FileTree := ⟨[], []⟩

def isFolder (t : FileTree) (p : Place) : Bool := p.isEmpty || t.folders.contains p

def contents? (t : FileTree) (p : Place) : Option (List UInt8) := t.files.lookup p

/-- How long a name may be, in bytes. -/
def longestName : Nat := 255

def step (p : Place) (c : PathComponent) : Except FileError Place :=
  match c with
  | .root => .ok []
  | .current => .ok p
  | .parent => .ok p.dropLast
  | .name n => if longestName < n.utf8ByteSize then .error .nameTooLong else .ok (p ++ [n])

def locate (t : FileTree) : Place → List PathComponent → Except FileError Place
  | p, [] => .ok p
  | p, [c] => step p c
  | p, c :: more => do
    let next ← step p c
    if t.isFolder next then locate t next more
    else .error (if (t.contents? next).isSome then .notFolder else .notFound)

def resolve (t : FileTree) (path : String) : Except FileError Place :=
  if path.isEmpty then .error .notFound
  else if path.toList.contains '\x00' then .error .nulInName
  else t.locate [] (Path.components path)

def read (t : FileTree) (path : String) : Except FileError (List UInt8) := do
  let p ← t.resolve path
  if t.isFolder p then .error .isFolder
  else
    match t.contents? p with
    | some bytes => if Path.namesFolder path then .error .notFolder else .ok bytes
    | none => .error .notFound

def readText (t : FileTree) (path : String) : Except FileError String := do
  match textOf? (← t.read path) with
  | some text => .ok text
  | none => .error .notText

def put (t : FileTree) (p : Place) (bytes : List UInt8) : FileTree :=
  { t with files := (p, bytes) :: t.files.filter fun f => f.1 != p }

def write (t : FileTree) (path : String) (bytes : List UInt8) : Except FileError FileTree := do
  let p ← t.resolve path
  if t.isFolder p then .error .isFolder
  else if Path.endsInDot path then
    .error (if (t.contents? p).isSome then .notFolder else .notFound)
  else if Path.namesFolder path then .error .isFolder
  else .ok (t.put p bytes)

def writeText (t : FileTree) (path text : String) : Except FileError FileTree :=
  t.write path (bytesOf text)

def addFolders (t : FileTree) : Place → List PathComponent → Except FileError FileTree
  | _, [] => .ok t
  | p, c :: more => do
    let next ← step p c
    if t.isFolder next then addFolders t next more
    else if (t.contents? next).isSome then .error .notFolder
    else addFolders { t with folders := next :: t.folders } next more

def makeFolders (t : FileTree) (path : String) : Except FileError FileTree :=
  t.addFolders [] (Path.components path)

def makeParents (t : FileTree) (path : String) : Except FileError FileTree :=
  t.addFolders [] (Path.components path).dropLast

end FileTree

end Playground
