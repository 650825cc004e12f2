import Playground.Markdown.Text

/-! Lines, and the space at their start. -/

namespace Playground.Markdown

/-- What is left of a line, and the column where that begins. -/
structure Line where
  column : Nat
  rest : List Char
  ended : Bool
  deriving DecidableEq, Repr

def nextStop (column : Nat) : Nat := column + (4 - column % 4)

def textColumn : Nat → List Char → Nat
  | column, ' ' :: rest => textColumn (column + 1) rest
  | column, '\t' :: rest => textColumn (nextStop column) rest
  | column, _ => column

def dropColumns (goal : Nat) : Nat → List Char → Nat × List Char
  | column, ' ' :: rest =>
    if column < goal then dropColumns goal (column + 1) rest else (column, ' ' :: rest)
  | column, '\t' :: rest =>
    if goal ≤ column then (column, '\t' :: rest)
    else if nextStop column ≤ goal then dropColumns goal (nextStop column) rest
    else (goal, List.replicate (nextStop column - goal) ' ' ++ rest)
  | column, rest => (column, rest)

namespace Line

def isBlankLine (l : Line) : Bool := l.rest.all isLineSpace

def indent (l : Line) : Nat := textColumn l.column l.rest - l.column

def dropSpace (count : Nat) (l : Line) : Line :=
  let (column, rest) := dropColumns (l.column + count) l.column l.rest
  { l with column := column, rest := rest }

def text (l : Line) : List Char := l.rest.dropWhile isLineSpace

def dropText (count : Nat) (l : Line) : Line :=
  { l with column := l.column + l.indent + count, rest := l.text.drop count }

def chars (l : Line) : List Char := l.rest ++ if l.ended then ['\n'] else []

end Line

def linesFrom (line : List Char) : List Char → List Line
  | [] => if line.isEmpty then [] else [⟨0, line.reverse, false⟩]
  | '\r' :: '\n' :: rest => ⟨0, line.reverse, true⟩ :: linesFrom [] rest
  | c :: rest =>
    if isLineEnd c then ⟨0, line.reverse, true⟩ :: linesFrom [] rest
    else linesFrom (c :: line) rest

def linesOf (source : String) : List Line := linesFrom [] source.toList

end Playground.Markdown
