import Playground.Markdown.Text

/-! Links: labels, destinations, titles, and the definitions that tie them together. -/

namespace Playground.Markdown

/-- Where a link leads, and the title that is shown for it. -/
structure Target where
  url : String
  title : String
  deriving DecidableEq, Repr

def isSpaceOrEnd (c : Char) : Bool := isLineSpace c || isLineEnd c

/-- The rest of a label up to its bracket. Brackets inside have to be escaped. -/
def labelChars : List Char → Option (List Char × List Char)
  | [] => none
  | ']' :: rest => some ([], rest)
  | '[' :: _ => none
  | '\\' :: c :: rest =>
    if c = '[' ∨ c = ']' ∨ c = '\\' then
      (labelChars rest).map fun (inside, after) => ('\\' :: c :: inside, after)
    else (labelChars (c :: rest)).map fun (inside, after) => ('\\' :: inside, after)
  | c :: rest => (labelChars rest).map fun (inside, after) => (c :: inside, after)

def longestLabel : Nat := 999

def readLabel? (cs : List Char) : Option (String × List Char) := do
  let (inside, after) ← labelChars cs
  if inside.all isBlank || longestLabel < inside.length then none
  else return (normalLabel inside, after)

def angledChars : List Char → Option (List Char × List Char)
  | [] => none
  | '>' :: rest => some ([], rest)
  | '\\' :: c :: rest =>
    if isAsciiPunctuation c then
      (angledChars rest).map fun (inside, after) => ('\\' :: c :: inside, after)
    else (angledChars (c :: rest)).map fun (inside, after) => ('\\' :: inside, after)
  | c :: rest =>
    if c == '<' || isLineEnd c then none
    else (angledChars rest).map fun (inside, after) => (c :: inside, after)

def deepestParenthesis : Nat := 32

def bareChars (depth : Nat) : List Char → Option (List Char × List Char)
  | [] => if depth = 0 then some ([], []) else none
  | '\\' :: c :: rest =>
    if isAsciiPunctuation c then
      (bareChars depth rest).map fun (inside, after) => ('\\' :: c :: inside, after)
    else (bareChars depth (c :: rest)).map fun (inside, after) => ('\\' :: inside, after)
  | '(' :: rest =>
    if deepestParenthesis ≤ depth then none
    else (bareChars (depth + 1) rest).map fun (inside, after) => ('(' :: inside, after)
  | ')' :: rest =>
    if depth = 0 then some ([], ')' :: rest)
    else (bareChars (depth - 1) rest).map fun (inside, after) => (')' :: inside, after)
  | c :: rest =>
    if c == ' ' || c.toNat < 0x20 || c.toNat == 0x7f then
      if depth = 0 then some ([], c :: rest) else none
    else (bareChars depth rest).map fun (inside, after) => (c :: inside, after)

def readDestination? (cs : List Char) : Option (String × List Char) :=
  match cs with
  | '<' :: rest => (angledChars rest).map fun (inside, after) => (plainText inside, after)
  | cs => (bareChars 0 cs).map fun (inside, after) => (plainText inside, after)

def titleChars (close : Char) (reopens : Bool) : List Char → Option (List Char × List Char)
  | [] => none
  | '\\' :: c :: rest =>
    if isAsciiPunctuation c then
      (titleChars close reopens rest).map fun (inside, after) => ('\\' :: c :: inside, after)
    else (titleChars close reopens (c :: rest)).map fun (inside, after) => ('\\' :: inside, after)
  | c :: rest =>
    if c = close then some ([], rest)
    else if reopens && c == '(' then none
    else (titleChars close reopens rest).map fun (inside, after) => (c :: inside, after)

def readTitle? : List Char → Option (String × List Char)
  | '"' :: rest => (titleChars '"' false rest).map fun (inside, after) => (plainText inside, after)
  | '\'' :: rest => (titleChars '\'' false rest).map fun (inside, after) => (plainText inside, after)
  | '(' :: rest => (titleChars ')' true rest).map fun (inside, after) => (plainText inside, after)
  | _ => none

def closeTarget? (target : Target) (cs : List Char) : Option (Target × List Char) :=
  match cs.dropWhile isSpaceOrEnd with
  | ')' :: rest => some (target, rest)
  | _ => none

def readTarget? (cs : List Char) : Option (Target × List Char) := do
  let (url, rest) ← match cs.dropWhile isSpaceOrEnd with
    | ')' :: _ => some ("", cs)
    | start => readDestination? start
  let spaced := rest.dropWhile isSpaceOrEnd
  if spaced.length < rest.length then
    match readTitle? spaced with
    | some (title, rest) => closeTarget? ⟨url, title⟩ rest
    | none => closeTarget? ⟨url, ""⟩ rest
  else closeTarget? ⟨url, ""⟩ rest

def endOfLine? (cs : List Char) : Option (List Char) :=
  match cs.dropWhile isLineSpace with
  | [] => some []
  | '\n' :: rest => some rest
  | _ => none

def skipSpacing (cs : List Char) : List Char :=
  match cs.dropWhile isLineSpace with
  | '\n' :: rest => rest.dropWhile isLineSpace
  | rest => rest

/-- A definition that takes whole lines: a label, a colon, a destination, and maybe a title. A title
that does not end its line is none, and belongs to the text if it begins a line. -/
def readDefinition? (cs : List Char) : Option ((String × Target) × List Char) := do
  let (label, rest) ← match cs with
    | '[' :: rest => readLabel? rest
    | _ => none
  let rest ← match rest with
    | ':' :: rest => some (skipSpacing rest)
    | _ => none
  if rest.isEmpty || rest.head?.any isLineEnd then none
  let (url, rest) ← readDestination? rest
  let untitled := (endOfLine? rest).map fun after => ((label, ⟨url, ""⟩), after)
  let spaced := skipSpacing rest
  if spaced.length < rest.length then
    let titled := do
      let (title, rest) ← readTitle? spaced
      return ((label, ⟨url, title⟩), ← endOfLine? rest)
    titled <|> untitled
  else untitled

/-- The definitions a paragraph begins with, and the text after them. `fuel` bounds them. -/
def readDefinitions : Nat → List Char → List (String × Target) × List Char
  | 0, cs => ([], cs)
  | fuel + 1, cs =>
    match readDefinition? cs with
    | some (definition, rest) =>
      let (more, rest) := readDefinitions fuel rest
      (definition :: more, rest)
    | none => ([], cs)

end Playground.Markdown
