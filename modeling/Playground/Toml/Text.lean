import Playground.Text.Blank
import Playground.Text.Replace

/-! TOML text: lines, comments, strings and keys. -/

namespace Playground.Toml

abbrev Reader (α : Type) := List Char → Option (α × List Char)

def isTomlBlank (c : Char) : Bool := c == ' ' || c == '\t'

def skipSpace (cs : List Char) : List Char := cs.dropWhile isTomlBlank

/-- A character that may stand in comments and strings; control characters may not. -/
def isTextChar (c : Char) : Bool := c == '\t' || (0x20 ≤ c.toNat && c.toNat != 0x7f)

def newline? : List Char → Option (List Char)
  | '\n' :: rest => some rest
  | '\r' :: '\n' :: rest => some rest
  | _ => none

def skipComment : List Char → List Char
  | '#' :: rest => rest.dropWhile isTextChar
  | cs => cs

/-- To the next line: nothing but space and a comment may be left on this one. -/
def finishLine? (cs : List Char) : Option (List Char) :=
  match skipComment (skipSpace cs) with
  | [] => some []
  | rest => newline? rest

def scalar? (n : Nat) : Option Char := if n.isValidChar then some (Char.ofNat n) else none

def readCode (count : Nat) : Reader Char := fun cs =>
  let digits := cs.take count
  if digits.length = count ∧ digits.all isHexDigit then do
    let c ← scalar? (digits.foldl (fun n d => n * 16 + hexValue d) 0)
    return (c, cs.drop count)
  else none

def readEscape : Reader Char
  | 'b' :: rest => some ('\x08', rest)
  | 't' :: rest => some ('\t', rest)
  | 'n' :: rest => some ('\n', rest)
  | 'f' :: rest => some ('\x0c', rest)
  | 'r' :: rest => some ('\r', rest)
  | '"' :: rest => some ('"', rest)
  | '\\' :: rest => some ('\\', rest)
  | 'u' :: rest => readCode 4 rest
  | 'U' :: rest => readCode 8 rest
  | _ => none

def readBasic : Nat → Reader (List Char)
  | 0, _ => none
  | fuel + 1, cs =>
    match cs with
    | [] => none
    | '"' :: rest => some ([], rest)
    | '\\' :: rest => do
      let (c, rest) ← readEscape rest
      let (more, rest) ← readBasic fuel rest
      return (c :: more, rest)
    | c :: rest =>
      if isTextChar c then (readBasic fuel rest).map fun (more, rest) => (c :: more, rest) else none

def readLiteral : Reader (List Char)
  | [] => none
  | '\'' :: rest => some ([], rest)
  | c :: rest =>
    if isTextChar c then (readLiteral rest).map fun (more, rest) => (c :: more, rest) else none

/-- At the end of a long string: up to two quotes may stand before the three that close it. -/
def closeLong? (quote : Char) (cs : List Char) : Option (List Char × List Char) :=
  let run := (cs.takeWhile (· == quote)).length
  if run < 3 then none
  else
    let inside := min (run - 3) 2
    some (List.replicate inside quote, cs.drop (inside + 3))

/-- Past a backslash at the end of a line, and all space and line ends after it. -/
def joinLines? (cs : List Char) : Option (List Char) :=
  (newline? (skipSpace cs)).map fun rest => skipEmpty rest.length rest
where
  skipEmpty : Nat → List Char → List Char
    | 0, cs => cs
    | fuel + 1, cs =>
      match newline? (skipSpace cs) with
      | some rest => skipEmpty fuel rest
      | none => skipSpace cs

/-- The rest of a long string between double quotes. `fuel` bounds its characters. -/
def readLongBasic : Nat → Reader (List Char)
  | 0, _ => none
  | fuel + 1, cs =>
    match closeLong? '"' cs, newline? cs, cs with
    | some closed, _, _ => some closed
    | none, some rest, _ =>
      (readLongBasic fuel rest).map fun (more, rest) => ('\n' :: more, rest)
    | none, none, '\\' :: rest =>
      match joinLines? rest with
      | some rest => readLongBasic fuel rest
      | none => do
        let (c, rest) ← readEscape rest
        let (more, rest) ← readLongBasic fuel rest
        return (c :: more, rest)
    | none, none, c :: rest =>
      if isTextChar c then (readLongBasic fuel rest).map fun (more, rest) => (c :: more, rest)
      else none
    | none, none, [] => none

/-- The rest of a long string between single quotes. `fuel` bounds its characters. -/
def readLongLiteral : Nat → Reader (List Char)
  | 0, _ => none
  | fuel + 1, cs =>
    match closeLong? '\'' cs, newline? cs, cs with
    | some closed, _, _ => some closed
    | none, some rest, _ =>
      (readLongLiteral fuel rest).map fun (more, rest) => ('\n' :: more, rest)
    | none, none, c :: rest =>
      if isTextChar c then (readLongLiteral fuel rest).map fun (more, rest) => (c :: more, rest)
      else none
    | none, none, [] => none

/-- A line end right after the quotes that open a long string does not belong to it. -/
def skipFirstNewline (cs : List Char) : List Char := (newline? cs).getD cs

def textOfChars (read : Option (List Char × List Char)) : Option (String × List Char) :=
  read.map fun (cs, rest) => (String.ofList cs, rest)

def readText : Reader String
  | '"' :: '"' :: '"' :: rest =>
    textOfChars (readLongBasic (rest.length + 1) (skipFirstNewline rest))
  | '\'' :: '\'' :: '\'' :: rest =>
    textOfChars (readLongLiteral (rest.length + 1) (skipFirstNewline rest))
  | '"' :: rest => textOfChars (readBasic (rest.length + 1) rest)
  | '\'' :: rest => textOfChars (readLiteral rest)
  | _ => none

def isBareKeyChar (c : Char) : Bool :=
  isAsciiLetter c || isAsciiDigit c || c == '-' || c == '_'

def readKeyPart : Reader String
  | '"' :: rest => textOfChars (readBasic (rest.length + 1) rest)
  | '\'' :: rest => textOfChars (readLiteral rest)
  | cs =>
    let bare := cs.takeWhile isBareKeyChar
    if bare.isEmpty then none else some (String.ofList bare, cs.drop bare.length)

def readKeyMore : Nat → Reader (List String)
  | 0, cs => some ([], cs)
  | fuel + 1, cs =>
    match skipSpace cs with
    | '.' :: rest => do
      let (part, rest) ← readKeyPart (skipSpace rest)
      let (more, rest) ← readKeyMore fuel rest
      return (part :: more, rest)
    | rest => some ([], rest)

/-- How deep keys and values may go. -/
def depthLimit : Nat := 80

/-- A key: the parts before the last one, and the last one. Space after it is taken too. -/
def readKey : Reader (List String × String) := fun cs => do
  let (first, rest) ← readKeyPart cs
  let (more, rest) ← readKeyMore rest.length rest
  let parts := first :: more
  if parts.length < depthLimit then
    return ((parts.dropLast, parts.getLast (by simp [parts])), rest)
  else none

end Playground.Toml
