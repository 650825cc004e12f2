import Playground.Markdown.NamedCharacter
import Playground.Text.Blank

/-! Characters of marked-up text: their classes, escapes and references. -/

namespace Playground.Markdown

def isLineSpace (c : Char) : Bool := c == ' ' || c == '\t'

def isLineEnd (c : Char) : Bool := c == '\n' || c == '\r'

def isAsciiPunctuation (c : Char) : Bool :=
  ('!' ≤ c && c ≤ '/') || (':' ≤ c && c ≤ '@') || ('[' ≤ c && c ≤ Char.ofNat 0x60) ||
    ('{' ≤ c && c ≤ '~')

def punctuationRanges : List (Nat × Nat) :=
  [(0xa1, 0xa9), (0xab, 0xac), (0xae, 0xb1), (0xb4, 0xb4), (0xb6, 0xb8), (0xbb, 0xbb),
    (0xbf, 0xbf), (0xd7, 0xd7), (0xf7, 0xf7), (0x2010, 0x2027), (0x2030, 0x205e),
    (0x20a0, 0x20c0), (0x2190, 0x23ff), (0x2500, 0x27bf), (0x3001, 0x3003), (0x3008, 0x3020),
    (0xff01, 0xff0f), (0xff1a, 0xff20), (0xff3b, 0xff40), (0xff5b, 0xff65)]

def isPunctuation (c : Char) : Bool :=
  if c.toNat < 0x80 then isAsciiPunctuation c
  else punctuationRanges.any fun (first, last) => first ≤ c.toNat && c.toNat ≤ last

/-- The character with a number; zero and what is no character become a replacement character. -/
def numberedCharacter (n : Nat) : Char :=
  if n ≠ 0 ∧ n.isValidChar then Char.ofNat n else '\ufffd'

def referenceNumber? (base longest : Nat) (isDigit : Char → Bool) (cs : List Char) :
    Option (Char × List Char) :=
  let digits := cs.takeWhile isDigit
  match cs.drop digits.length with
  | ';' :: rest =>
    if digits.isEmpty || longest < digits.length then none
    else some (numberedCharacter (digits.foldl (fun n d => n * base + hexValue d) 0), rest)
  | _ => none

def isNameChar (c : Char) : Bool := isAsciiLetter c || isAsciiDigit c

def reference? : List Char → Option (Char × List Char)
  | '#' :: 'x' :: rest | '#' :: 'X' :: rest => referenceNumber? 16 6 isHexDigit rest
  | '#' :: rest => referenceNumber? 10 7 isAsciiDigit rest
  | cs =>
    let name := cs.takeWhile isNameChar
    match cs.drop name.length with
    | ';' :: rest => (namedCharacter? (String.ofList name)).map fun c => (c, rest)
    | _ => none

/-- Text with its escapes and references replaced by what they stand for; `fuel` bounds it. -/
def plainChars : Nat → List Char → List Char
  | 0, _ => []
  | _, [] => []
  | fuel + 1, '\\' :: c :: rest =>
    if isAsciiPunctuation c then c :: plainChars fuel rest else '\\' :: plainChars fuel (c :: rest)
  | fuel + 1, '&' :: rest =>
    match reference? rest with
    | some (c, rest) => c :: plainChars fuel rest
    | none => '&' :: plainChars fuel rest
  | fuel + 1, c :: rest => c :: plainChars fuel rest

def plainText (cs : List Char) : String := String.ofList (plainChars cs.length cs)

/-- Words with single spaces between them, in lower case: labels are compared in this form. -/
def normalLabel (cs : List Char) : String :=
  let spaced := cs.map fun c => if isBlank c then ' ' else c
  let words := ((String.ofList spaced).splitOn " ").filter (· != "")
  lowerAscii (" ".intercalate words)

end Playground.Markdown
