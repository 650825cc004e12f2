import Playground.Json.Basic
import Playground.Text.Blank
import Playground.Toml.Text

/-! JSON objects as TOML documents. -/

namespace Playground.Toml

structure TextTraits where
  longestSingle : Nat
  longestDouble : Nat
  backslash : Bool
  newline : Bool
  /-- Whether control characters other than tabs and line feeds occur. -/
  control : Bool
  deriving DecidableEq, Repr

def longestRun (c : Char) : Nat → List Char → Nat
  | run, [] => run
  | run, d :: rest => if d = c then longestRun c (run + 1) rest else max run (longestRun c 0 rest)

def isHardControl (c : Char) : Bool :=
  c != '\t' && c != '\n' && (c.toNat < 0x20 || c.toNat == 0x7f)

def traitsOf (cs : List Char) : TextTraits where
  longestSingle := longestRun '\'' 0 cs
  longestDouble := longestRun '"' 0 cs
  backslash := cs.contains '\\'
  newline := cs.contains '\n'
  control := cs.any isHardControl

def codeDigits (n : Nat) : List Char :=
  [n / 4096 % 16, n / 256 % 16, n / 16 % 16, n % 16].map fun d => (hexDigit d).toUpper

/-- A character between double quotes. In a long string line feeds stand for themselves. -/
def escapeChar (long : Bool) (c : Char) : List Char :=
  if c = '\x08' then ['\\', 'b']
  else if c = '\t' then ['\\', 't']
  else if c = '\n' then if long then ['\n'] else ['\\', 'n']
  else if c = '\x0c' then ['\\', 'f']
  else if c = '\r' then ['\\', 'r']
  else if c = '\\' then ['\\', '\\']
  else if c.toNat < 0x20 || c.toNat = 0x7f then '\\' :: 'u' :: codeDigits c.toNat
  else [c]

/-- Characters between double quotes; `most` of these may stand next to each other, and `run` of
them have been written. -/
def escapeChars (long : Bool) (most : Nat) : Nat → List Char → List Char
  | _, [] => []
  | run, c :: rest =>
    if c = '"' then
      if run < most then '"' :: escapeChars long most (run + 1) rest
      else '\\' :: '"' :: escapeChars long most 0 rest
    else escapeChar long c ++ escapeChars long most 0 rest

def basic (cs : List Char) : List Char := '"' :: escapeChars false 0 0 cs ++ ['"']

def literal (cs : List Char) : List Char := '\'' :: cs ++ ['\'']

def long (quote : Char) (newline : Bool) (inside : List Char) : List Char :=
  let quotes := [quote, quote, quote]
  quotes ++ (if newline then ['\n'] else []) ++ inside ++ quotes

def longBasic (newline : Bool) (cs : List Char) : List Char :=
  long '"' newline (escapeChars true 2 0 cs)

/-- The first of these forms in which nothing has to be escaped, and else one with escapes: between
double quotes, between single ones, over several lines, literally over several lines. -/
def textChars (s : String) : List Char :=
  let cs := s.toList
  let t := traitsOf cs
  if !t.control && !t.backslash && t.longestDouble = 0 && !t.newline then basic cs
  else if !t.control && t.longestSingle = 0 && !t.newline then literal cs
  else if !t.control && !t.backslash && t.longestDouble ≤ 2 then longBasic t.newline cs
  else if !t.control && t.longestSingle ≤ 2 then long '\'' t.newline cs
  else if t.newline then longBasic true cs
  else basic cs

def keyChars (s : String) : List Char :=
  let cs := s.toList
  let t := traitsOf cs
  let control := t.control || t.newline
  if !cs.isEmpty && cs.all isBareKeyChar then cs
  else if !control && !t.backslash && t.longestDouble = 0 then basic cs
  else if !control && t.longestSingle = 0 then literal cs
  else basic cs

def pathChars (path : List String) : List Char := ['.'].intercalate (path.map keyChars)

def numberChars : Json → List Char
  | .int (.ofNat n) => Nat.toDigits 10 n
  | .int (.negSucc n) => '-' :: Nat.toDigits 10 (n + 1)
  | .float x => (NumberLayout.positional.text x).toList
  | _ => []

def listChars (items : List (List Char)) : List Char :=
  match items with
  | [] => "[]".toList
  | [only] => '[' :: only ++ [']']
  | items => '[' :: items.flatMap (fun item => "\n    ".toList ++ item ++ [',']) ++ ['\n', ']']

def inlineChars (fields : List (List Char × List Char)) : List Char :=
  match fields with
  | [] => "\x7b\x7d".toList
  | fields =>
    let parts := fields.map fun (key, value) => ' ' :: key ++ " = ".toList ++ value
    '{' :: [','].intercalate parts ++ [' ', '}']

mutual

def valueChars? : Json → Option (List Char)
  | .null => none
  | .bool b => some (if b then "true".toList else "false".toList)
  | .str s => some (textChars s)
  | .int n => if n < Nat.pow 2 63 then some (numberChars (.int n)) else none
  | .float x => some (numberChars (.float x))
  | .arr items => (itemChars? items).map listChars
  | .obj fields => (fieldChars? fields).map inlineChars

def itemChars? : List Json → Option (List (List Char))
  | [] => some []
  | j :: rest => do return (← valueChars? j) :: (← itemChars? rest)

def fieldChars? : List (String × Json) → Option (List (List Char × List Char))
  | [] => some []
  | (k, v) :: rest => do return (keyChars k, ← valueChars? v) :: (← fieldChars? rest)

end

def isTable : Json → Bool
  | .obj _ => true
  | _ => false

def hasHeader : Json → Bool
  | .obj _ => true
  | .arr items => !items.isEmpty && items.all isTable
  | _ => false

def bodyChars? (fields : List (String × Json)) : Option (List Char) := do
  let lines ← fields.mapM fun (key, value) =>
    if hasHeader value then some []
    else do return keyChars key ++ " = ".toList ++ (← valueChars? value) ++ ['\n']
  return lines.flatten

def headerChars (path : List String) (item : Bool) (fields : List (String × Json)) : List Char :=
  if path.isEmpty then []
  else if item then "\n[[".toList ++ pathChars path ++ "]]\n".toList
  else if fields.isEmpty || fields.any (fun f => !hasHeader f.2) then
    "\n[".toList ++ pathChars path ++ "]\n".toList
  else []

mutual

def sectionChars? (path : List String) (item : Bool) : Json → Option (List Char)
  | .obj fields => do
    let body ← bodyChars? fields
    let nested ← nestedChars? path fields
    return headerChars path item fields ++ body ++ nested
  | .arr items => sectionItems? path items
  | _ => some []

def sectionItems? (path : List String) : List Json → Option (List Char)
  | [] => some []
  | j :: rest => do return (← sectionChars? path true j) ++ (← sectionItems? path rest)

def nestedChars? (path : List String) : List (String × Json) → Option (List Char)
  | [] => some []
  | (key, value) :: rest => do
    let here ← if hasHeader value then sectionChars? (path ++ [key]) false value else some []
    return here ++ (← nestedChars? path rest)

end

def print? (j : Json) : Option String := do
  let cs ← sectionChars? [] false j
  return String.ofList (match cs with
    | '\n' :: rest => rest
    | cs => cs)

end Playground.Toml
