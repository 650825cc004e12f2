import Playground.Json.Basic
import Playground.Text.Blank

/-! The two written forms of JSON: compact, and indented by two spaces. -/

namespace Playground.Json

def escapeChar (c : Char) : List Char :=
  if c = '"' then ['\\', '"']
  else if c = '\\' then ['\\', '\\']
  else if c = '\n' then ['\\', 'n']
  else if c = '\r' then ['\\', 'r']
  else if c = '\t' then ['\\', 't']
  else if c = '\x08' then ['\\', 'b']
  else if c = '\x0c' then ['\\', 'f']
  else if c.toNat < 0x20 then
    ['\\', 'u', '0', '0', hexDigit (c.toNat / 16), hexDigit (c.toNat % 16)]
  else [c]

def literal (s : String) : List Char := '"' :: s.toList.flatMap escapeChar ++ ['"']

def intText (n : Int) : List Char :=
  match n with
  | .ofNat k => Nat.toDigits 10 k
  | .negSucc k => '-' :: Nat.toDigits 10 (k + 1)

def atomText : Json → List Char
  | null => "null".toList
  | bool true => "true".toList
  | bool false => "false".toList
  | int n => intText n
  | float x => (NumberLayout.json.text x).toList
  | str s => literal s
  | arr _ => []
  | obj _ => []

mutual

def compactChars : Json → List Char
  | arr items => '[' :: compactItems items
  | obj fields => '{' :: compactFields fields
  | atom => atomText atom

def compactItems : List Json → List Char
  | [] => [']']
  | j :: rest => compactChars j ++ compactMoreItems rest

def compactMoreItems : List Json → List Char
  | [] => [']']
  | j :: rest => ',' :: compactChars j ++ compactMoreItems rest

def compactFields : List (String × Json) → List Char
  | [] => ['}']
  | (k, v) :: rest => literal k ++ ':' :: compactChars v ++ compactMoreFields rest

def compactMoreFields : List (String × Json) → List Char
  | [] => ['}']
  | (k, v) :: rest => ',' :: literal k ++ ':' :: compactChars v ++ compactMoreFields rest

end

def compact (j : Json) : String := String.ofList (compactChars j)

def newLine (depth : Nat) : List Char := '\n' :: List.replicate (2 * depth) ' '

mutual

def prettyChars (depth : Nat) : Json → List Char
  | arr [] => ['[', ']']
  | arr (j :: rest) =>
    '[' :: newLine (depth + 1) ++ prettyChars (depth + 1) j ++ prettyItems (depth + 1) rest ++
      newLine depth ++ [']']
  | obj [] => ['{', '}']
  | obj ((k, v) :: rest) =>
    '{' :: newLine (depth + 1) ++ literal k ++ ':' :: ' ' :: prettyChars (depth + 1) v ++
      prettyFields (depth + 1) rest ++ newLine depth ++ ['}']
  | atom => atomText atom

def prettyItems (depth : Nat) : List Json → List Char
  | [] => []
  | j :: rest => ',' :: newLine depth ++ prettyChars depth j ++ prettyItems depth rest

def prettyFields (depth : Nat) : List (String × Json) → List Char
  | [] => []
  | (k, v) :: rest =>
    ',' :: newLine depth ++ literal k ++ ':' :: ' ' :: prettyChars depth v ++
      prettyFields depth rest

end

def pretty (j : Json) : String := String.ofList (prettyChars 0 j)

end Playground.Json
