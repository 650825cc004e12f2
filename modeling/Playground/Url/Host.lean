import Playground.Url.Encode
import Playground.Url.Punycode

/-! Hosts: domain names, IPv4 and IPv6 addresses, and the opaque hosts of other schemes. -/

namespace Playground.Url

def splitOn (stop : Char → Bool) : List Char → List (List Char)
  | [] => [[]]
  | c :: rest =>
    match splitOn stop rest with
    | [] => [[c]]
    | first :: others => if stop c then [] :: first :: others else (c :: first) :: others

def digitsIn (base : Nat) (cs : List Char) : Option Nat :=
  if cs.all fun c => isHexDigit c && hexValue c < base then
    some (cs.foldl (fun n c => n * base + hexValue c) 0)
  else none

def ipv4Part (cs : List Char) : Option Nat :=
  match cs with
  | [] => none
  | '0' :: 'x' :: rest | '0' :: 'X' :: rest => digitsIn 16 rest
  | '0' :: d :: rest => digitsIn 8 (d :: rest)
  | _ => digitsIn 10 cs

def nameParts (cs : List Char) : List (List Char) :=
  let parts := splitOn (· == '.') cs
  if parts.length > 1 ∧ parts.getLast? = some [] then parts.dropLast else parts

def endsInNumber (cs : List Char) : Bool :=
  match (nameParts cs).getLast? with
  | some last => !last.isEmpty && (last.all isAsciiDigit || (ipv4Part last).isSome)
  | none => false

def ipv4Text (n : Nat) : List Char :=
  let byte (k : Nat) := Nat.toDigits 10 (n / Nat.pow 256 k % 256)
  byte 3 ++ '.' :: byte 2 ++ '.' :: byte 1 ++ '.' :: byte 0

def ipv4? (cs : List Char) : Option Nat := do
  let parts ← (nameParts cs).mapM ipv4Part
  let last ← parts.getLast?
  let bytes := parts.dropLast
  if 4 < parts.length ∨ bytes.any (255 < ·) ∨ Nat.pow 256 (5 - parts.length) ≤ last then none
  else
    let high := bytes.zipIdx.foldl (fun sum (b, i) => sum + b * Nat.pow 256 (3 - i)) 0
    some (high + last)

def piece? (cs : List Char) : Option Nat :=
  if cs.isEmpty ∨ 4 < cs.length then none else digitsIn 16 cs

def plainByte? (cs : List Char) : Option Nat :=
  match cs with
  | [] => none
  | ['0'] => some 0
  | '0' :: _ => none
  | _ => if cs.length ≤ 3 then (digitsIn 10 cs).filter (· < 256) else none

/-- Pieces between colons; the last one may be an IPv4 address, which makes two. -/
def pieces? : List (List Char) → Option (List Nat)
  | [] => some []
  | [last] =>
    if last.contains '.' then
      match (splitOn (· == '.') last).mapM plainByte? with
      | some [a, b, c, d] => some [a * 256 + b, c * 256 + d]
      | _ => none
    else (piece? last).map fun n => [n]
  | part :: more => do return (← piece? part) :: (← pieces? more)

def splitDoubleColon : List Char → Option (List Char × List Char)
  | ':' :: ':' :: rest => some ([], rest)
  | c :: rest => (splitDoubleColon rest).map fun (a, b) => (c :: a, b)
  | [] => none

def piecesOf (cs : List Char) : Option (List Nat) :=
  if cs.isEmpty then some [] else pieces? (splitOn (· == ':') cs)

def ipv6? (cs : List Char) : Option (List Nat) := do
  match splitDoubleColon cs with
  | none =>
    let all ← piecesOf cs
    if all.length = 8 then some all else none
  | some (before, after) =>
    let left ← piecesOf before
    let right ← piecesOf after
    if before.contains '.' ∨ 7 < left.length + right.length then none
    else some (left ++ List.replicate (8 - left.length - right.length) 0 ++ right)

def longestZeros (pieces : List Nat) : Nat × Nat :=
  let runs := (List.range pieces.length).map fun i =>
    (i, ((pieces.drop i).takeWhile (· == 0)).length)
  runs.foldl (fun best run => if best.2 < run.2 then run else best) (0, 1)

def joinColon (pieces : List Nat) : List Char :=
  match pieces with
  | [] => []
  | [n] => Nat.toDigits 16 n
  | n :: more => Nat.toDigits 16 n ++ ':' :: joinColon more

def ipv6Text (pieces : List Nat) : List Char :=
  let (start, count) := longestZeros pieces
  if count < 2 then joinColon pieces
  else joinColon (pieces.take start) ++ [':', ':'] ++ joinColon (pieces.drop (start + count))

def isForbiddenInHost (c : Char) : Bool := "\x00\t\n\r #/:<>?@[\\]^|".toList.contains c

def isForbiddenInDomain (c : Char) : Bool :=
  isForbiddenInHost c || c.toNat < 0x20 || c == '%' || c.toNat == 0x7f

def foldCapital (c : Char) : Char :=
  let n := c.toNat
  if (0xc0 ≤ n && n ≤ 0xde && n != 0xd7) || (0x391 ≤ n && n ≤ 0x3a9) || (0x410 ≤ n && n ≤ 0x42f) then
    Char.ofNat (n + 32)
  else if 0x400 ≤ n && n ≤ 0x40f then Char.ofNat (n + 80)
  else c.toLower

def asciiLabel (label : List Char) : List Char :=
  if label.all fun c => c.toNat < 0x80 then label
  else "xn--".toList ++ Punycode.encode label

def isFullStop (c : Char) : Bool := c == '.' || c == '\u3002' || c == '\uff0e' || c == '\uff61'

def joinDots : List (List Char) → List Char
  | [] => []
  | [last] => last
  | label :: more => label ++ '.' :: joinDots more

def asciiDomain (cs : List Char) : List Char :=
  let folded := (cs.map foldCapital).filter (· != '\u00ad')
  joinDots ((splitOn isFullStop folded).map asciiLabel)

def domainHost? (cs : List Char) : Option (List Char) :=
  match cs with
  | '[' :: rest =>
    if rest.getLast? = some ']' then
      (ipv6? rest.dropLast).map fun pieces => '[' :: ipv6Text pieces ++ [']']
    else none
  | _ =>
    let domain := asciiDomain (Lossy.decode (decodeBytes cs))
    if domain.isEmpty || domain.any isForbiddenInDomain then none
    else if endsInNumber domain then (ipv4? domain).map ipv4Text
    else some domain

/-- The host of any other scheme, kept as it is but for its control characters. -/
def opaqueHost? (cs : List Char) : Option (List Char) :=
  match cs with
  | '[' :: rest =>
    if rest.getLast? = some ']' then
      (ipv6? rest.dropLast).map fun pieces => '[' :: ipv6Text pieces ++ [']']
    else none
  | _ => if cs.any isForbiddenInHost then none else some (encodeWith isControl cs)

end Playground.Url
