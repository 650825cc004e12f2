import Playground.Text.Blank
import Playground.Text.Bytes

/-! Percent encoding, and the characters that each part of a URL encodes. -/

namespace Playground.Url

def upperHexDigit (n : Nat) : Char := if n < 10 then Char.ofNat (48 + n) else Char.ofNat (55 + n)

def encodeByte (b : UInt8) : List Char :=
  ['%', upperHexDigit (b.toNat / 16), upperHexDigit (b.toNat % 16)]

def encodeChar (c : Char) : List Char := (bytesOf (String.singleton c)).flatMap encodeByte

def encodeWith (encoded : Char → Bool) (cs : List Char) : List Char :=
  cs.flatMap fun c => if encoded c then encodeChar c else [c]

def isControl (c : Char) : Bool := c.toNat < 0x20 || 0x7e < c.toNat

def inFragment (c : Char) : Bool := isControl c || " \"<>`".toList.contains c

def inQuery (c : Char) : Bool := isControl c || " \"#<>".toList.contains c

def inSpecialQuery (c : Char) : Bool := inQuery c || c == '\''

def inPath (c : Char) : Bool := inFragment c || "#?\x7b\x7d".toList.contains c

def inUserInfo (c : Char) : Bool := inPath c || "/:;=@[\\]^|".toList.contains c

def decodeBytes : List Char → List UInt8
  | '%' :: a :: b :: rest =>
    if isHexDigit a && isHexDigit b then
      UInt8.ofNat (hexValue a * 16 + hexValue b) :: decodeBytes rest
    else bytesOf "%" ++ decodeBytes (a :: b :: rest)
  | c :: rest => bytesOf (String.singleton c) ++ decodeBytes rest
  | [] => []

end Playground.Url
