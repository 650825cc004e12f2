import Playground.Blake3
import Playground.Text.Blank
import Playground.Text.Bytes

/-! Keys by content: a hash over several texts, each told apart from the next by its length. -/

namespace Playground.ContentKey

def littleEndian : Nat → Nat → List UInt8
  | 0, _ => []
  | n + 1, value => UInt8.ofNat (value % 256) :: littleEndian n (value / 256)

def stream (parts : List (List UInt8)) : List UInt8 :=
  parts.flatMap fun part => littleEndian 8 part.length ++ part

def hex (bytes : List UInt8) : String :=
  String.ofList (bytes.flatMap fun b => [hexDigit (b.toNat / 16), hexDigit (b.toNat % 16)])

def ofTexts (parts : List String) : String := hex (Blake3.hash (stream (parts.map bytesOf)))

end Playground.ContentKey
