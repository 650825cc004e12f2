/-! Texts as UTF-8 bytes and back. -/

namespace Playground

def bytesOf (s : String) : List UInt8 := s.toUTF8.data.toList

/-- The text with these bytes, if they are UTF-8. -/
def textOf? (bytes : List UInt8) : Option String := String.fromUTF8? ⟨bytes.toArray⟩

theorem textOf?_bytesOf (s : String) : textOf? (bytesOf s) = some s := by
  have same : (⟨(bytesOf s).toArray⟩ : ByteArray) = s.toByteArray := by
    simp [bytesOf, String.toUTF8]
  unfold textOf? String.fromUTF8?
  rw [same, dif_pos s.isValidUTF8]
  rfl

theorem textOf?_eq_some_iff {bytes : List UInt8} {s : String} :
    textOf? bytes = some s ↔ bytes = bytesOf s := by
  constructor
  · intro read
    unfold textOf? String.fromUTF8? at read
    split at read
    · cases read
      rfl
    · cases read
  · rintro rfl
    exact textOf?_bytesOf s

namespace Lossy

/-- The values that may follow a first byte, and how many continuation bytes there are. -/
structure Lead where
  low : Nat
  high : Nat
  count : Nat
  deriving DecidableEq, Repr

/-- What a byte above 0x7f may begin: surrogates, overlong forms and values past U+10FFFF are
excluded by the range of the second byte. -/
def lead? (b : Nat) : Option Lead :=
  if 0xc2 ≤ b ∧ b ≤ 0xdf then some ⟨0x80, 0xbf, 1⟩
  else if b = 0xe0 then some ⟨0xa0, 0xbf, 2⟩
  else if b = 0xed then some ⟨0x80, 0x9f, 2⟩
  else if 0xe1 ≤ b ∧ b ≤ 0xef then some ⟨0x80, 0xbf, 2⟩
  else if b = 0xf0 then some ⟨0x90, 0xbf, 3⟩
  else if 0xf1 ≤ b ∧ b ≤ 0xf3 then some ⟨0x80, 0xbf, 3⟩
  else if b = 0xf4 then some ⟨0x80, 0x8f, 3⟩
  else none

def isContinuation (b : UInt8) : Bool := 0x80 ≤ b.toNat && b.toNat ≤ 0xbf

/-- How many bytes after a first byte belong to its sequence, as far as they are well formed. -/
def taken (l : Lead) (rest : List UInt8) : Nat :=
  match rest with
  | [] => 0
  | second :: more =>
    if l.low ≤ second.toNat ∧ second.toNat ≤ l.high then
      1 + ((more.take (l.count - 1)).takeWhile isContinuation).length
    else 0

def value (b : Nat) (continuation : List UInt8) : Nat :=
  let first := match continuation.length with
    | 1 => b - 0xc0
    | 2 => b - 0xe0
    | _ => b - 0xf0
  continuation.foldl (fun n c => n * 64 + (c.toNat - 0x80)) first

def replacement : Char := '\ufffd'

/-- One U+FFFD stands for each longest run of bytes that begins a sequence and does not end it. -/
def decode (bytes : List UInt8) : List Char :=
  match bytes with
  | [] => []
  | b :: rest =>
    if b.toNat < 0x80 then Char.ofNat b.toNat :: decode rest
    else
      match lead? b.toNat with
      | none => replacement :: decode rest
      | some l =>
        let n := taken l rest
        (if n = l.count then Char.ofNat (value b.toNat (rest.take n)) else replacement) ::
          decode (rest.drop n)
termination_by bytes.length
decreasing_by
  · exact Nat.lt_succ_self _
  · exact Nat.lt_succ_self _
  · rw [List.length_drop, List.length_cons]
    omega

end Lossy

def lossyText (bytes : List UInt8) : String := String.ofList (Lossy.decode bytes)

end Playground
