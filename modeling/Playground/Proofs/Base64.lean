import Playground.Base64

/-! Base64, read and written: bytes have one spelling. -/

namespace Playground.Base64

theorem value?_digit : ∀ n < 64, value? (digit n) = some n := by decide

theorem digit_ne_padding : ∀ n < 64, digit n ≠ '=' := by decide

theorem byte_toNat {a : UInt8} {n : Nat} (same : n = a.toNat) : byte n = a := by
  rw [byte, same, UInt8.ofNat_toNat]

theorem decode?_group {x y z w : Nat} (hx : x < 64) (hy : y < 64) (hz : z < 64) (hw : w < 64)
    (rest : List Char) :
    decode? (digit x :: digit y :: digit z :: digit w :: rest) = (decode? rest).map fun more =>
      byte (x * 4 + y / 16) :: byte (y % 16 * 16 + z / 4) :: byte (z % 4 * 64 + w) :: more := by
  cases rest with
  | nil =>
    simp [decode?, decodeLast, value?_digit _ hx, value?_digit _ hy, value?_digit _ hz,
      value?_digit _ hw, digit_ne_padding _ hz, digit_ne_padding _ hw]
  | cons c rest =>
    rw [decode?]
    · simp only [value?_digit _ hx, value?_digit _ hy, value?_digit _ hz, value?_digit _ hw]
      cases decode? (c :: rest) <;> rfl
    · exact nofun

theorem decode?_encode (bytes : List UInt8) : decode? (encode bytes) = some bytes := by
  fun_induction encode bytes with
  | case1 => rfl
  | case2 a n =>
    have small := a.toNat_lt
    have high : n / 4 < 64 := by omega
    have low : n % 4 * 16 < 64 := by omega
    have first : byte (n / 4 * 4 + n % 4 * 16 / 16) = a := byte_toNat (by omega)
    simp only [decode?, decodeLast, value?_digit _ high, value?_digit _ low, Option.bind_eq_bind,
      Option.bind_some, Nat.mul_mod_left, and_self, if_true, first]
  | case3 a b n =>
    have small := a.toNat_lt
    have small' := b.toNat_lt
    have high : n / 1024 < 64 := by omega
    have middle : n / 16 % 64 < 64 := by omega
    have low : n % 16 * 4 < 64 := by omega
    have first : byte (n / 1024 * 4 + n / 16 % 64 / 16) = a := byte_toNat (by omega)
    have second : byte (n / 16 % 64 % 16 * 16 + n % 16 * 4 / 4) = b := byte_toNat (by omega)
    simp only [decode?, decodeLast, value?_digit _ high, value?_digit _ middle, value?_digit _ low,
      digit_ne_padding _ low, Option.bind_eq_bind, Option.bind_some, Nat.mul_mod_left, false_and,
      if_true, if_false, first, second]
  | case4 a b c rest n ih =>
    have small := a.toNat_lt
    have small' := b.toNat_lt
    have small'' := c.toNat_lt
    have first : byte (n / 262144 * 4 + n / 4096 % 64 / 16) = a := byte_toNat (by omega)
    have second : byte (n / 4096 % 64 % 16 * 16 + n / 64 % 64 / 4) = b := byte_toNat (by omega)
    have third : byte (n / 64 % 64 % 4 * 64 + n % 64) = c := byte_toNat (by omega)
    rw [decode?_group (by omega) (by omega) (by omega) (by omega), ih, Option.map_some, first,
      second, third]

theorem digit_of_value? {c : Char} {n : Nat} (found : value? c = some n) : n < 64 ∧ digit n = c := by
  have ascii : c.toNat < 128 := by
    unfold value? at found
    split at found
    · next upper => exact Nat.lt_of_le_of_lt upper.2 (by decide)
    split at found
    · next lower => exact Nat.lt_of_le_of_lt lower.2 (by decide)
    split at found
    · next decimal => exact Nat.lt_of_le_of_lt decimal.2 (by decide)
    split at found
    · next plus => rw [plus]; decide
    split at found
    · next slash => rw [slash]; decide
    · cases found
  have letters : ∀ k < 128, ∀ n ∈ value? (Char.ofNat k), n < 64 ∧ digit n = Char.ofNat k := by decide
  have known := letters c.toNat ascii n
  rw [Char.ofNat_toNat] at known
  exact known found

theorem toNat_byte {n : Nat} (small : n < 256) : (byte n).toNat = n :=
  UInt8.toNat_ofNat_of_lt' small

theorem encode_group {x y z w : Nat} (hx : x < 64) (hy : y < 64) (hz : z < 64) (hw : w < 64)
    (more : List UInt8) :
    encode (byte (x * 4 + y / 16) :: byte (y % 16 * 16 + z / 4) :: byte (z % 4 * 64 + w) :: more) =
      digit x :: digit y :: digit z :: digit w :: encode more := by
  have sum : ((x * 4 + y / 16) * 256 + (y % 16 * 16 + z / 4)) * 256 + (z % 4 * 64 + w) =
      ((x * 64 + y) * 64 + z) * 64 + w := by omega
  have first : (((x * 64 + y) * 64 + z) * 64 + w) / 262144 = x := by omega
  have second : (((x * 64 + y) * 64 + z) * 64 + w) / 4096 % 64 = y := by omega
  have third : (((x * 64 + y) * 64 + z) * 64 + w) / 64 % 64 = z := by omega
  have fourth : (((x * 64 + y) * 64 + z) * 64 + w) % 64 = w := by omega
  rw [encode, toNat_byte (by omega), toNat_byte (by omega), toNat_byte (by omega), sum, first,
    second, third, fourth]

theorem encode_decodeLast {a b c d : Char} {bytes : List UInt8}
    (read : decodeLast a b c d = some bytes) : encode bytes = [a, b, c, d] := by
  obtain ⟨x, first, after⟩ := Option.bind_eq_some_iff.1 read
  obtain ⟨y, second, tail⟩ := Option.bind_eq_some_iff.1 after
  obtain ⟨hx, a_⟩ := digit_of_value? first
  obtain ⟨hy, b_⟩ := digit_of_value? second
  split at tail
  · next ends =>
    obtain ⟨rfl, rfl⟩ := ends
    obtain ⟨spare, same⟩ := Option.ite_none_right_eq_some.1 tail
    cases same
    have high : (x * 4 + y / 16) / 4 = x := by omega
    have low : (x * 4 + y / 16) % 4 * 16 = y := by omega
    rw [encode, toNat_byte (by omega), high, low, a_, b_]
  · obtain ⟨z, third, last⟩ := Option.bind_eq_some_iff.1 tail
    obtain ⟨hz, c_⟩ := digit_of_value? third
    split at last
    · next ends =>
      subst ends
      obtain ⟨spare, same⟩ := Option.ite_none_right_eq_some.1 last
      cases same
      have high : ((x * 4 + y / 16) * 256 + (y % 16 * 16 + z / 4)) / 1024 = x := by omega
      have middle : ((x * 4 + y / 16) * 256 + (y % 16 * 16 + z / 4)) / 16 % 64 = y := by omega
      have low : ((x * 4 + y / 16) * 256 + (y % 16 * 16 + z / 4)) % 16 * 4 = z := by omega
      rw [encode, toNat_byte (by omega), toNat_byte (by omega), high, middle, low, a_, b_, c_]
    · obtain ⟨w, fourth, all⟩ := Option.bind_eq_some_iff.1 last
      obtain ⟨hw, d_⟩ := digit_of_value? fourth
      cases all
      rw [encode_group hx hy hz hw, a_, b_, c_, d_, encode]

theorem encode_decode? {cs : List Char} {bytes : List UInt8} (read : decode? cs = some bytes) :
    encode bytes = cs := by
  fun_induction decode? cs generalizing bytes with
  | case1 =>
    cases read
    rfl
  | case2 a b c d => exact encode_decodeLast read
  | case3 a b c d rest _ ih =>
    obtain ⟨x, first, read⟩ := Option.bind_eq_some_iff.1 read
    obtain ⟨y, second, read⟩ := Option.bind_eq_some_iff.1 read
    obtain ⟨z, third, read⟩ := Option.bind_eq_some_iff.1 read
    obtain ⟨w, fourth, read⟩ := Option.bind_eq_some_iff.1 read
    obtain ⟨more, later, read⟩ := Option.bind_eq_some_iff.1 read
    cases read
    obtain ⟨hx, a_⟩ := digit_of_value? first
    obtain ⟨hy, b_⟩ := digit_of_value? second
    obtain ⟨hz, c_⟩ := digit_of_value? third
    obtain ⟨hw, d_⟩ := digit_of_value? fourth
    rw [encode_group hx hy hz hw, ih later, a_, b_, c_, d_]
  | case4 => cases read

theorem decode?_eq_some_iff {cs : List Char} {bytes : List UInt8} :
    decode? cs = some bytes ↔ cs = encode bytes :=
  ⟨fun read => (encode_decode? read).symm, fun same => same ▸ decode?_encode bytes⟩

def isLetter (c : Char) : Bool := (value? c).isSome || c == '='

theorem isLetter_digit {n : Nat} (small : n < 64) : isLetter (digit n) = true := by
  rw [isLetter, value?_digit n small]
  rfl

theorem letters_encode (bytes : List UInt8) : ∀ c ∈ encode bytes, isLetter c = true := by
  have padding : isLetter '=' = true := by decide
  fun_induction encode bytes with
  | case1 => nofun
  | case2 a n =>
    have small := a.toNat_lt
    have high := isLetter_digit (n := n / 4) (by omega)
    have low := isLetter_digit (n := n % 4 * 16) (by omega)
    simp [high, low, padding]
  | case3 a b n =>
    have small := a.toNat_lt
    have small' := b.toNat_lt
    have high := isLetter_digit (n := n / 1024) (by omega)
    have middle := isLetter_digit (n := n / 16 % 64) (by omega)
    have low := isLetter_digit (n := n % 16 * 4) (by omega)
    simp [high, middle, low, padding]
  | case4 a b c rest n ih =>
    have small := a.toNat_lt
    have small' := b.toNat_lt
    have small'' := c.toNat_lt
    simp only [List.forall_mem_cons]
    exact ⟨isLetter_digit (by omega), isLetter_digit (by omega), isLetter_digit (by omega),
      isLetter_digit (by omega), ih⟩

theorem letters_of_decode? {cs : List Char} {bytes : List UInt8} (read : decode? cs = some bytes) :
    ∀ c ∈ cs, isLetter c = true :=
  encode_decode? read ▸ letters_encode bytes

end Playground.Base64
