import Mathlib.Algebra.Group.Nat.Defs
import Playground.Worker.Basic

/-! Keys by content tell contents apart. -/

namespace Playground

namespace ContentKey

theorem length_littleEndian (n value : Nat) : (littleEndian n value).length = n := by
  induction n generalizing value with
  | zero => rfl
  | succ n ih => rw [littleEndian, List.length_cons, ih]

theorem littleEndian_injective {n a b : Nat} (small : a < 256 ^ n) (small' : b < 256 ^ n)
    (same : littleEndian n a = littleEndian n b) : a = b := by
  induction n generalizing a b with
  | zero => omega
  | succ n ih =>
    rw [littleEndian, littleEndian, List.cons.injEq] at same
    obtain ⟨low, high⟩ := same
    have digit : a % 256 = b % 256 := by
      have values := congrArg UInt8.toNat low
      simpa using values
    have rest : a / 256 = b / 256 := by
      refine ih ?_ ?_ high
      · rw [Nat.pow_succ, Nat.mul_comm] at small
        exact Nat.div_lt_of_lt_mul small
      · rw [Nat.pow_succ, Nat.mul_comm] at small'
        exact Nat.div_lt_of_lt_mul small'
    omega

def Measured (parts : List (List UInt8)) : Prop := ∀ part ∈ parts, part.length < 2 ^ 64

instance (parts : List (List UInt8)) : Decidable (Measured parts) :=
  inferInstanceAs (Decidable (∀ part ∈ parts, part.length < 2 ^ 64))

theorem stream_cons (part : List UInt8) (parts : List (List UInt8)) :
    stream (part :: parts) = littleEndian 8 part.length ++ (part ++ stream parts) := by
  rw [stream, List.flatMap_cons, List.append_assoc, ← stream]

theorem stream_cons_ne_nil (part : List UInt8) (parts : List (List UInt8)) :
    stream (part :: parts) ≠ [] := by
  intro empty
  have length := congrArg List.length empty
  rw [stream_cons, List.length_append, length_littleEndian, List.length_nil] at length
  omega

theorem stream_injective {parts parts' : List (List UInt8)} (measured : Measured parts)
    (measured' : Measured parts') (same : stream parts = stream parts') : parts = parts' := by
  induction parts generalizing parts' with
  | nil =>
    cases parts' with
    | nil => rfl
    | cons part' parts' => exact absurd same.symm (stream_cons_ne_nil part' parts')
  | cons part parts ih =>
    cases parts' with
    | nil => exact absurd same (stream_cons_ne_nil part parts)
    | cons part' parts' =>
      rw [Measured, List.forall_mem_cons] at measured measured'
      rw [stream_cons, stream_cons] at same
      -- the lengths stand in the same eight bytes of both streams, so both parts end at one place
      have widths : (littleEndian 8 part.length).length = (littleEndian 8 part'.length).length := by
        rw [length_littleEndian, length_littleEndian]
      obtain ⟨lengths, bodies⟩ := List.append_inj same widths
      have length : part.length = part'.length :=
        littleEndian_injective measured.1 measured'.1 lengths
      obtain ⟨rfl, later⟩ := List.append_inj bodies length
      rw [ih measured.2 measured'.2 later]

theorem hexDigit_injective : ∀ n < 16, ∀ m < 16, hexDigit n = hexDigit m → n = m := by decide

theorem hex_injective {bytes bytes' : List UInt8} (same : hex bytes = hex bytes') :
    bytes = bytes' := by
  have digits := String.ofList_inj.1 same
  clear same
  induction bytes generalizing bytes' with
  | nil =>
    cases bytes' with
    | nil => rfl
    | cons b' bytes' => cases digits
  | cons b bytes ih =>
    cases bytes' with
    | nil => cases digits
    | cons b' bytes' =>
      simp only [List.flatMap_cons, List.cons_append, List.nil_append, List.cons.injEq] at digits
      obtain ⟨high, low, later⟩ := digits
      have small := b.toNat_lt
      have small' := b'.toNat_lt
      have quotient := hexDigit_injective _ (by omega) _ (by omega) high
      have remainder := hexDigit_injective _ (by omega) _ (by omega) low
      have byte : b = b' := UInt8.toNat_inj.1 (by omega)
      rw [byte, ih later]

theorem bytesOf_injective {s t : String} (same : bytesOf s = bytesOf t) : s = t := by
  have read := textOf?_bytesOf s
  rw [same, textOf?_bytesOf] at read
  exact (Option.some.inj read).symm

end ContentKey

/-- Different bytes with one hash. -/
def Blake3.Collide (bytes bytes' : List UInt8) : Prop := bytes ≠ bytes' ∧ hash bytes = hash bytes'

namespace ContentKey

theorem ofTexts_eq_iff {texts texts' : List String} (measured : Measured (texts.map bytesOf))
    (measured' : Measured (texts'.map bytesOf)) :
    ofTexts texts = ofTexts texts' ↔
      texts = texts' ∨
        Blake3.Collide (stream (texts.map bytesOf)) (stream (texts'.map bytesOf)) := by
  constructor
  · intro keys
    by_cases streams : stream (texts.map bytesOf) = stream (texts'.map bytesOf)
    · have parts := stream_injective measured measured' streams
      exact .inl ((List.map_inj_right fun _ _ => bytesOf_injective).1 parts)
    · exact .inr ⟨streams, hex_injective keys⟩
  · rintro (rfl | ⟨-, hashes⟩)
    · rfl
    · rw [ofTexts, ofTexts, hashes]

end ContentKey

open ContentKey

def keyParts (language source : String) (config : Config) : List (List UInt8) :=
  [language, source, (config.settingsFor language).compact].map bytesOf

/-- What is hashed for a key tells the parts apart, whatever their number, their lengths and their
bytes. So two primary passes have one key only if their languages, their sources and the texts of their
settings are the same, unless the hash collides on the very streams they are hashed from. -/
theorem cacheKey_separates :
    (∀ parts parts' : List (List UInt8), Measured parts → Measured parts' →
      (stream parts = stream parts' ↔ parts = parts')) ∧
    ∀ (language source : String) (config : Config) (language' source' : String) (config' : Config),
      Measured (keyParts language source config) → Measured (keyParts language' source' config') →
        (cacheKey language source config = cacheKey language' source' config' ↔
          (language = language' ∧ source = source' ∧
            (config.settingsFor language).compact = (config'.settingsFor language').compact) ∨
          Blake3.Collide (stream (keyParts language source config))
            (stream (keyParts language' source' config'))) := by
  constructor
  · intro parts parts' measured measured'
    exact ⟨stream_injective measured measured', congrArg stream⟩
  · intro language source config language' source' config' measured measured'
    refine (ofTexts_eq_iff measured measured').trans (or_congr_left ?_)
    simp only [List.cons.injEq, and_true]

theorem lookalikes_separated :
    stream [[1, 0, 0, 0, 0, 0, 0, 0], [7]] ≠
        stream [[1, 0, 0, 0, 0, 0, 0, 0, 1, 0, 0, 0, 0, 0, 0, 0, 7]] ∧
      cacheKey "ab" "c" .standard ≠ cacheKey "a" "bc" .standard := by
  obtain ⟨streams, keys⟩ := cacheKey_separates
  refine ⟨fun same => ?_, fun same => ?_⟩
  · have parts := (streams _ _ (by decide) (by decide)).1 same
    exact absurd parts (by decide)
  · have apart : Blake3.hash (stream (keyParts "ab" "c" .standard)) ≠
        Blake3.hash (stream (keyParts "a" "bc" .standard)) := by
      decide +kernel
    rcases (keys _ _ _ _ _ _ (by decide +kernel) (by decide +kernel)).1 same with texts | collide
    · exact absurd texts.1 (by decide)
    · exact apart collide.2

end Playground
