/-! Punycode: a label of any characters as letters, digits and hyphens. -/

namespace Playground.Url.Punycode

def digitChar (d : Nat) : Char := if d < 26 then Char.ofNat (97 + d) else Char.ofNat (22 + d)

def threshold (k bias : Nat) : Nat :=
  if k ≤ bias then 1 else if bias + 26 ≤ k then 26 else k - bias

def adaptLoop (delta k : Nat) : Nat × Nat :=
  if 455 < delta then adaptLoop (delta / 35) (k + 36) else (delta, k)
termination_by delta
decreasing_by exact Nat.div_lt_self (by omega) (by omega)

def adapt (delta points : Nat) (isFirst : Bool) : Nat :=
  let halved := if isFirst then delta / 700 else delta / 2
  let (rest, k) := adaptLoop (halved + halved / points) 0
  k + 36 * rest / (rest + 38)

def encodeNumber (bias k q : Nat) : List Char :=
  let t := threshold k bias
  if h : q < t ∨ q = 0 then [digitChar q]
  else digitChar (t + (q - t) % (36 - t)) :: encodeNumber bias (k + 36) ((q - t) / (36 - t))
termination_by q
decreasing_by
  have positive : 0 < threshold k bias := by unfold threshold; split <;> (try split) <;> omega
  exact Nat.lt_of_le_of_lt (Nat.div_le_self _ _) (by omega)

structure State where
  out : List Char
  delta : Nat
  bias : Nat
  handled : Nat

def visit (basic point : Nat) (s : State) (c : Char) : State :=
  if c.toNat < point then { s with delta := s.delta + 1 }
  else if c.toNat = point then
    { out := s.out ++ encodeNumber s.bias 36 s.delta
      delta := 0
      bias := adapt s.delta (s.handled + 1) (s.handled == basic)
      handled := s.handled + 1 }
  else s

def insertPoints (label : List Char) (basic : Nat) : List Nat → Nat → State → State
  | [], _, s => s
  | point :: more, n, s =>
    let raised := { s with delta := s.delta + (point - n) * (s.handled + 1) }
    let visited := label.foldl (visit basic point) raised
    insertPoints label basic more (point + 1) { visited with delta := visited.delta + 1 }

def sortedDistinct (points : List Nat) : List Nat :=
  (points.mergeSort (· ≤ ·)).eraseDups

def encode (label : List Char) : List Char :=
  let basic := label.filter fun c => c.toNat < 0x80
  let points := sortedDistinct ((label.filter fun c => 0x80 ≤ c.toNat).map Char.toNat)
  let s := insertPoints label basic.length points 0x80 ⟨[], 0, 72, basic.length⟩
  basic ++ (if basic.isEmpty then [] else ['-']) ++ s.out

end Playground.Url.Punycode
