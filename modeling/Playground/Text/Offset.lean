/-! Texts as lists of characters, addressed by UTF-8 byte offsets. -/

namespace Playground

/-- A range of byte offsets, its end excluded. -/
structure Span where
  start : Nat
  stop : Nat
  deriving DecidableEq, Repr

namespace Text

def size : List Char → Nat
  | [] => 0
  | c :: cs => c.utf8Size + size cs

@[simp] theorem size_nil : size [] = 0 := rfl

@[simp] theorem size_cons (c : Char) (cs : List Char) : size (c :: cs) = c.utf8Size + size cs := rfl

@[simp] theorem size_append (a b : List Char) : size (a ++ b) = size a + size b := by
  induction a with
  | nil => simp
  | cons c cs ih => simp [ih, Nat.add_assoc]

/-- The first `n` bytes and the rest, unless the cut would split a character or leave the text. -/
def splitBytes? : Nat → List Char → Option (List Char × List Char)
  | 0, cs => some ([], cs)
  | _ + 1, [] => none
  | n + 1, c :: cs =>
    if c.utf8Size ≤ n + 1 then
      (splitBytes? (n + 1 - c.utf8Size) cs).map fun (before, after) => (c :: before, after)
    else none

theorem splitBytes?_append (a b : List Char) : splitBytes? (size a) (a ++ b) = some (a, b) := by
  induction a with
  | nil => cases b <;> simp [splitBytes?]
  | cons c cs ih =>
    have positive : 0 < c.utf8Size := Char.utf8Size_pos c
    obtain ⟨n, hn⟩ : ∃ n, c.utf8Size + size cs = n + 1 := ⟨c.utf8Size + size cs - 1, by omega⟩
    have rest : n + 1 - c.utf8Size = size cs := by omega
    simp only [size_cons, List.cons_append, hn, splitBytes?, rest, ih, Option.map_some]
    rw [if_pos (by omega)]

theorem append_of_splitBytes? {n : Nat} {cs a b : List Char}
    (split : splitBytes? n cs = some (a, b)) : a ++ b = cs ∧ size a = n := by
  induction cs generalizing n a with
  | nil =>
    cases n with
    | zero => simp [splitBytes?] at split; simp [split]
    | succ n => simp [splitBytes?] at split
  | cons c cs ih =>
    cases n with
    | zero => simp [splitBytes?] at split; simp [split]
    | succ n =>
      simp only [splitBytes?] at split
      split at split
      · obtain ⟨⟨x, y⟩, rest, same⟩ := Option.map_eq_some_iff.1 split
        simp only [Prod.mk.injEq] at same
        obtain ⟨rfl, rfl⟩ := same
        obtain ⟨whole, sized⟩ := ih rest
        simp [whole, sized]
        omega
      · simp at split

def slice? (cs : List Char) (start stop : Nat) : Option (List Char) :=
  if start ≤ stop then do
    let (_, rest) ← splitBytes? start cs
    let (inside, _) ← splitBytes? (stop - start) rest
    return inside
  else none

def sliceFrom? (cs : List Char) (start : Nat) : Option (List Char) :=
  (splitBytes? start cs).map Prod.snd

def splitThrough (stop : Char) : List Char → List Char × List Char
  | [] => ([], [])
  | c :: cs =>
    if c = stop then ([c], cs)
    else let (before, after) := splitThrough stop cs; (c :: before, after)

theorem splitThrough_append (stop : Char) (cs : List Char) :
    (splitThrough stop cs).1 ++ (splitThrough stop cs).2 = cs := by
  induction cs with
  | nil => rfl
  | cons c cs ih => by_cases h : c = stop <;> simp [splitThrough, h, ih]

def splitAt? (stop : Char) : List Char → Option (List Char × List Char)
  | [] => none
  | c :: cs =>
    if c = stop then some ([], cs)
    else (splitAt? stop cs).map fun (before, after) => (c :: before, after)

theorem append_of_splitAt? {stop : Char} {cs a b : List Char}
    (split : splitAt? stop cs = some (a, b)) : a ++ stop :: b = cs := by
  induction cs generalizing a with
  | nil => simp [splitAt?] at split
  | cons c cs ih =>
    simp only [splitAt?] at split
    split at split
    · next same => simp at split; simp [split, same]
    · obtain ⟨⟨x, y⟩, rest, same⟩ := Option.map_eq_some_iff.1 split
      simp only [Prod.mk.injEq] at same
      obtain ⟨rfl, rfl⟩ := same
      simp [ih rest]

end Text

end Playground
